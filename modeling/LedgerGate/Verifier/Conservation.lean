import LedgerGate.Delta
import LedgerGate.Verifier.Context

/-!
# The conservation verifier

Works out the exact delta of an intent from its assignments and the balances of the
snapshot, and approves it when no account ends below zero and the touched accounts hold
the same total before and after.
-/

namespace LedgerGate.Conservation

open Delta (Failure orViolation)

/-- The variable and the literal that a predicate sets equal, in either orientation. -/
def equation? (p : Predicate) : Option (String × String) :=
  if p.op = .eq then
    match p.lhs, p.rhs with
    | .var name, .lit text => some (name, text)
    | .lit text, .var name => some (name, text)
    | _, _ => none
  else none

/-- Adds the value that a predicate gives to a variable. Balances, and variables from
outside, get no value this way. Two different values for one variable leave it open. -/
def bind (i : Intent) (precision : Nat) (bindings : Table Decimal) (p : Predicate) :
    Except Failure (Table Decimal) :=
  match equation? p with
  | none => .ok bindings
  | some (name, text) =>
    if BalanceName.isBalance name || i.isExternal name then .ok bindings
    else
      match orViolation (Decimal.parse text precision) with
      | .error e => .error e
      | .ok value =>
        match bindings.get? name with
        | some previous =>
          -- The later spelling is kept; the scale of a result can depend on it.
          if previous.sameValue value then .ok (bindings.insert name value)
          else
            .error (.indeterminate ("'" ++ name ++ "' bound to both " ++ previous.text ++
              " and " ++ value.text))
        | none => .ok (bindings.insert name value)

/-- Adds the values that predicates give to variables, in order. -/
def bindAll (i : Intent) (precision : Nat) (bindings : Table Decimal) :
    List Predicate → Except Failure (Table Decimal)
  | [] => .ok bindings
  | p :: r =>
    match bind i precision bindings p with
    | .error e => .error e
    | .ok b => bindAll i precision b r

/-- The values that the predicates of an intent give to variables. -/
def bindings (i : Intent) (precision : Nat) : Except Failure (Table Decimal) :=
  bindAll i precision Table.empty i.predicates

/-- The value of a variable: a balance of the snapshot, or a bound value. -/
def valueOf (balances : Balances) (bindings : Table Decimal) (name : String) :
    Except Failure Decimal :=
  match BalanceName.ofVariable? name with
  | some ⟨account, false⟩ => .ok (balances.of account)
  | some ⟨_, true⟩ =>
    .error (.indeterminate ("post-state balance '" ++ name ++ "' used as an input"))
  | none =>
    match bindings.get? name with
    | some v => .ok v
    | none => .error (.indeterminate ("'" ++ name ++ "' has no exact value"))

/-- Two values put together by an operation, the first one's failure coming first. -/
def both (a b : Except Failure Decimal) (f : Decimal → Decimal → Except Fault Decimal) :
    Except Failure Decimal :=
  match a with
  | .error e => .error e
  | .ok x =>
    match b with
    | .error e => .error e
    | .ok y => orViolation (f x y)

/-- The exact value of a term. -/
def evaluate (balances : Balances) (bindings : Table Decimal) (precision : Nat) :
    Expr → Except Failure Decimal
  | .lit text => orViolation (Decimal.parse text precision)
  | .var name => valueOf balances bindings name
  | .neg a =>
    match evaluate balances bindings precision a with
    | .error e => .error e
    | .ok x => orViolation x.neg
  | .add a b =>
    both (evaluate balances bindings precision a) (evaluate balances bindings precision b)
      Decimal.add
  | .sub a b =>
    both (evaluate balances bindings precision a) (evaluate balances bindings precision b)
      Decimal.sub
  | .mul a b =>
    both (evaluate balances bindings precision a) (evaluate balances bindings precision b)
      Decimal.mul

/-- Adds the changes of assignments, in order. No account may be assigned twice. -/
def assignAll (balances : Balances) (bindings : Table Decimal) (precision : Nat)
    (changes : Table Change) : List (String × Expr) → Except Failure (Table Change)
  | [] => .ok changes
  | (account, term) :: r =>
    match evaluate balances bindings precision term with
    | .error e => .error e
    | .ok after =>
      if changes.contains account then
        .error (.violation ("account '" ++ account ++ "' is assigned more than once"))
      else
        assignAll balances bindings precision
          (changes.insert account ⟨balances.of account, after⟩) r

/-- The exact delta of an intent. -/
def derive (i : Intent) (balances : Balances) (precision : Nat) : Except Failure Delta :=
  match bindings i precision with
  | .error e => .error e
  | .ok b =>
    match assignAll balances b precision Table.empty i.assignments with
    | .error e => .error e
    | .ok changes => .ok ⟨changes⟩

/-- The verdict that a failure stands for. -/
def ofFailure : Failure → Verdict
  | .violation r => .reject .conservation 1 r
  | .indeterminate r => .uncertain .conservation r

/-- The verdict on a delta. -/
def ofDelta (d : Delta) : Verdict :=
  if d.isEmpty then .approve .conservation 1 "no balance-affecting terms"
  else
    match d.conserves with
    | .ok () =>
      .approve .conservation 1 (toString d.changes.size ++ " account(s) balanced exactly")
    | .error e => ofFailure e

/-- The work of the verifier. -/
def work (c : Context) : Except Fault Verdict :=
  match c.ensureLive .start with
  | .error f => .error f
  | .ok () =>
    match derive c.intent c.balances c.precision with
    | .error e => .ok (ofFailure e)
    | .ok d =>
      match c.ensureLive Moment.start.next with
      | .error f => .error f
      | .ok () => .ok (ofDelta d)

/-- The verdict of the verifier. -/
def verify (c : Context) : Verdict := .bounded .conservation c (work c)

end LedgerGate.Conservation
