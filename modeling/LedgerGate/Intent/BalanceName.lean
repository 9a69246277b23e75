/-!
# Names of balances

Among the variables of an intent, `alice.balance` is the balance of the account
`alice` before the transition and `alice.balance'` the balance after it.
-/

namespace LedgerGate

/-- A variable that names a balance. -/
structure BalanceName where
  account : String
  /-- Whether it is the balance after the transition. -/
  after : Bool
deriving DecidableEq, Repr

namespace BalanceName

/-- The characters of an account's name inside a variable. -/
def isAccountChar (c : Char) : Bool := c.isAlphanum || c == '_' || c == ':' || c == '-'

/-- What follows the account before the transition. -/
def beforeSuffix : List Char := ".balance".toList

/-- What follows the account after the transition. -/
def afterSuffix : List Char := ".balance'".toList

/-- The balance that characters name. -/
def ofChars? (cs : List Char) : Option BalanceName :=
  let account := cs.takeWhile isAccountChar
  let rest := cs.dropWhile isAccountChar
  if account.isEmpty then none
  else if rest = beforeSuffix then some ⟨String.ofList account, false⟩
  else if rest = afterSuffix then some ⟨String.ofList account, true⟩
  else none

/-- The balance that a variable names, if it names one. -/
def ofVariable? (name : String) : Option BalanceName := ofChars? name.toList

/-- Whether a variable names a balance. -/
def isBalance (name : String) : Bool := (ofVariable? name).isSome

/-- Whether a variable names a balance after the transition. -/
def isAfter (name : String) : Bool :=
  match ofVariable? name with
  | some b => b.after
  | none => false

/-- The account whose balance after the transition a variable names. -/
def afterAccount? (name : String) : Option String :=
  match ofVariable? name with
  | some ⟨account, true⟩ => some account
  | _ => none

/-- The account whose balance before the transition a variable names. -/
def beforeAccount? (name : String) : Option String :=
  match ofVariable? name with
  | some ⟨account, false⟩ => some account
  | _ => none

/-- The variable for an account's balance before the transition. -/
def before (account : String) : String := account ++ ".balance"

/-- The variable for an account's balance after the transition. -/
def afterwards (account : String) : String := account ++ ".balance'"

end BalanceName
end LedgerGate
