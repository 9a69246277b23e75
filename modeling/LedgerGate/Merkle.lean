import LedgerGate.Decimal.Json
import LedgerGate.Sha256

/-!
# Merkle commitment

The balances are committed to by a tree of digests. A leaf is the digest of an account
and its balance, an inner node that of two nodes, and a node without a partner is paired
with the zero digest. Everything is stated for an arbitrary digest function `H`; the
ledger uses `Sha256.digest`.
-/

namespace LedgerGate.Merkle

/-- A digest, as bytes. -/
abbrev Hash := List UInt8

/-- The digest of thirty-two zero bytes, which stands for a missing node. -/
def zero : Hash := List.replicate 32 0

section

variable (H : List UInt8 → Hash)

/-- What is digested for a leaf: the length of the account's name keeps it apart from
the balance. -/
def leafMessage (account : String) (balance : Decimal) : List UInt8 :=
  0 :: Sha256.bigEndian 8 (Text.Utf8.encode account).length ++ Text.Utf8.encode account ++
    Text.Utf8.encode balance.normalize.text

/-- The leaf of an account. -/
def leaf (account : String) (balance : Decimal) : Hash := H (leafMessage account balance)

/-- The node above two nodes. -/
def node (left right : Hash) : Hash := H (1 :: left ++ right)

/-- The leaves of balances, in order of account. -/
def leaves (b : Balances) : List Hash := b.entries.map (fun p => leaf H p.1 p.2)

/-- The nodes above a level. -/
def nextLevel : List Hash → List Hash
  | [] => []
  -- Where no message has the zero digest, no account can stand in its place.
  | [single] => [node H single zero]
  | left :: right :: r => node H left right :: nextLevel r

theorem length_nextLevel (level : List Hash) :
    (nextLevel H level).length = (level.length + 1) / 2 := by
  fun_induction nextLevel H level with
  | case1 => rfl
  | case2 => simp
  | case3 left right r ih => simp only [List.length_cons, ih]; omega

/-- The root above a level. -/
def rootOf : List Hash → Hash
  | [] => zero
  | [root] => root
  | a :: b :: r => rootOf (nextLevel H (a :: b :: r))
  termination_by level => level.length
  decreasing_by
    rw [length_nextLevel]
    simp only [List.length_cons]
    omega

/-- The root of balances. -/
def root (b : Balances) : Hash := rootOf H (leaves H b)

/-- The root of balances in hexadecimal digits. -/
def rootText (b : Balances) : String := String.ofList (Text.Hex.encode (root H b))

end

/-- One sibling on the way from a leaf to the root. -/
structure Step where
  sibling : String
  siblingOnLeft : Bool
deriving DecidableEq, Repr

/-- The proof that an account has a balance. -/
structure Proof where
  account : String
  balance : Decimal
  path : List Step
deriving DecidableEq, Repr

section

variable (H : List UInt8 → Hash)

/-- The step beside a position of a level. -/
def stepAt (level : List Hash) (index : Nat) : Step :=
  if index % 2 = 0 then
    ⟨String.ofList (Text.Hex.encode (level.getD (index + 1) zero)), false⟩
  else ⟨String.ofList (Text.Hex.encode (level.getD (index - 1) zero)), true⟩

/-- The steps from a position of a level to the root. -/
def pathFrom (level : List Hash) (index : Nat) : List Step :=
  match level with
  | [] => []
  | [_] => []
  | a :: b :: r =>
    stepAt (a :: b :: r) index :: pathFrom (nextLevel H (a :: b :: r)) (index / 2)
  termination_by level.length
  decreasing_by
    rw [length_nextLevel]
    simp only [List.length_cons]
    omega

/-- The proof for an account, if it has a leaf. -/
def Proof.build? (b : Balances) (account : String) : Option Proof :=
  match b.keys.findIdx? (· = account), b.get? account with
  | some index, some balance => some ⟨account, balance, pathFrom H (leaves H b) index⟩
  | _, _ => none

/-- The digest that a text of sixty-four digits stands for. -/
def hashOfText? (s : String) : Option Hash :=
  match Text.Hex.decode? s.toList with
  | some h => if h.length = 32 then some h else none
  | none => none

/-- The node that steps lead to from a node. -/
def climb (current : Hash) : List Step → Option Hash
  | [] => some current
  | s :: r =>
    match hashOfText? s.sibling with
    | none => none
    | some sibling =>
      climb (if s.siblingOnLeft then node H sibling current else node H current sibling) r

/-- Whether a proof leads to a root, given in hexadecimal digits. -/
def Proof.verifies (p : Proof) (rootText : String) : Bool :=
  match climb H (leaf H p.account p.balance) p.path with
  | some h => String.ofList (Text.Hex.encode h) = rootText
  | none => false

end

/-- The data form of a proof. -/
def Proof.toJson (p : Proof) : Json :=
  .object [("account", .string p.account), ("balance", p.balance.toJson),
    ("path", Json.ofList (fun s => .object [("sibling", .string s.sibling),
      ("sibling_on_left", .bool s.siblingOnLeft)]) p.path)]

/-- The step of a data value. -/
def stepOfJson? (v : Json) : Option Step :=
  match v.parts? ["sibling", "sibling_on_left"] with
  | some [some s, some l] =>
    match s.string?, l.bool? with
    | some sibling, some left => some ⟨sibling, left⟩
    | _, _ => none
  | _ => none

/-- The proof of a data value. -/
def Proof.ofJson? (v : Json) : Option Proof :=
  match v.parts? ["account", "balance", "path"] with
  | some [some a, some b, some p] =>
    match a.string?, Decimal.ofJson? b, p.list? stepOfJson? with
    | some account, some balance, some path => some ⟨account, balance, path⟩
    | _, _, _ => none
  | _ => none

end LedgerGate.Merkle
