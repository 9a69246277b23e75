/-!
# Hexadecimal text of bytes

Bytes are written as two lower-case digits each; reading takes digits of either
case. `decode?_encode` says that what was written is read back.
-/

namespace LedgerGate.Text.Hex

/-- The digit of a value below sixteen. -/
def digit (n : Nat) : Char :=
  if n < 10 then Char.ofNat (48 + n) else Char.ofNat (87 + n)

/-- The value of a digit of either case. -/
def digitValue? (c : Char) : Option Nat :=
  if '0' ≤ c ∧ c ≤ '9' then some (c.toNat - 48)
  else if 'a' ≤ c ∧ c ≤ 'f' then some (c.toNat - 87)
  else if 'A' ≤ c ∧ c ≤ 'F' then some (c.toNat - 55)
  else none

/-- Two digits for each byte. -/
def encode : List UInt8 → List Char
  | [] => []
  | b :: r => digit (b.toNat / 16) :: digit (b.toNat % 16) :: encode r

/-- The bytes of a text of digit pairs. -/
def decode? : List Char → Option (List UInt8)
  | [] => some []
  | a :: b :: r =>
    match digitValue? a, digitValue? b, decode? r with
    | some x, some y, some bytes => some (UInt8.ofNat (16 * x + y) :: bytes)
    | _, _, _ => none
  | [_] => none

/-- A number of sixteen bits or fewer, in four digits. -/
def fourDigits (n : Nat) : List Char :=
  [digit (n / 4096 % 16), digit (n / 256 % 16), digit (n / 16 % 16), digit (n % 16)]

/-- The digits of a number, without leading zeros. -/
def ofNat (n : Nat) : List Char := Nat.toDigits 16 n

theorem digitValue?_digit {n : Nat} (h : n < 16) : digitValue? (digit n) = some n := by
  have : n = 0 ∨ n = 1 ∨ n = 2 ∨ n = 3 ∨ n = 4 ∨ n = 5 ∨ n = 6 ∨ n = 7 ∨ n = 8 ∨ n = 9
      ∨ n = 10 ∨ n = 11 ∨ n = 12 ∨ n = 13 ∨ n = 14 ∨ n = 15 := by omega
  rcases this with h | h | h | h | h | h | h | h | h | h | h | h | h | h | h | h <;>
    subst h <;> decide

theorem decode?_encode (bytes : List UInt8) : decode? (encode bytes) = some bytes := by
  induction bytes with
  | nil => rfl
  | cons b r ih =>
    have hb := b.toNat_lt
    simp only [encode, decode?, ih, digitValue?_digit (show b.toNat / 16 < 16 by omega),
      digitValue?_digit (show b.toNat % 16 < 16 by omega)]
    have : 16 * (b.toNat / 16) + b.toNat % 16 = b.toNat := by omega
    simp [this]

end LedgerGate.Text.Hex
