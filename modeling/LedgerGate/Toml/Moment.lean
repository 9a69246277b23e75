/-!
# Dates and times of settings texts

A moment is a date, a time of day, or both with `T` or a blank between them; with both,
the distance from universal time may follow. No setting is a moment, so only the form
is checked.
-/

namespace LedgerGate.Toml

/-- The number that two digits spell, if it lies within bounds. -/
def twoDigits? (least most : Nat) (a b : Char) : Option Nat :=
  let n := Nat.ofDigitChars 10 [a, b] 0
  if a.isDigit && b.isDigit && least ≤ n && n ≤ most then some n else none

/-- Whether two digits spell a number within bounds. -/
def isTwoDigits (least most : Nat) (a b : Char) : Bool := (twoDigits? least most a b).isSome

/-- Whether a year has a day more than others. -/
def isLeapYear (year : Nat) : Bool := year % 4 == 0 && (year % 100 != 0 || year % 400 == 0)

/-- The number of days of a month. -/
def daysIn (year month : Nat) : Nat :=
  if month = 2 then if isLeapYear year then 29 else 28
  else if month ∈ [4, 6, 9, 11] then 30
  else 31

/-- Whether a text is a date, as `2024-02-29`. -/
def isDate : List Char → Bool
  | [a, b, c, d, '-', e, f, '-', g, h] =>
    [a, b, c, d].all Char.isDigit &&
      match twoDigits? 1 12 e f with
      | some month => isTwoDigits 1 (daysIn (Nat.ofDigitChars 10 [a, b, c, d] 0) month) g h
      | none => false
  | _ => false

/-- The text after a time of day, as `07:32:00` or `23:59:60.25`. -/
def afterTime? : List Char → Option (List Char)
  | a :: b :: ':' :: c :: d :: ':' :: e :: f :: r =>
    if isTwoDigits 0 23 a b && isTwoDigits 0 59 c d && isTwoDigits 0 60 e f then
      match r with
      | '.' :: r' =>
        if (r'.takeWhile Char.isDigit).isEmpty then none else some (r'.dropWhile Char.isDigit)
      | r => some r
    else none
  | _ => none

/-- Whether a text is a time of day. -/
def isTime (cs : List Char) : Bool := afterTime? cs = some []

/-- Whether a text is the distance from universal time, or nothing. -/
def isOffset : List Char → Bool
  | [] | ['Z'] | ['z'] => true
  | [sign, a, b, ':', c, d] =>
    (sign == '+' || sign == '-') && isTwoDigits 0 23 a b && isTwoDigits 0 59 c d
  | _ => false

/-- Whether a text is a time of day that may follow a date. -/
def isTimeOfDate (cs : List Char) : Bool := ((afterTime? cs).map isOffset).getD false

/-- Whether a text without blanks is a moment. -/
def isMoment (cs : List Char) : Bool :=
  isDate cs || isTime cs ||
    (isDate (cs.take 10) &&
      match cs.drop 10 with
      | 'T' :: r => isTimeOfDate r
      | 't' :: r => isTimeOfDate r
      | _ => false)

end LedgerGate.Toml
