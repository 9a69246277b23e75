import LedgerGate.Decimal.Text
import LedgerGate.Json.Basic

/-!
# Decimals and balances as data

A decimal is written as a string and read with the largest precision. Balances are
a table of decimals; an account that is not in it holds zero.
-/

namespace LedgerGate

/-- The data form of a decimal. -/
def Decimal.toJson (d : Decimal) : Json := .string d.text

/-- The decimal of a data value. -/
def Decimal.ofJson? (v : Json) : Option Decimal :=
  match v with
  | .string s => (Decimal.read s.toList Decimal.maxPrecision).toOption
  | _ => none

/-- What every account holds. -/
abbrev Balances := Table Decimal

namespace Balances

/-- The balance of an account, zero when it is not in the table. -/
def of (b : Balances) (account : String) : Decimal := (b.get? account).getD 0

/-- The data form of balances. -/
def toJson (b : Balances) : Json := Json.ofTable Decimal.toJson b

/-- The balances of a data value. -/
def ofJson? (v : Json) : Option Balances := v.table? Decimal.ofJson?

end Balances
end LedgerGate
