import FilterLang.Clause.Basic
import FilterLang.Json.Basic
import FilterLang.Scalar

/-!
Records, and the clauses that hold of them.
-/
namespace FilterLang

/-- A record gives the scalar value of a field; a field that is missing or no scalar has none. -/
def Record := Text → Option Scalar

def Json.toScalar? : Json → Option Scalar
  | .string s => some (.text s)
  | .number n => some (.number n.toBinary64)
  | .bool b => some (.bool b)
  | _ => none

/-- A JSON object as a record. Any other value has no fields. -/
def Json.toRecord (v : Json) : Record := fun name => (v.field? name).bind Json.toScalar?

/-- The value of an operand beside a record. A number that does not read as one is a text. -/
def Operand.value? (r : Record) : Operand → Option Scalar
  | text s => some (.text s)
  | number s => some (match Binary64.read? s with | some x => .number x | none => .text s)
  | field name => r name

/-- Whether a clause holds of a record. Both of its sides must have a value. -/
def Clause.holds (c : Clause) (r : Record) : Bool :=
  match r c.field, c.operand.value? r with
  | some left, some right => c.operator.accepts (left.compare right)
  | _, _ => false

end FilterLang
