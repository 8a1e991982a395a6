import FilterLang.Error
import FilterLang.Number.Decimal
import FilterLang.Text.Lexeme

/-!
Clauses: a field, an operator and an operand, which is a literal or another field.
-/
namespace FilterLang

/-- The right side of a clause: a text without its quotes, a number as written, or the name of
another field. -/
inductive Operand where
  | text (content : Text)
  | number (spelling : Text)
  | field (name : Text)
  deriving DecidableEq, Repr

namespace Operand

def raw : Operand → Text
  | text s | number s | field s => s

def asField : Operand → Option Text
  | field name => some name
  | _ => none

def asLiteral : Operand → Option Text
  | text s | number s => some s
  | field _ => none

def asNumber : Operand → Option Binary64
  | number s => Binary64.read? s
  | _ => none

def display : Operand → Text
  | text s => Text.quote s
  | number s | field s => s

end Operand

structure Clause where
  field : Text
  operator : Operator
  operand : Operand
  deriving DecidableEq, Repr

namespace Clause

def displayParts (field : Text) (operator : Operator) (operand : Operand) : Text :=
  field ++ ' ' :: operator.keyword ++ ' ' :: operand.display

def display (c : Clause) : Text := displayParts c.field c.operator c.operand

def ofParts (field : Text) (operator : Operator) (operand : Operand) : Except FilterError Clause :=
  if (Text.trim field).isEmpty then .error (.emptyField (displayParts field operator operand))
  else .ok ⟨field, operator, operand⟩

def mentions (c : Clause) (needle : Text) : Bool :=
  Text.contains needle c.field || c.operand.asField.any (Text.contains needle)

end Clause
end FilterLang
