import FilterLang.Clause.Basic
import FilterLang.Clause.Suggestion

/-!
Reading a clause. The first word that is an operator keyword divides it; one token must stand on
either side.
-/
namespace FilterLang

namespace Operator

def ofLexeme? (x : Lexeme) : Option Operator := (wordOf? x).bind ofKeyword?

end Operator

structure Division where
  left : List Lexeme
  operator : Operator
  right : List Lexeme
  deriving DecidableEq, Repr

namespace Division

/-- Divides lexemes at the first operator keyword. A quoted literal is no keyword. -/
def find? : List Lexeme → Option Division
  | [] => none
  | x :: xs =>
    match Operator.ofLexeme? x with
    | some op => some ⟨[], op, xs⟩
    | none => (find? xs).map fun d => { d with left := x :: d.left }

end Division

namespace Operand

/-- The operand that a token writes: a literal if it is quoted, a number if it reads as a finite
one, and otherwise a field. -/
def ofToken (clause : Text) : Token → Except FilterError Operand
  | .quoted content true => .ok (.text content)
  | .quoted _ false => .error (.unterminatedQuote clause)
  | .word w => .ok (if (Binary64.readFinite? w).isSome then .number w else .field w)

end Operand

namespace Clause

def ofDivision (text : Text) (d : Division) : Except FilterError Clause :=
  match d.left, d.right with
  | [], _ => .error (.emptyField text)
  | _, [] => .error (.missingValue text)
  | _ :: x :: xs, _ => .error (.unexpectedText text (Lexeme.join (x :: xs)))
  | _, _ :: x :: xs => .error (.unexpectedText text (Lexeme.join (x :: xs)))
  | [f], [v] => do
    let operand ← Operand.ofToken text v.token
    return ⟨f.raw, d.operator, operand⟩

/-- Reads a clause from text without blanks at its ends. The field keeps its quotes, if any. -/
def readTrimmed (text : Text) : Except FilterError Clause :=
  let lexemes := Lexeme.all text
  match Division.find? lexemes with
  | none => .error (.missingOperator text (Operator.suggest lexemes))
  | some d => ofDivision text d

def read (text : Text) : Except FilterError Clause := readTrimmed (Text.trim text)

end Clause
end FilterLang
