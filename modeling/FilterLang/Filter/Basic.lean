import FilterLang.Clause.Read

/-!
Filters: a sequence of clauses, connectives and parentheses, in the order of the text. A filter is
read from text or built up from the empty one, and only ever grows.
-/
namespace FilterLang

inductive Connective where
  | and
  | or
  deriving DecidableEq, Repr

def Connective.keyword : Connective → Text
  | .and => "and".toList
  | .or => "or".toList

inductive Term where
  | clause (c : Clause)
  | connective (k : Connective)
  | openParen
  | closeParen
  deriving DecidableEq, Repr

namespace Term

def asClause : Term → Option Clause
  | clause c => some c
  | _ => none

def asConnective : Term → Option Connective
  | connective k => some k
  | _ => none

def display : Term → Text
  | clause c => c.display
  | connective k => k.keyword
  | openParen => ['(']
  | closeParen => [')']

/-- Whether an operand ends with this term, so that a blank parts it from an operand behind it. -/
def endsOperand : Term → Bool
  | clause _ | closeParen => true
  | _ => false

def displayAfter (operandBefore : Bool) : List Term → Text
  | [] => []
  | t :: ts =>
    let text := match t with
      | connective k => ' ' :: k.keyword ++ [' ']
      | closeParen => [')']
      | t => (if operandBefore then [' '] else []) ++ t.display
    text ++ displayAfter t.endsOperand ts

end Term

/-- A filter: the text it was read from, its terms, and raw text for the end of its SQL. -/
structure Filter where
  source : Option Text
  terms : List Term
  suffix : Text
  deriving DecidableEq, Repr

namespace Filter

def empty : Filter := ⟨none, [], []⟩

def clauses (f : Filter) : List Clause := f.terms.filterMap Term.asClause

def connectives (f : Filter) : List Connective := f.terms.filterMap Term.asConnective

def display (f : Filter) : Text := Term.displayAfter false f.terms

def extend (f : Filter) (ts : List Term) : Filter := { f with terms := f.terms ++ ts }

def addConnective (f : Filter) (k : Connective) : Filter := f.extend [.connective k]

def addClause (f : Filter) (c : Clause) : Filter := f.extend [.clause c]

/-- Takes over the terms of another filter, but neither its source nor its suffix. -/
def merge (f other : Filter) : Filter := f.extend other.terms

/-- Adds raw text to the end of the SQL. It is neither escaped nor checked. -/
def addSuffix (f : Filter) (s : Text) : Filter := { f with suffix := f.suffix ++ s }

def sourceContains (f : Filter) (needle : Text) : Bool := f.source.any (Text.contains needle)

def findMention (f : Filter) (needle : Text) : Option Clause :=
  f.clauses.find? (·.mentions needle)

end Filter
end FilterLang
