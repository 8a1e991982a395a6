import FilterLang.Filter.Read
import FilterLang.Json.Basic

/-!
Filters as documents of a document store. Operands are combined in pairs from the left, a
parenthesised run by itself first.
-/
namespace FilterLang

def Operator.documentKey : Operator → Text
  | eq => "$eq".toList
  | ne => "$ne".toList
  | gt => "$gt".toList
  | ge => "$gte".toList
  | lt => "$lt".toList
  | le => "$lte".toList

def Connective.documentKey : Connective → Text
  | and => "$and".toList
  | or => "$or".toList

namespace Document

/-- The value of a number operand: a whole number if it is written as one and fits, else a finite
binary64 number, else the text itself. -/
def number (spelling : Text) : Json :=
  match (Decimal.readInt? spelling).filter Decimal.fitsWord with
  | some n => .number (.whole n)
  | none =>
    match Binary64.readFinite? spelling with
    | some x => .number (.float x)
    | none => .string spelling

/-- The comparison of a field with a value. Equality has the short form. -/
def comparison (field : Text) (op : Operator) (value : Json) : Json :=
  match op with
  | .eq => .single field value
  | op => .single field (.single op.documentKey value)

def fieldComparison (left : Text) (op : Operator) (right : Text) : Json :=
  .single "$expr".toList
    (.single op.documentKey (.array [.string ('$' :: left), .string ('$' :: right)]))

def pair (k : Connective) (a b : Json) : Json := .single k.documentKey (.array [a, b])

end Document

def Clause.toDocument (c : Clause) : Json :=
  match c.operand with
  | .text s => Document.comparison c.field c.operator (.string s)
  | .number s => Document.comparison c.field c.operator (Document.number s)
  | .field name => Document.fieldComparison c.field c.operator name

/-- The documents of one parenthesis level so far, the last one first, and the connective that
waits for an operand. -/
structure Level where
  results : List Json
  pending : Option Connective
  deriving Repr

namespace Level

def empty : Level := ⟨[], none⟩

/-- Adds a document, combined with the one before it if a connective waits. -/
def push (doc : Json) (l : Level) : Level :=
  match l.pending, l.results with
  | some k, before :: results => ⟨Document.pair k before doc :: results, none⟩
  | _, results => ⟨doc :: results, none⟩

def result (l : Level) : Json :=
  match l.results with
  | [doc] => doc
  | results => .array results.reverse

end Level

structure Levels where
  inmost : Level
  outer : List Level
  deriving Repr

namespace Levels

def start : Levels := ⟨.empty, []⟩

def close : Levels → Levels
  | ⟨inmost, around :: outer⟩ => ⟨around.push inmost.result, outer⟩
  | levels => levels

def step (levels : Levels) : Term → Levels
  | .clause c => { levels with inmost := levels.inmost.push c.toDocument }
  | .connective k => { levels with inmost := { levels.inmost with pending := some k } }
  | .openParen => ⟨.empty, levels.inmost :: levels.outer⟩
  | .closeParen => levels.close

def finish (inmost : Level) : List Level → Json
  | [] => inmost.result
  | around :: outer => finish (around.push inmost.result) outer

end Levels

/-- The document of a filter. A connective with no operand behind it has no effect; operands without
a connective between them stay apart in a list. -/
def Filter.toDocument (f : Filter) : Json :=
  let levels := f.terms.foldl Levels.step Levels.start
  Levels.finish levels.inmost levels.outer

end FilterLang
