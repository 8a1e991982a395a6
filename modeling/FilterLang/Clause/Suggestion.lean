import FilterLang.Clause.Operator
import FilterLang.Text.Lexeme

/-!
The operator that a clause without one most likely means: the first sign that stands for one, or
else the keyword nearest to some word of the clause.
-/
namespace FilterLang

/-- How many single insertions, deletions and replacements of characters lead from one text to the
other, at least. -/
def Text.distance : Text → Text → Nat
  | [], t => t.length
  | s, [] => s.length
  | a :: s, b :: t =>
    if a = b then distance s t
    else 1 + min (distance s t) (min (distance s (b :: t)) (distance (a :: s) t))
termination_by s t => s.length + t.length

namespace Operator

def maxDistance : Nat := 1

structure Nearby where
  distance : Nat
  operator : Operator
  deriving DecidableEq, Repr

/-- Keeps the nearer of the best keyword so far and another one; the earlier one wins a tie. A much
longer word needs no measuring, since each of its surplus characters counts. -/
def better (word : Text) (best : Option Nearby) (op : Operator) : Option Nearby :=
  if op.keyword.length + maxDistance < word.length then best
  else
    let d := Text.distance word op.keyword
    if maxDistance < d then best
    else match best with
      | none => some ⟨d, op⟩
      | some b => if d < b.distance then some ⟨d, op⟩ else some b

/-- Goes through the words, and stops at the first one that is a sign. -/
def nearest (best : Option Nearby) : List Text → Option Operator
  | [] => best.map Nearby.operator
  | w :: ws =>
    match ofAlias? w with
    | some op => some op
    | none => nearest (all.foldl (better (Text.lower w)) best) ws

def wordOf? : Lexeme → Option Text
  | ⟨_, _, .word w⟩ => some w
  | _ => none

/-- The suggestion for a clause of these lexemes. The first of them can only be the field. -/
def suggest (lexemes : List Lexeme) : Option Operator :=
  nearest none ((lexemes.drop 1).filterMap wordOf?)

end Operator
end FilterLang
