import FilterLang.Filter.Read
import FilterLang.Record

/-!
Filtering a list of records. A clause adds the candidates of which it holds to the results. An `and`
makes the results so far the candidates and starts with no results; an `or` makes all records
candidates again and keeps the results, so that a record may come twice. Parentheses have no effect.
-/
namespace FilterLang

/-- The results so far and the candidates for the next clause. -/
structure Selection (α : Type) where
  results : List α
  candidates : List α

namespace Selection
variable {α : Type}

def step (holds : Clause → α → Bool) (all : List α) (s : Selection α) : Term → Selection α
  | .clause c => { s with results := s.results ++ s.candidates.filter (holds c) }
  | .connective .and => ⟨[], s.results⟩
  | .connective .or => ⟨s.results, all⟩
  | .openParen | .closeParen => s

end Selection

/-- What terms select from a list, when `holds` says which clauses hold of what. -/
def Term.select {α : Type} (holds : Clause → α → Bool) (terms : List Term) (all : List α) :
    List α :=
  (terms.foldl (Selection.step holds all) ⟨[], all⟩).results

namespace Filter

/-- The elements of a list whose records the filter selects. An empty filter selects nothing. -/
def evaluate {α : Type} (record : α → Record) (f : Filter) (all : List α) : List α :=
  Term.select (fun c x => c.holds (record x)) f.terms all

/-- Whether the filter selects a record from the list that holds it alone. -/
def holds (f : Filter) (r : Record) : Bool := !(f.evaluate id [r]).isEmpty

end Filter
end FilterLang
