import FilterLang.Filter.Select
import FilterLang.Proofs.Chain

/-!
Truth values for the clauses of a filter, one for each place at which a clause stands, and the value
of a run of such clauses. A run with one connective only has the same value however it is grouped.
-/
namespace FilterLang

namespace Connective

def combine : Connective → Bool → Bool → Bool
  | and, a, b => a && b
  | or, a, b => a || b

def ofAll : Connective → List Bool → Bool
  | and, bs => bs.all id
  | or, bs => bs.any id

/-- The truth value that decides a combination by itself. -/
def decisive : Connective → Bool
  | and => false
  | or => true

theorem combine_assoc (k : Connective) (a b c : Bool) :
    k.combine (k.combine a b) c = k.combine a (k.combine b c) := by
  cases k <;> simp [combine, Bool.and_assoc, Bool.or_assoc]

@[simp] theorem combine_self (k : Connective) (a : Bool) : k.combine a a = a := by
  cases k <;> simp [combine]

@[simp] theorem combine_decisive (k : Connective) (a : Bool) :
    k.combine k.decisive a = k.decisive := by
  cases k <;> rfl

@[simp] theorem combine_not_decisive_right (k : Connective) (a : Bool) :
    k.combine a (!k.decisive) = a := by
  cases k <;> simp [combine, decisive]

theorem combine_not_decisive_of_ne {j k : Connective} (h : j ≠ k) (a : Bool) :
    j.combine a (!k.decisive) = !k.decisive := by
  cases j <;> cases k <;> simp_all [combine, decisive]

theorem ofAll_cons (k : Connective) (a : Bool) (bs : List Bool) :
    k.ofAll (a :: bs) = k.combine a (k.ofAll bs) := by
  cases k <;> rfl

@[simp] theorem ofAll_singleton (k : Connective) (a : Bool) : k.ofAll [a] = a := by
  cases k <;> simp [ofAll]

end Connective

abbrev Valued := Clause × Bool

namespace Filter

/-- Whether these are the clauses of the filter in their order, with some truth values. -/
def Valuation (f : Filter) (as : List Valued) : Prop := as.map Prod.fst = f.clauses

def outcomes (f : Filter) (r : Record) : List Valued := f.clauses.map fun c => (c, c.holds r)

theorem valuation_outcomes (f : Filter) (r : Record) : f.Valuation (f.outcomes r) := by
  simp [Valuation, outcomes, Function.comp_def]

end Filter

namespace Chain
variable {α : Type}

/-- The value of a run, its operands combined from the left and a group by itself first. -/
def truth (context : Bool → Bool) (q : Chain (α × Bool)) : Bool :=
  q.fold Prod.snd Connective.combine context

theorem truth_map_const {context : Bool → Bool} {b : Bool} (h : context b = b) (p : Chain α) :
    (p.map fun a => (a, b)).truth context = b := by
  induction p generalizing context with
  | single a => exact h
  | link a k r ih => exact ih (by rw [h, Connective.combine_self])
  | group a k r ih =>
    have hr : (r.map fun a => (a, b)).truth (k.combine b) = b := ih (k.combine_self b)
    exact (congrArg context hr).trans h

theorem truth_of_combine {k : Connective} {q : Chain (α × Bool)} (a : Bool)
    (h : ∀ j ∈ q.connectives, j = k) :
    q.truth (k.combine a) = k.combine a (k.ofAll (q.atoms.map Prod.snd)) := by
  induction q generalizing a with
  | single v => simp [truth, fold, atoms]
  | link v j r ih =>
    obtain rfl : j = k := h j (by simp [connectives])
    have hr := ih (j.combine a v.2) fun i hi => h i (by simp [connectives, hi])
    rw [atoms, List.map_cons, Connective.ofAll_cons, ← Connective.combine_assoc]
    exact hr
  | group v j r ih =>
    obtain rfl : j = k := h j (by simp [connectives])
    have hr := ih v.2 fun i hi => h i (by simp [connectives, hi])
    rw [atoms, List.map_cons, Connective.ofAll_cons]
    exact congrArg (j.combine a) hr

/-- With one connective only, a run is the conjunction or disjunction of all its operands. -/
theorem truth_id_of_uniform {k : Connective} {q : Chain (α × Bool)}
    (h : ∀ j ∈ q.connectives, j = k) : q.truth id = k.ofAll (q.atoms.map Prod.snd) := by
  cases q with
  | single v => simp [truth, fold, atoms]
  | link v j r | group v j r =>
    obtain rfl : j = k := h j (by simp [connectives])
    rw [atoms, List.map_cons, Connective.ofAll_cons]
    exact truth_of_combine v.2 fun i hi => h i (by simp [connectives, hi])

end Chain
end FilterLang
