import FilterLang.Proofs.Truth

/-!
What filtering does to each element of a list by itself. Parentheses have no effect: an element is
selected just when the run without them, its clauses valued by their results on the element, is
true.
-/
namespace FilterLang

namespace Selection
variable {α : Type} {holds : Clause → α → Bool} {all : List α} {x : α} {s : Selection α}
  {context : Bool → Bool}

private theorem mem_results_step_clause (holds : Clause → α → Bool) (c : Clause)
    (h : ∀ b : Bool, x ∈ s.results ∨ x ∈ s.candidates ∧ b = true ↔ x ∈ all ∧ context b = true) :
    x ∈ (step holds all s (.clause c)).results ↔ x ∈ all ∧ context (holds c x) = true := by
  rw [← h (holds c x)]
  simp [step]

private theorem mem_step_connective (c : Clause) (k : Connective)
    (h : ∀ b : Bool, x ∈ s.results ∨ x ∈ s.candidates ∧ b = true ↔ x ∈ all ∧ context b = true)
    (b : Bool) :
    x ∈ (step holds all (step holds all s (.clause c)) (.connective k)).results ∨
        x ∈ (step holds all (step holds all s (.clause c)) (.connective k)).candidates ∧ b = true ↔
      x ∈ all ∧ k.combine (context (holds c x)) b = true := by
  have hc := mem_results_step_clause holds c h
  cases k with
  | and =>
    change x ∈ [] ∨ x ∈ (step holds all s (.clause c)).results ∧ b = true ↔ _
    rw [hc]
    simp [Connective.combine, and_assoc]
  | or =>
    change x ∈ (step holds all s (.clause c)).results ∨ x ∈ all ∧ b = true ↔ _
    rw [hc]
    simp [Connective.combine, and_or_left]

theorem mem_results_foldl_step (p : Chain Clause)
    (h : ∀ b : Bool, x ∈ s.results ∨ x ∈ s.candidates ∧ b = true ↔ x ∈ all ∧ context b = true) :
    x ∈ (p.terms.foldl (step holds all) s).results ↔
      x ∈ all ∧ p.ungroup.fold (holds · x) Connective.combine context = true := by
  induction p generalizing s context with
  | single c => exact mem_results_step_clause holds c h
  | link c k r ih => exact ih (mem_step_connective c k h)
  | group c k r ih =>
    rw [Chain.terms, List.foldl_append]
    exact ih (mem_step_connective c k h)

end Selection

namespace Filter

theorem mem_evaluate {α : Type} {f : Filter} {p : Chain Clause} (h : f.terms = p.terms)
    (record : α → Record) (all : List α) (x : α) :
    x ∈ f.evaluate record all ↔
      x ∈ all ∧ (p.map fun c => (c, c.holds (record x))).ungroup.truth id = true := by
  rw [Chain.truth, Chain.ungroup_map, Chain.fold_map, evaluate, Term.select, h]
  exact Selection.mem_results_foldl_step p fun b => by simp

theorem holds_eq {f : Filter} {p : Chain Clause} (h : f.terms = p.terms) (r : Record) :
    f.holds r = (p.map fun c => (c, c.holds r)).ungroup.truth id := by
  have hmem := mem_evaluate h id [r]
  rw [Bool.eq_iff_iff]
  simp only [holds, Bool.not_eq_true', List.isEmpty_eq_false_iff_exists_mem]
  constructor
  · rintro ⟨x, hx⟩
    obtain ⟨hr, hv⟩ := (hmem x).mp hx
    rwa [List.mem_singleton.mp hr] at hv
  · intro hv
    exact ⟨r, (hmem r).mpr ⟨List.mem_singleton.mpr rfl, hv⟩⟩

end Filter
end FilterLang
