import FilterLang.Filter.Select
import Mathlib.Data.List.FinRange

/-!
Filtering treats every element of a list by itself. Leaving out elements, or giving each another
name, may be done before or after it, whatever the terms are and however often an element comes in
the results. So the list that holds an element alone settles how often it is selected from any list.
-/
namespace FilterLang

namespace Selection
variable {α β : Type}

def change (g : List α → List β) (s : Selection α) : Selection β := ⟨g s.results, g s.candidates⟩

private theorem step_change_filter (holds : Clause → α → Bool) (keep : α → Bool) (all : List α)
    (s : Selection α) (t : Term) :
    step holds (all.filter keep) (s.change (List.filter keep)) t =
      (step holds all s t).change (List.filter keep) := by
  cases t with
  | clause c => simp [step, change, List.filter_filter, Bool.and_comm]
  | connective k => cases k <;> rfl
  | openParen => rfl
  | closeParen => rfl

private theorem step_change_map (holds : Clause → β → Bool) (g : α → β) (all : List α)
    (s : Selection α) (t : Term) :
    step holds (all.map g) (s.change (List.map g)) t =
      (step (fun c x => holds c (g x)) all s t).change (List.map g) := by
  cases t with
  | clause c => simp [step, change, List.filter_map, Function.comp_def]
  | connective k => cases k <;> rfl
  | openParen => rfl
  | closeParen => rfl

end Selection

namespace Term
variable {α β : Type}

private theorem select_filter (holds : Clause → α → Bool) (keep : α → Bool) (ts : List Term)
    (all : List α) :
    select holds ts (all.filter keep) = (select holds ts all).filter keep := by
  have hrun : ts.foldl (Selection.step holds (all.filter keep))
      (Selection.change (List.filter keep) ⟨[], all⟩) =
        (ts.foldl (Selection.step holds all) ⟨[], all⟩).change (List.filter keep) := by
    apply List.foldl_hom
    intro s t
    exact Selection.step_change_filter holds keep all s t
  exact congrArg Selection.results hrun

theorem select_map (holds : Clause → β → Bool) (g : α → β) (ts : List Term) (all : List α) :
    select holds ts (all.map g) = (select (fun c x => holds c (g x)) ts all).map g := by
  have hrun : ts.foldl (Selection.step holds (all.map g)) (Selection.change (List.map g) ⟨[], all⟩) =
      (ts.foldl (Selection.step (fun c x => holds c (g x)) all) ⟨[], all⟩).change (List.map g) := by
    apply List.foldl_hom
    intro s t
    exact Selection.step_change_map holds g all s t
  exact congrArg Selection.results hrun

end Term

namespace Filter
variable {α : Type}

/-- The positions of the elements that a filter selects, in the order of its results. -/
def positions (record : α → Record) (f : Filter) (all : List α) : List (Fin all.length) :=
  f.evaluate (fun i => record all[i]) (List.finRange all.length)

theorem map_get_positions (record : α → Record) (f : Filter) (all : List α) :
    (f.positions record all).map all.get = f.evaluate record all := by
  have hmap := Term.select_map (fun c x => c.holds (record x)) all.get f.terms
    (List.finRange all.length)
  rw [List.map_get_finRange] at hmap
  exact hmap.symm

private theorem filter_finRange (n : ℕ) (i : Fin n) : (List.finRange n).filter (· == i) = [i] := by
  rw [List.filter_beq, List.count_finRange]
  rfl

theorem length_evaluate_singleton (record : α → Record) (f : Filter) (x : α) :
    (f.evaluate id [record x]).length = (f.evaluate record [x]).length := by
  have hmap := Term.select_map (fun c r => c.holds r) record f.terms [x]
  have hlength := congrArg List.length hmap
  rwa [List.length_map] at hlength

/-- The position of an element comes up as often as filtering the element alone selects it, and
comes up at all just when the filter holds of its record. Neither depends on the other elements. -/
theorem count_positions (record : α → Record) (f : Filter) (all : List α) :
    (f.positions record all).map all.get = f.evaluate record all ∧
    ∀ i : Fin all.length,
      (f.positions record all).count i = (f.evaluate record [all[i]]).length ∧
      (i ∈ f.positions record all ↔ f.holds (record all[i]) = true) := by
  refine ⟨map_get_positions record f all, fun i => ?_⟩
  have hcount : (f.positions record all).count i = (f.evaluate record [all[i]]).length := by
    have halone := Term.select_filter (fun c j => c.holds (record all[j])) (· == i) f.terms
      (List.finRange all.length)
    have hname := Term.select_map (fun c x => c.holds (record x)) all.get f.terms [i]
    rw [filter_finRange] at halone
    calc (f.positions record all).count i
        = ((f.positions record all).filter (· == i)).length := List.countP_eq_length_filter
      _ = (Term.select (fun c j => c.holds (record all[j])) f.terms [i]).length :=
        congrArg List.length halone.symm
      _ = (f.evaluate record [all[i]]).length := by
        rw [← List.length_map all.get]
        exact congrArg List.length hname.symm
  refine ⟨hcount, ?_⟩
  rw [← List.count_pos_iff, hcount, ← length_evaluate_singleton, List.length_pos_iff, holds]
  simp

end Filter
end FilterLang
