import FilterLang.Proofs.Truth

/-!
When parentheses make no difference: a run has the value it has without them, whatever its clauses
are worth, just when every group stands at the front of its run or holds no other connective than
the one it stands behind.
-/
namespace FilterLang

def Term.isParen : Term → Bool
  | openParen | closeParen => true
  | _ => false

def Filter.withoutParens (f : Filter) : Filter := { f with terms := f.terms.filter (!·.isParen) }

/-- Whether every group stands at the front or repeats the connective before it. -/
def Term.keepsGroups (before : Option Connective) : List Term → Bool
  | [] => true
  | .connective k :: ts => keepsGroups (some k) ts
  | .openParen :: ts =>
    before.all (fun j => (ts.filterMap asConnective).all (· == j)) && keepsGroups none ts
  | .clause _ :: ts | .closeParen :: ts => keepsGroups before ts

private theorem Term.keepsGroups_concat_closeParen (before : Option Connective) (ts : List Term) :
    keepsGroups before (ts ++ [.closeParen]) = keepsGroups before ts := by
  fun_induction keepsGroups before ts <;> simp_all [keepsGroups, asConnective]

namespace Chain
variable {α : Type}

theorem terms_ungroup (p : Chain Clause) : p.ungroup.terms = p.terms.filter (!·.isParen) := by
  induction p with
  | single c => rfl
  | link c k r ih => simp [ungroup, terms, Term.isParen, ih]
  | group c k r ih => simp [ungroup, terms, Term.isParen, ih]

private theorem keepsGroups_link (before : Option Connective) (c : Clause) (k : Connective)
    (r : Chain Clause) :
    Term.keepsGroups before (link c k r).terms = Term.keepsGroups (some k) r.terms := rfl

private theorem keepsGroups_group (before : Option Connective) (c : Clause) (k : Connective)
    (r : Chain Clause) :
    Term.keepsGroups before (group c k r).terms =
      (before.all (fun j => (k :: r.connectives).all (· == j)) &&
        Term.keepsGroups (some k) r.terms) := by
  have h := Term.keepsGroups_concat_closeParen none (link c k r).terms
  have hc : ((link c k r).terms ++ [Term.closeParen]).filterMap Term.asConnective =
      k :: r.connectives := by
    rw [List.filterMap_append, connectives_terms]
    simp [connectives, Term.asConnective]
  rw [← keepsGroups_link none, ← h, ← hc]
  rfl

/-- What becomes of the operand behind a connective, the value before the connective being `a`. -/
def behind (before : Option Connective) (a : Bool) : Bool → Bool :=
  before.elim id fun j => j.combine a

private theorem behind_self (before : Option Connective) (a : Bool) : behind before a a = a := by
  cases before <;> simp [behind]

private theorem truth_combine_ungroup {k : Connective} {q : Chain (α × Bool)} (a : Bool)
    (h : ∀ j ∈ q.connectives, j = k) :
    q.truth (k.combine a) = q.ungroup.truth (k.combine a) := by
  rw [truth_of_combine a h, truth_of_combine a (by simpa using h), atoms_ungroup]

theorem truth_eq_ungroup {q : Chain Valued} {before : Option Connective} (a : Bool)
    (h : Term.keepsGroups before (q.map Prod.fst).terms = true) :
    q.truth (behind before a) = q.ungroup.truth (behind before a) := by
  induction q generalizing before a with
  | single v => rfl
  | link v k r ih => exact ih (behind before a v.2) h
  | group v k r ih =>
    rw [map, keepsGroups_group, Bool.and_eq_true, connectives_map] at h
    cases before with
    | none => exact ih v.2 h.2
    | some j => exact truth_combine_ungroup a (by simpa [connectives] using h.1)

private theorem ungroup_truth_map_not_decisive {j : Connective} {p : Chain α}
    (h : ∃ i ∈ p.connectives, i ≠ j) (context : Bool → Bool) :
    (p.map fun a => (a, !j.decisive)).ungroup.truth context = !j.decisive := by
  induction p generalizing context with
  | single a =>
    obtain ⟨i, hi, -⟩ := h
    cases hi
  | link a k r ih | group a k r ih =>
    by_cases hk : k = j
    · obtain ⟨i, hi, hne⟩ := h
      rcases List.mem_cons.mp hi with rfl | hi
      · exact absurd hk hne
      · exact ih ⟨i, hi, hne⟩ _
    · have hc : k.combine (context !j.decisive) (!j.decisive) = !j.decisive :=
        Connective.combine_not_decisive_of_ne hk _
      have hr := truth_map_const hc r.ungroup
      rwa [← ungroup_map] at hr

/-- A group that holds another connective than the one before it can always be told apart: the
value before it is decisive there, and no operand of the group upholds it. -/
theorem exists_truth_ne_ungroup {p : Chain Clause} {before : Option Connective}
    (h : Term.keepsGroups before p.terms = false) :
    ∃ (q : Chain Valued) (a : Bool), q.map Prod.fst = p ∧
      q.truth (behind before a) ≠ q.ungroup.truth (behind before a) := by
  induction p generalizing before with
  | single c => cases h
  | link c k r ih =>
    obtain ⟨q, a, rfl, hne⟩ := ih h
    refine ⟨link (c, a) k q, a, rfl, ?_⟩
    rw [← behind_self before a] at hne
    exact hne
  | group c k r ih =>
    rw [keepsGroups_group] at h
    cases before with
    | none =>
      obtain ⟨q, a, rfl, hne⟩ := ih (by simpa using h)
      exact ⟨group (c, a) k q, a, rfl, hne⟩
    | some j =>
      by_cases hj : ∀ i ∈ k :: r.connectives, i = j
      · have hall : (k :: r.connectives).all (· == j) = true := by simpa using hj
        rw [Option.all_some, hall, Bool.true_and] at h
        obtain ⟨q, a, rfl, hne⟩ := ih h
        obtain rfl : k = j := hj k List.mem_cons_self
        exact absurd (truth_combine_ungroup a fun i hi => hj i (by simpa using .inr hi)) hne
      · push Not at hj
        let q : Chain Valued := (group c k r).map fun c => (c, !j.decisive)
        have hleft : q.truth (j.combine j.decisive) = j.decisive := Connective.combine_decisive j _
        have hright := ungroup_truth_map_not_decisive (p := group c k r) hj (j.combine j.decisive)
        refine ⟨q, j.decisive, by simp [q, Function.comp_def, ← Function.id_def], ?_⟩
        intro he
        simpa using hright.symm.trans (he.symm.trans hleft)

/-- A run keeps its value without its parentheses, whatever its clauses are worth, just when every
group stands at the front or repeats the connective before it. -/
theorem forall_truth_eq_ungroup_iff (p : Chain Clause) :
    (∀ q : Chain Valued, q.map Prod.fst = p → q.truth id = q.ungroup.truth id) ↔
      Term.keepsGroups none p.terms = true := by
  constructor
  · intro h
    by_contra hf
    obtain ⟨q, a, hq, hne⟩ := exists_truth_ne_ungroup (Bool.not_eq_true _ ▸ hf)
    exact hne (h q hq)
  · rintro h q rfl
    exact truth_eq_ungroup false h

end Chain
end FilterLang
