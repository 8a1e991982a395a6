import FilterLang.Proofs.SqlReading

/-!
When precedence makes no difference: the value of a run from the left is the one that binding `and`
tighter than `or` gives it, whatever its clauses are worth, just when no `and` stands behind an `or`
of the same group.
-/
namespace FilterLang

/-- Whether no `and` stands behind an `or` of the same group. The flag says that an `or` of the
group has been met. -/
def Term.andsFirst (orBefore : Bool) : List Term → Bool
  | [] => true
  | .connective .and :: ts => !orBefore && andsFirst false ts
  | .connective .or :: ts => andsFirst true ts
  | .openParen :: ts => andsFirst false ts
  | .clause _ :: ts | .closeParen :: ts => andsFirst orBefore ts

private theorem Term.andsFirst_concat_closeParen (orBefore : Bool) (ts : List Term) :
    andsFirst orBefore (ts ++ [.closeParen]) = andsFirst orBefore ts := by
  fun_induction andsFirst orBefore ts <;> simp_all [andsFirst]

namespace Sql.Partial

private theorem value_factor_connect {p : Partial} {k : Connective} (h : k = .and → p.sum = false)
    (a b : Bool) :
    (((p.factor a).connect k).factor b).value = k.combine (p.factor a).value b := by
  cases k with
  | and => simp [connect, factor, value, Connective.combine, h rfl]
  | or => simp [connect, factor, value, Connective.combine]

private theorem sum_connect {p : Partial} {k : Connective} (h : k = .and → p.sum = false)
    (hk : (k == .or) = false) : (p.connect k).sum = false := by
  cases k with
  | and => exact h rfl
  | or => cases hk

end Sql.Partial

namespace Chain
variable {α : Type}

private theorem andsFirst_link (orBefore : Bool) (c : Clause) (k : Connective) (r : Chain Clause) :
    Term.andsFirst orBefore (link c k r).terms =
      ((k == .or || !orBefore) && Term.andsFirst (k == .or) r.terms) := by
  cases k <;> rfl

private theorem andsFirst_group (orBefore : Bool) (c : Clause) (k : Connective) (r : Chain Clause) :
    Term.andsFirst orBefore (group c k r).terms = Term.andsFirst (k == .or) r.terms := by
  have h := Term.andsFirst_concat_closeParen false (link c k r).terms
  exact h.trans (by simpa using andsFirst_link false c k r)

theorem truth_eq_sqlTruth {q : Chain Valued} {p : Sql.Partial} {orBefore : Bool}
    (hp : orBefore = false → p.sum = false)
    (h : Term.andsFirst orBefore (q.map Prod.fst).terms = true) :
    q.truth (fun b => (p.factor b).value) = q.sqlTruth p := by
  induction q generalizing p orBefore with
  | single a => rfl
  | link a k r ih =>
    rw [map, andsFirst_link, Bool.and_eq_true] at h
    have hk : k = .and → p.sum = false := by
      rintro rfl
      exact hp (by simpa using h.1)
    have hr := ih (Sql.Partial.sum_connect (p := p.factor a.2) hk) h.2
    rwa [funext (Sql.Partial.value_factor_connect hk a.2)] at hr
  | group a k r ih =>
    rw [map, andsFirst_group] at h
    have hr := ih (Sql.Partial.sum_connect (p := Sql.Partial.start.factor a.2) fun _ => rfl) h
    rw [funext (Sql.Partial.value_factor_connect (p := .start) (fun _ => rfl) a.2)] at hr
    exact congrArg (fun b => (p.factor b).value) hr

private theorem sqlTruth_of_sum {p : Sql.Partial} (h : p.sum = true) (q : Chain (α × Bool)) :
    q.sqlTruth p = true := by
  induction q generalizing p with
  | single a => simp [sqlTruth, Sql.Partial.factor, Sql.Partial.value, h]
  | link a k r ih =>
    refine ih ?_
    cases k <;> simp [Sql.Partial.connect, Sql.Partial.factor, Sql.Partial.value, h]
  | group a k r ih => simp [sqlTruth, Sql.Partial.factor, Sql.Partial.value, h]

private theorem andsFirst_of_uniform {k : Connective} {p : Chain Clause} {orBefore : Bool}
    (hk : k = .and → orBefore = false) (h : ∀ j ∈ p.connectives, j = k) :
    Term.andsFirst orBefore p.terms = true := by
  induction p generalizing orBefore with
  | single c => rfl
  | link c j r ih =>
    obtain rfl : j = k := h j (by simp [connectives])
    rw [andsFirst_link, ih (by rintro rfl; rfl) fun i hi => h i (by simp [connectives, hi])]
    cases j with
    | and => simp [hk rfl]
    | or => rfl
  | group c j r ih =>
    obtain rfl : j = k := h j (by simp [connectives])
    rw [andsFirst_group]
    exact ih (by rintro rfl; rfl) fun i hi => h i (by simp [connectives, hi])

/-- Precedence plays no part with one connective only. -/
theorem sqlTruth_of_uniform {k : Connective} {q : Chain Valued} (h : ∀ j ∈ q.connectives, j = k) :
    q.sqlTruth .start = k.ofAll (q.atoms.map Prod.snd) := by
  rw [← truth_id_of_uniform h]
  have hands : Term.andsFirst false (q.map Prod.fst).terms = true :=
    andsFirst_of_uniform (fun _ => rfl) (by simpa using h)
  exact (truth_eq_sqlTruth (p := .start) (fun _ => rfl) hands).symm

private theorem truth_ne_sqlTruth_and (c : Clause) (r : Chain Clause) :
    (link (c, false) .and (r.map fun a => (a, false))).truth (true || ·) ≠
      (link (c, false) .and (r.map fun a => (a, false))).sqlTruth ⟨true, true⟩ := by
  -- A finished alternative that is true stays true, while an `and` from the left loses it to a false
  -- operand.
  intro he
  have hleft : (r.map fun a => (a, false)).truth (Connective.and.combine true) = false :=
    truth_map_const rfl r
  have hright := sqlTruth_of_sum (p := ⟨true, true⟩) rfl
    (link (c, false) .and (r.map fun a => (a, false)))
  exact Bool.noConfusion (hleft.symm.trans (he.trans hright))

private theorem exists_first_operand {k : Connective} {r : Chain Clause}
    (h : ∃ (q : Chain Valued) (sum : Bool), q.map Prod.fst = r ∧
      ((k == .or) = false → sum = false) ∧ q.truth (sum || ·) ≠ q.sqlTruth ⟨sum, true⟩) :
    ∃ (q : Chain Valued) (a : Bool), q.map Prod.fst = r ∧
      q.truth (k.combine a) ≠ q.sqlTruth ((Sql.Partial.start.factor a).connect k) := by
  -- Some value of the first operand leaves it to the rest of the run to tell the two apart.
  obtain ⟨q, sum, hq, hsum, hne⟩ := h
  cases k with
  | or => exact ⟨q, sum, hq, hne⟩
  | and =>
    obtain rfl := hsum rfl
    exact ⟨q, true, hq, hne⟩

/-- An `and` behind an `or` can always be told apart. -/
theorem exists_truth_ne_sqlTruth {p : Chain Clause} {orBefore : Bool}
    (h : Term.andsFirst orBefore p.terms = false) :
    ∃ (q : Chain Valued) (sum : Bool), q.map Prod.fst = p ∧ (orBefore = false → sum = false) ∧
      q.truth (sum || ·) ≠ q.sqlTruth ⟨sum, true⟩ := by
  induction p generalizing orBefore with
  | single c => cases h
  | link c k r ih =>
    rw [andsFirst_link] at h
    by_cases hfirst : k = .and ∧ orBefore = true
    · obtain ⟨rfl, rfl⟩ := hfirst
      refine ⟨_, true, ?_, nofun, truth_ne_sqlTruth_and c r⟩
      simp [map, Function.comp_def, ← Function.id_def]
    · have hgo : (k == .or || !orBefore) = true := by
        cases k <;> simp_all
      rw [hgo, Bool.true_and] at h
      obtain ⟨q, a, rfl, hne⟩ := exists_first_operand (ih h)
      exact ⟨link (c, a) k q, false, rfl, fun _ => rfl, hne⟩
  | group c k r ih =>
    rw [andsFirst_group] at h
    obtain ⟨q, a, rfl, hne⟩ := exists_first_operand (ih h)
    exact ⟨group (c, a) k q, false, rfl, fun _ => rfl, hne⟩

/-- Precedence leaves a run its value, whatever its clauses are worth, just when no `and` stands
behind an `or` of the same group. -/
theorem forall_truth_eq_sqlTruth_iff (p : Chain Clause) :
    (∀ q : Chain Valued, q.map Prod.fst = p → q.truth id = q.sqlTruth .start) ↔
      Term.andsFirst false p.terms = true := by
  constructor
  · intro h
    by_contra hf
    obtain ⟨q, sum, hq, hsum, hne⟩ := exists_truth_ne_sqlTruth (Bool.not_eq_true _ ▸ hf)
    obtain rfl := hsum rfl
    exact hne (h q hq)
  · rintro h q rfl
    exact truth_eq_sqlTruth (p := .start) (fun _ => rfl) h

end Chain
end FilterLang
