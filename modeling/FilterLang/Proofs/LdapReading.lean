import FilterLang.Ldap
import FilterLang.Proofs.Truth

/-!
What a search filter says: one combinator over the components of clauses. It is refused just when
both connectives stand in the filter.
-/
namespace FilterLang

namespace Ldap

/-- Whether a search filter has a truth value if the clauses in it, in their order, have the given
ones: it is the component of a clause, or all components stand under one combinator. -/
inductive Denotes : Text → List Valued → Bool → Prop where
  | clause (a : Valued) : Denotes a.1.toLdap [a] a.2
  | combination (k : Connective) (as : List Valued) :
      Denotes (combine k (as.flatMap fun a => a.1.toLdap)) as (k.ofAll (as.map Prod.snd))

private theorem eq_of_combine_eq {j k : Connective} {s t : Text} (h : combine j s = combine k t) :
    j = k := by
  cases j <;> cases k <;> simp_all [combine]

/-- A combination has the value that its combinator gives, also if it could be read as the component
of a single clause. -/
theorem denotes_combine_iff (k : Connective) (as : List Valued) (b : Bool) :
    Denotes (combine k (as.flatMap fun a => a.1.toLdap)) as b ↔ b = k.ofAll (as.map Prod.snd) := by
  constructor
  · intro h
    generalize hs : combine k (as.flatMap fun a => a.1.toLdap) = s at h
    cases h with
    | clause a => simp
    | combination j => rw [eq_of_combine_eq hs]
  · rintro rfl
    exact .combination k as

theorem denotes_clause_iff (a : Valued) (b : Bool) : Denotes a.1.toLdap [a] b ↔ b = a.2 := by
  constructor
  · intro h
    generalize a.1.toLdap = s at h
    generalize has : [a] = as at h
    cases h with
    | clause a' =>
      obtain rfl := List.singleton_inj.mp has
      rfl
    | combination k =>
      subst has
      simp
  · rintro rfl
    exact .clause a

end Ldap

namespace Filter

theorem soleConnective_eq_error_iff (f : Filter) (e : FilterError) :
    f.soleConnective = .error e ↔
      e = .mixedConnectives ∧ .and ∈ f.connectives ∧ .or ∈ f.connectives := by
  unfold soleConnective
  cases f.connectives with
  | nil => simp
  | cons k ks =>
    by_cases hall : ks.all (· = k) = true
    · have hk : ∀ j ∈ k :: ks, j = k := by simpa using hall
      simp only [if_pos hall, reduceCtorEq, false_iff]
      rintro ⟨-, hand, hor⟩
      exact Connective.noConfusion ((hk _ hand).trans (hk _ hor).symm)
    · simp only [if_neg hall, Except.error.injEq]
      obtain ⟨j, hj, hne⟩ : ∃ j ∈ ks, j ≠ k := by simpa using hall
      have hboth : Connective.and ∈ k :: ks ∧ Connective.or ∈ k :: ks := by
        cases j <;> cases k <;> simp_all
      exact ⟨fun h => ⟨h.symm, hboth⟩, fun h => h.1.symm⟩

/-- The search filter is refused just when both connectives stand in the filter. -/
theorem toLdap_eq_error_iff (f : Filter) (e : FilterError) :
    f.toLdap = .error e ↔ e = .mixedConnectives ∧ .and ∈ f.connectives ∧ .or ∈ f.connectives := by
  rw [← soleConnective_eq_error_iff, toLdap]
  cases f.soleConnective with
  | error e' => simp [Except.map]
  | ok k => simp [Except.map]

theorem eq_of_soleConnective {f : Filter} {k : Connective} (h : f.soleConnective = .ok (some k)) :
    ∀ j ∈ f.connectives, j = k := by
  unfold soleConnective at h
  split at h
  · cases h
  · next j js hjs =>
    split at h
    · next hall =>
      obtain rfl := Option.some.inj (Except.ok.inj h)
      rw [hjs]
      simpa using hall
    · cases h

theorem connectives_of_soleConnective_none {f : Filter} (h : f.soleConnective = .ok none) :
    f.connectives = [] := by
  unfold soleConnective at h
  split at h
  · next hnil => exact hnil
  · split at h <;> cases h

/-- The search filter of a run has one combinator for all its connectives, or is that of its only
clause. -/
theorem eq_of_toLdap {f : Filter} {p : Chain Clause} {s : Text} (h : f.terms = p.terms)
    (hs : f.toLdap = .ok s) :
    ∃ k, (∀ j ∈ p.connectives, j = k) ∧
      (s = Ldap.combine k (p.atoms.flatMap Clause.toLdap) ∨ ∃ c, p.atoms = [c] ∧ s = c.toLdap) := by
  have hk : f.connectives = p.connectives := connectives_eq h
  have hc : f.clauses = p.atoms := clauses_eq h
  unfold toLdap at hs
  cases hsole : f.soleConnective with
  | error e => rw [hsole] at hs; cases hs
  | ok k? =>
    rw [hsole] at hs
    cases Except.ok.inj hs
    cases k? with
    | some k => exact ⟨k, hk ▸ eq_of_soleConnective hsole, .inl (by rw [hc])⟩
    | none =>
      have hnil := connectives_of_soleConnective_none hsole
      rw [hk] at hnil
      cases p with
      | single c => exact ⟨.and, by simp [hnil], .inr ⟨c, rfl, by simp [hc, Chain.atoms]⟩⟩
      | link c k r => cases hnil
      | group c k r => cases hnil

/-- The search filter of a run is worth the conjunction or disjunction of all clauses. -/
theorem denotes_iff_of_toLdap {f : Filter} {p : Chain Clause} {s : Text} (h : f.terms = p.terms)
    (hs : f.toLdap = .ok s) :
    ∃ k, (∀ j ∈ p.connectives, j = k) ∧ ∀ as : List Valued, as.map Prod.fst = p.atoms →
      ∀ b, Ldap.Denotes s as b ↔ b = k.ofAll (as.map Prod.snd) := by
  obtain ⟨k, hk, hs⟩ := eq_of_toLdap h hs
  refine ⟨k, hk, fun as has b => ?_⟩
  rcases hs with rfl | ⟨c, hc, rfl⟩
  · rw [← has, List.flatMap_map]
    exact Ldap.denotes_combine_iff k as b
  · rw [hc] at has
    obtain ⟨a, rfl, rfl⟩ := List.map_eq_singleton_iff.mp has
    rw [List.map_singleton, Connective.ofAll_singleton]
    exact Ldap.denotes_clause_iff a b

end Filter
end FilterLang
