import FilterLang.Document
import FilterLang.Proofs.LdapReading
import FilterLang.Proofs.SelectionFolding

/-!
Filters put together term by term. Filtering goes on where the terms so far have left it: an `and`
at the end has put all records aside for the clause that is to come, while an `or` has not changed
the results. Clauses without any connective between them each add to the results, though the search
filter requires all of them.
-/
namespace FilterLang

namespace Selection
variable {α : Type}

private theorem foldl_step_clauses (holds : Clause → α → Bool) (all : List α) (cs : List Clause)
    (s : Selection α) :
    (cs.map Term.clause).foldl (step holds all) s =
      ⟨s.results ++ cs.flatMap fun c => s.candidates.filter (holds c), s.candidates⟩ := by
  induction cs generalizing s with
  | nil => simp
  | cons c cs ih =>
    rw [List.map_cons, List.foldl_cons, ih]
    simp [step]

private theorem results_foldl_step_behind (holds : Clause → α → Bool) (all : List α)
    (k : Connective) (p : Chain Clause) (s : Selection α) :
    (p.terms.foldl (step holds all) (step holds all s (.connective k))).results =
      p.links.foldl (extend holds all) (extend holds all s.results (k, p.first)) := by
  rw [results_foldl_step]
  cases k with
  | and => rfl
  | or => rfl

end Selection

namespace Levels

private theorem finish_pending (inmost : Level) (pending : Option Connective) (outer : List Level) :
    finish { inmost with pending := pending } outer = finish inmost outer := by
  cases outer with
  | nil => rfl
  | cons around outer => rfl

end Levels

namespace Filter
variable {α : Type}

theorem toDocument_addConnective (f : Filter) (k : Connective) :
    (f.addConnective k).toDocument = f.toDocument := by
  unfold toDocument
  dsimp only [addConnective, extend]
  rw [List.foldl_append]
  exact Levels.finish_pending _ (some k) _

-- an `or` changes the candidates only, an `and` moves the results there
theorem evaluate_addOr (record : α → Record) (f : Filter) (all : List α) :
    (f.addConnective .or).evaluate record all = f.evaluate record all := by
  rw [evaluate, Term.select, addConnective, extend, List.foldl_append]
  rfl

theorem evaluate_addAnd (record : α → Record) (f : Filter) (all : List α) :
    (f.addConnective .and).evaluate record all = [] := by
  rw [evaluate, Term.select, addConnective, extend, List.foldl_append]
  rfl

theorem evaluate_addConnective_extend (record : α → Record) (f : Filter) (all : List α)
    (k : Connective) (p : Chain Clause) :
    ((f.addConnective k).extend p.terms).evaluate record all =
      p.links.foldl (Selection.extend (fun c x => c.holds (record x)) all)
        (Selection.extend (fun c x => c.holds (record x)) all (f.evaluate record all)
          (k, p.first)) := by
  rw [evaluate, Term.select, extend, addConnective, extend, List.foldl_append, List.foldl_append]
  exact Selection.results_foldl_step_behind _ all k p _

/-- A connective at the end leaves the document as it is. An `or` there leaves the results of
filtering as they are too, but an `and` leaves none: all of them are candidates for what comes
behind it. Whatever run is put there goes on from the results that the filter had without the
connective. -/
theorem toDocument_evaluate_addConnective (f : Filter) :
    (∀ k, (f.addConnective k).toDocument = f.toDocument) ∧
    ∀ {α : Type} (record : α → Record) (all : List α),
      (f.addConnective .or).evaluate record all = f.evaluate record all ∧
      (f.addConnective .and).evaluate record all = [] ∧
      ∀ (k : Connective) (p : Chain Clause),
        ((f.addConnective k).extend p.terms).evaluate record all =
          p.links.foldl (Selection.extend (fun c x => c.holds (record x)) all)
            (Selection.extend (fun c x => c.holds (record x)) all (f.evaluate record all)
              (k, p.first)) := by
  refine ⟨toDocument_addConnective f, fun record all => ⟨?_, ?_, ?_⟩⟩
  · exact evaluate_addOr record f all
  · exact evaluate_addAnd record f all
  · exact evaluate_addConnective_extend record f all

/-- The one record of which the clause holds is gone behind an `and`. -/
theorem exists_evaluate_addConnective_ne :
    ¬ ∀ (text : Text) (f : Filter), read text = .ok f → ∀ (k : Connective) (records : List Record),
      (f.addConnective k).evaluate id records = f.evaluate id records ∧
        (f.addConnective k).toDocument = f.toDocument := by
  intro h
  let r : Record := fun name => if name = ['a'] then some (.text ['1']) else none
  have hread : read "a eq '1'".toList =
      .ok ⟨some "a eq '1'".toList, [.clause ⟨['a'], .eq, .text ['1']⟩], []⟩ :=
    eq_ok_of_toOption (by decide +kernel)
  have hsame := congrArg List.length (h _ _ hread .and [r]).1
  revert hsame
  decide +kernel

/-- The filter of clauses pushed one after another, with no connective between them. -/
def sideBySide (cs : List Clause) : Filter := cs.foldl addClause empty

private theorem terms_foldl_addClause (f : Filter) (cs : List Clause) :
    (cs.foldl addClause f).terms = f.terms ++ cs.map Term.clause := by
  induction cs generalizing f with
  | nil => simp
  | cons c cs ih =>
    rw [List.foldl_cons, ih]
    simp [addClause, extend]

theorem terms_sideBySide (cs : List Clause) : (sideBySide cs).terms = cs.map Term.clause :=
  terms_foldl_addClause empty cs

theorem clauses_sideBySide (cs : List Clause) : (sideBySide cs).clauses = cs := by
  rw [clauses, terms_sideBySide, List.filterMap_map]
  exact List.filterMap_some

theorem connectives_sideBySide (cs : List Clause) : (sideBySide cs).connectives = [] := by
  rw [connectives, terms_sideBySide, List.filterMap_map, List.filterMap_eq_nil_iff]
  intro c _
  rfl

/-- The search filter of clauses side by side requires all of them. -/
theorem exists_toLdap_sideBySide {cs : List Clause} (h : cs ≠ []) :
    ∃ s, (sideBySide cs).toLdap = .ok s ∧ ∀ as, (sideBySide cs).Valuation as →
      ∀ b, Ldap.Denotes s as b ↔ b = Connective.and.ofAll (as.map Prod.snd) := by
  have hsole : (sideBySide cs).soleConnective = .ok none := by
    rw [soleConnective, connectives_sideBySide]
  rw [toLdap, hsole, clauses_sideBySide]
  refine ⟨_, rfl, fun as has b => ?_⟩
  rw [Valuation, clauses_sideBySide] at has
  subst has
  rw [List.flatMap_map, List.length_map]
  cases as with
  | nil => exact absurd rfl h
  | cons a as =>
    cases as with
    | nil =>
      rw [List.map_singleton, Connective.ofAll_singleton]
      simpa using Ldap.denotes_clause_iff a b
    | cons a' as => exact Ldap.denotes_combine_iff .and (a :: a' :: as) b

theorem evaluate_sideBySide (record : α → Record) (cs : List Clause) (all : List α) :
    (sideBySide cs).evaluate record all =
      cs.flatMap fun c => all.filter fun x => c.holds (record x) := by
  rw [evaluate, Term.select, terms_sideBySide, Selection.foldl_step_clauses]
  rfl

private theorem count_filter_finRange {n : ℕ} (p : Fin n → Bool) (i : Fin n) :
    ((List.finRange n).filter p).count i = if p i then 1 else 0 := by
  split
  · next hi => rw [List.count_filter hi, List.count_finRange]
  · next hi =>
    rw [List.count_eq_zero]
    exact fun hmem => hi (List.mem_filter.mp hmem).2

/-- An element is selected once for each of the clauses that hold of it. -/
theorem count_positions_sideBySide (record : α → Record) (cs : List Clause) (all : List α)
    (i : Fin all.length) :
    ((sideBySide cs).positions record all).count i =
      cs.countP fun c => c.holds (record (all.get i)) := by
  rw [positions, evaluate_sideBySide]
  induction cs with
  | nil => rfl
  | cons c cs ih =>
    rw [List.flatMap_cons, List.count_append, ih, count_filter_finRange, List.countP_cons]
    exact Nat.add_comm _ _

private theorem filter_all_sublist {holds : Clause → α → Bool} {cs : List Clause} {c : Clause}
    (hc : c ∈ cs) (all : List α) :
    (all.filter fun x => cs.all (holds · x)).Sublist (all.filter (holds c)) := by
  apply List.monotone_filter_right
  intro x hx
  exact List.all_eq_true.mp hx c hc

private theorem flatMap_filter_eq_iff {holds : Clause → α → Bool} {cs : List Clause} (h : cs ≠ [])
    (all : List α) :
    (cs.flatMap fun c => all.filter (holds c)) = (all.filter fun x => cs.all (holds · x)) ↔
      cs.length = 1 ∨ (cs.flatMap fun c => all.filter (holds c)) = [] := by
  obtain ⟨c, cs, rfl⟩ := List.exists_cons_of_ne_nil h
  cases cs with
  | nil => simp
  | cons d cs =>
    let chosen := all.filter fun x => (c :: d :: cs).all (holds · x)
    have hc : chosen.Sublist (all.filter (holds c)) := filter_all_sublist List.mem_cons_self all
    have hd : chosen.Sublist (all.filter (holds d)) :=
      filter_all_sublist (List.mem_cons_of_mem c List.mem_cons_self) all
    constructor
    · -- the chosen ones are counted among those of the first clause and those of the second
      intro heq
      have hlength : _ = chosen.length := congrArg List.length heq
      have hlc := hc.length_le
      have hld := hd.length_le
      apply Or.inr
      apply List.eq_nil_of_length_eq_zero
      simp only [List.flatMap_cons, List.length_append] at hlength ⊢
      omega
    · rintro (hone | hnil)
      · simp at hone
      · have hcnil : all.filter (holds c) = [] := (List.append_eq_nil_iff.mp hnil).1
        rw [hcnil] at hc
        exact hnil.trans (List.sublist_nil.mp hc).symm

private theorem mem_evaluate_sideBySide (record : α → Record) (cs : List Clause) (all : List α)
    (x : α) : x ∈ (sideBySide cs).evaluate record all ↔
      x ∈ all ∧ ∃ c ∈ cs, c.holds (record x) = true := by
  rw [evaluate_sideBySide]
  simp only [List.mem_flatMap, List.mem_filter]
  constructor
  · rintro ⟨c, hc, hx, hholds⟩
    exact ⟨hx, c, hc, hholds⟩
  · rintro ⟨hx, c, hc, hholds⟩
    exact ⟨c, hc, hx, hholds⟩

private theorem exists_iff_forall_iff {holds : Clause → Bool} {cs : List Clause} (h : cs ≠ []) :
    ((∃ c ∈ cs, holds c = true) ↔ ∀ c ∈ cs, holds c = true) ↔
      ∀ c ∈ cs, ∀ d ∈ cs, holds c = holds d := by
  constructor
  · intro hsome c hc d hd
    rw [Bool.eq_iff_iff]
    exact ⟨fun hholds => hsome.mp ⟨c, hc, hholds⟩ d hd, fun hholds => hsome.mp ⟨d, hd, hholds⟩ c hc⟩
  · intro hsame
    constructor
    · rintro ⟨d, hd, hholds⟩ c hc
      rw [hsame c hc d hd, hholds]
    · intro hall
      obtain ⟨c, hc⟩ := List.exists_mem_of_ne_nil cs h
      exact ⟨c, hc, hall c hc⟩

/-- Filtering by clauses side by side selects the elements of which all of them hold, in any order
and number, just when no element lies between them. -/
theorem mem_evaluate_sideBySide_iff {cs : List Clause} (h : cs ≠ []) (record : α → Record)
    (all : List α) :
    (∀ x ∈ all, x ∈ (sideBySide cs).evaluate record all ↔ ∀ c ∈ cs, c.holds (record x) = true) ↔
      ∀ x ∈ all, ∀ c ∈ cs, ∀ d ∈ cs, c.holds (record x) = d.holds (record x) := by
  refine forall₂_congr fun x hx => ?_
  rw [mem_evaluate_sideBySide, ← exists_iff_forall_iff h]
  simp only [hx, true_and]

/-- The search filter of clauses side by side requires all of them, but filtering gives an element
once for each clause that holds of it. So the results are the elements of which all clauses hold
only if there is one clause, or if none of them holds of any element; and they have the same
elements only if the clauses agree on each. -/
theorem evaluate_sideBySide_eq_iff {cs : List Clause} (h : cs ≠ []) :
    (∃ s, (sideBySide cs).toLdap = .ok s ∧ ∀ as, (sideBySide cs).Valuation as →
      ∀ b, Ldap.Denotes s as b ↔ b = Connective.and.ofAll (as.map Prod.snd)) ∧
    ∀ {α : Type} (record : α → Record) (all : List α),
      ((sideBySide cs).evaluate record all =
        cs.flatMap fun c => all.filter fun x => c.holds (record x)) ∧
      (∀ i : Fin all.length, ((sideBySide cs).positions record all).count i =
        cs.countP fun c => c.holds (record (all.get i))) ∧
      ((sideBySide cs).evaluate record all =
          (all.filter fun x => cs.all fun c => c.holds (record x)) ↔
        cs.length = 1 ∨ (sideBySide cs).evaluate record all = []) ∧
      ((∀ x ∈ all, x ∈ (sideBySide cs).evaluate record all ↔
          ∀ c ∈ cs, c.holds (record x) = true) ↔
        ∀ x ∈ all, ∀ c ∈ cs, ∀ d ∈ cs, c.holds (record x) = d.holds (record x)) := by
  refine ⟨exists_toLdap_sideBySide h, fun record all => ⟨?_, ?_, ?_, ?_⟩⟩
  · exact evaluate_sideBySide record cs all
  · exact count_positions_sideBySide record cs all
  · rw [evaluate_sideBySide]
    exact flatMap_filter_eq_iff h all
  · exact mem_evaluate_sideBySide_iff h record all

def twoClauses : List Clause := [⟨['a'], .eq, .text ['1']⟩, ⟨['b'], .eq, .text ['2']⟩]

theorem evaluate_sideBySide_twoClauses :
    (sideBySide twoClauses).toLdap = .ok "(&(a=1)(b=2))".toList ∧
      ∀ {α : Type} (record : α → Record) (all : List α),
        ((sideBySide twoClauses).evaluate record all =
            (all.filter fun x => twoClauses.all fun c => c.holds (record x)) ↔
          (sideBySide twoClauses).evaluate record all = []) := by
  have hne : twoClauses ≠ [] := by decide
  obtain ⟨-, hevaluate⟩ := evaluate_sideBySide_eq_iff hne
  refine ⟨by decide +kernel, fun record all => ?_⟩
  exact (hevaluate record all).2.2.1.trans (or_iff_right (by decide))

/-- A record with the first field only is selected, though the second clause does not hold of it. -/
theorem exists_evaluate_sideBySide_ne :
    ¬ ∀ cs : List Clause, cs ≠ [] → ∀ records : List Record,
      (sideBySide cs).evaluate id records = records.filter fun r => cs.all fun c => c.holds r := by
  intro h
  let r : Record := fun name => if name = ['a'] then some (.text ['1']) else none
  have hsame := congrArg List.length (h twoClauses (by decide) [r])
  revert hsame
  decide +kernel

end Filter
end FilterLang
