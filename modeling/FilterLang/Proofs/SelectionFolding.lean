import FilterLang.Proofs.Grouping
import FilterLang.Proofs.PointwiseSelection

/-!
Filtering as a fold over the clauses of a filter that was read, without parentheses: each `and`
keeps those of the elements so far of which its clause holds, and each `or` adds all elements of
which its clause holds. So an element comes at most once more than there are `or`s.
-/
namespace FilterLang

namespace Selection
variable {α : Type}

def extend (holds : Clause → α → Bool) (all selected : List α) : Connective × Clause → List α
  | (.and, c) => selected.filter (holds c)
  | (.or, c) => selected ++ all.filter (holds c)

end Selection

namespace Chain
variable {α : Type}

def first : Chain α → α
  | single a | link a _ _ | group a _ _ => a

def links : Chain α → List (Connective × α)
  | single _ => []
  | link _ k r | group _ k r => (k, r.first) :: r.links

private theorem atoms_eq (p : Chain α) : p.atoms = p.first :: p.links.map Prod.snd := by
  induction p with
  | single a => rfl
  | link a k r ih | group a k r ih => simp [atoms, first, links, ih]

private theorem connectives_eq (p : Chain α) : p.connectives = p.links.map Prod.fst := by
  induction p with
  | single a => rfl
  | link a k r ih | group a k r ih => simp [connectives, links, ih]

private theorem terms_ungroup_eq_links (p : Chain Clause) : p.ungroup.terms =
    .clause p.first :: p.links.flatMap fun l => [.connective l.1, .clause l.2] := by
  induction p with
  | single c => rfl
  | link c k r ih | group c k r ih =>
    rw [ungroup, terms, ih]
    rfl

end Chain

namespace Selection
variable {α : Type} {holds : Clause → α → Bool} {all : List α}

/-- The two lists of a selection are one in front of each clause: the results so far, and those of
the candidates that the clause will add to them. -/
theorem results_foldl_step (p : Chain Clause) (s : Selection α) :
    (p.terms.foldl (step holds all) s).results =
      p.links.foldl (extend holds all) (s.results ++ s.candidates.filter (holds p.first)) := by
  induction p generalizing s with
  | single c => rfl
  | link c k r ih =>
    cases k with
    | and => exact ih _
    | or => exact ih _
  | group c k r ih =>
    rw [Chain.terms, List.foldl_append]
    cases k with
    | and => exact ih _
    | or => exact ih _

private theorem foldl_extend_of_or_not_mem {links : List (Connective × Clause)}
    (h : .or ∉ links.map Prod.fst) (selected : List α) :
    links.foldl (extend holds all) selected =
      selected.filter fun x => links.all fun l => holds l.2 x := by
  induction links generalizing selected with
  | nil => simp
  | cons l links ih =>
    obtain ⟨k, c⟩ := l
    rw [List.map_cons, List.mem_cons, not_or] at h
    cases k with
    | or => exact absurd rfl h.1
    | and =>
      rw [List.foldl_cons, ih h.2, extend, List.filter_filter]
      simp only [List.all_cons, Bool.and_comm]

private theorem count_foldl_extend_le [DecidableEq α] (h : all.Nodup)
    (links : List (Connective × Clause)) (selected : List α) (x : α) :
    (links.foldl (extend holds all) selected).count x ≤
      selected.count x + (links.map Prod.fst).count .or := by
  induction links generalizing selected with
  | nil => simp
  | cons l links ih =>
    obtain ⟨k, c⟩ := l
    have hrest := ih (extend holds all selected (k, c))
    cases k with
    | and =>
      have hkept : (selected.filter (holds c)).count x ≤ selected.count x :=
        List.filter_sublist.count_le x
      have hsame : (((.and, c) :: links).map Prod.fst).count .or = (links.map Prod.fst).count .or :=
        List.count_cons_of_ne (by decide : Connective.and ≠ .or)
      rw [hsame]
      exact hrest.trans (Nat.add_le_add_right hkept _)
    | or =>
      have hadded : (all.filter (holds c)).count x ≤ 1 :=
        List.nodup_iff_count_le_one.mp (h.filter _) x
      have hmore : (((.or, c) :: links).map Prod.fst).count .or =
          (links.map Prod.fst).count .or + 1 := List.count_cons_self
      have hsum : (extend holds all selected (.or, c)).count x =
          selected.count x + (all.filter (holds c)).count x := List.count_append
      rw [hsum] at hrest
      rw [List.foldl_cons, hmore]
      omega

end Selection

namespace Filter
variable {α : Type} {f : Filter} {p : Chain Clause}

theorem evaluate_of_chain (h : f.terms = p.terms) (record : α → Record) (all : List α) :
    f.evaluate record all = p.links.foldl (Selection.extend (fun c x => c.holds (record x)) all)
      (all.filter fun x => p.first.holds (record x)) := by
  rw [evaluate, Term.select, h]
  exact Selection.results_foldl_step p ⟨[], all⟩

theorem evaluate_of_or_not_mem (h : f.terms = p.terms) (hor : .or ∉ f.connectives)
    (record : α → Record) (all : List α) :
    f.evaluate record all = all.filter fun x => f.clauses.all fun c => c.holds (record x) := by
  rw [connectives_eq h, Chain.connectives_eq] at hor
  rw [evaluate_of_chain h, Selection.foldl_extend_of_or_not_mem hor, List.filter_filter,
    clauses_eq h, Chain.atoms_eq]
  simp [List.all_map, Function.comp_def, Bool.and_comm]

theorem count_positions_le (h : f.terms = p.terms) (record : α → Record) (all : List α)
    (i : Fin all.length) :
    (f.positions record all).count i ≤ 1 + f.connectives.count .or := by
  have hfirst : ((List.finRange all.length).filter fun j => p.first.holds (record all[j])).count i ≤
      1 := List.nodup_iff_count_le_one.mp ((List.nodup_finRange _).filter _) i
  rw [positions, evaluate_of_chain h, connectives_eq h, Chain.connectives_eq]
  exact (Selection.count_foldl_extend_le (List.nodup_finRange _) _ _ i).trans
    (Nat.add_le_add_right hfirst _)

/-- Filtering is a fold over the clauses of a filter that was read. It starts with the elements of
which the first clause holds; each `and` keeps elements, and each `or` adds some. So without an `or`
it gives the elements of which all clauses hold, each once and in their order, and otherwise no
element more than once and once for each `or`. -/
theorem evaluate_eq_foldl {text : Text} (h : read text = .ok f) :
    ∃ (c : Clause) (links : List (Connective × Clause)),
      f.withoutParens.terms =
        .clause c :: links.flatMap (fun l => [.connective l.1, .clause l.2]) ∧
      ∀ {α : Type} (record : α → Record) (all : List α),
        f.evaluate record all =
          links.foldl (Selection.extend (fun c x => c.holds (record x)) all)
            (all.filter fun x => c.holds (record x)) ∧
        (f.positions record all).map all.get = f.evaluate record all ∧
        (.or ∉ f.connectives →
          f.evaluate record all = all.filter (fun x => f.clauses.all fun c => c.holds (record x)) ∧
          (f.positions record all).Pairwise (· < ·)) ∧
        ∀ i, (f.positions record all).count i ≤ 1 + f.connectives.count .or := by
  obtain ⟨p, hf⟩ := exists_chain_of_read h
  have hp : f.terms = p.terms := by rw [hf]
  have hterms : f.withoutParens.terms = p.ungroup.terms := by
    rw [withoutParens, hp, p.terms_ungroup]
  refine ⟨p.first, p.links, hterms.trans p.terms_ungroup_eq_links,
    fun record all => ⟨?_, ?_, ?_, ?_⟩⟩
  · exact evaluate_of_chain hp record all
  · exact map_get_positions record f all
  · intro hor
    refine ⟨evaluate_of_or_not_mem hp hor record all, ?_⟩
    rw [positions, evaluate_of_or_not_mem hp hor]
    exact (List.pairwise_lt_finRange _).filter _
  · exact count_positions_le hp record all

/-- The group has no part in it: the `and` before it does not narrow what the `or` inside adds. -/
theorem evaluate_and_groupOfOr :
    ∃ f, read "a eq 1 and (b eq 2 or c eq 3)".toList = .ok f ∧
      ∀ {α : Type} (record : α → Record) (all : List α),
        let holds (field spelling : Text) (x : α) :=
          Clause.holds ⟨field, .eq, .number spelling⟩ (record x)
        f.evaluate record all =
          (all.filter (holds ['a'] ['1'])).filter (holds ['b'] ['2']) ++
            all.filter (holds ['c'] ['3']) ∧
        ∀ i, (f.positions record all).count i ≤ 2 := by
  have hread : read "a eq 1 and (b eq 2 or c eq 3)".toList =
      .ok ⟨some "a eq 1 and (b eq 2 or c eq 3)".toList, [.clause ⟨['a'], .eq, .number ['1']⟩,
        .connective .and, .openParen, .clause ⟨['b'], .eq, .number ['2']⟩, .connective .or,
        .clause ⟨['c'], .eq, .number ['3']⟩, .closeParen], []⟩ :=
    eq_ok_of_toOption (by decide +kernel)
  obtain ⟨c, links, hterms, hfold⟩ := evaluate_eq_foldl hread
  refine ⟨_, hread, fun record all => ?_⟩
  obtain ⟨hevaluate, -, -, hcount⟩ := hfold record all
  have hlinks : Term.clause ⟨['a'], .eq, .number ['1']⟩ = .clause c ∧
      [Term.connective .and, .clause ⟨['b'], .eq, .number ['2']⟩, .connective .or,
        .clause ⟨['c'], .eq, .number ['3']⟩] =
          links.flatMap (fun l => [.connective l.1, .clause l.2]) := List.cons.inj hterms
  match links, hlinks with
  | [(k, d), (j, e)], ⟨hc, hde⟩ =>
    simp only [List.flatMap_cons, List.flatMap_nil, List.cons_append, List.nil_append,
      List.append_nil, List.cons.injEq, Term.clause.injEq, Term.connective.injEq] at hc hde
    obtain ⟨rfl, rfl, rfl, rfl, -⟩ := hde
    subst hc
    exact ⟨hevaluate, hcount⟩
  | [], ⟨_, h⟩ | [_], ⟨_, h⟩ | _ :: _ :: _ :: _, ⟨_, h⟩ => simp at h

end Filter
end FilterLang
