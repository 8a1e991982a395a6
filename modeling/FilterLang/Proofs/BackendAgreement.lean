import FilterLang.Proofs.DocumentReading
import FilterLang.Proofs.Grouping
import FilterLang.Proofs.LdapReading
import FilterLang.Proofs.Precedence
import FilterLang.Proofs.SelectionReading

/-!
Which backends agree on a filter that was read. With one connective all of them do; otherwise the
condition depends on precedence, and filtering on the parentheses.
-/
namespace FilterLang

namespace Filter
variable {f : Filter} {p : Chain Clause} {q : Chain Valued}

private theorem mem_connectives {k : Connective} : k ∈ f.connectives ↔ .connective k ∈ f.terms := by
  rw [connectives, List.mem_filterMap]
  constructor
  · rintro ⟨t, ht, hk⟩
    cases t <;> simp_all [Term.asConnective]
  · exact fun h => ⟨_, h, rfl⟩

/-- The valuations of a run are the runs of the same shape with values. -/
theorem valuation_iff (h : f.terms = p.terms) (as : List Valued) :
    f.Valuation as ↔ ∃ q : Chain Valued, q.map Prod.fst = p ∧ q.atoms = as := by
  rw [Valuation, clauses_eq h]
  constructor
  · exact Chain.exists_map_eq
  · rintro ⟨q, rfl, rfl⟩
    exact (q.atoms_map Prod.fst).symm

private theorem forall_valuation_iff {D E : List Valued → Bool → Prop} {t u : Chain Valued → Bool}
    (h : f.terms = p.terms) (hD : ∀ q, q.map Prod.fst = p → ∀ b, D q.atoms b ↔ b = t q)
    (hE : ∀ q, q.map Prod.fst = p → ∀ b, E q.atoms b ↔ b = u q) :
    (∀ as, f.Valuation as → ∀ b, D as b ↔ E as b) ↔
      ∀ q : Chain Valued, q.map Prod.fst = p → t q = u q := by
  constructor
  · intro hDE q hq
    have hb := hDE q.atoms ((valuation_iff h _).mpr ⟨q, hq, rfl⟩) (t q)
    rw [hD q hq, hE q hq] at hb
    exact hb.mp rfl
  · intro htu as has b
    obtain ⟨q, hq, rfl⟩ := (valuation_iff h as).mp has
    rw [hD q hq, hE q hq, htu q hq]

theorem denotes_toDocument_iff (h : f.terms = p.terms) (hq : q.map Prod.fst = p) (b : Bool) :
    Document.Denotes f.toDocument q.atoms b ↔ b = q.truth id := by
  rw [toDocument_eq h, ← hq]
  exact Document.denotes_iff q b

theorem denotes_toSql_iff (h : f.terms = p.terms) (hs : f.suffix = []) (hq : q.map Prod.fst = p)
    (style : SqlStyle) (b : Bool) :
    Sql.Denotes style .condition (f.toSql style) q.atoms b ↔ b = q.sqlTruth .start := by
  rw [toSql, h, hs, List.append_nil, ← hq]
  exact Sql.denotes_iff style q b

theorem denotes_withoutParens_iff (h : f.terms = p.terms) (hq : q.map Prod.fst = p) (b : Bool) :
    Document.Denotes f.withoutParens.toDocument q.atoms b ↔ b = q.ungroup.truth id := by
  have hterms : f.withoutParens.terms = p.ungroup.terms := by
    rw [p.terms_ungroup, ← h]
    rfl
  rw [← q.atoms_ungroup]
  exact denotes_toDocument_iff hterms (by rw [← q.ungroup_map, hq]) b

private theorem outcomes_eq (h : f.terms = p.terms) (r : Record) :
    f.outcomes r = (p.map fun c => (c, c.holds r)).atoms := by
  rw [Chain.atoms_map, ← clauses_eq h, outcomes]

private theorem denotes_withoutParens_iff_holds (h : f.terms = p.terms) (r : Record) (b : Bool) :
    Document.Denotes f.withoutParens.toDocument (f.outcomes r) b ↔ b = f.holds r := by
  rw [outcomes_eq h, holds_eq h]
  exact denotes_withoutParens_iff h (by simp [Function.comp_def, ← Function.id_def]) b

private theorem forall_toDocument_iff_withoutParens (h : f.terms = p.terms) :
    (∀ as, f.Valuation as → ∀ b,
      Document.Denotes f.toDocument as b ↔ Document.Denotes f.withoutParens.toDocument as b) ↔
        Term.keepsGroups none f.terms = true := by
  rw [h, ← p.forall_truth_eq_ungroup_iff]
  exact forall_valuation_iff h (fun _ hq => denotes_toDocument_iff h hq)
    fun _ hq => denotes_withoutParens_iff h hq

private theorem forall_toSql_iff_toDocument (h : f.terms = p.terms) (hs : f.suffix = [])
    (style : SqlStyle) :
    (∀ as, f.Valuation as → ∀ b,
      Sql.Denotes style .condition (f.toSql style) as b ↔ Document.Denotes f.toDocument as b) ↔
        Term.andsFirst false f.terms = true := by
  rw [h, ← p.forall_truth_eq_sqlTruth_iff]
  simp only [eq_comm (a := Chain.truth id _)]
  exact forall_valuation_iff h (fun _ hq => denotes_toSql_iff h hs hq style)
    fun _ hq => denotes_toDocument_iff h hq

/-- The search filter is refused just when both connectives stand in the filter. If it is not, all
backends give the conjunction or disjunction of all clauses, whatever the parentheses. -/
theorem backends_agree_of_toLdap {text : Text} (h : read text = .ok f) :
    (f.toLdap = .error .mixedConnectives ↔
      .connective .and ∈ f.terms ∧ .connective .or ∈ f.terms) ∧
    (∀ e, f.toLdap = .error e → e = .mixedConnectives) ∧
    ∀ s, f.toLdap = .ok s → ∃ k : Connective, (∀ j, .connective j ∈ f.terms → j = k) ∧
      (∀ as, f.Valuation as → ∀ b,
        (Ldap.Denotes s as b ↔ b = k.ofAll (as.map Prod.snd)) ∧
        (Document.Denotes f.toDocument as b ↔ b = k.ofAll (as.map Prod.snd)) ∧
        ∀ style, Sql.Denotes style .condition (f.toSql style) as b ↔
          b = k.ofAll (as.map Prod.snd)) ∧
      ∀ (α : Type) (record : α → Record) (all : List α) (x : α),
        x ∈ f.evaluate record all ↔
          x ∈ all ∧ k.ofAll ((f.outcomes (record x)).map Prod.snd) = true := by
  obtain ⟨p, rfl⟩ := exists_chain_of_read h
  refine ⟨?_, fun e he => ((toLdap_eq_error_iff _ e).mp he).1, fun s hs => ?_⟩
  · rw [toLdap_eq_error_iff, mem_connectives, mem_connectives]
    simp
  obtain ⟨k, hk, hldap⟩ := denotes_iff_of_toLdap rfl hs
  refine ⟨k, fun j hj => hk j ?_, fun as has b => ?_, fun α record all x => ?_⟩
  · rw [← connectives_eq (f := ⟨some text, p.terms, []⟩) rfl]
    exact mem_connectives.mpr hj
  · obtain ⟨q, hmap, rfl⟩ := (valuation_iff rfl as).mp has
    have hq : ∀ j ∈ q.connectives, j = k := by
      rw [← q.connectives_map Prod.fst, hmap]
      exact hk
    refine ⟨hldap q.atoms (by rw [← hmap, q.atoms_map]) b, ?_, fun style => ?_⟩
    · rw [← Chain.truth_id_of_uniform hq]
      exact denotes_toDocument_iff rfl hmap b
    · rw [← Chain.sqlTruth_of_uniform hq]
      exact denotes_toSql_iff rfl rfl hmap style b
  · have hq : ∀ j ∈ (p.map fun c => (c, c.holds (record x))).ungroup.connectives, j = k := by
      simpa using hk
    rw [mem_evaluate rfl, Chain.truth_id_of_uniform hq, Chain.atoms_ungroup, outcomes_eq rfl]

theorem backends_agree_on_group :
    ∃ f, read "a eq '1' and (b eq '2' and c eq '3')".toList = .ok f ∧
      f.toLdap = .ok "(&(a=1)(b=2)(c=3))".toList ∧
      ∃ k : Connective, ∀ as, f.Valuation as → ∀ b,
        Document.Denotes f.toDocument as b ↔ b = k.ofAll (as.map Prod.snd) := by
  let text := "a eq '1' and (b eq '2' and c eq '3')".toList
  let p : Chain Clause := .link ⟨['a'], .eq, .text ['1']⟩ .and
    (.group ⟨['b'], .eq, .text ['2']⟩ .and (.single ⟨['c'], .eq, .text ['3']⟩))
  have hread : read text = .ok ⟨some text, p.terms, []⟩ := eq_ok_of_toOption (by decide +kernel)
  have hldap : toLdap ⟨some text, p.terms, []⟩ = .ok "(&(a=1)(b=2)(c=3))".toList :=
    eq_ok_of_toOption (by decide +kernel)
  obtain ⟨k, -, hk, -⟩ := (backends_agree_of_toLdap hread).2.2 _ hldap
  exact ⟨_, hread, hldap, k, fun as has b => (hk as has b).2.1⟩

/-- Filtering and the document agree on every record once the parentheses are left out. With them
they agree if every group stands at the front or repeats the connective before it, and only then
does the document keep its value without parentheses, whatever the clauses are worth. -/
theorem denotes_toDocument_iff_holds {text : Text} (h : read text = .ok f) :
    (∀ r b, Document.Denotes f.withoutParens.toDocument (f.outcomes r) b ↔ b = f.holds r) ∧
    (Term.keepsGroups none f.terms = true →
      ∀ r b, Document.Denotes f.toDocument (f.outcomes r) b ↔ b = f.holds r) ∧
    ((∀ as, f.Valuation as → ∀ b,
      Document.Denotes f.toDocument as b ↔ Document.Denotes f.withoutParens.toDocument as b) ↔
        Term.keepsGroups none f.terms = true) := by
  obtain ⟨p, rfl⟩ := exists_chain_of_read h
  have hholds := denotes_withoutParens_iff_holds (f := ⟨some text, p.terms, []⟩) rfl
  have hgroups := forall_toDocument_iff_withoutParens (f := ⟨some text, p.terms, []⟩) rfl
  refine ⟨hholds, fun hk r b => ?_, hgroups⟩
  exact (hgroups.mpr hk _ (valuation_outcomes _ r) b).trans (hholds r b)

def mixedGroup : Chain Clause :=
  .link ⟨['a'], .eq, .text ['1']⟩ .or
    (.group ⟨['b'], .eq, .text ['2']⟩ .and (.single ⟨['c'], .eq, .text ['3']⟩))

private theorem read_mixedGroup :
    read "a eq '1' or (b eq '2' and c eq '3')".toList =
      .ok ⟨some "a eq '1' or (b eq '2' and c eq '3')".toList, mixedGroup.terms, []⟩ :=
  eq_ok_of_toOption (by decide +kernel)

theorem denotes_withoutParens_mixedGroup :
    ∃ f, read "a eq '1' or (b eq '2' and c eq '3')".toList = .ok f ∧
      ∀ r b, Document.Denotes f.withoutParens.toDocument (f.outcomes r) b ↔ b = f.holds r :=
  ⟨_, read_mixedGroup, (denotes_toDocument_iff_holds read_mixedGroup).1⟩

/-- The document is true of a record with nothing but the first field. Filtering narrows down to the
records with the last one. -/
theorem exists_document_ne_holds :
    ¬ ∀ (text : Text) (f : Filter), read text = .ok f →
      ∀ r, f.holds r = true ↔ Document.Denotes f.toDocument (f.outcomes r) true := by
  intro h
  let r : Record := fun name => if name = ['a'] then some (.text ['1']) else none
  have hr := h _ _ read_mixedGroup r
  rw [outcomes_eq rfl, denotes_toDocument_iff (p := mixedGroup) rfl (by decide), holds_eq rfl] at hr
  revert hr
  decide +kernel

/-- The condition and the document have one value each. They agree, whatever the clauses are worth,
just when no `and` stands behind an `or` of the same group. -/
theorem denotes_toSql_iff_toDocument {text : Text} (h : read text = .ok f) (style : SqlStyle) :
    (∀ as, f.Valuation as →
      (∃! b, Sql.Denotes style .condition (f.toSql style) as b) ∧
        ∃! b, Document.Denotes f.toDocument as b) ∧
    ((∀ as, f.Valuation as → ∀ b,
      Sql.Denotes style .condition (f.toSql style) as b ↔ Document.Denotes f.toDocument as b) ↔
        Term.andsFirst false f.terms = true) := by
  obtain ⟨p, rfl⟩ := exists_chain_of_read h
  refine ⟨fun as has => ?_, forall_toSql_iff_toDocument rfl rfl style⟩
  obtain ⟨q, hq, rfl⟩ := (valuation_iff rfl as).mp has
  constructor
  · refine ⟨q.sqlTruth .start, (denotes_toSql_iff rfl rfl hq style _).mpr rfl, fun b hb => ?_⟩
    exact (denotes_toSql_iff rfl rfl hq style b).mp hb
  · refine ⟨q.truth id, (denotes_toDocument_iff rfl hq _).mpr rfl, fun b hb => ?_⟩
    exact (denotes_toDocument_iff rfl hq b).mp hb

def mixedRun : Chain Clause :=
  .link ⟨['a'], .eq, .text ['1']⟩ .or
    (.link ⟨['b'], .eq, .text ['2']⟩ .and (.single ⟨['c'], .eq, .text ['3']⟩))

private theorem read_mixedRun :
    read "a eq '1' or b eq '2' and c eq '3'".toList =
      .ok ⟨some "a eq '1' or b eq '2' and c eq '3'".toList, mixedRun.terms, []⟩ :=
  eq_ok_of_toOption (by decide +kernel)

theorem denotes_toSql_mixedGroup :
    ∃ f, read "a eq '1' or (b eq '2' and c eq '3')".toList = .ok f ∧
      ∀ as, f.Valuation as → ∀ b,
        Sql.Denotes Dialect.ansi.plain .condition (f.toSql Dialect.ansi.plain) as b ↔
          Document.Denotes f.toDocument as b :=
  ⟨_, read_mixedGroup, (denotes_toSql_iff_toDocument read_mixedGroup _).2.mpr (by decide)⟩

/-- With only the last clause false, the condition is true by its first alternative. -/
theorem exists_toSql_ne_toDocument :
    ¬ ∀ (text : Text) (f : Filter), read text = .ok f → ∀ as, f.Valuation as →
      ∀ b, Sql.Denotes Dialect.ansi.plain .condition (f.toSql Dialect.ansi.plain) as b ↔
        Document.Denotes f.toDocument as b := by
  intro h
  let q : Chain Valued := .link (⟨['a'], .eq, .text ['1']⟩, true) .or
    (.link (⟨['b'], .eq, .text ['2']⟩, true) .and (.single (⟨['c'], .eq, .text ['3']⟩, false)))
  have hq := h _ _ read_mixedRun q.atoms ((valuation_iff rfl _).mpr ⟨q, rfl, rfl⟩) true
  rw [denotes_toSql_iff (p := mixedRun) rfl rfl rfl,
    denotes_toDocument_iff (p := mixedRun) rfl rfl] at hq
  revert hq
  decide

end Filter
end FilterLang
