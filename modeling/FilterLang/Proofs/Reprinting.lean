import FilterLang.Proofs.DisplayReading

/-!
When the text of a filter that was read is read as the same filter. Four things can go wrong, and
nothing else: a text operand that holds a connective, a connective as an operand before the last, a
clause that stands in parentheses of its own, and a run whose text is in parentheses where the run
is not, or the other way round.
-/
namespace FilterLang
open Text

namespace Chain
variable {α : Type}

def isGroup : Chain α → Bool
  | group _ _ _ => true
  | single _ | link _ _ _ => false

/-- The run itself and what is behind each of its connectives. -/
def runs : Chain α → List (Chain α)
  | single a => [single a]
  | link a k r => link a k r :: r.runs
  | group a k r => group a k r :: r.runs

/-- Whether the text of a run is taken apart in the way in which the run is put together. -/
structure Reprintable (p : Chain Clause) : Prop where
  texts : ∀ c ∈ p.atoms, c.operand.holdsConnective = false
  words : ∀ c ∈ p.atoms.dropLast, ∀ k : Connective, c.operand ≠ .field k.keyword
  clauses : ∀ c ∈ p.atoms, insideParens? c.display = none
  runs : ∀ q ∈ p.runs, (insideParens? q.display).isSome = q.isGroup

instance (p : Chain Clause) : Decidable p.Reprintable :=
  decidable_of_iff ((∀ c ∈ p.atoms, c.operand.holdsConnective = false) ∧
      (∀ c ∈ p.atoms.dropLast, c.operand ≠ .field Connective.and.keyword ∧
        c.operand ≠ .field Connective.or.keyword) ∧
      (∀ c ∈ p.atoms, insideParens? c.display = none) ∧
      ∀ q ∈ p.runs, (insideParens? q.display).isSome = q.isGroup) <| by
    constructor
    · rintro ⟨htexts, hwords, hclauses, hruns⟩
      refine ⟨htexts, fun c hc k => ?_, hclauses, hruns⟩
      cases k with
      | and => exact (hwords c hc).1
      | or => exact (hwords c hc).2
    · rintro ⟨htexts, hwords, hclauses, hruns⟩
      exact ⟨htexts, fun c hc => ⟨hwords c hc .and, hwords c hc .or⟩, hclauses, hruns⟩

private theorem atoms_ne_nil (p : Chain α) : p.atoms ≠ [] := by
  cases p <;> exact List.cons_ne_nil _ _

theorem reprintable_single {c : Clause} : (single c).Reprintable ↔
    c.operand.holdsConnective = false ∧ insideParens? c.display = none := by
  constructor
  · intro h
    exact ⟨h.texts c (List.mem_singleton_self c), h.clauses c (List.mem_singleton_self c)⟩
  · rintro ⟨hk, hp⟩
    exact ⟨List.forall_mem_singleton.mpr hk, nofun, List.forall_mem_singleton.mpr hp,
      List.forall_mem_singleton.mpr (by rw [display, hp]; rfl)⟩

private theorem reprintable_cons {p r : Chain Clause} {c : Clause} (ha : p.atoms = c :: r.atoms)
    (hr : p.runs = p :: r.runs) : p.Reprintable ↔
      (insideParens? p.display).isSome = p.isGroup ∧ c.operand.holdsConnective = false ∧
      insideParens? c.display = none ∧ (∀ k : Connective, c.operand ≠ .field k.keyword) ∧
      r.Reprintable := by
  have hlast : p.atoms.dropLast = c :: r.atoms.dropLast := by
    rw [ha, List.dropLast_cons_of_ne_nil r.atoms_ne_nil]
  constructor
  · rintro ⟨htexts, hwords, hclauses, hruns⟩
    rw [ha, List.forall_mem_cons] at htexts hclauses
    rw [hlast, List.forall_mem_cons] at hwords
    rw [hr, List.forall_mem_cons] at hruns
    exact ⟨hruns.1, htexts.1, hclauses.1, hwords.1,
      ⟨htexts.2, hwords.2, hclauses.2, hruns.2⟩⟩
  · rintro ⟨hparens, hk, hp, hne, ⟨htexts, hwords, hclauses, hruns⟩⟩
    refine ⟨?_, ?_, ?_, ?_⟩
    · rw [ha]
      exact List.forall_mem_cons.mpr ⟨hk, htexts⟩
    · rw [hlast]
      exact List.forall_mem_cons.mpr ⟨hne, hwords⟩
    · rw [ha]
      exact List.forall_mem_cons.mpr ⟨hp, hclauses⟩
    · rw [hr]
      exact List.forall_mem_cons.mpr ⟨hparens, hruns⟩

/-- Where no parenthesis is in a field or a bare operand, only connectives can be in the way. -/
theorem reprintable_iff_of_parenFree {p : Chain Clause} (h : ∀ c ∈ p.atoms, c.ParenFree) :
    p.Reprintable ↔ (∀ c ∈ p.atoms, c.operand.holdsConnective = false) ∧
      ∀ c ∈ p.atoms.dropLast, ∀ k : Connective, c.operand ≠ .field k.keyword := by
  have hruns : ∀ q ∈ p.runs, (insideParens? q.display).isSome = q.isGroup := by
    induction p with
    | single c =>
      have hc := (h c (List.mem_singleton_self c)).insideParens?_display
      exact List.forall_mem_singleton.mpr (by rw [display, hc]; rfl)
    | link c k r ih =>
      obtain ⟨hc, hr⟩ := List.forall_mem_cons.mp h
      have hnone : insideParens? (link c k r).display = none := by
        rw [display, List.append_assoc]
        exact insideParens?_of_head (hc.head?_display _)
      exact List.forall_mem_cons.mpr ⟨by rw [hnone]; rfl, ih hr⟩
    | group c k r ih =>
      obtain ⟨hc, hr⟩ := List.forall_mem_cons.mp h
      have hpass := passes_display (p := link c k r) h false
      have hsome : insideParens? (group c k r).display = some (link c k r).display :=
        hpass.insideParens?
      exact List.forall_mem_cons.mpr ⟨by rw [hsome]; rfl, ih hr⟩
  constructor
  · intro hp
    exact ⟨hp.texts, hp.words⟩
  · rintro ⟨htexts, hwords⟩
    exact ⟨htexts, hwords, fun c hc => (h c hc).insideParens?_display, hruns⟩

end Chain

namespace Operand

private theorem text_or_display_eq {clause v : Text} {t : Token} {o : Operand}
    (ht : Lexeme.Spells v t) (h : ofToken clause t = .ok o) :
    (∃ s, o = .text s) ∨ v = o.display := by
  cases ht with
  | @literal q body content closed hq hbody =>
    cases closed with
    | false => cases h
    | true => exact .inl ⟨content, (Except.ok.inj h).symm⟩
  | word hw =>
    right
    unfold ofToken at h
    cases Except.ok.inj h
    split <;> rfl

end Operand

namespace Clause

private theorem exists_length_lt_of_read {s : Text} {c : Clause} (h : read s = .ok c) :
    ∃ v : Text, v ≠ [] ∧ ((∃ t, c.operand = .text t) ∨ v = c.operand.display) ∧
      c.field.length + c.operator.keyword.length + v.length < s.length := by
  obtain ⟨tf, tv, v, b₁, b₂, b₃, b₄, hs, -, hgap, -, -, hv, ho⟩ := exists_text_of_read h
  have hclosed : ∀ content, tv ≠ .quoted content false := by
    rintro content rfl
    cases ho
  refine ⟨v, (hv.isTight hclosed).ne_nil, Operand.text_or_display_eq hv ho, ?_⟩
  have hpos := List.length_pos_iff.mpr hgap
  have hlength := congrArg List.length hs
  simp only [List.length_append] at hlength
  omega

private theorem length_display (c : Clause) : c.display.length =
    c.field.length + c.operator.keyword.length + c.operand.display.length + 2 := by
  simp [display, displayParts]
  omega

end Clause

namespace Filter

/-- Every clause of a filter that was read is made of tokens, without a connective in its field. -/
theorem Derives.admissible {text : Text} {ts : List Term} (h : Derives text ts) {c : Clause}
    (hc : .clause c ∈ ts) : c.Admissible := by
  obtain ⟨s, hn, hread⟩ := h.exists_read hc
  obtain ⟨tf, tv, v, b₁, b₂, b₃, b₄, hs, -⟩ := Clause.exists_text_of_read hread
  have hinfix : c.field <:+: s :=
    ⟨b₁, b₂ ++ (c.operator.keyword ++ (b₃ ++ (v ++ b₄))), by simp [hs]⟩
  exact ⟨Clause.legible_of_read hread, Split.find?_eq_none_of_isInfix hinfix hn⟩

private theorem insideParens?_of_derives_display {c : Clause} (h : c.Legible)
    (hd : Derives c.display [.clause c]) : insideParens? c.display = none := by
  -- What is left of the text without its parentheses is too short for the clause.
  rw [Option.eq_none_iff_forall_ne_some]
  intro inside hin
  have hbody : body c.display = (trim inside, true) :=
    body_of_insideParens? (by rw [h.isTight_display.trim_eq, hin])
  have hread := hd.read_body
  rw [hbody] at hread
  obtain ⟨v, -, hv, hlt⟩ := Clause.exists_length_lt_of_read (s := trim inside) hread
  have hshape := eq_of_insideParens? hin
  rcases hv with ⟨t, ht⟩ | rfl
  · rw [Clause.display_eq, ht, Operand.display, quote_eq, ← List.append_assoc] at hshape
    have hlast := (List.append_inj' hshape rfl).2
    cases hlast
  · have hle := length_trim_le inside
    have hlength := congrArg List.length hshape
    simp only [c.length_display, List.length_append, List.length_cons, List.length_nil] at hlength
    omega

private theorem not_derives_without_operand (c : Clause) :
    ¬ Derives (c.field ++ ' ' :: c.operator.keyword) [.clause c] := by
  intro hd
  obtain ⟨v, hv, -, hlt⟩ := Clause.exists_length_lt_of_read hd.read_body
  have hpos := List.length_pos_iff.mpr hv
  have hle := length_body_le (c.field ++ ' ' :: c.operator.keyword)
  simp only [List.length_append, List.length_cons] at hle
  omega

private theorem Derives.holdsConnective_eq_false {c : Clause} {text rest : Text} {ts : List Term}
    (hd : Derives text ts) (h : c.Admissible) (hb : (body text).1 = c.display ++ rest) :
    c.operand.holdsConnective = false := by
  by_contra hk
  obtain ⟨clause, herror⟩ := exists_readTerms_error h (by simpa using hk) hb
  rw [hd.readTerms_eq] at herror
  cases herror

/-- A clause comes back from its text just when neither of the two scans finds anything in it. -/
theorem derives_display_clause_iff {c : Clause} (h : c.Admissible) :
    Derives c.display [.clause c] ↔
      c.operand.holdsConnective = false ∧ insideParens? c.display = none := by
  constructor
  · intro hd
    have hnone := insideParens?_of_derives_display h.toLegible hd
    have hbody : (body c.display).1 = c.display ++ [] := by
      rw [body_of_trim h.isTight_display.trim_eq hnone, List.append_nil]
    exact ⟨hd.holdsConnective_eq_false h hbody, hnone⟩
  · rintro ⟨hk, hp⟩
    exact derives_of_readTerms (readTerms_display_clause ⟨h, hk, hp⟩)

private theorem Derives.standsAlone {c : Clause} {k : Connective} {text rest : Text}
    {ts : List Term} {parens : Bool}
    (hd : Derives text (grouped parens (.clause c :: .connective k :: ts)))
    (h : c.Admissible) (hb : (body text).1 = c.display ++ (' ' :: k.keyword ++ ' ' :: rest)) :
    c.StandsAlone ∧ (∀ j : Connective, c.operand ≠ .field j.keyword) ∧ Derives rest ts := by
  obtain ⟨-, hhalves⟩ := hd.of_grouped
  have hk := hd.holdsConnective_eq_false h hb
  have hne : ∀ j : Connective, c.operand ≠ .field j.keyword := by
    intro j hj
    have hskip := h.skips_field_operator (j.keyword ++ ' ' :: (k.keyword ++ ' ' :: rest))
    have hfind := Split.Skips.find?_connective (k := j) hskip
    have hshape : (body text).1 = c.field ++ ' ' :: c.operator.keyword ++
        (' ' :: j.keyword ++ ' ' :: (k.keyword ++ ' ' :: rest)) := by
      rw [hb]
      simp [Clause.display, Clause.displayParts, hj, Operand.display]
    rw [← hshape] at hfind
    exact not_derives_without_operand c (hhalves hfind).1
  have hskip : Split.Skips c.display (' ' :: k.keyword ++ ' ' :: rest) := by
    apply h.skips_display hk
    intro d hd
    exact .inr ⟨(Option.some.inj hd).symm, hne⟩
  have hfind := hskip.find?_connective
  rw [← hb] at hfind
  obtain ⟨hleft, hright⟩ := hhalves hfind
  obtain ⟨-, hp⟩ := (derives_display_clause_iff h).mp hleft
  exact ⟨⟨h, hk, hp⟩, hne, hright⟩

private theorem body_snd (text : Text) : (body text).2 = (insideParens? (trim text)).isSome := by
  unfold body
  dsimp only
  split
  · next inside h => rw [h]; rfl
  · next h => rw [h]; rfl

private theorem derives_display_iff_of_body {p r : Chain Clause} {c : Clause} {k : Connective}
    (h : c.Admissible) (htrim : trim p.display = p.display)
    (hterms : p.terms = grouped p.isGroup (.clause c :: .connective k :: r.terms))
    (hbody : (insideParens? p.display).isSome = p.isGroup →
      body p.display = (c.display ++ (' ' :: k.keyword ++ ' ' :: r.display), p.isGroup)) :
    Derives p.display p.terms ↔
      (insideParens? p.display).isSome = p.isGroup ∧ c.operand.holdsConnective = false ∧
      insideParens? c.display = none ∧ (∀ j : Connective, c.operand ≠ .field j.keyword) ∧
      Derives r.display r.terms := by
  rw [hterms]
  constructor
  · intro hd
    have hparens : (insideParens? p.display).isSome = p.isGroup := by
      rw [← htrim, ← body_snd]
      exact hd.of_grouped.1
    obtain ⟨hc, hne, hr⟩ := hd.standsAlone h (congrArg Prod.fst (hbody hparens))
    exact ⟨hparens, hc.operand_whole, hc.not_parens, hne, hr⟩
  · rintro ⟨hparens, hk, hp, hne, hr⟩
    apply derives_of_readTerms
    rw [readTerms_of_body ⟨h, hk, hp⟩ hne (hbody hparens), hr.readTerms_eq]
    rfl

private theorem derives_display_iff {p : Chain Clause} (h : ∀ c ∈ p.atoms, c.Admissible) :
    Derives p.display p.terms ↔ p.Reprintable := by
  induction p with
  | single c =>
    rw [Chain.reprintable_single]
    exact derives_display_clause_iff (h c (List.mem_singleton_self c))
  | link c k r ih =>
    obtain ⟨hc, hr⟩ := List.forall_mem_cons.mp h
    have htrim := (Chain.isTight_display fun d hd => (h d hd).toLegible).trim_eq
    have hrest := ih hr
    rw [Chain.reprintable_cons rfl rfl, ← hrest]
    refine derives_display_iff_of_body hc htrim rfl fun hparens => ?_
    rw [body_of_trim htrim (by simpa [Chain.isGroup] using hparens), Chain.display,
      List.append_assoc]
    rfl
  | group c k r ih =>
    obtain ⟨hc, hr⟩ := List.forall_mem_cons.mp h
    have htrim := (Chain.isTight_display fun d hd => (h d hd).toLegible).trim_eq
    have hlink : trim (Chain.link c k r).display = (Chain.link c k r).display :=
      (Chain.isTight_display (p := Chain.link c k r) fun d hd => (h d hd).toLegible).trim_eq
    have hrest := ih hr
    rw [Chain.reprintable_cons rfl rfl, ← hrest]
    refine derives_display_iff_of_body hc htrim rfl fun hparens => ?_
    obtain ⟨inside, hin⟩ := Option.isSome_iff_exists.mp hparens
    obtain rfl : (Chain.link c k r).display = inside :=
      (List.append_inj' (List.cons.inj (eq_of_insideParens? hin)).2 rfl).1
    rw [body_of_insideParens? (by rw [htrim, hin]), hlink, Chain.display, List.append_assoc]
    rfl

private theorem Derives.admissible_atoms {text : Text} {p : Chain Clause}
    (h : Derives text p.terms) : ∀ c ∈ p.atoms, c.Admissible := by
  intro c hc
  rw [← p.clauses_terms] at hc
  exact h.admissible (Term.mem_filterMap_asClause.mp hc)

/-- A filter that was read holds a run of operands, and its text is read as the same terms just when
the run is reprintable. -/
theorem read_display_iff_reprintable {text : Text} {f : Filter} (h : read text = .ok f) :
    (∃ p : Chain Clause, f.terms = p.terms) ∧ ∀ p : Chain Clause, f.terms = p.terms →
      (read f.display = .ok ⟨some f.display, f.terms, []⟩ ↔ p.Reprintable) := by
  obtain ⟨hts, -⟩ := derives_of_read h
  constructor
  · obtain ⟨p, hp⟩ := exists_chain_of_derives hts
    exact ⟨p, hp.symm⟩
  · intro p hp
    rw [hp] at hts
    rw [← derives_display_iff hts.admissible_atoms, ← display_eq hp, hp]
    constructor
    · intro hread
      exact (derives_of_read hread).1
    · intro hd
      rw [read, hd.readTerms_eq]
      rfl

theorem read_display_of_group_of_escape :
    let p : Chain Clause := .link ⟨['a'], .eq, .text "x (\"y\"".toList⟩ .or
      (.group ⟨['b'], .gt, .number ['1']⟩ .and (.single ⟨['c'], .ne, .field "and".toList⟩))
    let q : Chain Clause := .single ⟨['a'], .eq, .text "x and y".toList⟩
    ∃ f g, read "a eq 'x (\"y\"'  or ( b gt 1 and (c ne and))".toList = .ok f ∧
      f.terms = p.terms ∧ read f.display = .ok ⟨some f.display, f.terms, []⟩ ∧
      read "a eq \"x \\and y\"".toList = .ok g ∧
      g.terms = q.terms ∧ read g.display ≠ .ok ⟨some g.display, g.terms, []⟩ := by
  intro p q
  have hf : read "a eq 'x (\"y\"'  or ( b gt 1 and (c ne and))".toList =
      .ok ⟨some "a eq 'x (\"y\"'  or ( b gt 1 and (c ne and))".toList, p.terms, []⟩ :=
    eq_ok_of_toOption (by decide +kernel)
  have hg : read "a eq \"x \\and y\"".toList =
      .ok ⟨some "a eq \"x \\and y\"".toList, q.terms, []⟩ := eq_ok_of_toOption (by decide +kernel)
  have hp : p.Reprintable := by decide +kernel
  have hq : ¬ q.Reprintable := by decide +kernel
  refine ⟨_, _, hf, rfl, ?_, hg, rfl, ?_⟩
  · exact ((read_display_iff_reprintable hf).2 p rfl).mpr hp
  · intro hread
    exact hq (((read_display_iff_reprintable hg).2 q rfl).mp hread)

/-- An escaped connective is printed without its backslash, so that the text is refused. Of two pairs
of parentheses around a clause one is lost, and then the other. -/
theorem exists_read_display_ne :
    (∃ f, read "a eq \"x \\and y\"".toList = .ok f ∧ ∀ g, read f.display ≠ .ok g) ∧
      ∃ f g, read "((a eq 1))".toList = .ok f ∧ read f.display = .ok g ∧ g.terms ≠ f.terms := by
  constructor
  · let f : Filter := ⟨some "a eq \"x \\and y\"".toList,
      [.clause ⟨['a'], .eq, .text "x and y".toList⟩], []⟩
    have hnone : (read f.display).toOption = none := by decide +kernel
    refine ⟨f, eq_ok_of_toOption (by decide +kernel), ?_⟩
    intro g hg
    rw [hg] at hnone
    cases hnone
  · exact ⟨⟨some "((a eq 1))".toList, [.clause ⟨"(a".toList, .eq, .field "1)".toList⟩], []⟩,
      ⟨some "(a eq 1)".toList, [.clause ⟨['a'], .eq, .number ['1']⟩], []⟩,
      eq_ok_of_toOption (by decide +kernel), eq_ok_of_toOption (by decide +kernel), by decide⟩

end Filter
end FilterLang
