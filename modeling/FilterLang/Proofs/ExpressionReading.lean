import FilterLang.Proofs.Expression

/-!
What reading makes of an expression. If groups stand only at the end of their runs, it is the terms
of the expression. If one stands in front of a connective, it never is: a field takes in the
parenthesis that opens the group, or the text is refused.
-/
namespace FilterLang
open Text

namespace Filter

private theorem readTerms_of_body_eq (s : ClauseText) {text : Text}
    (h : (body text).1 = trim s.text) : readTerms text = .ok [.clause s.clause] := by
  have hinfix : trim s.text <:+: s.text ++ [' '] :=
    (trim_isInfix s.text).trans (List.prefix_append s.text [' ']).isInfix
  have hnone : Split.find? (body text).1 = none := by
    rw [h]
    exact Split.find?_eq_none_of_isInfix hinfix s.not_connective
  have hread : Clause.read (body text).1 = .ok s.clause := by
    rw [h, Clause.read, trim_trim]
    exact s.reads
  exact (Derives.clause hnone hread).readTerms_eq

private theorem readTerms_clause (s : ClauseText) : readTerms s.text = .ok [.clause s.clause] := by
  apply readTerms_of_body_eq
  have hparens : insideParens? (trim s.text) = none := by
    apply insideParens?_of_head
    intro c hc
    exact (s.not_paren c ((trim_isInfix s.text).mem (List.mem_of_mem_head? hc))).1
  rw [body_of_trim rfl hparens]

private theorem readTerms_parens {s : ClauseText} (h : s.Opens) :
    readTerms ('(' :: s.text ++ [')']) = .ok [.clause s.clause] := by
  apply readTerms_of_body_eq
  obtain ⟨behind, hs⟩ := s.exists_passes false (.inr h)
  unfold body
  dsimp only
  rw [(isTight_enclosed rfl rfl s.text).trim_eq, hs.insideParens?]

private theorem trim_text_append (e : Expression) (k : Connective) {rest : Text}
    (hr : NonBlank rest) : trim (e.text ++ ' ' :: k.keyword ++ ' ' :: rest) =
      trimStart e.text ++ (' ' :: k.keyword ++ ' ' :: trimEnd rest) := by
  have hspace : NonBlank (' ' :: rest) := hr.append_left [' ']
  have hend : trimEnd (' ' :: rest) = ' ' :: trimEnd rest := trimEnd_append hr [' ']
  rw [trim_append e.nonBlank_text hspace, hend, List.append_assoc]

private theorem body_text_append {e : Expression} (h : e.Aligned) (k : Connective) {rest : Text}
    (hr : NonBlank rest) : body (e.text ++ ' ' :: k.keyword ++ ' ' :: rest) =
      (trimStart e.text ++ (' ' :: k.keyword ++ ' ' :: trimEnd rest), false) :=
  body_of_trim (trim_text_append e k hr) (e.insideParens?_text_append h (by simp))

/-- An operand in front of a connective is read by itself. -/
theorem readTerms_operand_append {e : Expression} {c : Clause} (h : e.Aligned)
    (he : readTerms e.text = .ok [.clause c])
    (hskip : ∀ rest, Split.Skips (trimStart e.text) (' ' :: rest)) (k : Connective) {rest : Text}
    (hr : NonBlank rest) : readTerms (e.text ++ ' ' :: k.keyword ++ ' ' :: rest) =
      (readTerms rest).map fun ts => .clause c :: .connective k :: ts := by
  have hbody := body_text_append h k hr
  have hfind := (hskip (k.keyword ++ ' ' :: trimEnd rest)).find?_connective
  have hfst : (body (e.text ++ ' ' :: k.keyword ++ ' ' :: rest)).1 =
      trimStart e.text ++ (' ' :: k.keyword ++ ' ' :: trimEnd rest) := by rw [hbody]
  rw [← hfst] at hfind
  rw [readTerms_of_find?_some hfind, hbody, readTerms_of_trim (trim_trimStart e.text), he,
    readTerms_of_trim (trim_trimEnd hr)]
  cases readTerms rest <;> rfl

/-- Operands that are no groups are read one by one. -/
theorem readTerms_flat_append {e : Expression} (hf : e.flat = true) (h : e.Aligned)
    (k : Connective) {rest : Text} (hr : NonBlank rest) :
    readTerms (e.text ++ ' ' :: k.keyword ++ ' ' :: rest) =
      (readTerms rest).map fun ts => e.terms ++ .connective k :: ts := by
  induction e generalizing k rest with
  | clause s =>
    exact readTerms_operand_append h (readTerms_clause s) s.skips_trimStart k hr
  | parens s =>
    refine readTerms_operand_append h (readTerms_parens h) ?_ k hr
    intro rest
    rw [Expression.text, Expression.trimStart_enclosed]
    exact s.skips_parens rest
  | join l j r ihl ihr =>
    obtain ⟨hfl, hfr⟩ := Bool.and_eq_true_iff.mp hf
    have hrest : NonBlank (r.text ++ ' ' :: k.keyword ++ ' ' :: rest) :=
      (r.nonBlank_text.append_right _).append_right _
    rw [Expression.text_join_append, ihl hfl h.1 j hrest, ihr hfr h.2 k hr]
    cases readTerms rest <;> simp [Except.map, Expression.terms]
  | group l j r => cases hf

private theorem exists_readTerms_of_flat_append {e : Expression} (hf : e.flat = true)
    (h : e.Aligned) {k : Connective} {rest : Text} (hr : NonBlank rest) {ts : List Term}
    (hts : readTerms (e.text ++ ' ' :: k.keyword ++ ' ' :: rest) = .ok ts) :
    ∃ us, readTerms rest = .ok us ∧ us ⊆ ts := by
  rw [readTerms_flat_append hf h k hr] at hts
  cases hread : readTerms rest with
  | error error => rw [hread] at hts; cases hts
  | ok us =>
    rw [hread] at hts
    cases Except.ok.inj hts
    exact ⟨us, rfl, List.subset_append_of_subset_right _ (List.subset_cons_self _ us)⟩

/-- The parentheses of a group are taken off, and mark its terms. -/
theorem readTerms_group {l r : Expression} {k : Connective}
    (h : (Expression.group l k r).Aligned) :
    readTerms (Expression.group l k r).text =
      (readTerms (Expression.join l k r).text).map (grouped true) := by
  obtain ⟨behind, hs⟩ := Expression.exists_passes_join h
  have hjoin : body (Expression.join l k r).text =
      (trimStart l.text ++ (' ' :: k.keyword ++ ' ' :: trimEnd r.text), false) :=
    body_text_append h.2.1 k r.nonBlank_text
  have hgroup : body (Expression.group l k r).text =
      (trimStart l.text ++ (' ' :: k.keyword ++ ' ' :: trimEnd r.text), true) := by
    change body ('(' :: (Expression.join l k r).text ++ [')']) = _
    unfold body
    dsimp only
    rw [(isTight_enclosed rfl rfl (Expression.join l k r).text).trim_eq, hs.insideParens?]
    exact congrArg (·, true) (trim_text_append l k r.nonBlank_text)
  obtain ⟨p, hp⟩ := Split.exists_find?_connective (trimStart l.text) k (trimEnd r.text)
  have hpj : Split.find? (body (Expression.join l k r).text).1 = some p := by rw [hjoin, hp]
  have hpg : Split.find? (body (Expression.group l k r).text).1 = some p := by rw [hgroup, hp]
  rw [readTerms_of_find?_some hpj, readTerms_of_find?_some hpg, hjoin, hgroup]
  cases readTerms p.left with
  | error e => rfl
  | ok left => cases readTerms p.right <;> rfl

private theorem readTerms_of_groupsLast {e : Expression} (hl : e.groupsLast = true)
    (h : e.Aligned) : readTerms e.text = .ok e.terms := by
  induction e with
  | clause s => exact readTerms_clause s
  | parens s => exact readTerms_parens h
  | join l k r _ ihr =>
    obtain ⟨hf, hr⟩ := Bool.and_eq_true_iff.mp hl
    have hjoin := readTerms_flat_append hf h.1 k r.nonBlank_text
    rw [ihr hr h.2] at hjoin
    exact hjoin
  | group l k r _ ihr =>
    obtain ⟨hf, hr⟩ := Bool.and_eq_true_iff.mp hl
    have hjoin := readTerms_flat_append hf h.2.1 k r.nonBlank_text
    rw [ihr hr h.2.2] at hjoin
    rw [readTerms_group h]
    exact congrArg (Except.map (grouped true)) hjoin

end Filter

/-- Whether a clause among the terms has a parenthesis in its field. -/
def Term.Absorb (ts : List Term) : Prop := ∃ c, Term.clause c ∈ ts ∧ '(' ∈ c.field

theorem Term.Absorb.mono {ts us : List Term} (h : Absorb ts) (hs : ts ⊆ us) : Absorb us := by
  obtain ⟨c, hc, hf⟩ := h
  exact ⟨c, hs hc, hf⟩

namespace Filter

private theorem mem_field_of_read {s : Text} {c : Clause} (h : Clause.read ('(' :: s) = .ok c) :
    '(' ∈ c.field := by
  obtain ⟨tf, tv, v, b₁, b₂, b₃, b₄, hs, hb, -⟩ := Clause.exists_text_of_read h
  have htight := (Clause.legible_of_read h).isTight_field
  obtain ⟨d, f, hf⟩ := List.exists_cons_of_ne_nil htight.ne_nil
  cases b₁ with
  | nil =>
    rw [hf] at hs
    obtain rfl : '(' = d := (List.cons.inj hs).1
    simp [hf]
  | cons b b₁ =>
    obtain rfl : '(' = b := (List.cons.inj hs).1
    have hblank : isBlank '(' = true := hb '(' (by simp)
    cases hblank

private theorem mem_field_of_opening {e : Expression} {c : Clause}
    (h : Derives ('(' :: e.opening) [.clause c]) : '(' ∈ c.field := by
  obtain ⟨u, hu, htrim⟩ := exists_trim_eq (s := []) (t := e.opening) nofun (c := '(') rfl
  have hbody : body ('(' :: e.opening) = ('(' :: u, false) :=
    body_of_trim htrim (Expression.insideParens?_opening hu)
  have hread := h.read_body
  rw [hbody] at hread
  exact mem_field_of_read hread

private theorem absorb_of_not_flat {e : Expression} (hf : e.flat = false) (h : e.Aligned)
    {k : Connective} {rest : Text} (hr : NonBlank rest) {ts : List Term}
    (hts : readTerms (e.text ++ ' ' :: k.keyword ++ ' ' :: rest) = .ok ts) : Term.Absorb ts := by
  induction e generalizing k rest ts with
  | clause s => cases hf
  | parens s => cases hf
  | join l j r ihl ihr =>
    have hrest : NonBlank (r.text ++ ' ' :: k.keyword ++ ' ' :: rest) :=
      (r.nonBlank_text.append_right _).append_right _
    rw [Expression.text_join_append] at hts
    cases hl : l.flat with
    | false => exact ihl hl h.1 hrest hts
    | true =>
      have hfr : r.flat = false := by simpa [Expression.flat, hl] using hf
      obtain ⟨us, hus, hsub⟩ := exists_readTerms_of_flat_append hl h.1 hrest hts
      exact (ihr hfr h.2 hr hus).mono hsub
  | group l j r =>
    obtain ⟨i, t, hfind⟩ := (Expression.group l j r).find?_text_append k (trimEnd rest)
    have hstart : trimStart (Expression.group l j r).text = (Expression.group l j r).text :=
      Expression.trimStart_enclosed _
    have hbody := body_text_append h k hr
    have hfst : (body ((Expression.group l j r).text ++ ' ' :: k.keyword ++ ' ' :: rest)).1 =
        (Expression.group l j r).text ++ ' ' :: k.keyword ++ ' ' :: trimEnd rest := by
      rw [hbody, hstart, List.append_assoc]
    rw [← hfst] at hfind
    obtain ⟨c, right, hl, -, rfl⟩ := (derives_of_readTerms hts).exists_halves hfind
    rw [hbody]
    exact ⟨c, List.mem_cons_self, mem_field_of_opening (e := l) hl⟩

private theorem absorb_of_join {l r : Expression} {k : Connective}
    (hl : (l.flat && r.groupsLast) = false) (h : l.Aligned)
    (ihr : r.groupsLast = false → ∀ {ts}, readTerms r.text = .ok ts → Term.Absorb ts)
    {ts : List Term} (hts : readTerms (Expression.join l k r).text = .ok ts) : Term.Absorb ts := by
  cases hf : l.flat with
  | false => exact absorb_of_not_flat hf h r.nonBlank_text hts
  | true =>
    have hr : r.groupsLast = false := by simpa [hf] using hl
    obtain ⟨us, hus, hsub⟩ := exists_readTerms_of_flat_append hf h r.nonBlank_text hts
    exact (ihr hr hus).mono hsub

private theorem absorb_of_not_groupsLast {e : Expression} (hl : e.groupsLast = false)
    (h : e.Aligned) {ts : List Term} (hts : readTerms e.text = .ok ts) : Term.Absorb ts := by
  induction e generalizing ts with
  | clause s => cases hl
  | parens s => cases hl
  | join l k r _ ihr => exact absorb_of_join hl h.1 (fun hr => ihr hr h.2) hts
  | group l k r _ ihr =>
    rw [readTerms_group h] at hts
    cases hread : readTerms (Expression.join l k r).text with
    | error error => rw [hread] at hts; cases hts
    | ok us =>
      rw [hread] at hts
      cases Except.ok.inj hts
      apply (absorb_of_join hl h.2.1 (fun hr => ihr hr h.2.2) hread).mono
      exact List.subset_cons_of_subset _ (List.subset_append_left us _)

/-- Reading gives back an expression if none of its groups stands in front of a connective. If one
does, the text is refused or a field takes in a parenthesis. -/
theorem read_expression {e : Expression} (h : e.Aligned) :
    (e.groupsLast = true → read e.text = .ok ⟨some e.text, e.terms, []⟩) ∧
    (e.groupsLast = false → ∀ f, read e.text = .ok f → Term.Absorb f.terms ∧ f.terms ≠ e.terms) := by
  constructor
  · intro hl
    rw [read, readTerms_of_groupsLast hl h]
    rfl
  · intro hl f hf
    obtain ⟨hts, -⟩ := derives_of_read hf
    have habsorb := absorb_of_not_groupsLast hl h hts.readTerms_eq
    refine ⟨habsorb, fun heq => ?_⟩
    obtain ⟨c, hc, hparen⟩ := habsorb
    exact Expression.not_paren_field_of_mem_terms (heq ▸ hc) hparen

end Filter

namespace Expression

private def clauseA : ClauseText :=
  ⟨"a eq 1".toList, ⟨['a'], .eq, .number ['1']⟩, eq_ok_of_toOption (by decide +kernel),
    by simp, by decide +kernel⟩

private def clauseB : ClauseText :=
  ⟨"b eq 2".toList, ⟨['b'], .eq, .number ['2']⟩, eq_ok_of_toOption (by decide +kernel),
    by simp, by decide +kernel⟩

private def clauseC : ClauseText :=
  ⟨"c eq 'z'".toList, ⟨['c'], .eq, .text ['z']⟩, eq_ok_of_toOption (by decide +kernel),
    by simp, by decide +kernel⟩

private def clauseX : ClauseText :=
  ⟨"\"x 'y\" eq 1".toList, ⟨"\"x 'y\"".toList, .eq, .number ['1']⟩,
    eq_ok_of_toOption (by decide +kernel), by simp, by decide +kernel⟩

def groupLast : Expression := join (clause clauseA) .or (group (clause clauseB) .and (parens clauseC))

def groupFirst : Expression := join (group (clause clauseA) .and (clause clauseB)) .or (clause clauseC)

/-- The parenthesis in front of the literal keeps its quote from being the start of a token. -/
def parensBeforeLiteral : Expression :=
  group (clause clauseA) .and (join (parens clauseX) .and (clause clauseC))

end Expression

namespace Filter
open Expression

theorem read_groupLast_groupFirst :
    read groupLast.text = .ok ⟨some groupLast.text, groupLast.terms, []⟩ ∧
      ∀ f, read groupFirst.text = .ok f → Term.Absorb f.terms ∧ f.terms ≠ groupFirst.terms := by
  have hlast : groupLast.Aligned := by decide
  have hfirst : groupFirst.Aligned := by decide
  exact ⟨(read_expression hlast).1 rfl, (read_expression hfirst).2 rfl⟩

/-- Other terms come out of a group in front of a connective, and of one whose closing parenthesis
seems to stand in a literal. -/
theorem exists_read_ne_terms :
    (∃ f, groupFirst.text = "(a eq 1 and b eq 2) or c eq 'z'".toList ∧
      read groupFirst.text = .ok f ∧ f.terms ≠ groupFirst.terms ∧ Term.Absorb f.terms) ∧
    ∃ f, parensBeforeLiteral.text = "(a eq 1 and (\"x 'y\" eq 1) and c eq 'z')".toList ∧
      parensBeforeLiteral.groupsLast = true ∧
      read parensBeforeLiteral.text = .ok f ∧ f.terms ≠ parensBeforeLiteral.terms ∧
      Term.Absorb f.terms := by
  constructor
  · refine ⟨⟨some groupFirst.text, [.clause ⟨['(', 'a'], .eq, .number ['1']⟩, .connective .and,
      .clause ⟨['b'], .eq, .field ['2', ')']⟩, .connective .or, .clause clauseC.clause], []⟩,
      rfl, eq_ok_of_toOption (by decide +kernel), by decide, ?_⟩
    exact ⟨_, List.mem_cons_self, by decide⟩
  · refine ⟨⟨some parensBeforeLiteral.text, [.clause ⟨['(', 'a'], .eq, .number ['1']⟩,
      .connective .and, .openParen, .clause ⟨"\"x 'y\"".toList, .eq, .field ['1', ')']⟩,
      .connective .and, .clause clauseC.clause, .closeParen], []⟩,
      rfl, rfl, eq_ok_of_toOption (by decide +kernel), by decide, ?_⟩
    exact ⟨_, List.mem_cons_self, by decide⟩

end Filter
end FilterLang
