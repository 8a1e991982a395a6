import FilterLang.Proofs.Chain
import FilterLang.Proofs.ClauseGrammar
import FilterLang.Proofs.ParenScan

/-!
Parentheses around filter text whose own ones all stand in literals. They are taken off, and mark
the terms if there are two clauses or more, just when the scan from inside finds that the last one
closes the first. Right behind a parenthesis it takes no quote to open a literal, so it only goes
wrong if the text starts with a literal that holds a blank or a parenthesis.
-/
namespace FilterLang
open Text

def Token.isQuoted : Token → Bool
  | .word _ => false
  | .quoted _ _ => true

namespace Text

/-- Whether every parenthesis of clause text stands in a literal. -/
def ParensQuoted (s : Text) : Prop :=
  ∀ x ∈ Lexeme.all s, x.token.isQuoted = true ∨ ∀ c ∈ x.raw, c ≠ '(' ∧ c ≠ ')'

instance (s : Text) : Decidable s.ParensQuoted :=
  inferInstanceAs (Decidable (∀ x ∈ Lexeme.all s,
    x.token.isQuoted = true ∨ ∀ c ∈ x.raw, c ≠ '(' ∧ c ≠ ')'))

def IsSolid (s : Text) : Prop := ∀ c ∈ s, isBlank c = false ∧ c ≠ '(' ∧ c ≠ ')'

private theorem ParensQuoted.head_ne {s : Text} (h : s.ParensQuoted) : ∀ c ∈ s.head?, c ≠ '(' := by
  rintro c hc rfl
  obtain ⟨r, rfl⟩ := List.head?_eq_some_iff.mp hc
  have hnext : Lexeme.next? ('(' :: r) = some (⟨[], '(' :: r.takeWhile (!isBlank ·),
      .word ('(' :: r.takeWhile (!isBlank ·))⟩, r.dropWhile (!isBlank ·)) := rfl
  rcases h _ (by rw [Lexeme.all_of_next? hnext]; exact List.mem_cons_self) with hq | hp
  · cases hq
  · exact (hp '(' List.mem_cons_self).1 rfl

private theorem head?_trim_not_blank (s : Text) : ∀ c ∈ (trim s).head?, isBlank c = false := by
  intro c hc
  obtain ⟨t, ht⟩ := trimEnd_isPrefix (trimStart s)
  have hstart : (s.dropWhile isBlank).head? = some c := by
    change (trimStart s).head? = some c
    rw [← ht, List.head?_append]
    exact Option.or_eq_some_iff.mpr (.inl hc)
  have hstop := List.head?_dropWhile_not isBlank s
  rw [hstart] at hstop
  simpa using hstop

private theorem exists_passes_of_trim {s : Text} {before : Bool} {solid : Prop} (hne : trim s ≠ [])
    (hb : before = true ∨ (∃ c ∈ s.head?, isBlank c = true) ∨ solid)
    (h : ∀ start, start = true ∨ solid →
      ∃ behind, Passes (trim s) (.plain start) (.plain behind)) :
    ∃ behind, Passes s (.plain before) (.plain behind) := by
  obtain ⟨b₁, b₂, hs, h₁, h₂⟩ := exists_blanks_trim s
  have hstart : (before || !b₁.isEmpty) = true ∨ solid := by
    cases b₁ with
    | cons d b₁ => simp
    | nil =>
      rcases hb with hb | ⟨c, hc, hblank⟩ | hsolid
      · simp [hb]
      · rw [hs, List.nil_append, List.head?_append_of_ne_nil _ hne] at hc
        rw [head?_trim_not_blank s c hc] at hblank
        cases hblank
      · exact .inr hsolid
  obtain ⟨behind, hpass⟩ := h _ hstart
  have hall := (passes_blanks h₁ before).append (hpass.append (passes_blanks h₂ behind))
  rw [← hs] at hall
  exact ⟨_, hall⟩

private theorem Escapes.passes {q : Char} {inside content : Text} (h : Escapes q inside content) :
    Passes inside (.quoted q false) (.quoted q false) := by
  induction h with
  | nil => exact passes_nil _
  | @plain c _ _ hq hc _ ih =>
    have hnext : Scan.next c (.quoted q false) = .quoted q false := by simp [Scan.next, hq, hc]
    exact (hnext ▸ passes_quoted c q false).append ih
  | escaped e _ ih =>
    exact (passes_quoted '\\' q false).append ((passes_quoted e q true).append ih)

end Text

namespace Clause

private theorem Side.passes {a : Side} {before : Bool}
    (h : a.token.isQuoted = true ∨ ∀ c ∈ a.text, c ≠ '(' ∧ c ≠ ')')
    (hb : before = true ∨ IsSolid a.text) : Passes a.text (.plain before) (.plain false) := by
  cases a with
  | word w hw => exact passes_word hw (h.resolve_left Bool.false_ne_true) before
  | literal q inside content hq hinside =>
    cases before with
    | true =>
      have hopen : Scan.next q (.plain true) = .quoted q false := by simp [Scan.next, hq]
      have hclose : Scan.next q (.quoted q false) = .plain false := by
        simp [Scan.next, (of_isQuote hq).2]
      have hparen : q ≠ '(' ∧ q ≠ ')' := by
        rcases eq_of_isQuote hq with rfl | rfl <;> decide
      have hend : Passes [q] (.quoted q false) (.plain false) := hclose ▸ passes_quoted q q false
      exact .cons (fun _ => hparen) (hopen ▸ hinside.passes.append hend)
    | false =>
      have hsolid := hb.resolve_left Bool.false_ne_true
      have hpass := passes_behind (fun c hc => (hsolid c hc).2) (.plain false)
      rwa [behind_of_not_blank fun c hc => (hsolid c hc).1] at hpass

/-- The scan passes over a clause at the start of a token, or if its field would pass for a word. -/
theorem Spelling.passes {d : Spelling} (h : d.text.ParensQuoted) {before : Bool}
    (hb : before = true ∨ IsSolid d.field.text) : Passes d.text (.plain before) (.plain false) := by
  have hsides : ∀ x ∈ d.lexemes, x.token.isQuoted = true ∨ ∀ c ∈ x.raw, c ≠ '(' ∧ c ≠ ')' := by
    rw [← d.all_text]
    exact h
  have hlast : (⟨d.operandGap, d.operand.text, d.operand.token⟩ : Lexeme) ∈ d.lexemes := by
    simp [lexemes]
  have hfield := Side.passes (hsides _ List.mem_cons_self) hb
  have hoperand : Passes d.operand.text (.plain true) (.plain false) :=
    Side.passes (hsides _ hlast) (.inl rfl)
  have hkey (tokenStart : Bool) := passes_word d.operator.isPlainWord_keyword.toIsWord
    d.operator.isPlainWord_keyword.not_paren tokenStart
  have hgap : (false || !d.operandGap.isEmpty) = true := by simpa using d.operandGap_ne_nil
  have hspace := passes_blanks d.operandGap_blank false
  rw [hgap] at hspace
  exact hfield.append ((passes_blanks d.fieldGap_blank false).append
    ((hkey _).append (hspace.append hoperand)))

private theorem Spelling.text_ne_nil (d : Spelling) : d.text ≠ [] :=
  List.append_ne_nil_of_left_ne_nil (d.field.spells.isTight d.field.token_ne_open).ne_nil _

private theorem head?_field_of_read {s : Text} {c : Clause} (h : read s = .ok c) :
    c.field.head? = (trim s).head? := by
  obtain ⟨_, _, _, _, _, hs, -⟩ := exists_trim_of_read h
  rw [hs, List.head?_append_of_ne_nil _ (legible_of_read h).isTight_field.ne_nil]

end Clause

namespace Filter

/-- The texts of the clauses of filter text without groups: it is cut at every connective. -/
def clauseTexts (text : Text) : List Text :=
  match _h : Split.find? (trim text) with
  | none => [trim text]
  | some p => trim p.left :: clauseTexts p.right
termination_by text.length
decreasing_by
  have := Split.length_lt_of_find? _h
  have := Text.length_trim_le text
  omega

private theorem clauseTexts_of_find?_none {text : Text} (h : Split.find? (trim text) = none) :
    clauseTexts text = [trim text] := by
  rw [clauseTexts]
  split
  · rfl
  · next p hp => rw [h] at hp; cases hp

private theorem clauseTexts_of_find?_some {text : Text} {p : Split}
    (h : Split.find? (trim text) = some p) :
    clauseTexts text = trim p.left :: clauseTexts p.right := by
  rw [clauseTexts]
  split
  · next hn => rw [h] at hn; cases hn
  · next q hq =>
    cases Option.some.inj (h.symm.trans hq)
    rfl

private theorem head?_trim_left {text : Text} {p : Split} (h : Split.find? (trim text) = some p) :
    (trim p.left).head? = (trim text).head? := by
  have hs := Split.eq_of_find? h
  have hblank := head?_trim_not_blank text
  cases hleft : p.left with
  | nil =>
    -- The connective would be what the trimmed text starts with, but it starts with a blank itself.
    rw [hs, hleft] at hblank
    have hspace : isBlank ' ' = false := hblank ' ' rfl
    cases hspace
  | cons c u =>
    rw [hs, hleft] at hblank ⊢
    obtain ⟨v, -, hv⟩ := exists_trim_eq (s := []) (t := u) nofun (hblank c rfl)
    rw [List.nil_append, List.nil_append] at hv
    rw [hv]
    rfl

private theorem head?_trim_ne {t : Text} (h : ∀ s ∈ clauseTexts t, s.ParensQuoted) :
    ∀ c ∈ (trim t).head?, c ≠ '(' := by
  cases hp : Split.find? (trim t) with
  | none =>
    rw [clauseTexts_of_find?_none hp] at h
    exact (h _ List.mem_cons_self).head_ne
  | some p =>
    rw [clauseTexts_of_find?_some hp] at h
    rw [← head?_trim_left hp]
    exact (h _ List.mem_cons_self).head_ne

/-- Such text is in no parentheses itself. -/
theorem body_of_parensQuoted {t : Text} (h : ∀ s ∈ clauseTexts t, s.ParensQuoted) :
    body t = (trim t, false) :=
  body_of_trim rfl (insideParens?_of_head (head?_trim_ne h))

variable {t : Text} {ts : List Term}

private theorem parensQuoted_halves {p : Split} (hp : Split.find? (trim t) = some p)
    (h : ∀ s ∈ clauseTexts t, s.ParensQuoted) :
    clauseTexts p.left = [trim p.left] ∧ (∀ s ∈ clauseTexts p.left, s.ParensQuoted) ∧
      ∀ s ∈ clauseTexts p.right, s.ParensQuoted := by
  have hleft : clauseTexts p.left = [trim p.left] :=
    clauseTexts_of_find?_none
      (Split.find?_eq_none_of_isInfix (trim_isInfix _) (Split.find?_left hp))
  rw [clauseTexts_of_find?_some hp, List.forall_mem_cons] at h
  exact ⟨hleft, hleft ▸ List.forall_mem_singleton.mpr h.1, h.2⟩

private theorem map_read_clauseTexts (hd : Derives t ts) (h : ∀ s ∈ clauseTexts t, s.ParensQuoted) :
    (clauseTexts t).map Clause.read = (ts.filterMap Term.asClause).map .ok := by
  induction hd with
  | clause hn hc =>
    rw [body_of_parensQuoted h] at hn hc
    rw [clauseTexts_of_find?_none hn, List.map_singleton, hc]
    rfl
  | @split t p c right hp hl hr ihl ihr =>
    rw [body_of_parensQuoted h] at hp ⊢
    obtain ⟨hone, hleft, hright⟩ := parensQuoted_halves hp h
    have hread := ihl hleft
    rw [hone] at hread
    rw [clauseTexts_of_find?_some hp, List.map_cons, ihr hright]
    exact congrArg (· :: _) (List.cons.inj hread).1

/-- The scan passes over the text at the start of a token, or if it stands there behind the first
blanks, or if the first field would pass for a word. -/
theorem exists_passes (hd : Derives t ts) (h : ∀ s ∈ clauseTexts t, s.ParensQuoted)
    (before : Bool) (hb : before = true ∨ (∃ c ∈ t.head?, isBlank c = true) ∨
      ∀ c ∈ (ts.filterMap Term.asClause).head?, IsSolid c.field) :
    ∃ behind, Passes t (.plain before) (.plain behind) := by
  induction hd generalizing before with
  | @clause t c hn hc =>
    rw [body_of_parensQuoted h] at hn hc
    rw [clauseTexts_of_find?_none hn, List.forall_mem_singleton] at h
    obtain ⟨d, htext, rfl⟩ := Clause.Spelling.exists_of_read hc
    rw [trim_trim] at htext
    have hne : trim t ≠ [] := by
      rw [← htext]
      exact d.text_ne_nil
    refine exists_passes_of_trim hne hb fun start hs => ⟨false, ?_⟩
    rw [← htext] at h ⊢
    exact d.passes h (hs.imp_right fun hsolid => hsolid d.clause rfl)
  | @split t p c right hp hl hr ihl ihr =>
    rw [body_of_parensQuoted h] at hp hb
    obtain ⟨-, hleft, hright⟩ := parensQuoted_halves hp h
    have htrim : trim t = _ := Split.eq_of_find? hp
    refine exists_passes_of_trim (by simp [htrim]) hb fun start hs => ?_
    have hfirst : start = true ∨ ∀ d ∈ ([.clause c].filterMap Term.asClause).head?,
      IsSolid d.field := hs
    obtain ⟨_, hpl⟩ := ihl hleft start (hfirst.imp_right .inr)
    obtain ⟨behind, hpr⟩ := ihr hright true (.inl rfl)
    have hall := (hpl.append (passes_connective p.connective _)).append hpr
    rw [htrim]
    exact ⟨behind, by simpa using hall⟩

def enclosed (ts : List Term) : List Term :=
  if (ts.filterMap Term.asClause).length = 1 then ts else .openParen :: ts ++ [.closeParen]

private theorem enclosed_split (hd : Derives t ts) (c : Clause) (k : Connective) :
    enclosed (.clause c :: .connective k :: ts) =
      grouped true (.clause c :: .connective k :: ts) := by
  obtain ⟨p, rfl⟩ := exists_chain_of_derives hd
  have hpos : 0 < p.atoms.length := by cases p <;> simp [Chain.atoms]
  have hlength :
      ((Term.clause c :: .connective k :: p.terms).filterMap Term.asClause).length ≠ 1 := by
    change (p.terms.filterMap Term.asClause).length + 1 ≠ 1
    rw [p.clauses_terms]
    omega
  exact if_neg hlength

/-- Parentheses that are taken off mark the terms of two clauses or more. -/
theorem readTerms_parens_of_insideParens? (hd : Derives t ts)
    (h : ∀ s ∈ clauseTexts t, s.ParensQuoted)
    (hin : insideParens? ('(' :: t ++ [')']) = some t) :
    readTerms ('(' :: t ++ [')']) = .ok (enclosed ts) := by
  have hbody : body ('(' :: t ++ [')']) = (trim t, true) :=
    body_of_insideParens? (by rw [(isTight_enclosed rfl rfl t).trim_eq, hin])
  cases hd with
  | clause hn hc =>
    rw [body_of_parensQuoted h] at hn hc
    exact (Derives.clause (by rwa [hbody]) (by rwa [hbody])).readTerms_eq
  | @split _ p c right hp hl hr =>
    rw [body_of_parensQuoted h] at hp ⊢
    have hfind : Split.find? (body ('(' :: t ++ [')'])).1 = some p := by rwa [hbody]
    have hread := (Derives.split hfind hl hr).readTerms_eq
    rw [hbody] at hread
    exact hread.trans (congrArg Except.ok (enclosed_split hr c p.connective).symm)

/-- If the last parenthesis is not found to close the first, a group is not marked, and one clause
gets the first parenthesis into its field. -/
theorem readTerms_parens_ne (hd : Derives t ts) (h : ∀ s ∈ clauseTexts t, s.ParensQuoted)
    (hin : insideParens? ('(' :: t ++ [')']) = none) :
    readTerms ('(' :: t ++ [')']) ≠ .ok (enclosed ts) := by
  have htrim := (isTight_enclosed (a := '(') (b := ')') rfl rfl t).trim_eq
  have hbody := body_of_trim htrim hin
  intro hread
  have hderives := derives_of_readTerms hread
  cases hd with
  | @clause _ c hn hc =>
    rw [body_of_parensQuoted h] at hc
    have hhead := Clause.head?_field_of_read (Derives.read_body hderives)
    rw [hbody, htrim, Clause.head?_field_of_read hc, trim_trim] at hhead
    exact head?_trim_ne h '(' hhead rfl
  | @split _ p c right hp hl hr =>
    rw [body_of_parensQuoted h] at hderives
    have henclosed := enclosed_split hr c p.connective
    rw [grouped, if_neg Bool.false_ne_true, henclosed] at hderives
    have hparens := hderives.of_grouped.1
    rw [hbody] at hparens
    cases hparens

/-- Filter text whose parentheses all stand in literals of its clauses comes to the same clause or
the same terms within parentheses, just when the scan from inside finds that the last parenthesis
closes the first. It does if the text starts with a blank, or the first field holds neither a blank
nor a parenthesis. -/
theorem read_parens_iff {t : Text} {f : Filter} (hf : read t = .ok f)
    (h : ∀ s ∈ clauseTexts t, s.ParensQuoted) :
    (clauseTexts t).map Clause.read = f.clauses.map .ok ∧
    (read ('(' :: t ++ [')']) = .ok ⟨some ('(' :: t ++ [')']), enclosed f.terms, []⟩ ↔
      insideParens? ('(' :: t ++ [')']) = some t) ∧
    ((∃ c ∈ t.head?, isBlank c = true) ∨ (∀ c ∈ f.clauses.head?, IsSolid c.field) →
      insideParens? ('(' :: t ++ [')']) = some t) := by
  obtain ⟨hd, -⟩ := derives_of_read hf
  refine ⟨map_read_clauseTexts hd h, ⟨fun hread => ?_, fun hin => ?_⟩, fun hfirst => ?_⟩
  · cases hin : insideParens? ('(' :: t ++ [')']) with
    | none => exact absurd (derives_of_read hread).1.readTerms_eq (readTerms_parens_ne hd h hin)
    | some inside =>
      have heq := List.append_cancel_right (List.cons.inj (eq_of_insideParens? hin)).2
      rw [heq]
  · rw [read, readTerms_parens_of_insideParens? hd h hin]
    rfl
  · obtain ⟨_, hpass⟩ := exists_passes hd h false (.inr hfirst)
    exact hpass.insideParens?

theorem read_parens_of_quotedParens :
    let t : Text := "a eq \")(\" and \"b(\" eq 1".toList
    let a : Clause := ⟨"a".toList, .eq, .text ")(".toList⟩
    let b : Clause := ⟨"\"b(\"".toList, .eq, .number "1".toList⟩
    (∀ s ∈ clauseTexts t, s.ParensQuoted) ∧
      read t = .ok ⟨some t, [.clause a, .connective .and, .clause b], []⟩ ∧
      read ('(' :: t ++ [')']) = .ok ⟨some ('(' :: t ++ [')']),
        [.openParen, .clause a, .connective .and, .clause b, .closeParen], []⟩ := by
  intro t a b
  have hquoted : ∀ s ∈ clauseTexts t, s.ParensQuoted := by decide +kernel
  have hread : read t = .ok ⟨some t, [.clause a, .connective .and, .clause b], []⟩ :=
    eq_ok_of_toOption (by decide +kernel)
  have hsolid : ∀ c ∈ [a, b].head?, IsSolid c.field := by
    rintro c ⟨⟩
    unfold IsSolid
    decide
  obtain ⟨-, hiff, hfirst⟩ := read_parens_iff hread hquoted
  exact ⟨hquoted, hread, hiff.mpr (hfirst (.inr hsolid))⟩

/-- Behind the parenthesis a quote does not open the literal that the text starts with. If that
holds a parenthesis, one clause can come to another one, and two of them to none. -/
theorem exists_read_parens_ne :
    let t : Text := "\"a)\" eq 1".toList
    let u : Text := "\"a (\" eq 1 and b eq 2".toList
    (∀ s ∈ clauseTexts t ++ clauseTexts u, s.ParensQuoted) ∧
    (∃ c d, c ≠ d ∧ read t = .ok ⟨some t, [.clause c], []⟩ ∧
      read ('(' :: t ++ [')']) = .ok ⟨some ('(' :: t ++ [')']), [.clause d], []⟩) ∧
    (∃ c d, read u = .ok ⟨some u, [.clause c, .connective .and, .clause d], []⟩) ∧
      (read ('(' :: u ++ [')'])).toOption = none := by
  intro t u
  refine ⟨by decide +kernel, ?_, ?_, by decide +kernel⟩
  · exact ⟨⟨"\"a)\"".toList, .eq, .number "1".toList⟩,
      ⟨"(\"a)\"".toList, .eq, .field "1)".toList⟩, by decide,
      eq_ok_of_toOption (by decide +kernel), eq_ok_of_toOption (by decide +kernel)⟩
  · exact ⟨⟨"\"a (\"".toList, .eq, .number "1".toList⟩, ⟨"b".toList, .eq, .number "2".toList⟩,
      eq_ok_of_toOption (by decide +kernel)⟩

end Filter
end FilterLang
