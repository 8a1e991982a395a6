import FilterLang.Proofs.Chain
import FilterLang.Proofs.ConnectiveScan
import FilterLang.Proofs.ParenScan

/-!
Expressions of clauses, connectives and parentheses, with groups in any place. Reading finds its way
through them from the left. It passes over every operand that is no group, and comes to the operands
behind it. A group in front of a connective is not taken for one: its opening parenthesis becomes
part of a field.
-/
namespace FilterLang
open Text

/-- Text that is read as a clause, without a parenthesis or a connective in it. -/
structure ClauseText where
  text : Text
  clause : Clause
  reads : Clause.read text = .ok clause
  not_paren : ∀ c ∈ text, c ≠ '(' ∧ c ≠ ')'
  -- Behind the space a connective can follow, which would make one of the word that the text ends in.
  not_connective : Split.find? (text ++ [' ']) = none

/-- An expression. A group has two operands or more; a clause may stand in parentheses too. -/
inductive Expression where
  | clause (s : ClauseText)
  | parens (s : ClauseText)
  | join (l : Expression) (k : Connective) (r : Expression)
  | group (l : Expression) (k : Connective) (r : Expression)

namespace Expression

def text : Expression → Text
  | clause s => s.text
  | parens s => '(' :: s.text ++ [')']
  | join l k r => l.text ++ ' ' :: k.keyword ++ ' ' :: r.text
  | group l k r => '(' :: (l.text ++ ' ' :: k.keyword ++ ' ' :: r.text) ++ [')']

def terms : Expression → List Term
  | clause s | parens s => [.clause s.clause]
  | join l k r => l.terms ++ .connective k :: r.terms
  | group l k r => .openParen :: (l.terms ++ .connective k :: r.terms) ++ [.closeParen]

def flat : Expression → Bool
  | clause _ | parens _ => true
  | join l _ r => l.flat && r.flat
  | group _ _ _ => false

/-- Whether a group stands only where no connective is behind it in its run. -/
def groupsLast : Expression → Bool
  | clause _ | parens _ => true
  | join l _ r | group l _ r => l.flat && r.groupsLast

def first? : Expression → Option ClauseText
  | clause s => some s
  | join l _ _ => l.first?
  | parens _ | group _ _ _ => none

def opening : Expression → Text
  | clause s => s.text
  | parens s => '(' :: s.text ++ [')']
  | join l _ _ => l.opening
  | group l _ _ => '(' :: l.opening

end Expression

namespace ClauseText

theorem nonBlank (s : ClauseText) : NonBlank s.text := by
  obtain ⟨tf, tv, v, b₁, b₂, b₃, b₄, hs, -⟩ := Clause.exists_text_of_read s.reads
  have hop := s.clause.operator.isPlainWord_keyword.isTight.nonBlank
  rw [hs]
  exact (((hop.append_right _).append_left b₂).append_left _).append_left b₁

theorem not_paren_field (s : ClauseText) : '(' ∉ s.clause.field := by
  obtain ⟨tf, tv, v, b₁, b₂, b₃, b₄, hs, -⟩ := Clause.exists_text_of_read s.reads
  intro hc
  exact (s.not_paren '(' (by simp [hs, hc])).1 rfl

private theorem isPlain_behind (s : ClauseText) {before : Bool}
    (h : before = true ∨ IsWord s.clause.field) :
    ((Scan.plain before).behind s.text).isPlain = true := by
  obtain ⟨tf, tv, v, b₁, b₂, b₃, b₄, hs, hb, hgap, hf, hfield, hv, ho⟩ :=
    Clause.exists_text_of_read s.reads
  simp only [List.mem_append, or_imp, forall_and] at hb
  obtain ⟨⟨⟨h₁, h₂⟩, h₃⟩, h₄⟩ := hb
  have hfirst : (Scan.plain (before || !b₁.isEmpty)).behind s.clause.field = .plain false := by
    rcases h with rfl | hw
    · rw [Bool.true_or]
      apply behind_spells hf
      rintro content rfl
      cases hfield
    · exact behind_word hw _
  have hop (tokenStart : Bool) : (Scan.plain tokenStart).behind s.clause.operator.keyword =
      .plain false := behind_word s.clause.operator.isPlainWord_keyword.toIsWord tokenStart
  have hstart : (false || !b₃.isEmpty) = true := by simpa using hgap
  have hlast : (Scan.plain true).behind v = .plain false := by
    apply behind_spells hv
    rintro content rfl
    cases ho
  rw [hs]
  simp only [Scan.behind_append]
  rw [behind_blanks h₁, hfirst, behind_blanks h₂, hop, behind_blanks h₃, hstart, hlast,
    behind_blanks h₄]
  rfl

/-- Whether a parenthesis right before a clause leaves no literal open behind it. -/
def Opens (s : ClauseText) : Prop := ((Scan.plain false).behind s.text).isPlain = true

instance (s : ClauseText) : Decidable s.Opens :=
  inferInstanceAs (Decidable (((Scan.plain false).behind s.text).isPlain = true))

private theorem opens_of_isWord {s : ClauseText} (h : IsWord s.clause.field) : s.Opens :=
  s.isPlain_behind (.inr h)

theorem exists_passes (s : ClauseText) (before : Bool) (h : before = true ∨ s.Opens) :
    ∃ behind, Passes s.text (.plain before) (.plain behind) := by
  have hplain : ((Scan.plain before).behind s.text).isPlain = true := by
    cases before with
    | true => exact s.isPlain_behind (.inl rfl)
    | false => exact h.resolve_left Bool.false_ne_true
  have hpass := passes_behind s.not_paren (.plain before)
  cases hb : (Scan.plain before).behind s.text with
  | plain behind => exact ⟨behind, hb ▸ hpass⟩
  | quoted q escaped => rw [hb] at hplain; cases hplain

private theorem skips (s : ClauseText) (rest : Text) : Split.Skips s.text (' ' :: rest) :=
  Split.skips_of_find?_concat (fun k => by cases k <;> decide) s.not_connective rest

theorem skips_trimStart (s : ClauseText) (rest : Text) :
    Split.Skips (trimStart s.text) (' ' :: rest) := by
  obtain ⟨b, hs, -⟩ := exists_blanks_trimStart s.text
  have hsuffix : trimStart s.text ++ [' '] <:+ s.text ++ [' '] :=
    ⟨b, by rw [← List.append_assoc, ← hs]⟩
  apply Split.skips_of_find?_concat
  · intro k
    cases k <;> decide
  · exact Split.find?_eq_none_of_isInfix hsuffix.isInfix s.not_connective

theorem skips_parens (s : ClauseText) (rest : Text) :
    Split.Skips ('(' :: s.text ++ [')']) (' ' :: rest) := by
  have hnone := Split.find?_eq_none_of_isInfix (List.infix_append' [] s.text [' '])
    s.not_connective
  have hclose : Split.Skips [')'] (' ' :: rest) := Split.skips_of_not_space (by simp) _
  have hinside : Split.Skips s.text (')' :: ' ' :: rest) := by
    apply Split.skips_of_find?_concat
    · intro k
      cases k <;> decide
    · exact Split.find?_concat_eq_none (by decide) hnone
  exact .cons (Split.here?_eq_none_of_ne (by decide) _) (hinside.append hclose)

end ClauseText

namespace Expression

/-- Whether no literal is taken to be open behind a clause whose text follows a parenthesis. -/
def Aligned : Expression → Prop
  | clause _ => True
  | parens s => s.Opens
  | join l _ r => l.Aligned ∧ r.Aligned
  | group l _ r => (∀ s ∈ l.first?, s.Opens) ∧ l.Aligned ∧ r.Aligned

instance : (e : Expression) → Decidable e.Aligned
  | clause _ => isTrue trivial
  | parens s => inferInstanceAs (Decidable s.Opens)
  | join l _ r =>
    have := instDecidableAligned l
    have := instDecidableAligned r
    inferInstanceAs (Decidable (l.Aligned ∧ r.Aligned))
  | group l _ r =>
    have := instDecidableAligned l
    have := instDecidableAligned r
    inferInstanceAs (Decidable ((∀ s ∈ l.first?, s.Opens) ∧ l.Aligned ∧ r.Aligned))

private theorem mem_terms_join {l r : Expression} {k : Connective} {c : Clause} :
    .clause c ∈ (join l k r).terms ↔ .clause c ∈ l.terms ∨ .clause c ∈ r.terms := by
  simp [terms]

private theorem mem_terms_group {l r : Expression} {k : Connective} {c : Clause} :
    .clause c ∈ (group l k r).terms ↔ .clause c ∈ l.terms ∨ .clause c ∈ r.terms := by
  simp [terms]

private theorem mem_terms_of_first? {e : Expression} {s : ClauseText} (h : s ∈ e.first?) :
    .clause s.clause ∈ e.terms := by
  induction e with
  | clause t =>
    obtain rfl : t = s := Option.some.inj h
    exact List.mem_cons_self
  | parens t => cases h
  | join l k r ihl _ => exact mem_terms_join.mpr (.inl (ihl h))
  | group l k r => cases h

/-- An expression is aligned if no field is a literal. -/
theorem aligned_of_isWord {e : Expression} (h : ∀ c, .clause c ∈ e.terms → IsWord c.field) :
    e.Aligned := by
  induction e with
  | clause s => trivial
  | parens s => exact ClauseText.opens_of_isWord (h s.clause List.mem_cons_self)
  | join l k r ihl ihr =>
    constructor
    · exact ihl fun c hc => h c (mem_terms_join.mpr (.inl hc))
    · exact ihr fun c hc => h c (mem_terms_join.mpr (.inr hc))
  | group l k r ihl ihr =>
    refine ⟨?_, ?_, ?_⟩
    · intro s hs
      exact ClauseText.opens_of_isWord (h _ (mem_terms_group.mpr (.inl (mem_terms_of_first? hs))))
    · exact ihl fun c hc => h c (mem_terms_group.mpr (.inl hc))
    · exact ihr fun c hc => h c (mem_terms_group.mpr (.inr hc))

theorem nonBlank_text (e : Expression) : NonBlank e.text := by
  induction e with
  | clause s => exact s.nonBlank
  | parens s => exact ⟨'(', by simp [text], rfl⟩
  | join l k r _ ih => exact (ih.append_left [' ']).append_left _
  | group l k r => exact ⟨'(', by simp [text], rfl⟩

/-- Parentheses around an expression belong together. -/
theorem exists_passes_text {e : Expression} (h : e.Aligned) (before : Bool)
    (hb : before = true ∨ ∀ s ∈ e.first?, s.Opens) :
    ∃ behind, Passes e.text (.plain before) (.plain behind) := by
  induction e generalizing before with
  | clause s => exact s.exists_passes before (hb.imp_right fun hs => hs s rfl)
  | parens s =>
    obtain ⟨behind, hs⟩ := s.exists_passes false (.inr h)
    exact ⟨false, hs.group before⟩
  | join l k r ihl ihr =>
    obtain ⟨_, hl⟩ := ihl h.1 before hb
    obtain ⟨behind, hr⟩ := ihr h.2 true (.inl rfl)
    have hjoin := (hl.append (passes_connective k _)).append hr
    exact ⟨behind, by simpa [text] using hjoin⟩
  | group l k r ihl ihr =>
    obtain ⟨_, hl⟩ := ihl h.2.1 false (.inr h.1)
    obtain ⟨behind, hr⟩ := ihr h.2.2 true (.inl rfl)
    have hgroup := ((hl.append (passes_connective k _)).append hr).group before
    exact ⟨false, by simpa [text] using hgroup⟩

theorem exists_passes_join {l r : Expression} {k : Connective} (h : (group l k r).Aligned) :
    ∃ behind, Passes (join l k r).text (.plain false) (.plain behind) :=
  exists_passes_text (e := join l k r) h.2 false (.inr h.1)

theorem trimStart_enclosed (s : Text) : trimStart ('(' :: s ++ [')']) = '(' :: s ++ [')'] :=
  trimStart_eq fun c hc => by cases Option.some.inj hc; rfl

/-- An expression with more behind it is not within a pair of parentheses. -/
theorem insideParens?_text_append {e : Expression} (h : e.Aligned) {rest : Text}
    (hr : rest ≠ []) : insideParens? (trimStart e.text ++ rest) = none := by
  induction e generalizing rest with
  | clause s =>
    apply insideParens?_of_head
    intro c hc
    have hne : trimStart s.text ≠ [] := by
      obtain ⟨d, hd, -⟩ := s.nonBlank.trimStart
      exact List.ne_nil_of_mem hd
    rw [text, List.head?_append_of_ne_nil _ hne] at hc
    have hmem : c ∈ s.text := (List.dropWhile_suffix isBlank).mem (List.mem_of_mem_head? hc)
    exact (s.not_paren c hmem).1
  | parens s =>
    obtain ⟨behind, hs⟩ := s.exists_passes false (.inr h)
    rw [text, trimStart_enclosed]
    exact hs.insideParens?_append hr
  | join l k r ihl _ =>
    rw [text, List.append_assoc, trimStart_append l.nonBlank_text, List.append_assoc]
    exact ihl h.1 (by simp)
  | group l k r =>
    obtain ⟨behind, hs⟩ := exists_passes_join h
    rw [text, trimStart_enclosed]
    exact hs.insideParens?_append hr

theorem text_join_append (l : Expression) (j : Connective) (r : Expression) (k : Connective)
    (rest : Text) : (join l j r).text ++ ' ' :: k.keyword ++ ' ' :: rest =
      l.text ++ ' ' :: j.keyword ++ ' ' :: (r.text ++ ' ' :: k.keyword ++ ' ' :: rest) := by
  simp [text]

theorem find?_text_append (e : Expression) (k : Connective) (rest : Text) :
    ∃ j r, Split.find? (e.text ++ ' ' :: k.keyword ++ ' ' :: rest) = some ⟨e.opening, j, r⟩ := by
  induction e generalizing k rest with
  | clause s =>
    rw [text, List.append_assoc]
    exact ⟨k, rest, (s.skips _).find?_connective⟩
  | parens s =>
    rw [text, List.append_assoc]
    exact ⟨k, rest, (s.skips_parens _).find?_connective⟩
  | join l j r ihl _ =>
    rw [text_join_append]
    exact ihl j _
  | group l j r ihl _ =>
    have hshape : (group l j r).text ++ ' ' :: k.keyword ++ ' ' :: rest = '(' :: (l.text ++
        ' ' :: j.keyword ++ ' ' :: (r.text ++ ')' :: ' ' :: k.keyword ++ ' ' :: rest)) := by
      simp [text]
    obtain ⟨i, t, hl⟩ := ihl j (r.text ++ ')' :: ' ' :: k.keyword ++ ' ' :: rest)
    rw [hshape, Split.find?, Split.here?_eq_none_of_ne (by decide), hl]
    exact ⟨i, t, rfl⟩

private theorem count_opening (e : Expression) :
    e.opening.count ')' = 0 ∨ ∃ t, e.opening = '(' :: t ∧ t.count ')' ≤ 1 := by
  have hclause (s : ClauseText) : s.text.count ')' = 0 :=
    List.count_eq_zero.mpr fun hc => (s.not_paren ')' hc).2 rfl
  induction e with
  | clause s => exact .inl (hclause s)
  | parens s =>
    refine .inr ⟨s.text ++ [')'], rfl, ?_⟩
    rw [List.count_append, hclause s]
    rfl
  | join l k r ihl _ => exact ihl
  | group l k r ihl _ =>
    refine .inr ⟨l.opening, rfl, ?_⟩
    rcases ihl with hl | ⟨t, ht, hcount⟩
    · omega
    · rw [ht, List.count_cons_of_ne (by decide)]
      exact hcount

theorem insideParens?_opening {e : Expression} {s : Text} (hs : s <+: e.opening) :
    insideParens? ('(' :: s) = none := by
  rw [Option.eq_none_iff_forall_ne_some]
  intro r hr
  have hclose : upToClosing (.plain false) 0 s = some r := hr
  rcases e.count_opening with hnone | ⟨t, ht, hone⟩
  · have hle := hs.count_le ')'
    have hlt := count_of_upToClosing hclose
    omega
  · rw [ht] at hs
    cases s with
    | nil => cases hclose
    | cons c s =>
      obtain ⟨rfl, htail⟩ := List.cons_prefix_cons.mp hs
      obtain ⟨u, hu, -⟩ := Option.map_eq_some_iff.mp hclose
      have hle := htail.count_le ')'
      have hlt : 1 < s.count ')' := count_of_upToClosing hu
      omega

theorem not_paren_field_of_mem_terms {e : Expression} {c : Clause} (h : .clause c ∈ e.terms) :
    '(' ∉ c.field := by
  induction e with
  | clause s | parens s =>
    cases List.mem_singleton.mp h
    exact s.not_paren_field
  | join l k r ihl ihr => exact (mem_terms_join.mp h).elim ihl ihr
  | group l k r ihl ihr => exact (mem_terms_group.mp h).elim ihl ihr

end Expression
end FilterLang
