import FilterLang.Proofs.ClausePrinting

/-!
How clauses are written: a word or a closed literal for the field, an operator, and a word or a
closed literal for the operand, with blanks between them. Only those behind a literal may be
missing. Text that is written so is read as the clause of its parts, no other text is read as a
clause, and none is written so in two ways.
-/
namespace FilterLang
open Text

namespace Clause

/-- One side of a clause as it is written: a word, or what stands between two quotes. -/
inductive Side where
  | word (w : Text) (isWord : IsWord w)
  | literal (q : Char) (inside content : Text) (isQuote : Text.isQuote q = true)
    (escapes : Escapes q inside content)

namespace Side

def text : Side → Text
  | word w _ => w
  | literal q inside _ _ _ => q :: (inside ++ [q])

def isLiteral : Side → Bool
  | word _ _ => false
  | literal _ _ _ _ _ => true

def token : Side → Token
  | word w _ => .word w
  | literal _ _ content _ _ => .quoted content true

def operand : Side → Operand
  | word w _ => if (Binary64.readFinite? w).isSome then .number w else .field w
  | literal _ _ content _ _ => .text content

theorem spells (a : Side) : Lexeme.Spells a.text a.token := by
  cases a with
  | word w hw => exact .word hw
  | literal q inside content hq h => exact Lexeme.spells_closed_iff.mpr ⟨q, inside, hq, h, rfl⟩

theorem token_ne_open (a : Side) (content : Text) : a.token ≠ .quoted content false := by
  cases a <;> simp [token]

private theorem exists_of_spells {s : Text} {t : Token} (ht : Lexeme.Spells s t)
    (h : ∀ content, t ≠ .quoted content false) : ∃ a : Side, a.text = s ∧ a.token = t := by
  cases t with
  | word w =>
    cases ht with
    | word hw => exact ⟨.word s hw, rfl, rfl⟩
  | quoted content closed =>
    cases closed with
    | false => exact absurd rfl (h content)
    | true =>
      obtain ⟨q, inside, hq, hinside, rfl⟩ := Lexeme.spells_closed_iff.mp ht
      exact ⟨.literal q inside content hq hinside, rfl, rfl⟩

private theorem eq_of_text_eq {a b : Side} (ht : a.text = b.text) (hk : a.token = b.token) :
    a = b := by
  cases a with
  | word v hv =>
    cases b with
    | word w hw =>
      obtain rfl : v = w := ht
      rfl
    | literal q inside content hq h => cases hk
  | literal q inside content hq h =>
    cases b with
    | word w hw => cases hk
    | literal r inner content' hr h' =>
      obtain ⟨rfl, hinside⟩ := List.cons.inj ht
      obtain rfl := List.append_cancel_right hinside
      cases hk
      rfl

private theorem ofToken_token (a : Side) (clause : Text) :
    Operand.ofToken clause a.token = .ok a.operand := by
  cases a <;> rfl

private theorem stopsAt {a : Side} {rest : Text}
    (h : a.isLiteral = false → ∀ c ∈ rest.head?, isBlank c = true) :
    Lexeme.StopsAt a.token rest := by
  cases a with
  | word w hw => exact h rfl
  | literal q inside content hq h => trivial

private theorem all_text (a : Side) : Lexeme.all a.text = [⟨[], a.text, a.token⟩] :=
  Lexeme.all_of_spells a.spells

end Side

/-- A clause as it is written, without blanks at its ends. -/
structure Spelling where
  field : Side
  fieldGap : Text
  operator : Operator
  operandGap : Text
  operand : Side
  field_ne_keyword : ∀ op : Operator, field.text ≠ op.keyword
  fieldGap_blank : ∀ c ∈ fieldGap, isBlank c = true
  fieldGap_ne_nil : field.isLiteral = false → fieldGap ≠ []
  operandGap_blank : ∀ c ∈ operandGap, isBlank c = true
  operandGap_ne_nil : operandGap ≠ []

namespace Spelling

def text (d : Spelling) : Text :=
  d.field.text ++ (d.fieldGap ++ (d.operator.keyword ++ (d.operandGap ++ d.operand.text)))

def clause (d : Spelling) : Clause := ⟨d.field.text, d.operator, d.operand.operand⟩

def lexemes (d : Spelling) : List Lexeme :=
  [⟨[], d.field.text, d.field.token⟩,
    ⟨d.fieldGap, d.operator.keyword, .word d.operator.keyword⟩,
    ⟨d.operandGap, d.operand.text, d.operand.token⟩]

private theorem isBlank_of_head? {gap : Text} (hg : ∀ c ∈ gap, isBlank c = true) (hne : gap ≠ [])
    (rest : Text) : ∀ c ∈ (gap ++ rest).head?, isBlank c = true := by
  rw [List.head?_append_of_ne_nil _ hne]
  exact fun c hc => hg c (List.mem_of_mem_head? hc)

theorem all_text (d : Spelling) : Lexeme.all d.text = d.lexemes := by
  have hfield : Lexeme.StopsAt d.field.token
      (d.fieldGap ++ (d.operator.keyword ++ (d.operandGap ++ d.operand.text))) :=
    Side.stopsAt fun h => isBlank_of_head? d.fieldGap_blank (d.fieldGap_ne_nil h) _
  have hfirst : Lexeme.next? ([] ++ d.text) = some (⟨[], d.field.text, d.field.token⟩, _) :=
    Lexeme.next?_of_spells nofun d.field.spells hfield
  have hsecond := Lexeme.next?_of_spells d.fieldGap_blank
    (.word d.operator.isPlainWord_keyword.toIsWord)
    (isBlank_of_head? d.operandGap_blank d.operandGap_ne_nil d.operand.text)
  have hthird : Lexeme.next? (d.operandGap ++ (d.operand.text ++ [])) =
      some (⟨d.operandGap, d.operand.text, d.operand.token⟩, []) :=
    Lexeme.next?_of_spells d.operandGap_blank d.operand.spells (Lexeme.stopsAt_nil _)
  rw [List.append_nil] at hthird
  rw [List.nil_append] at hfirst
  rw [Lexeme.all_of_next? hfirst, Lexeme.all_of_next? hsecond, Lexeme.all_of_next? hthird,
    Lexeme.all_nil]
  rfl

theorem text_injective : Function.Injective text := by
  intro d e h
  have hlexemes : d.lexemes = e.lexemes := by rw [← d.all_text, ← e.all_text, h]
  simp only [lexemes, List.cons.injEq, Lexeme.mk.injEq, Token.word.injEq, true_and, and_true]
    at hlexemes
  obtain ⟨⟨hfield, htoken⟩, ⟨hgap, hkey, -⟩, hgap', hoperand, htoken'⟩ := hlexemes
  obtain ⟨_, _, _, _, _, _, _, _, _, _⟩ := d
  obtain ⟨_, _, _, _, _, _, _, _, _, _⟩ := e
  cases Side.eq_of_text_eq hfield htoken
  cases Side.eq_of_text_eq hoperand htoken'
  cases hgap
  cases hgap'
  cases Operator.keyword_injective hkey
  rfl

private theorem isField_token (d : Spelling) : d.field.token.isField = true := by
  have hkey := d.field_ne_keyword
  cases hd : d.field with
  | word w hw =>
    rw [hd] at hkey
    have hnone := Operator.ofKeyword?_eq_none_iff.mpr hkey
    simpa [Side.token, Token.isField, Side.text] using hnone
  | literal q inside content hq h => rfl

private theorem readTrimmed_text (d : Spelling) : readTrimmed d.text = .ok d.clause := by
  have hfield : ∀ x ∈ [(⟨[], d.field.text, d.field.token⟩ : Lexeme)],
      Operator.ofLexeme? x = none :=
    List.forall_mem_singleton.mpr (Operator.ofLexeme?_eq_none_of_isField d.isField_token)
  have hdivision : Division.find? d.lexemes = some ⟨[⟨[], d.field.text, d.field.token⟩],
      d.operator, [⟨d.operandGap, d.operand.text, d.operand.token⟩]⟩ :=
    Division.find?_append hfield rfl
  unfold readTrimmed
  dsimp only
  rw [d.all_text, hdivision]
  dsimp only [ofDivision]
  rw [d.operand.ofToken_token]
  rfl

private theorem read_of_text {d : Spelling} {s : Text} (h : d.text = trim s) :
    read s = .ok d.clause := by
  rw [read, ← h, d.readTrimmed_text]

theorem exists_of_read {s : Text} {c : Clause} (h : read s = .ok c) :
    ∃ d : Spelling, d.text = trim s ∧ d.clause = c := by
  obtain ⟨tf, tv, v, b₁, b₂, hs, h₁, h₂, hgap₁, hgap₂, hf, hfield, hv, ho⟩ :=
    exists_trim_of_read h
  obtain ⟨left, hleft, hl⟩ := Side.exists_of_spells hf fun content ht => by
    rw [ht] at hfield
    cases hfield
  obtain ⟨right, hright, -⟩ := Side.exists_of_spells hv fun content ht => by
    rw [ht] at ho
    cases ho
  have hword : left.isLiteral = false → b₁ ≠ [] := by
    intro hw
    cases left with
    | word w _ => exact hgap₁ w hl.symm
    | literal q inside content hq h => cases hw
  have hkey : ∀ op : Operator, left.text ≠ op.keyword := by
    intro op hop
    cases left with
    | word w _ =>
      obtain rfl : w = op.keyword := hop
      rw [← hl, Side.token, Token.isField, op.ofKeyword?_keyword] at hfield
      cases hfield
    | literal q inside content hq h =>
      have hq' := op.isPlainWord_keyword.not_quote q (by simp [← hop, Side.text])
      rw [hq] at hq'
      cases hq'
  let d : Spelling := ⟨left, b₁, c.operator, b₂, right, hkey, h₁, hword, h₂, hgap₂⟩
  have hd : d.text = trim s := by
    rw [hs, ← hleft, ← hright]
    rfl
  exact ⟨d, hd, Except.ok.inj ((read_of_text hd).symm.trans h)⟩

end Spelling

/-- Text is read as a clause just when, without the blanks at its ends, it is the text of a
spelling, and of one only. The clause is then that of the spelling, whose right side is the same
token by itself. -/
theorem read_eq_ok_iff_spelling (s : Text) :
    ((∃ c, read s = .ok c) ↔ ∃! d : Spelling, d.text = trim s) ∧
    ∀ d : Spelling, d.text = trim s →
      read s = .ok ⟨d.field.text, d.operator, d.operand.operand⟩ ∧
      Lexeme.all d.operand.text = [⟨[], d.operand.text, d.operand.token⟩] := by
  refine ⟨⟨?_, ?_⟩, fun d hd => ⟨Spelling.read_of_text hd, d.operand.all_text⟩⟩
  · rintro ⟨c, hc⟩
    obtain ⟨d, hd, -⟩ := Spelling.exists_of_read hc
    exact ⟨d, hd, fun e he => Spelling.text_injective (he.trans hd.symm)⟩
  · rintro ⟨d, hd, -⟩
    exact ⟨d.clause, Spelling.read_of_text hd⟩

end Clause
end FilterLang
