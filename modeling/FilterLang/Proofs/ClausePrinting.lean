import FilterLang.Proofs.ClauseReading

/-!
Which clauses of any parts read back from their texts. What makes a closed literal is said here by
its characters alone, apart from the reader.
-/
namespace FilterLang
open Text

namespace Text

/-- The characters between two quotes `q`, and what they mean: a backslash makes the next character
literal, and no other backslash or quote `q` stands there. -/
inductive Escapes (q : Char) : Text → Text → Prop
  | nil : Escapes q [] []
  | plain {c : Char} {s content : Text} (hq : c ≠ q) (hc : c ≠ '\\') (h : Escapes q s content) :
    Escapes q (c :: s) (c :: content)
  | escaped (e : Char) {s content : Text} (h : Escapes q s content) :
    Escapes q ('\\' :: e :: s) (e :: content)

/-- A text that is as a whole one closed literal of a content. -/
def IsLiteral (s content : Text) : Prop :=
  ∃ q inside, isQuote q = true ∧ Escapes q inside content ∧ s = q :: (inside ++ [q])

/-- A text that is as a whole one bare word and no operator, or one closed literal. -/
def IsFieldText (s : Text) : Prop :=
  (IsWord s ∧ ∀ op : Operator, s ≠ op.keyword) ∨ ∃ content, IsLiteral s content

private theorem Escapes.readLiteral_append {q : Char} {inside content : Text}
    (hq : isQuote q = true) (h : Escapes q inside content) (rest : Text) :
    readLiteral q (inside ++ q :: rest) = ⟨inside ++ [q], content, true, rest⟩ := by
  have hbackslash : '\\' ≠ q := (of_isQuote hq).2.symm
  induction h with
  | nil => exact readLiteral_self q rest
  | plain hcq hc _ ih => rw [List.cons_append, readLiteral_cons hcq hc, ih, List.cons_append]
  | escaped e _ ih =>
    rw [List.cons_append, List.cons_append, readLiteral_backslash hbackslash, ih]
    rfl

private theorem exists_escapes_of_closed {q : Char} {s : Text}
    (h : (readLiteral q s).closed = true) :
    ∃ inside, (readLiteral q s).raw = inside ++ [q] ∧
      Escapes q inside (readLiteral q s).content := by
  fun_induction readLiteral q s with
  | case1 => cases h
  | case2 => exact ⟨[], rfl, .nil⟩
  | case3 => cases h
  | case4 e s t hq ih =>
    obtain ⟨inside, hraw, hinside⟩ := ih h
    exact ⟨'\\' :: e :: inside, by simp [t, hraw], .escaped e hinside⟩
  | case5 c s hq hc t ih =>
    obtain ⟨inside, hraw, hinside⟩ := ih h
    exact ⟨c :: inside, by simp [t, hraw], .plain hq hc hinside⟩

end Text

namespace Lexeme

/-- The spellings of a closed literal are the texts that are one. -/
theorem spells_closed_iff {s content : Text} :
    Spells s (.quoted content true) ↔ IsLiteral s content := by
  constructor
  · intro h
    cases h with
    | @literal q body _ _ hq hbody =>
      have hclosed : (readLiteral q body).closed = true := by rw [hbody]
      obtain ⟨inside, hraw, hinside⟩ := exists_escapes_of_closed hclosed
      rw [hbody] at hraw hinside
      exact ⟨q, inside, hq, hinside, congrArg (q :: ·) hraw⟩
  · rintro ⟨q, inside, hq, hinside, rfl⟩
    exact .literal hq (hinside.readLiteral_append hq [])

end Lexeme

theorem Operator.ofKeyword?_eq_none_iff {w : Text} :
    ofKeyword? w = none ↔ ∀ op : Operator, w ≠ op.keyword := by
  constructor
  · rintro h op rfl
    rw [ofKeyword?_keyword] at h
    cases h
  · intro h
    cases hw : ofKeyword? w with
    | none => rfl
    | some op => exact absurd (eq_keyword_of_ofKeyword? hw) (h op)

/-- The spellings of the tokens that can be fields. -/
theorem Token.exists_spells_isField_iff {s : Text} :
    (∃ t : Token, Lexeme.Spells s t ∧ t.isField = true) ↔ IsFieldText s := by
  constructor
  · rintro ⟨t, ht, hfield⟩
    cases t with
    | word w =>
      obtain rfl := ht.eq_of_word
      cases ht with
      | word hw =>
        refine .inl ⟨hw, Operator.ofKeyword?_eq_none_iff.mp ?_⟩
        simpa [isField] using hfield
    | quoted content closed =>
      obtain rfl : closed = true := hfield
      exact .inr ⟨content, Lexeme.spells_closed_iff.mp ht⟩
  · rintro (⟨hw, hkey⟩ | ⟨content, hs⟩)
    · exact ⟨.word s, .word hw, by simp [isField, Operator.ofKeyword?_eq_none_iff.mpr hkey]⟩
    · exact ⟨.quoted content true, Lexeme.spells_closed_iff.mpr hs, rfl⟩

namespace Clause

theorem legible_iff {c : Clause} : c.Legible ↔ IsFieldText c.field ∧ c.operand.Legible := by
  rw [← Token.exists_spells_isField_iff]
  exact ⟨fun h => ⟨h.field, h.operand⟩, fun h => ⟨h.1, h.2⟩⟩

/-- No other clause reads back from its text than those that are read from some text. -/
theorem read_display_eq_iff {c : Clause} : read c.display = .ok c ↔ c.Legible :=
  ⟨legible_of_read, Legible.read_display⟩

private theorem ofParts_of_nonBlank {field : Text} (h : NonBlank field) (operator : Operator)
    (operand : Operand) : ofParts field operator operand = .ok ⟨field, operator, operand⟩ := by
  have htrim : (trim field).isEmpty = false := by
    obtain ⟨c, hc, hb⟩ := h
    obtain ⟨b₁, b₂, hs, h₁, h₂⟩ := exists_blanks_trim field
    rw [List.isEmpty_eq_false_iff]
    intro hnil
    rw [hnil, List.nil_append] at hs
    have hblank : isBlank c = true := by
      rw [hs] at hc
      exact (List.mem_append.mp hc).elim (h₁ c) (h₂ c)
    rw [hb] at hblank
    cases hblank
  rw [ofParts, htrim, if_neg Bool.false_ne_true]

/-- A clause can be made of any field that is not blank, any operator and any operand. It reads back
from its text just when the field is one bare word and no operator, or one closed literal, and the
operand is a text, a finite number, or one bare word that is no such number. All clauses that are
read from any text are like that. -/
theorem read_display_of_parts_iff {field : Text} (hfield : NonBlank field) (operator : Operator)
    (operand : Operand) :
    (∃ c, ofParts field operator operand = .ok c ∧ c.field = field ∧ c.operator = operator ∧
      c.operand = operand ∧
      (read c.display = .ok c ↔ IsFieldText field ∧ operand.Legible)) ∧
    ∀ s c, read s = .ok c →
      IsFieldText c.field ∧ c.operand.Legible ∧ read c.display = .ok c := by
  constructor
  · refine ⟨⟨field, operator, operand⟩, ofParts_of_nonBlank hfield operator operand, rfl, rfl, rfl,
      ?_⟩
    rw [read_display_eq_iff, legible_iff]
  · intro s c h
    have hc := legible_of_read h
    exact ⟨(legible_iff.mp hc).1, (legible_iff.mp hc).2, hc.read_display⟩

/-- Quotes, backslashes and the word of an operator may stand inside of literals. -/
theorem read_display_of_quotedField :
    NonBlank "\"a\\\"eq\"".toList ∧
    ∃ c, ofParts "\"a\\\"eq\"".toList .ne (.text "b\" ne c\\".toList) = .ok c ∧
      read c.display = .ok c := by
  have hfield : NonBlank "\"a\\\"eq\"".toList := ⟨'a', by decide, rfl⟩
  have hinside : Escapes '"' ['a', '\\', '"', 'e', 'q'] ['a', '"', 'e', 'q'] :=
    .plain (by decide) (by decide) <| .escaped '"' <| .plain (by decide) (by decide) <|
      .plain (by decide) (by decide) .nil
  obtain ⟨⟨c, hc, -, -, -, hread⟩, -⟩ :=
    read_display_of_parts_iff hfield .ne (.text "b\" ne c\\".toList)
  exact ⟨hfield, c, hc, hread.mpr ⟨.inr ⟨_, '"', _, rfl, hinside, rfl⟩, trivial⟩⟩

end Clause
end FilterLang
