import FilterLang.Proofs.Lexing

/-!
The clauses that reading returns, and their texts. The field is any token but an operator keyword or
an open literal; the operand is a text, a finite number, or a word that is no number. Each of them
reads back from its text. If the text of the operand is cut off, the clause is refused for its open
quote.
-/
namespace FilterLang
open Text

def Token.isField : Token → Bool
  | .word w => (Operator.ofKeyword? w).isNone
  | .quoted _ closed => closed

/-- Whether an operand is one that a token writes. -/
def Operand.Legible : Operand → Prop
  | text _ => True
  | number w => (Binary64.readFinite? w).isSome = true
  | field w => IsWord w ∧ Binary64.readFinite? w = none

/-- Whether a clause is made of such an operand and a token for the field. -/
structure Clause.Legible (c : Clause) : Prop where
  field : ∃ t, Lexeme.Spells c.field t ∧ t.isField = true
  operand : c.operand.Legible

/-- Whether the text of an operand has no part in the structure of a filter. A text operand may hold
any characters. -/
def Operand.Printable : Operand → Prop
  | text _ => True
  | number w => (Binary64.readFinite? w).isSome = true
  | field w => IsPlainWord w ∧ Binary64.readFinite? w = none

structure Clause.Printable (c : Clause) : Prop where
  field : IsPlainWord c.field
  not_keyword : Operator.ofKeyword? c.field = none
  operand : c.operand.Printable

instance : (o : Operand) → Decidable o.Printable
  | .text _ => isTrue trivial
  | .number w => inferInstanceAs (Decidable ((Binary64.readFinite? w).isSome = true))
  | .field w => inferInstanceAs (Decidable (IsPlainWord w ∧ Binary64.readFinite? w = none))

instance (c : Clause) : Decidable c.Printable :=
  decidable_of_iff
    (IsPlainWord c.field ∧ Operator.ofKeyword? c.field = none ∧ c.operand.Printable)
    ⟨fun ⟨hf, hk, ho⟩ => ⟨hf, hk, ho⟩, fun ⟨hf, hk, ho⟩ => ⟨hf, hk, ho⟩⟩

theorem Operator.ofKeyword?_keyword (op : Operator) : ofKeyword? op.keyword = some op := by
  cases op <;> rfl

theorem Operator.keyword_injective : Function.Injective Operator.keyword := by
  intro op op' h
  have hread := congrArg ofKeyword? h
  rw [ofKeyword?_keyword, ofKeyword?_keyword] at hread
  exact Option.some.inj hread

theorem Operator.eq_keyword_of_ofKeyword? {w : Text} {op : Operator} (h : ofKeyword? w = some op) :
    w = op.keyword := by
  have hw := List.find?_some h
  exact (of_decide_eq_true hw).symm

private theorem Operator.ofLexeme?_eq_some_iff {x : Lexeme} {op : Operator} :
    ofLexeme? x = some op ↔ x.token = .word op.keyword := by
  obtain ⟨gap, raw, t⟩ := x
  cases t with
  | quoted content closed => simp [ofLexeme?, wordOf?]
  | word w =>
    constructor
    · intro h
      rw [eq_keyword_of_ofKeyword? h]
    · intro h
      cases h
      exact ofKeyword?_keyword op

private theorem Token.stopsAt_of_isField {t : Token} (h : t.isField = true) {rest : Text}
    (hr : ∀ c ∈ rest.head?, isBlank c = true) : Lexeme.StopsAt t rest := by
  cases t with
  | word w => exact hr
  | quoted content closed =>
    obtain rfl : closed = true := h
    trivial

theorem Operator.ofLexeme?_eq_none_of_isField {x : Lexeme} (h : x.token.isField = true) :
    ofLexeme? x = none := by
  obtain ⟨gap, raw, t⟩ := x
  cases t with
  | word w => simpa [ofLexeme?, wordOf?, Token.isField] using h
  | quoted content closed => rfl

namespace Division

theorem find?_append {left right : List Lexeme} {y : Lexeme} {op : Operator}
    (hl : ∀ x ∈ left, Operator.ofLexeme? x = none) (hy : y.token = .word op.keyword) :
    find? (left ++ y :: right) = some ⟨left, op, right⟩ := by
  induction left with
  | nil => rw [List.nil_append, find?, Operator.ofLexeme?_eq_some_iff.mpr hy]
  | cons x left ih =>
    obtain ⟨hx, hl⟩ := List.forall_mem_cons.mp hl
    rw [List.cons_append, find?, hx, ih hl]
    rfl

/-- A division is at the first lexeme that is an operator keyword. -/
theorem exists_of_find? {xs : List Lexeme} {d : Division} (h : find? xs = some d) :
    ∃ y, xs = d.left ++ y :: d.right ∧ (∀ x ∈ d.left, Operator.ofLexeme? x = none) ∧
      y.token = .word d.operator.keyword := by
  induction xs generalizing d with
  | nil => cases h
  | cons x xs ih =>
    rw [find?] at h
    cases hx : Operator.ofLexeme? x with
    | some op =>
      rw [hx] at h
      cases h
      exact ⟨x, rfl, nofun, Operator.ofLexeme?_eq_some_iff.mp hx⟩
    | none =>
      rw [hx] at h
      obtain ⟨e, he, rfl⟩ := Option.map_eq_some_iff.mp h
      obtain ⟨y, rfl, hleft, hy⟩ := ih he
      exact ⟨y, rfl, List.forall_mem_cons.mpr ⟨hx, hleft⟩, hy⟩

end Division

private theorem Operand.Legible.exists_spells {o : Operand} (h : o.Legible) :
    ∃ t, Lexeme.Spells o.display t ∧ ∀ clause, Operand.ofToken clause t = .ok o := by
  cases o with
  | text s => exact ⟨_, Lexeme.spells_quote s, fun _ => rfl⟩
  | number w =>
    have hn : (Binary64.readFinite? w).isSome = true := h
    have hw := (isPlainWord_of_readFinite? hn).toIsWord
    exact ⟨_, .word hw, fun _ => by simp [ofToken, display, hn]⟩
  | field w => exact ⟨_, .word h.1, fun _ => by simp [ofToken, display, h.2]⟩

theorem Operand.Printable.legible {o : Operand} (h : o.Printable) : o.Legible := by
  cases o with
  | text s => trivial
  | number w => exact h
  | field w => exact ⟨h.1.toIsWord, h.2⟩

theorem Operand.Printable.text_or_word {o : Operand} (h : o.Printable) :
    (∃ s, o = .text s) ∨ IsPlainWord o.display := by
  cases o with
  | text s => exact .inl ⟨s, rfl⟩
  | number w => exact .inr (isPlainWord_of_readFinite? h)
  | field w => exact .inr h.1

private theorem Operand.legible_of_ofToken {clause : Text} {raw : Text} {t : Token} {o : Operand}
    (ht : Lexeme.Spells raw t) (h : ofToken clause t = .ok o) : o.Legible := by
  cases ht with
  | @literal q body content closed hq hbody =>
    cases closed with
    | false => cases h
    | true =>
      cases Except.ok.inj h
      trivial
  | @word _ hw =>
    unfold ofToken at h
    cases Except.ok.inj h
    split
    · next hn => exact hn
    · next hn => exact ⟨hw, by simpa using hn⟩

namespace Clause

def front (c : Clause) : Text := c.field ++ ' ' :: c.operator.keyword ++ [' ']

theorem display_eq (c : Clause) : c.display = c.front ++ c.operand.display := by
  simp [display, displayParts, front]

theorem head?_front_append {c : Clause} (h : c.field ≠ []) (rest : Text) :
    (c.front ++ rest).head? = c.field.head? := by
  rw [front, List.append_assoc, List.append_assoc, List.head?_append_of_ne_nil _ h]

theorem Printable.legible {c : Clause} (h : c.Printable) : c.Legible where
  field := ⟨_, .word h.field.toIsWord, by simp [Token.isField, h.not_keyword]⟩
  operand := h.operand.legible

theorem Legible.isTight_field {c : Clause} (h : c.Legible) : IsTight c.field := by
  obtain ⟨t, ht, hfield⟩ := h.field
  apply ht.isTight
  rintro content rfl
  cases hfield

/-- Trimming keeps the front of a clause and the quote behind it. -/
theorem exists_trim_front {c : Clause} (hf : IsTight c.field) (t : Text) :
    ∃ u, u <+: t ∧ trim (c.front ++ '"' :: t) = c.front ++ '"' :: u := by
  have hquote : isBlank '"' = false := rfl
  refine exists_trim_eq (fun d hd => ?_) hquote
  rw [← List.append_nil c.front, head?_front_append hf.ne_nil] at hd
  exact hf.head d hd

private theorem all_front {c : Clause} {t : Token} (ht : Lexeme.Spells c.field t)
    (hfield : t.isField = true) {v : Text} {x : Lexeme}
    (hx : Lexeme.next? (' ' :: v) = some (x, [])) :
    Lexeme.all (c.front ++ v) =
      [⟨[], c.field, t⟩, ⟨[' '], c.operator.keyword, .word c.operator.keyword⟩, x] := by
  have hblank (s : Text) : ∀ d ∈ (' ' :: s).head?, isBlank d = true := fun d hd => by
    cases Option.some.inj hd
    rfl
  have hfront : c.front ++ v = [] ++ (c.field ++ ' ' :: (c.operator.keyword ++ ' ' :: v)) := by
    simp [front]
  have hfirst : Lexeme.next? (c.front ++ v) =
      some (⟨[], c.field, t⟩, ' ' :: (c.operator.keyword ++ ' ' :: v)) := by
    rw [hfront]
    exact Lexeme.next?_of_spells nofun ht (Token.stopsAt_of_isField hfield (hblank _))
  have hop := Lexeme.next?_space (.word c.operator.isPlainWord_keyword.toIsWord) (hblank v)
  rw [Lexeme.all_of_next? hfirst, Lexeme.all_of_next? hop, Lexeme.all_of_next? hx, Lexeme.all_nil]

private theorem Legible.readTrimmed_front {c : Clause} (h : c.Legible) {v : Text} {t : Token}
    (hv : Lexeme.Spells v t) :
    readTrimmed (c.front ++ v) =
      (Operand.ofToken (c.front ++ v) t).map fun o => ⟨c.field, c.operator, o⟩ := by
  obtain ⟨tf, htf, hfield⟩ := h.field
  have hx := Lexeme.next?_space hv (Lexeme.stopsAt_nil t)
  rw [List.append_nil] at hx
  have hleft : ∀ y ∈ [(⟨[], c.field, tf⟩ : Lexeme)], Operator.ofLexeme? y = none :=
    List.forall_mem_singleton.mpr (Operator.ofLexeme?_eq_none_of_isField hfield)
  have hd : Division.find? [⟨[], c.field, tf⟩, ⟨[' '], c.operator.keyword, .word c.operator.keyword⟩,
      ⟨[' '], v, t⟩] = some ⟨[⟨[], c.field, tf⟩], c.operator, [⟨[' '], v, t⟩]⟩ :=
    Division.find?_append hleft rfl
  unfold readTrimmed
  dsimp only
  rw [all_front htf hfield hx, hd]
  dsimp only [ofDivision]
  cases Operand.ofToken (c.front ++ v) t <;> rfl

private theorem isTight_front_append {c : Clause} (hf : IsTight c.field) {v : Text}
    (hv : IsTight v) : IsTight (c.front ++ v) := by
  have h := hf.append hv (' ' :: c.operator.keyword ++ [' '])
  simpa [front] using h

theorem Legible.isTight_display {c : Clause} (h : c.Legible) : IsTight c.display := by
  obtain ⟨t, ht, hoperand⟩ := h.operand.exists_spells
  rw [display_eq]
  apply isTight_front_append h.isTight_field
  apply ht.isTight
  rintro content rfl
  cases hoperand []

theorem Legible.read_display {c : Clause} (h : c.Legible) : read c.display = .ok c := by
  obtain ⟨t, ht, hoperand⟩ := h.operand.exists_spells
  rw [read, h.isTight_display.trim_eq, display_eq, h.readTrimmed_front ht, hoperand]
  rfl

/-- Without the end of its text operand a clause is refused, however much else is missing. -/
theorem Legible.exists_read_cut {c : Clause} (h : c.Legible) {s t : Text} (ht : t <+: escape s) :
    ∃ clause, read (c.front ++ '"' :: t) = .error (.unterminatedQuote clause) := by
  obtain ⟨u, hu, htrim⟩ := exists_trim_front h.isTight_field t
  obtain ⟨content, hx⟩ := Lexeme.exists_spells_cut (hu.trans ht)
  rw [read, htrim, h.readTrimmed_front hx]
  exact ⟨_, rfl⟩

private theorem exists_of_ofDivision {text : Text} {d : Division} {c : Clause}
    (h : ofDivision text d = .ok c) :
    ∃ x z, d.left = [x] ∧ d.right = [z] ∧ x.raw = c.field ∧ d.operator = c.operator ∧
      Operand.ofToken text z.token = .ok c.operand := by
  obtain ⟨left, op, right⟩ := d
  unfold ofDivision at h
  dsimp only at h
  split at h
  · cases h
  · cases h
  · cases h
  · cases h
  · next x z =>
    cases ho : Operand.ofToken text z.token with
    | error e => rw [ho] at h; cases h
    | ok o =>
      rw [ho] at h
      cases h
      exact ⟨x, z, rfl, rfl, rfl, rfl, ho⟩

/-- Reading a clause takes its text apart into three lexemes, the second of which is the operator. -/
theorem exists_lexemes_of_read {s : Text} {c : Clause} (h : read s = .ok c) :
    ∃ x y z : Lexeme, Lexeme.all (trim s) = [x, y, z] ∧ x.raw = c.field ∧
      Operator.ofLexeme? x = none ∧ y.token = .word c.operator.keyword ∧
      Operand.ofToken (trim s) z.token = .ok c.operand := by
  unfold read readTrimmed at h
  dsimp only at h
  cases hd : Division.find? (Lexeme.all (trim s)) with
  | none => rw [hd] at h; cases h
  | some d =>
    obtain ⟨y, hall, hleft, hy⟩ := Division.exists_of_find? hd
    rw [hd] at h
    obtain ⟨x, z, hx, hz, hfield, hop, ho⟩ := exists_of_ofDivision h
    rw [hx, hz] at hall
    rw [hx] at hleft
    exact ⟨x, y, z, hall, hfield, hleft x List.mem_cons_self, hop ▸ hy, ho⟩

/-- Text that is read as a clause is, without the blanks at its ends, put together from the field, the
operator and a spelling of the operand, with blanks between them. Only those behind a literal can be
missing. -/
theorem exists_trim_of_read {s : Text} {c : Clause} (h : read s = .ok c) :
    ∃ (tf tv : Token) (v b₁ b₂ : Text),
      trim s = c.field ++ (b₁ ++ (c.operator.keyword ++ (b₂ ++ v))) ∧
      (∀ d ∈ b₁, isBlank d = true) ∧ (∀ d ∈ b₂, isBlank d = true) ∧
      (∀ w, tf = .word w → b₁ ≠ []) ∧ b₂ ≠ [] ∧
      Lexeme.Spells c.field tf ∧ tf.isField = true ∧
      Lexeme.Spells v tv ∧ Operand.ofToken (trim s) tv = .ok c.operand := by
  obtain ⟨x, y, z, hall, hfield, hkey, hop, ho⟩ := exists_lexemes_of_read h
  obtain ⟨r₁, hx, hr₁⟩ := Lexeme.exists_next?_of_all hall
  obtain ⟨r₂, hy, hr₂⟩ := Lexeme.exists_next?_of_all hr₁
  obtain ⟨r₃, hz, hr₃⟩ := Lexeme.exists_next?_of_all hr₂
  obtain ⟨hs, hgx, hsx, hstopx⟩ := Lexeme.next?_eq_some_iff.mp hx
  obtain ⟨rfl, hgy, hsy, hstopy⟩ := Lexeme.next?_eq_some_iff.mp hy
  obtain ⟨rfl, hgz, hsz, -⟩ := Lexeme.next?_eq_some_iff.mp hz
  have hkeyword : y.raw = c.operator.keyword := by
    rw [hop] at hsy
    exact hsy.eq_of_word
  have hxfield : x.token.isField = true := by
    obtain ⟨gap, raw, t⟩ := x
    cases t with
    | word w => simpa [Operator.ofLexeme?, Operator.wordOf?, Token.isField] using hkey
    | quoted content closed =>
      cases closed with
      | true => rfl
      | false =>
        -- An open literal would have left nothing for the operator.
        have hnil : y.gap ++ (y.raw ++ (z.gap ++ (z.raw ++ r₃))) = [] := hstopx
        have hne := c.operator.isPlainWord_keyword.ne_nil
        simp [hkeyword, hne] at hnil
  have htightx : IsTight x.raw := hsx.isTight fun content ht => by
    rw [ht] at hxfield
    cases hxfield
  have htightz : IsTight z.raw := hsz.isTight fun content ht => by
    rw [ht] at ho
    cases ho
  have hgapy : ∀ w, x.token = .word w → y.gap ≠ [] := by
    intro w hw hnil
    obtain ⟨d, t, hd⟩ := List.exists_cons_of_ne_nil c.operator.isPlainWord_keyword.ne_nil
    rw [hw, hnil, hkeyword, hd] at hstopx
    have hblank : isBlank d = true := hstopx d rfl
    rw [c.operator.isPlainWord_keyword.not_blank d (by simp [hd])] at hblank
    cases hblank
  have hgapz : z.gap ≠ [] := by
    intro hnil
    obtain ⟨d, t, hd⟩ := List.exists_cons_of_ne_nil htightz.ne_nil
    rw [hop, hnil, hd] at hstopy
    have hblank : isBlank d = true := hstopy d rfl
    rw [htightz.head d (by simp [hd])] at hblank
    cases hblank
  have htrim : trim s = x.raw ++ (y.gap ++ (y.raw ++ (z.gap ++ z.raw))) := by
    have htight := htightx.append htightz (y.gap ++ y.raw ++ z.gap)
    have hcore := htight.trim_blanks hgx (Lexeme.isBlank_of_all hr₃)
    simp only [List.append_assoc] at hcore
    rw [← trim_trim, hs, hcore]
  rw [hfield, hkeyword] at htrim
  exact ⟨x.token, z.token, z.raw, y.gap, z.gap, htrim, hgy, hgz, hgapy, hgapz, hfield ▸ hsx,
    hxfield, hsz, ho⟩

/-- The same of the text with the blanks at its ends. -/
theorem exists_text_of_read {s : Text} {c : Clause} (h : read s = .ok c) :
    ∃ (tf tv : Token) (v b₁ b₂ b₃ b₄ : Text),
      s = b₁ ++ (c.field ++ (b₂ ++ (c.operator.keyword ++ (b₃ ++ (v ++ b₄))))) ∧
      (∀ d ∈ b₁ ++ b₂ ++ b₃ ++ b₄, isBlank d = true) ∧ b₃ ≠ [] ∧
      Lexeme.Spells c.field tf ∧ tf.isField = true ∧
      Lexeme.Spells v tv ∧ Operand.ofToken (trim s) tv = .ok c.operand := by
  obtain ⟨tf, tv, v, b₂, b₃, htrim, h₂, h₃, -, hgap, hf, hfield, hv, ho⟩ := exists_trim_of_read h
  obtain ⟨b₁, b₄, hs, h₁, h₄⟩ := exists_blanks_trim s
  refine ⟨tf, tv, v, b₁, b₂, b₃, b₄, ?_, ?_, hgap, hf, hfield, hv, ho⟩
  · rw [htrim] at hs
    rw [hs]
    simp
  · simp only [List.mem_append]
    rintro d (((hd | hd) | hd) | hd)
    · exact h₁ d hd
    · exact h₂ d hd
    · exact h₃ d hd
    · exact h₄ d hd

theorem legible_of_read {s : Text} {c : Clause} (h : read s = .ok c) : c.Legible := by
  obtain ⟨tf, tv, v, _, _, _, _, -, -, -, hf, hfield, hv, ho⟩ := exists_text_of_read h
  exact ⟨⟨tf, hf, hfield⟩, Operand.legible_of_ofToken hv ho⟩

/-- A clause comes from some text just when it is legible, and then it comes from its own. -/
theorem exists_read_eq_iff {c : Clause} : (∃ s, read s = .ok c) ↔ c.Legible := by
  constructor
  · rintro ⟨s, h⟩
    exact legible_of_read h
  · intro h
    exact ⟨c.display, h.read_display⟩

end Clause
end FilterLang
