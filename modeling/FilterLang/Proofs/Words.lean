import FilterLang.Clause.Basic
import FilterLang.Filter.Basic
import Mathlib.Data.List.DropRight
import Mathlib.Data.List.TakeDrop

/-!
Words that keep their meaning wherever they stand in filter text, and texts that trimming leaves as
they are. The keywords of operators are such words, and so is every finite number.
-/
namespace FilterLang

namespace Text

/-- A word that is read as one token. -/
structure IsWord (w : Text) : Prop where
  ne_nil : w ≠ []
  not_blank : ∀ c ∈ w, isBlank c = false
  not_quote : ∀ c ∈ w.head?, isQuote c = false

structure IsPlainWord (w : Text) : Prop extends IsWord w where
  not_paren : ∀ c ∈ w, c ≠ '(' ∧ c ≠ ')'
  not_connective : ∀ k : Connective, w ≠ k.keyword

instance (w : Text) : Decidable (IsWord w) :=
  decidable_of_iff (w ≠ [] ∧ w.all (!isBlank ·) = true ∧ w.head?.all (!isQuote ·) = true) <| by
    constructor
    · rintro ⟨hne, hb, hq⟩
      exact ⟨hne, by simpa using hb, by simpa [Option.all_eq_true] using hq⟩
    · intro h
      exact ⟨h.ne_nil, by simpa using h.not_blank,
        by simpa [Option.all_eq_true] using h.not_quote⟩

instance (w : Text) : Decidable (IsPlainWord w) :=
  decidable_of_iff (IsWord w ∧ w.all (fun c => c ≠ '(' && c ≠ ')') = true ∧
      w ≠ Connective.and.keyword ∧ w ≠ Connective.or.keyword) <| by
    constructor
    · rintro ⟨hw, hp, hand, hor⟩
      exact ⟨hw, by simpa using hp, fun k => by cases k <;> assumption⟩
    · intro h
      exact ⟨h.toIsWord, by simpa using h.not_paren, h.not_connective .and, h.not_connective .or⟩

structure IsTight (s : Text) : Prop where
  ne_nil : s ≠ []
  head : ∀ c ∈ s.head?, isBlank c = false
  last : ∀ c ∈ s.getLast?, isBlank c = false

theorem IsWord.isTight {w : Text} (h : IsWord w) : IsTight w where
  ne_nil := h.ne_nil
  head c hc := h.not_blank c (List.mem_of_mem_head? hc)
  last c hc := h.not_blank c (List.mem_of_getLast? hc)

theorem IsTight.append {s t : Text} (hs : IsTight s) (ht : IsTight t) (between : Text) :
    IsTight (s ++ between ++ t) where
  ne_nil := by simp [hs.ne_nil]
  head c hc := by
    rw [List.append_assoc, List.head?_append_of_ne_nil _ hs.ne_nil] at hc
    exact hs.head c hc
  last c hc := by
    rw [List.getLast?_append_of_ne_nil _ ht.ne_nil] at hc
    exact ht.last c hc

private theorem isTight_singleton {c : Char} (hc : isBlank c = false) : IsTight [c] where
  ne_nil := List.cons_ne_nil c []
  head d hd := by
    cases Option.some.inj hd
    exact hc
  last d hd := by
    cases Option.some.inj hd
    exact hc

theorem isTight_enclosed {a b : Char} (ha : isBlank a = false) (hb : isBlank b = false)
    (s : Text) : IsTight (a :: s ++ [b]) :=
  (isTight_singleton ha).append (isTight_singleton hb) s

theorem trimStart_eq {s : Text} (h : ∀ c ∈ s.head?, isBlank c = false) : trimStart s = s := by
  cases s with
  | nil => rfl
  | cons c s => exact List.dropWhile_cons_of_neg (by simp [h c rfl])

theorem IsTight.trim_eq {s : Text} (h : IsTight s) : trim s = s := by
  have hrev : trimStart s.reverse = s.reverse :=
    trimStart_eq fun c hc => h.last c (by rwa [← List.head?_reverse])
  rw [trim, trimStart_eq h.head, trimEnd]
  rw [trimStart] at hrev
  rw [hrev, List.reverse_reverse]

/-- Trimming keeps a text up to its last character that is no blank. -/
theorem exists_trim_eq {s t : Text} {c : Char} (h : ∀ d ∈ s.head?, isBlank d = false)
    (hc : isBlank c = false) : ∃ u, u <+: t ∧ trim (s ++ c :: t) = s ++ c :: u := by
  have hstart : trimStart (s ++ c :: t) = s ++ c :: t := by
    apply trimStart_eq
    cases s with
    | nil => simpa using hc
    | cons d s => exact h
  refine ⟨trimEnd t, List.rdropWhile_prefix isBlank t, ?_⟩
  have hrev : (s ++ c :: t).reverse = t.reverse ++ c :: s.reverse := by simp
  have hstop : (c :: s.reverse).dropWhile isBlank = c :: s.reverse :=
    List.dropWhile_cons_of_neg (by simp [hc])
  rw [trim, hstart, trimEnd, hrev, List.dropWhile_append, hstop, trimEnd]
  split
  · next he => simp [List.isEmpty_iff.mp he]
  · simp

def NonBlank (s : Text) : Prop := ∃ c ∈ s, isBlank c = false

theorem IsTight.nonBlank {s : Text} (h : IsTight s) : NonBlank s := by
  obtain ⟨c, t, rfl⟩ := List.exists_cons_of_ne_nil h.ne_nil
  exact ⟨c, List.mem_cons_self, h.head c rfl⟩

theorem NonBlank.append_left {t : Text} (h : NonBlank t) (s : Text) : NonBlank (s ++ t) := by
  obtain ⟨c, hc, hb⟩ := h
  exact ⟨c, List.mem_append_right s hc, hb⟩

theorem NonBlank.append_right {s : Text} (h : NonBlank s) (t : Text) : NonBlank (s ++ t) := by
  obtain ⟨c, hc, hb⟩ := h
  exact ⟨c, List.mem_append_left t hc, hb⟩

/-- What is taken from such a text leaves another one if all of it is blank. -/
theorem NonBlank.of_blanks {s t : Text} (h : NonBlank s)
    (ht : ∀ c ∈ s, c ∈ t ∨ isBlank c = true) : NonBlank t := by
  obtain ⟨c, hc, hb⟩ := h
  rcases ht c hc with hct | hct
  · exact ⟨c, hct, hb⟩
  · rw [hb] at hct
    cases hct

theorem trimStart_append {s : Text} (h : NonBlank s) (t : Text) :
    trimStart (s ++ t) = trimStart s ++ t := by
  have hne : (s.dropWhile isBlank).isEmpty = false := by
    obtain ⟨c, hc, hb⟩ := h
    rw [List.isEmpty_eq_false_iff, ne_eq, List.dropWhile_eq_nil_iff]
    intro hall
    rw [hall c hc] at hb
    cases hb
  rw [trimStart, List.dropWhile_append, hne, if_neg Bool.false_ne_true, trimStart]

private theorem trimEnd_eq_reverse (s : Text) : trimEnd s = (trimStart s.reverse).reverse := rfl

theorem trimEnd_append {t : Text} (h : NonBlank t) (s : Text) :
    trimEnd (s ++ t) = s ++ trimEnd t := by
  have hrev : NonBlank t.reverse := by simpa [NonBlank] using h
  simp only [trimEnd_eq_reverse, List.reverse_append, trimStart_append hrev, List.reverse_reverse]

theorem trim_append {s t : Text} (hs : NonBlank s) (ht : NonBlank t) (between : Text) :
    trim (s ++ between ++ t) = trimStart s ++ between ++ trimEnd t := by
  rw [trim, List.append_assoc, trimStart_append hs, ← List.append_assoc, trimEnd_append ht]

private theorem trimEnd_append_blanks {b : Text} (hb : ∀ c ∈ b, isBlank c = true) (s : Text) :
    trimEnd (s ++ b) = trimEnd s := by
  have hrev : ∀ c ∈ b.reverse, isBlank c = true := fun c hc => hb c (List.mem_reverse.mp hc)
  simp only [trimEnd_eq_reverse, trimStart, List.reverse_append, List.dropWhile_append_of_pos hrev]

theorem IsTight.trim_blanks {s b₁ b₂ : Text} (h : IsTight s) (h₁ : ∀ c ∈ b₁, isBlank c = true)
    (h₂ : ∀ c ∈ b₂, isBlank c = true) : trim (b₁ ++ (s ++ b₂)) = s := by
  have hstart : trimStart (b₁ ++ (s ++ b₂)) = s ++ b₂ := by
    rw [trimStart, List.dropWhile_append_of_pos h₁]
    apply trimStart_eq
    rw [List.head?_append_of_ne_nil _ h.ne_nil]
    exact h.head
  have htrim := h.trim_eq
  rw [trim, trimStart_eq h.head] at htrim
  rw [trim, hstart, trimEnd_append_blanks h₂, htrim]

theorem exists_blanks_trimStart (s : Text) :
    ∃ b, s = b ++ trimStart s ∧ ∀ c ∈ b, isBlank c = true := by
  refine ⟨s.takeWhile isBlank, List.takeWhile_append_dropWhile.symm, ?_⟩
  intro c hc
  exact List.all_eq_true.mp List.all_takeWhile c hc

private theorem exists_blanks_trimEnd (s : Text) :
    ∃ b, s = trimEnd s ++ b ∧ ∀ c ∈ b, isBlank c = true := by
  obtain ⟨b, hs, hb⟩ := exists_blanks_trimStart s.reverse
  refine ⟨b.reverse, ?_, fun c hc => hb c (List.mem_reverse.mp hc)⟩
  have hrev := congrArg List.reverse hs
  rwa [List.reverse_reverse, List.reverse_append] at hrev

theorem exists_blanks_trim (s : Text) : ∃ b₁ b₂, s = b₁ ++ (trim s ++ b₂) ∧
    (∀ c ∈ b₁, isBlank c = true) ∧ ∀ c ∈ b₂, isBlank c = true := by
  obtain ⟨b₁, hs, h₁⟩ := exists_blanks_trimStart s
  obtain ⟨b₂, ht, h₂⟩ := exists_blanks_trimEnd (trimStart s)
  exact ⟨b₁, b₂, by rw [trim, ← ht, ← hs], h₁, h₂⟩

theorem trim_trimStart (s : Text) : trim (trimStart s) = trim s := by
  rw [trim, trimStart, trimStart, List.dropWhile_idempotent]
  rfl

theorem trim_trimEnd {s : Text} (h : NonBlank s) : trim (trimEnd s) = trim s := by
  obtain ⟨b, hs, hb⟩ := exists_blanks_trimEnd s
  have hend : NonBlank (trimEnd s) := by
    apply h.of_blanks
    intro c hc
    rw [hs] at hc
    exact (List.mem_append.mp hc).imp_right (hb c)
  have hstart := trimStart_append hend b
  rw [← hs] at hstart
  rw [trim, trim, hstart, trimEnd_append_blanks hb]

theorem NonBlank.trimStart {s : Text} (h : NonBlank s) : NonBlank (trimStart s) := by
  obtain ⟨b, hs, hb⟩ := exists_blanks_trimStart s
  apply h.of_blanks
  intro c hc
  rw [hs] at hc
  exact (List.mem_append.mp hc).symm.imp_right (hb c)

private theorem trim_eq_nil {s : Text} (h : ¬ NonBlank s) : trim s = [] := by
  have hblank : ∀ c ∈ s, isBlank c = true := fun c hc => by
    by_contra hb
    exact h ⟨c, hc, by simpa using hb⟩
  rw [trim, trimStart, List.dropWhile_eq_nil_iff.mpr hblank]
  rfl

theorem trim_trim (s : Text) : trim (trim s) = trim s := by
  by_cases h : NonBlank s
  · change trim (trimEnd (trimStart s)) = trim s
    rw [trim_trimEnd h.trimStart, trim_trimStart]
  · rw [trim_eq_nil h]
    rfl

end Text

theorem Connective.isWord_keyword (k : Connective) : Text.IsWord k.keyword := by
  cases k <;> decide

theorem Operator.isPlainWord_keyword (op : Operator) : Text.IsPlainWord op.keyword := by
  cases op <;> decide

namespace Decimal

def isNumeral (c : Char) : Bool :=
  isDigit c || c = '+' || c = '-' || c = '.' || c = 'e' || c = 'E'

private theorem isNumeral_of_isDigit {c : Char} (h : isDigit c = true) : isNumeral c = true := by
  simp [isNumeral, h]

theorem toNat_of_isDigit {c : Char} (h : isDigit c = true) : 48 ≤ c.toNat ∧ c.toNat ≤ 57 := by
  simpa [isDigit, Char.le_def, UInt32.le_iff_toNat_le] using h

private theorem of_isNumeral {c : Char} (h : isNumeral c = true) :
    Text.isBlank c = false ∧ Text.isQuote c = false ∧ (c ≠ '(' ∧ c ≠ ')') ∧ c ≠ 'a' ∧ c ≠ 'o' := by
  by_cases hd : isDigit c = true
  · obtain ⟨hlo, hhi⟩ := toNat_of_isDigit hd
    have hne (d : Char) (hlt : d.toNat < 48 ∨ 57 < d.toNat) : c ≠ d := by
      rintro rfl
      omega
    refine ⟨?_, ?_, ⟨hne _ (by decide), hne _ (by decide)⟩, hne _ (by decide), hne _ (by decide)⟩
    · simp only [Text.isBlank]
      simp
      omega
    · simp [Text.isQuote, hne '"' (by decide), hne '\'' (by decide)]
  · simp only [isNumeral, hd, Bool.false_or, Bool.or_eq_true, decide_eq_true_eq] at h
    rcases h with ((((rfl | rfl) | rfl) | rfl) | rfl) <;> decide

private theorem isNumeral_of_takeSign {s : Text} (h : ∀ c ∈ (takeSign s).2, isNumeral c = true) :
    ∀ c ∈ s, isNumeral c = true := by
  unfold takeSign at h
  split at h
  · exact List.forall_mem_cons.mpr ⟨by decide, h⟩
  · exact List.forall_mem_cons.mpr ⟨by decide, h⟩
  · exact h

private theorem isNumeral_of_readInt? {s : Text} {n : Int} (h : readInt? s = some n) :
    ∀ c ∈ s, isNumeral c = true := by
  apply isNumeral_of_takeSign
  unfold readInt? at h
  dsimp only at h
  split at h
  · cases h
  · next hds =>
    intro c hc
    simp only [Bool.or_eq_true, not_or, Bool.not_eq_true, Bool.not_eq_false',
      List.all_eq_true] at hds
    exact isNumeral_of_isDigit (hds.2 c hc)

private theorem isNumeral_of_readExponent? {s : Text} {n : Int} (h : readExponent? s = some n) :
    ∀ c ∈ s, isNumeral c = true := by
  unfold readExponent? at h
  split at h
  · simp
  · split at h
    · next he =>
      refine List.forall_mem_cons.mpr ⟨?_, isNumeral_of_readInt? h⟩
      rcases he with rfl | rfl <;> decide
    · cases h

private theorem isNumeral_of_span {s : Text} (h : ∀ c ∈ (s.span isDigit).2, isNumeral c = true) :
    ∀ c ∈ s, isNumeral c = true := by
  rw [List.span_eq_takeWhile_dropWhile] at h
  rw [← List.takeWhile_append_dropWhile (p := isDigit) (l := s)]
  intro c hc
  rcases List.mem_append.mp hc with hc | hc
  · exact isNumeral_of_isDigit (List.all_eq_true.mp List.all_takeWhile c hc)
  · exact h c hc

private theorem isNumeral_of_takeFraction {s : Text}
    (h : ∀ c ∈ (takeFraction s).2, isNumeral c = true) : ∀ c ∈ s, isNumeral c = true := by
  unfold takeFraction at h
  split at h
  · exact List.forall_mem_cons.mpr ⟨by decide, isNumeral_of_span h⟩
  · exact h

private theorem isNumeral_of_read? {s : Text} {d : Decimal} (h : read? s = some d) :
    s ≠ [] ∧ ∀ c ∈ s, isNumeral c = true := by
  constructor
  · rintro rfl
    cases h
  · apply isNumeral_of_takeSign
    unfold read? readUnsigned? at h
    dsimp only at h
    split at h
    · cases h
    · obtain ⟨n, hn, -⟩ := Option.map_eq_some_iff.mp h
      exact isNumeral_of_span (isNumeral_of_takeFraction (isNumeral_of_readExponent? hn))

end Decimal

namespace Binary64

theorem not_isFinite_of_ofWord? {negative : Bool} {s : Text} {x : Binary64}
    (h : ofWord? negative s = some x) : x.isFinite = false := by
  unfold ofWord? at h
  dsimp only at h
  split at h
  · cases Option.some.inj h
    rfl
  · split at h
    · cases Option.some.inj h
      rfl
    · cases h

theorem isNumeral_of_readFinite? {s : Text} (h : (readFinite? s).isSome = true) :
    s ≠ [] ∧ ∀ c ∈ s, Decimal.isNumeral c = true := by
  obtain ⟨x, hx⟩ := Option.isSome_iff_exists.mp h
  obtain ⟨hread, hfin⟩ := Option.filter_eq_some_iff.mp hx
  unfold read? at hread
  dsimp only at hread
  rcases Option.or_eq_some_iff.mp hread with hw | ⟨-, hd⟩
  · rw [not_isFinite_of_ofWord? hw] at hfin
    cases hfin
  · obtain ⟨d, hd, -⟩ := Option.map_eq_some_iff.mp hd
    exact Decimal.isNumeral_of_read? hd

end Binary64

theorem Text.isPlainWord_of_readFinite? {w : Text} (h : (Binary64.readFinite? w).isSome = true) :
    IsPlainWord w := by
  obtain ⟨hne, hw⟩ := Binary64.isNumeral_of_readFinite? h
  refine ⟨⟨hne, fun c hc => ?_, fun c hc => ?_⟩, fun c hc => ?_, fun k hk => ?_⟩
  · exact (Decimal.of_isNumeral (hw c hc)).1
  · exact (Decimal.of_isNumeral (hw c (List.mem_of_mem_head? hc))).2.1
  · exact (Decimal.of_isNumeral (hw c hc)).2.2.1
  · subst hk
    cases k with
    | and => exact (Decimal.of_isNumeral (hw 'a' (by decide))).2.2.2.1 rfl
    | or => exact (Decimal.of_isNumeral (hw 'o' (by decide))).2.2.2.2 rfl

end FilterLang
