import FilterLang.Filter.Read
import Mathlib.Data.List.Infix
import Mathlib.Data.List.DropRight

/-!
Where connectives stand in a text. A text without one has none in any of its pieces, and trimming,
taking off parentheses and splitting only ever leave pieces.
-/
namespace FilterLang

namespace Text

theorem trimEnd_isPrefix (s : Text) : trimEnd s <+: s := List.rdropWhile_prefix isBlank s

theorem trim_isInfix (s : Text) : trim s <:+: s :=
  (trimEnd_isPrefix _).isInfix.trans (List.dropWhile_suffix isBlank).isInfix

private theorem isInfix_of_insideParens? {s r : Text} (h : insideParens? s = some r) : r <:+: s :=
  ⟨['('], [')'], (eq_of_insideParens? h).symm⟩

end Text

namespace Filter

theorem body_isInfix (text : Text) : (body text).1 <:+: text := by
  have ht := Text.trim_isInfix text
  unfold body
  dsimp only
  split
  · next inside h =>
    exact (Text.trim_isInfix inside).trans ((Text.isInfix_of_insideParens? h).trans ht)
  · exact ht

end Filter

namespace Split

theorem here?_eq_some_iff {s r : Text} {k : Connective} :
    here? s = some (k, r) ↔ s = ' ' :: k.keyword ++ ' ' :: r := by
  constructor
  · intro h
    unfold here? at h
    split at h
    · obtain ⟨rfl, rfl⟩ := Prod.mk.inj (Option.some.inj h); rfl
    · obtain ⟨rfl, rfl⟩ := Prod.mk.inj (Option.some.inj h); rfl
    · cases h
  · rintro rfl
    cases k <;> rfl

private theorem here?_eq_none_of_isPrefix {s t : Text} (ht : t <+: s) (h : here? s = none) :
    here? t = none := by
  obtain ⟨rest, rfl⟩ := ht
  rw [Option.eq_none_iff_forall_ne_some] at h ⊢
  rintro ⟨k, r⟩ hr
  rw [here?_eq_some_iff.mp hr] at h
  exact h (k, r ++ rest) (here?_eq_some_iff.mpr (by simp))

theorem find?_cons_eq_none {c : Char} {s : Text} :
    find? (c :: s) = none ↔ here? (c :: s) = none ∧ find? s = none := by
  rw [find?]
  cases hh : here? (c :: s) with
  | none => simp
  | some kr => simp

/-- No connective at all means none at the start of any rest of the text. -/
theorem find?_eq_none_iff {s : Text} : find? s = none ↔ ∀ t, t <:+ s → here? t = none := by
  induction s with
  | nil =>
    refine ⟨fun _ t ht => ?_, fun _ => rfl⟩
    rw [List.suffix_nil.mp ht]
    rfl
  | cons c s ih =>
    rw [find?_cons_eq_none, ih]
    constructor
    · rintro ⟨hc, hs⟩ t ht
      rcases List.suffix_cons_iff.mp ht with rfl | ht
      · exact hc
      · exact hs t ht
    · intro h
      exact ⟨h _ List.suffix_rfl, fun t ht => h t (ht.trans (List.suffix_cons c s))⟩

theorem find?_eq_none_of_isInfix {s t : Text} (ht : t <:+: s) (h : find? s = none) :
    find? t = none := by
  rw [find?_eq_none_iff] at h ⊢
  obtain ⟨before, behind, rfl⟩ := ht
  intro u hu
  have hpre : u <+: u ++ behind := List.prefix_append u behind
  refine here?_eq_none_of_isPrefix hpre (h _ ?_)
  obtain ⟨front, rfl⟩ := hu
  exact ⟨before ++ front, by simp⟩

theorem eq_of_find? {s : Text} {p : Split} (h : find? s = some p) :
    s = p.left ++ ' ' :: p.connective.keyword ++ ' ' :: p.right := by
  induction s generalizing p with
  | nil => cases h
  | cons c s ih =>
    rw [find?] at h
    split at h
    · next k r hr =>
      cases Option.some.inj h
      exact here?_eq_some_iff.mp hr
    · obtain ⟨q, hq, rfl⟩ := Option.map_eq_some_iff.mp h
      rw [ih hq]
      rfl

/-- The split is at the leftmost connective. -/
theorem find?_left {s : Text} {p : Split} (h : find? s = some p) : find? p.left = none := by
  induction s generalizing p with
  | nil => cases h
  | cons c s ih =>
    rw [find?] at h
    split at h
    · cases Option.some.inj h
      rfl
    · next hc =>
      obtain ⟨q, hq, rfl⟩ := Option.map_eq_some_iff.mp h
      refine find?_cons_eq_none.mpr ⟨here?_eq_none_of_isPrefix ?_ hc, ih hq⟩
      refine List.cons_prefix_cons.mpr ⟨rfl, ?_⟩
      exact ⟨' ' :: q.connective.keyword ++ ' ' :: q.right,
        (by simpa using (eq_of_find? hq).symm)⟩

end Split
end FilterLang
