import FilterLang.Proofs.ClauseReading
import FilterLang.Proofs.Occurrence

/-!
Where the search for a connective finds one. It passes over words, but quotes mean nothing to it: it
finds every connective inside a literal, and nothing else there.
-/
namespace FilterLang
open Text

namespace Split

def after (s : Text) (p : Split) : Split := { p with left := s ++ p.left }

@[simp] theorem after_nil : after [] = id := rfl

@[simp] theorem after_comp_after (s t : Text) : after s ∘ after t = after (s ++ t) := by
  funext p
  simp [after]

/-- Whether the search for a connective passes over a text that has another one behind it. -/
def Skips (s rest : Text) : Prop := find? (s ++ rest) = (find? rest).map (after s)

theorem Skips.append {s t rest : Text} (hs : Skips s (t ++ rest)) (ht : Skips t rest) :
    Skips (s ++ t) rest := by
  unfold Skips at hs ht ⊢
  rw [List.append_assoc, hs, ht, Option.map_map, after_comp_after]

private theorem skips_nil (rest : Text) : Skips [] rest := by
  simp [Skips]

theorem Skips.cons {c : Char} {s rest : Text} (hc : here? (c :: (s ++ rest)) = none)
    (hs : Skips s rest) : Skips (c :: s) rest := by
  unfold Skips at hs ⊢
  rw [List.cons_append, find?, hc]
  dsimp only
  rw [hs, Option.map_map]
  rfl

theorem here?_eq_none_of_ne {c : Char} (h : c ≠ ' ') (s : Text) : here? (c :: s) = none := by
  rw [Option.eq_none_iff_forall_ne_some]
  rintro ⟨k, r⟩ hr
  exact h (List.cons.inj (here?_eq_some_iff.mp hr)).1

theorem skips_of_not_space {s : Text} (h : ∀ c ∈ s, c ≠ ' ') (rest : Text) : Skips s rest := by
  induction s with
  | nil => exact skips_nil rest
  | cons c s ih =>
    obtain ⟨hc, hs⟩ := List.forall_mem_cons.mp h
    exact .cons (here?_eq_none_of_ne hc _) (ih hs)

/-- A connective ends with a space. -/
theorem find?_concat_eq_none {s : Text} {c : Char} (hc : c ≠ ' ') (h : find? s = none) :
    find? (s ++ [c]) = none := by
  induction s with
  | nil => exact find?_cons_eq_none.mpr ⟨here?_eq_none_of_ne hc [], rfl⟩
  | cons d s ih =>
    obtain ⟨hd, hs⟩ := find?_cons_eq_none.mp h
    refine find?_cons_eq_none.mpr ⟨?_, ih hs⟩
    rw [Option.eq_none_iff_forall_ne_some]
    rintro ⟨k, r⟩ hk
    have he : d :: s ++ [c] = ' ' :: k.keyword ++ ' ' :: r := here?_eq_some_iff.mp hk
    rcases List.eq_nil_or_concat' r with rfl | ⟨init, last, rfl⟩
    · exact hc (List.cons.inj (List.append_inj' he rfl).2).1
    · rw [← List.cons_append, ← List.append_assoc] at he
      rw [(List.append_inj' he rfl).1, here?_eq_some_iff.mpr rfl] at hd
      cases hd

private theorem ne_space_of_isWord {w : Text} (hw : IsWord w) : ∀ c ∈ w, c ≠ ' ' := by
  rintro c hc rfl
  exact Bool.noConfusion (hw.not_blank ' ' hc)

private theorem skips_space_word {w rest : Text} (hw : IsWord w)
    (hr : ∀ c ∈ rest.head?, c = ')' ∨ c = ' ' ∧ ∀ k : Connective, w ≠ k.keyword) :
    Skips (' ' :: w) rest := by
  refine .cons ?_ (skips_of_not_space (ne_space_of_isWord hw) rest)
  rw [Option.eq_none_iff_forall_ne_some]
  rintro ⟨k, r⟩ hk
  have he : w ++ rest = k.keyword ++ ' ' :: r := (List.cons.inj (here?_eq_some_iff.mp hk)).2
  rcases List.append_eq_append_iff.mp he with ⟨t, hw', hr'⟩ | ⟨t, hw', hr'⟩
  · cases t with
    | nil =>
      rcases hr ' ' (by simp [hr']) with hc | ⟨-, hne⟩
      · cases hc
      · exact hne k (by simpa using hw'.symm)
    | cons c t =>
      have hc : c ∈ k.keyword := by simp [hw']
      rcases hr c (by simp [hr']) with rfl | ⟨rfl, -⟩ <;>
        cases k <;> simp [Connective.keyword] at hc
  · cases t with
    | nil =>
      rcases hr ' ' (by simpa using congrArg List.head? hr'.symm) with hc | ⟨-, hne⟩
      · cases hc
      · exact hne k (by simpa using hw')
    | cons c t =>
      obtain rfl : ' ' = c := (List.cons.inj hr').1
      exact ne_space_of_isWord hw ' ' (by simp [hw']) rfl

/-- A text that holds no connective even with the character behind it. That character is in neither
keyword, so no connective goes beyond it. -/
theorem skips_of_find?_concat {s : Text} {c : Char} (hc : ∀ k : Connective, c ∉ k.keyword)
    (h : find? (s ++ [c]) = none) (rest : Text) : Skips s (c :: rest) := by
  induction s with
  | nil => exact skips_nil _
  | cons d s ih =>
    obtain ⟨hd, hs⟩ := find?_cons_eq_none.mp h
    refine .cons ?_ (ih hs)
    rw [Option.eq_none_iff_forall_ne_some]
    rintro ⟨k, r⟩ hk
    have he : d :: (s ++ [c]) ++ rest = ' ' :: k.keyword ++ [' '] ++ r := by
      simpa using here?_eq_some_iff.mp hk
    have hnone (t : Text) : d :: (s ++ [c]) ≠ ' ' :: k.keyword ++ [' '] ++ t := fun ht => by
      rw [here?_eq_some_iff.mpr (by simpa using ht)] at hd
      cases hd
    rcases List.append_eq_append_iff.mp he with ⟨t, ht, -⟩ | ⟨t, ht, -⟩
    · rcases List.eq_nil_or_concat' t with rfl | ⟨init, last, rfl⟩
      · exact hnone [] (by simpa using ht.symm)
      · rw [← List.append_assoc] at ht
        have hk : k.keyword = s ++ [c] ++ init := by
          simpa using (List.cons.inj (List.append_inj' ht rfl).1).2
        exact hc k (by simp [hk])
    · exact hnone t ht

/-- A closed token without a connective inside has none across its end. -/
theorem skips_of_spells {w : Text} {t : Token} (ht : Lexeme.Spells w t) (hf : t.isField = true)
    (h : find? w = none) (rest : Text) : Skips w rest := by
  cases ht with
  | word hw => exact skips_of_not_space (ne_space_of_isWord hw) rest
  | @literal q body content closed hq hbody =>
    obtain rfl : closed = true := hf
    have hlast := getLast?_raw (q := q) (s := body) (by rw [hbody])
    rw [hbody] at hlast
    obtain ⟨init, rfl⟩ := List.getLast?_eq_some_iff.mp hlast
    have hkey (k : Connective) : q ∉ k.keyword := by
      rcases eq_of_isQuote hq with rfl | rfl <;> cases k <;> decide
    have hspace : ∀ c ∈ [q], c ≠ ' ' := by
      rcases eq_of_isQuote hq with rfl | rfl <;> simp
    have hinit : Skips (q :: init) (q :: rest) := skips_of_find?_concat hkey h rest
    exact hinit.append (skips_of_not_space hspace rest)

private theorem exists_of_escape_eq {s rest u v : Text} (hu : ∀ c ∈ u, c ≠ '"' ∧ c ≠ '\\')
    (h : escape s ++ '"' :: rest = u ++ v) : ∃ t, s = u ++ t ∧ escape t ++ '"' :: rest = v := by
  induction u generalizing s with
  | nil => exact ⟨s, rfl, h⟩
  | cons d u ih =>
    obtain ⟨hd, hu'⟩ := List.forall_mem_cons.mp hu
    cases s with
    | nil => exact absurd (List.cons.inj h).1.symm hd.1
    | cons c s =>
      rw [escape_cons] at h
      by_cases hc : c = '"' ∨ c = '\\'
      · rw [if_pos hc] at h
        exact absurd (List.cons.inj h).1.symm hd.2
      · rw [if_neg hc] at h
        obtain ⟨rfl, hs⟩ := List.cons.inj h
        obtain ⟨t, rfl, ht⟩ := ih hu' hs
        exact ⟨t, rfl, ht⟩

private theorem here?_escape {c : Char} (s rest : Text) :
    here? (c :: (escape s ++ '"' :: rest)) =
      (here? (c :: s)).map fun p => (p.1, escape p.2 ++ '"' :: rest) := by
  cases hh : here? (c :: s) with
  | some p =>
    obtain ⟨k, r⟩ := p
    obtain ⟨rfl, rfl⟩ := List.cons.inj (here?_eq_some_iff.mp hh)
    rw [Option.map_some, here?_eq_some_iff]
    cases k <;> rfl
  | none =>
    rw [Option.map_none, Option.eq_none_iff_forall_ne_some]
    rintro ⟨k, r⟩ hk
    obtain ⟨rfl, he⟩ := List.cons.inj (here?_eq_some_iff.mp hk)
    have hkey : ∀ d ∈ k.keyword ++ [' '], d ≠ '"' ∧ d ≠ '\\' := by
      cases k <;> simp [Connective.keyword]
    obtain ⟨t, rfl, -⟩ := exists_of_escape_eq hkey (v := r) (by simpa using he)
    have hsome : here? (' ' :: (k.keyword ++ [' '] ++ t)) = some (k, t) :=
      here?_eq_some_iff.mpr (by simp)
    rw [hsome] at hh
    cases hh

/-- A literal without a connective in its content has none at all. -/
theorem skips_escape {s : Text} (h : find? s = none) (rest : Text) :
    Skips (escape s) ('"' :: rest) := by
  induction s with
  | nil => exact skips_nil _
  | cons c s ih =>
    obtain ⟨hc, hs⟩ := find?_cons_eq_none.mp h
    rw [escape_cons]
    refine .append ?_ (ih hs)
    split
    · next hq =>
      refine skips_of_not_space ?_ _
      rcases hq with rfl | rfl <;> simp
    · refine .cons ?_ (skips_nil _)
      rw [List.nil_append, here?_escape, hc, Option.map_none]

/-- The first connective in the content of a literal is the first one in the literal. -/
theorem find?_escape {s : Text} {q : Split} (h : find? s = some q) (rest : Text) :
    find? (escape s ++ '"' :: rest) =
      some ⟨escape q.left, q.connective, escape q.right ++ '"' :: rest⟩ := by
  induction s generalizing q with
  | nil => cases h
  | cons c s ih =>
    rw [find?] at h
    rw [escape_cons]
    by_cases hc : c = '"' ∨ c = '\\'
    · have hne : ∀ d ∈ ['\\', c], d ≠ ' ' := by rcases hc with rfl | rfl <;> simp
      rw [here?_eq_none_of_ne (hne c (by simp))] at h
      obtain ⟨q, hq, rfl⟩ := Option.map_eq_some_iff.mp h
      have hskip := skips_of_not_space hne (escape s ++ '"' :: rest)
      unfold Skips at hskip
      rw [if_pos hc, List.append_assoc, hskip, ih hq, escape_cons, if_pos hc]
      rfl
    · rw [if_neg hc, List.singleton_append, List.cons_append, find?, here?_escape]
      cases hh : here? (c :: s) with
      | some p =>
        rw [hh] at h
        cases Option.some.inj h
        rfl
      | none =>
        rw [hh] at h
        obtain ⟨q, hq, rfl⟩ := Option.map_eq_some_iff.mp h
        dsimp only [Option.map_none]
        rw [ih hq, escape_cons, if_neg hc]
        rfl

private theorem find?_connective (k : Connective) (s : Text) :
    find? (' ' :: k.keyword ++ ' ' :: s) = some ⟨[], k, s⟩ := by
  have hk : here? (' ' :: (k.keyword ++ ' ' :: s)) = some (k, s) := here?_eq_some_iff.mpr rfl
  rw [List.cons_append, find?, hk]

theorem exists_find?_connective (s : Text) (k : Connective) (rest : Text) :
    ∃ p, find? (s ++ (' ' :: k.keyword ++ ' ' :: rest)) = some p := by
  apply Option.ne_none_iff_exists'.mp
  intro h
  have hnone := find?_eq_none_of_isInfix (List.suffix_append s _).isInfix h
  rw [find?_connective] at hnone
  cases hnone

theorem Skips.find?_connective {s rest : Text} {k : Connective}
    (h : Skips s (' ' :: k.keyword ++ ' ' :: rest)) :
    find? (s ++ (' ' :: k.keyword ++ ' ' :: rest)) = some ⟨s, k, rest⟩ := by
  unfold Skips at h
  rw [h, Split.find?_connective]
  simp [after]

private theorem isPrefixOf_eq_true_iff {k : Connective} {s : Text} :
    (' ' :: k.keyword ++ [' ']).isPrefixOf s = true ↔ ∃ r, here? s = some (k, r) := by
  rw [List.isPrefixOf_iff_prefix]
  constructor
  · rintro ⟨r, rfl⟩
    exact ⟨r, here?_eq_some_iff.mpr (by simp)⟩
  · rintro ⟨r, hr⟩
    exact ⟨r, by simp [here?_eq_some_iff.mp hr]⟩

private theorem here?_eq_none_iff {s : Text} :
    here? s = none ↔ ∀ k : Connective, (' ' :: k.keyword ++ [' ']).isPrefixOf s = false := by
  constructor
  · intro h k
    by_contra hk
    obtain ⟨r, hr⟩ := isPrefixOf_eq_true_iff.mp (Bool.not_eq_false _ ▸ hk)
    rw [h] at hr
    cases hr
  · intro h
    rw [Option.eq_none_iff_forall_ne_some]
    rintro ⟨k, r⟩ hr
    exact Bool.noConfusion ((h k).symm.trans (isPrefixOf_eq_true_iff.mpr ⟨r, hr⟩))

/-- There is no split just when neither connective occurs between spaces. -/
theorem find?_eq_none_iff_contains {s : Text} :
    find? s = none ↔ ∀ k : Connective, Text.contains (' ' :: k.keyword ++ [' ']) s = false := by
  induction s with
  | nil => exact ⟨fun _ _ => rfl, fun _ => rfl⟩
  | cons c s ih =>
    rw [find?_cons_eq_none, ih, here?_eq_none_iff, ← forall_and]
    apply forall_congr'
    intro k
    rw [Text.contains, Bool.or_eq_false_iff]

private theorem skips_quote {s : Text} (h : find? s = none) (rest : Text) :
    Skips (' ' :: quote s) rest := by
  have hopen : here? (' ' :: '"' :: (escape s ++ ['"'] ++ rest)) = none := rfl
  have hclose : Skips ['"'] rest := skips_of_not_space (by simp) rest
  have hquote : Skips ('"' :: (escape s ++ ['"'])) rest :=
    .cons (here?_eq_none_of_ne (by decide) _) (.append (skips_escape h rest) hclose)
  exact .cons hopen hquote

end Split

/-- Whether an operand is a text that contains a connective between spaces. -/
def Operand.holdsConnective : Operand → Bool
  | text s => Text.contains " and ".toList s || Text.contains " or ".toList s
  | _ => false

theorem Operand.holdsConnective_text (s : Text) :
    (text s).holdsConnective = (Split.find? s).isSome := by
  have hnone : (text s).holdsConnective = false ↔ Split.find? s = none := by
    rw [Split.find?_eq_none_iff_contains, holdsConnective, Bool.or_eq_false_iff]
    constructor
    · rintro ⟨hand, hor⟩ k
      cases k with
      | and => exact hand
      | or => exact hor
    · intro h
      exact ⟨h .and, h .or⟩
  cases hs : Split.find? s with
  | none => exact hnone.mpr hs
  | some q =>
    by_contra hk
    rw [hnone.mp (by simpa using hk)] at hs
    cases hs

namespace Clause
open Split

/-- Whether a clause is legible and its field holds no connective, as those of a filter that was
read. -/
structure Admissible (c : Clause) : Prop extends Legible c where
  find?_field : find? c.field = none

theorem Admissible.skips_field_operator {c : Clause} (h : c.Admissible) (rest : Text) :
    Skips (c.field ++ ' ' :: c.operator.keyword) (' ' :: rest) := by
  obtain ⟨t, ht, hfield⟩ := h.field
  have hop := c.operator.isPlainWord_keyword
  apply (skips_of_spells ht hfield h.find?_field _).append
  apply skips_space_word hop.toIsWord
  intro d hd
  exact .inr ⟨(Option.some.inj hd).symm, hop.not_connective⟩

/-- A clause is passed over if it holds no connective, even with what stands behind it. -/
theorem Admissible.skips_display {c : Clause} (h : c.Admissible)
    (hk : c.operand.holdsConnective = false) {rest : Text}
    (hr : ∀ d ∈ rest.head?, d = ')' ∨ d = ' ' ∧ ∀ k : Connective, c.operand ≠ .field k.keyword) :
    Skips c.display rest := by
  have hoperand : Skips (' ' :: c.operand.display) rest := by
    cases ho : c.operand with
    | text s =>
      rw [ho, Operand.holdsConnective_text] at hk
      exact skips_quote (by simpa using hk) rest
    | number w =>
      have hw := isPlainWord_of_readFinite? (ho ▸ h.operand : (Operand.number w).Legible)
      apply skips_space_word hw.toIsWord
      intro d hd
      exact (hr d hd).imp_right fun hd => ⟨hd.1, hw.not_connective⟩
    | field w =>
      have hw : IsWord w := (ho ▸ h.operand : (Operand.field w).Legible).1
      apply skips_space_word hw
      intro d hd
      refine (hr d hd).imp_right fun hd => ⟨hd.1, fun k hwk => ?_⟩
      exact hd.2 k (ho.trans (congrArg Operand.field hwk))
  have hall := Skips.append (h.skips_field_operator _) hoperand
  simpa [display, displayParts] using hall

/-- A connective in the text of the operand is where the text of the clause is split. -/
theorem Admissible.find?_display {c : Clause} (h : c.Admissible) {s : Text} {q : Split}
    (ho : c.operand = .text s) (hq : find? s = some q) (rest : Text) :
    find? (c.display ++ rest) =
      some ⟨c.front ++ '"' :: escape q.left, q.connective, escape q.right ++ '"' :: rest⟩ := by
  have hopen : here? (' ' :: '"' :: (escape s ++ '"' :: rest)) = none := rfl
  have hquote : Skips [' ', '"'] (escape s ++ '"' :: rest) :=
    .cons hopen (skips_of_not_space (by simp) _)
  have hshape : c.display ++ rest =
      c.field ++ ' ' :: c.operator.keyword ++ (' ' :: '"' :: (escape s ++ '"' :: rest)) := by
    simp [display, displayParts, ho, Operand.display, quote_eq]
  have hfront := h.skips_field_operator ('"' :: (escape s ++ '"' :: rest))
  unfold Skips at hquote hfront
  rw [hshape, hfront]
  rw [List.cons_append, List.singleton_append, find?_escape hq] at hquote
  rw [hquote]
  simp [after, front]

theorem Printable.admissible {c : Clause} (h : c.Printable) : c.Admissible where
  toLegible := h.legible
  find?_field := by
    have hskip := skips_of_not_space (ne_space_of_isWord h.field.toIsWord) []
    simpa [Skips, find?] using hskip

theorem Printable.ne_connective {c : Clause} (h : c.Printable) (k : Connective) :
    c.operand ≠ .field k.keyword := by
  intro ho
  have hw : (Operand.field k.keyword).Printable := ho ▸ h.operand
  exact hw.1.not_connective k rfl

end Clause
end FilterLang
