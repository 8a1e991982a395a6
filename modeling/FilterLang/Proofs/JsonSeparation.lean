import FilterLang.Json.Print
import FilterLang.Json.Read
import Mathlib.Data.List.Basic

/-!
Compact JSON text can be told apart from whatever stands behind it, as long as no number is in it.
The reader of strings finds the end of a written one and what it says; brackets, commas and the
first character of a value show the rest.
-/
namespace FilterLang.Json

private theorem hexUnit?_hexDigit {n : ℕ} (hn : n < 32) :
    hexUnit? '0' '0' (hexDigit (n / 16)) (hexDigit (n % 16)) = some n := by
  have h : ∀ m < 32, hexUnit? '0' '0' (hexDigit (m / 16)) (hexDigit (m % 16)) = some m := by decide
  exact h n hn

private theorem readString?_named {e c : Char} (hc : namedEscape? e = some c) (he : e ≠ 'u')
    (r : Text) : readString? ('\\' :: e :: r) = (readString? r).map fun (s, r) => (c :: s, r) := by
  rw [readString?]
  · simp [hc]
  · intro _ _ _ _ _ hu
    exact absurd hu he

private theorem readString?_plain {c : Char} (hq : c ≠ '"') (hb : c ≠ '\\') (hn : ¬ c.toNat < 32)
    (r : Text) : readString? (c :: r) = (readString? r).map fun (s, r) => (c :: s, r) := by
  rw [readString?]
  · simp [hb, hn]
  all_goals simp_all

private theorem readString?_control {n : ℕ} (hn : n < 32) (r : Text) :
    readString? ('\\' :: 'u' :: '0' :: '0' :: hexDigit (n / 16) :: hexDigit (n % 16) :: r) =
      (readString? r).map fun (s, r) => (Char.ofNat n :: s, r) := by
  have hhigh : isHigh n = false := by simp [isHigh]; omega
  have hlow : isLow n = false := by simp [isLow]; omega
  rw [readString?, hexUnit?_hexDigit hn, Option.bind_some, hhigh, hlow]
  rfl

private theorem readString?_escapeChar (c : Char) (r : Text) :
    readString? (escapeChar c ++ r) = (readString? r).map fun (s, r) => (c :: s, r) := by
  unfold escapeChar
  split_ifs with hq hb h8 h9 h10 h12 h13 hn
  · subst hq
    exact readString?_named rfl (by decide) r
  · subst hb
    exact readString?_named rfl (by decide) r
  · subst h8
    exact readString?_named rfl (by decide) r
  · subst h9
    exact readString?_named rfl (by decide) r
  · subst h10
    exact readString?_named rfl (by decide) r
  · subst h12
    exact readString?_named rfl (by decide) r
  · subst h13
    exact readString?_named rfl (by decide) r
  · have hread := readString?_control hn r
    rwa [Char.ofNat_toNat] at hread
  · exact readString?_plain hq hb hn r

private theorem readString?_flatMap (s r : Text) :
    readString? (s.flatMap escapeChar ++ '"' :: r) = some (s, r) := by
  induction s with
  | nil => rfl
  | cons c s ih => rw [List.flatMap_cons, List.append_assoc, readString?_escapeChar, ih]; rfl

theorem stringText_append_inj {s t r u : Text} (h : stringText s ++ r = stringText t ++ u) :
    s = t ∧ r = u := by
  have hbody : s.flatMap escapeChar ++ '"' :: r = t.flatMap escapeChar ++ '"' :: u := by
    simpa [stringText] using h
  have hread := congrArg readString? hbody
  rw [readString?_flatMap, readString?_flatMap] at hread
  exact Prod.mk.inj (Option.some.inj hread)

mutual

def Numberless : Json → Prop
  | .number _ => False
  | .array items => NumberlessItems items
  | .object fields => NumberlessFields fields
  | _ => True

def NumberlessItems : List Json → Prop
  | [] => True
  | v :: items => Numberless v ∧ NumberlessItems items

def NumberlessFields : List (Text × Json) → Prop
  | [] => True
  | (_, v) :: fields => Numberless v ∧ NumberlessFields fields

end

/-- The values of a kind start with one of the same characters. -/
def kind : Json → ℕ
  | .null => 0
  | .bool _ => 1
  | .string _ => 2
  | .array _ => 3
  | .object _ => 4
  | .number _ => 5

def kindAt : Char → ℕ
  | 'n' => 0
  | 't' | 'f' => 1
  | '"' => 2
  | '[' => 3
  | '{' => 4
  | _ => 5

private theorem exists_compact_eq {v : Json} (hv : Numberless v) :
    ∃ c t, compact v = c :: t ∧ kindAt c = kind v ∧ kind v ≠ 5 := by
  cases v with
  | null => exact ⟨_, _, rfl, rfl, by simp [kind]⟩
  | bool b => cases b <;> exact ⟨_, _, rfl, rfl, by simp [kind]⟩
  | number n => exact hv.elim
  | string s => exact ⟨_, _, rfl, rfl, by simp [kind]⟩
  | array items => exact ⟨_, _, rfl, rfl, by simp [kind]⟩
  | object fields => exact ⟨_, _, rfl, rfl, by simp [kind]⟩

private theorem kind_eq_of_append {v u : Json} (hv : Numberless v) (hu : Numberless u) {r s : Text}
    (h : compact v ++ r = compact u ++ s) : kind v = kind u := by
  obtain ⟨c, t, hc, hcv, -⟩ := exists_compact_eq hv
  obtain ⟨d, t', hd, hdu, -⟩ := exists_compact_eq hu
  rw [hc, hd] at h
  rw [← hcv, ← hdu, (List.cons.inj h).1]

private theorem compact_append_ne {v : Json} (hv : Numberless v) {c : Char} (hc : kindAt c = 5)
    (r s : Text) : c :: r ≠ compact v ++ s := by
  obtain ⟨d, t, hd, hdv, hne⟩ := exists_compact_eq hv
  rw [hd]
  intro h
  rw [← hdv, ← (List.cons.inj h).1] at hne
  exact hne hc

private theorem compact_array_append (vs : List Json) (r : Text) :
    compact (.array vs) ++ r = '[' :: (compactItems vs ++ ']' :: r) := by
  simp [compact]

private theorem compact_object_append (fs : List (Text × Json)) (r : Text) :
    compact (.object fs) ++ r = '{' :: (compactFields fs ++ '}' :: r) := by
  simp [compact]

private theorem compactItems_cons_append (v : Json) (vs : List Json) (r : Text) :
    compactItems (v :: vs) ++ ']' :: r =
      compact v ++ if vs.isEmpty then ']' :: r else ',' :: (compactItems vs ++ ']' :: r) := by
  rw [compactItems]
  split <;> simp

private theorem compactFields_cons_append (n : Text) (v : Json) (fs : List (Text × Json))
    (r : Text) : compactFields ((n, v) :: fs) ++ '}' :: r =
      stringText n ++ ':' :: (compact v ++
        if fs.isEmpty then '}' :: r else ',' :: (compactFields fs ++ '}' :: r)) := by
  rw [compactFields]
  split <;> simp

private theorem of_ending_eq {α : Type} {vs us : List α} {c : Char} {r s t u : Text} (hc : c ≠ ',')
    (h : (if vs.isEmpty then c :: r else ',' :: t) = if us.isEmpty then c :: s else ',' :: u) :
    ((vs = [] ∧ us = []) ∧ r = s) ∨ t = u := by
  -- Behind an item stands either the bracket, if it is the last one, or a comma.
  cases vs with
  | nil =>
    cases us with
    | nil => exact .inl ⟨⟨rfl, rfl⟩, (List.cons.inj h).2⟩
    | cons b us => exact absurd (List.cons.inj h).1 hc
  | cons a vs =>
    cases us with
    | nil => exact absurd (List.cons.inj h).1.symm hc
    | cons b us => exact .inr (List.cons.inj h).2

mutual

/-- A value without numbers is known from any text that starts with it, and so is the rest. -/
theorem compact_append_inj (v u : Json) (hv : Numberless v) (hu : Numberless u) {r s : Text}
    (h : compact v ++ r = compact u ++ s) : v = u ∧ r = s := by
  have hkind := kind_eq_of_append hv hu h
  cases v with
  | null =>
    cases u <;> simp [kind] at hkind
    exact ⟨rfl, List.append_cancel_left h⟩
  | bool b =>
    cases u <;> simp [kind] at hkind
    next b' => cases b <;> cases b' <;> simp [compact, wordText] at h ⊢ <;> exact h
  | number n => exact hv.elim
  | string t =>
    cases u <;> simp [kind] at hkind
    obtain ⟨rfl, hrest⟩ := stringText_append_inj h
    exact ⟨rfl, hrest⟩
  | array vs =>
    cases u <;> simp [kind] at hkind
    next us =>
      rw [compact_array_append, compact_array_append] at h
      obtain ⟨rfl, hrest⟩ := compactItems_append_inj vs us hv hu (List.cons.inj h).2
      exact ⟨rfl, hrest⟩
  | object fs =>
    cases u <;> simp [kind] at hkind
    next gs =>
      rw [compact_object_append, compact_object_append] at h
      obtain ⟨rfl, hrest⟩ := compactFields_append_inj fs gs hv hu (List.cons.inj h).2
      exact ⟨rfl, hrest⟩

theorem compactItems_append_inj (vs us : List Json) (hvs : NumberlessItems vs)
    (hus : NumberlessItems us) {r s : Text}
    (h : compactItems vs ++ ']' :: r = compactItems us ++ ']' :: s) : vs = us ∧ r = s := by
  cases vs with
  | nil =>
    cases us with
    | nil => exact ⟨rfl, (List.cons.inj h).2⟩
    | cons u us =>
      rw [compactItems_cons_append] at h
      exact absurd h (compact_append_ne hus.1 rfl _ _)
  | cons v vs =>
    rw [compactItems_cons_append] at h
    cases us with
    | nil => exact absurd h.symm (compact_append_ne hvs.1 rfl _ _)
    | cons u us =>
      rw [compactItems_cons_append] at h
      obtain ⟨rfl, hbehind⟩ := compact_append_inj v u hvs.1 hus.1 h
      obtain ⟨⟨rfl, rfl⟩, hrest⟩ | hmore := of_ending_eq (by decide) hbehind
      · exact ⟨rfl, hrest⟩
      · obtain ⟨rfl, hrest⟩ := compactItems_append_inj vs us hvs.2 hus.2 hmore
        exact ⟨rfl, hrest⟩

theorem compactFields_append_inj (fs gs : List (Text × Json)) (hfs : NumberlessFields fs)
    (hgs : NumberlessFields gs) {r s : Text}
    (h : compactFields fs ++ '}' :: r = compactFields gs ++ '}' :: s) : fs = gs ∧ r = s := by
  cases fs with
  | nil =>
    cases gs with
    | nil => exact ⟨rfl, (List.cons.inj h).2⟩
    | cons g gs =>
      rw [compactFields_cons_append] at h
      cases h
  | cons f fs =>
    obtain ⟨n, v⟩ := f
    rw [compactFields_cons_append] at h
    cases gs with
    | nil => cases h
    | cons g gs =>
      obtain ⟨m, u⟩ := g
      rw [compactFields_cons_append] at h
      obtain ⟨rfl, hvalue⟩ := stringText_append_inj h
      obtain ⟨rfl, hbehind⟩ :=
        compact_append_inj v u hfs.1 hgs.1 (List.cons.inj hvalue).2
      obtain ⟨⟨rfl, rfl⟩, hrest⟩ | hmore := of_ending_eq (by decide) hbehind
      · exact ⟨rfl, hrest⟩
      · obtain ⟨rfl, hrest⟩ := compactFields_append_inj fs gs hfs.2 hgs.2 hmore
        exact ⟨rfl, hrest⟩

end

end FilterLang.Json
