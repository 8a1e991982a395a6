import FilterLang.Proofs.TableRows

/-!
The term table with colours. Each style only puts escape sequences around a text, and no text that
stands before a blank can run on into one. So without the escape sequences the table is the one
without colours, and aligned in the same way.
-/
namespace FilterLang

namespace Ansi

def behindEscape? : Text → Option Text
  | '\x1b' :: '[' :: s =>
    match s.dropWhile Char.isDigit with
    | 'm' :: t => some t
    | _ => none
  | _ => none

private theorem behindEscape?_eq_some_iff {s t : Text} :
    behindEscape? s = some t ↔
      ∃ codes, (∀ c ∈ codes, c.isDigit = true) ∧ s = escape codes ++ t := by
  constructor
  · intro h
    unfold behindEscape? at h
    split at h
    · next s =>
      split at h
      · next t hs =>
        cases h
        refine ⟨s.takeWhile Char.isDigit, fun c hc => ?_, ?_⟩
        · exact List.all_eq_true.mp List.all_takeWhile c hc
        · have hcut := List.takeWhile_append_dropWhile (p := Char.isDigit) (l := s)
          rw [hs] at hcut
          simpa [escape] using hcut.symm
      · cases h
    · cases h
  · rintro ⟨codes, hcodes, rfl⟩
    have hdrop : (codes ++ 'm' :: t).dropWhile Char.isDigit = 'm' :: t := by
      rw [List.dropWhile_append_of_pos hcodes]
      rfl
    simp [escape, behindEscape?, hdrop]

private theorem length_lt_of_behindEscape? {s t : Text} (h : behindEscape? s = some t) :
    t.length < s.length := by
  obtain ⟨codes, -, rfl⟩ := behindEscape?_eq_some_iff.mp h
  simp [escape]
  omega

def erase (s : Text) : Text :=
  match s with
  | [] => []
  | c :: s =>
    match _h : behindEscape? (c :: s) with
    | some t => erase t
    | none => c :: erase s
termination_by s.length
decreasing_by
  · exact length_lt_of_behindEscape? _h
  · exact Nat.lt_add_one _

private theorem erase_of_behindEscape? {s t : Text} (h : behindEscape? s = some t) :
    erase s = erase t := by
  cases s with
  | nil => cases h
  | cons c s =>
    rw [erase]
    split
    · next u hu =>
      rw [h] at hu
      cases hu
      rfl
    · next hn => rw [h] at hn; cases hn

private theorem erase_cons_of_behindEscape? {c : Char} {s : Text}
    (h : behindEscape? (c :: s) = none) : erase (c :: s) = c :: erase s := by
  rw [erase]
  split
  · next u hu => rw [h] at hu; cases hu
  · rfl

private theorem erase_escape_append {codes : Text} (h : ∀ c ∈ codes, c.isDigit = true) (t : Text) :
    erase (escape codes ++ t) = erase t :=
  erase_of_behindEscape? (behindEscape?_eq_some_iff.mpr ⟨codes, h, rfl⟩)

private theorem behindEscape?_cons {c : Char} (hc : c ≠ '\x1b') (s : Text) :
    behindEscape? (c :: s) = none := by
  rw [Option.eq_none_iff_forall_not_mem]
  intro t ht
  obtain ⟨codes, -, hs⟩ := behindEscape?_eq_some_iff.mp ht
  exact hc (List.cons.inj hs).1

private theorem erase_append {s : Text} (h : '\x1b' ∉ s) (t : Text) :
    erase (s ++ t) = s ++ erase t := by
  induction s with
  | nil => rfl
  | cons c s ih =>
    obtain ⟨hc, hs⟩ := not_or.mp (mt List.mem_cons.mpr h)
    rw [List.cons_append, erase_cons_of_behindEscape? (behindEscape?_cons (Ne.symm hc) _), ih hs,
      List.cons_append]

private theorem erase_eq_self {s : Text} (h : '\x1b' ∉ s) : erase s = s := by
  have herase := erase_append h []
  rwa [List.append_nil, erase, List.append_nil] at herase

private theorem blank_not_mem_escape {codes : Text} (h : ∀ c ∈ codes, c.isDigit = true) :
    ' ' ∉ escape codes := by
  have hcodes : ' ' ∉ codes := fun hc => by cases h ' ' hc
  simp [escape, hcodes]

private theorem erase_append_blank (s t : Text) :
    erase (s ++ ' ' :: t) = erase s ++ ' ' :: erase t := by
  -- A blank belongs to no escape sequence, so none goes on behind it.
  have hblank : '\x1b' ∉ [' '] := by decide
  fun_induction erase s with
  | case1 => exact erase_append hblank t
  | case2 c s u hu ih =>
    obtain ⟨codes, hcodes, hs⟩ := behindEscape?_eq_some_iff.mp hu
    rw [hs, List.append_assoc, erase_escape_append hcodes, ih]
  | case3 c s hn ih =>
    have hnone : behindEscape? (c :: s ++ ' ' :: t) = none := by
      rw [Option.eq_none_iff_forall_not_mem]
      intro u hu
      obtain ⟨codes, hcodes, hs⟩ := behindEscape?_eq_some_iff.mp hu
      rcases List.append_eq_append_iff.mp hs with ⟨v, hv, hrest⟩ | ⟨v, hv, -⟩
      · cases v with
        | nil =>
          rw [List.append_nil, ← List.append_nil (escape codes)] at hv
          rw [behindEscape?_eq_some_iff.mpr ⟨codes, hcodes, hv.symm⟩] at hn
          cases hn
        | cons d v =>
          obtain rfl : ' ' = d := (List.cons.inj hrest).1
          exact blank_not_mem_escape hcodes (hv ▸ List.mem_append_right _ List.mem_cons_self)
      · rw [behindEscape?_eq_some_iff.mpr ⟨codes, hcodes, hv⟩] at hn
        cases hn
    rw [List.cons_append] at hnone ⊢
    rw [erase_cons_of_behindEscape? hnone, ih, List.cons_append]

/-- Whether a style only puts escape sequences around a text. -/
def IsStyle (style : Text → Text) : Prop :=
  ∃ front back : List Text, (∀ codes ∈ front ++ back, ∀ c ∈ codes, c.isDigit = true) ∧
    ∀ s, style s = front.flatMap escape ++ s ++ back.flatMap escape

theorem isStyle_wrap {start stop : Text} (hstart : ∀ c ∈ start, c.isDigit = true)
    (hstop : ∀ c ∈ stop, c.isDigit = true) : IsStyle (wrap start stop) := by
  refine ⟨[start], [stop], ?_, fun s => by simp [wrap]⟩
  simpa using ⟨hstart, hstop⟩

theorem IsStyle.comp {style inner : Text → Text} (h : IsStyle style) (hi : IsStyle inner) :
    IsStyle fun s => style (inner s) := by
  obtain ⟨front, back, hcodes, hstyle⟩ := h
  obtain ⟨front', back', hcodes', hinner⟩ := hi
  refine ⟨front ++ front', back' ++ back, ?_, fun s => by simp [hstyle, hinner]⟩
  intro codes hmem
  have hmem' : codes ∈ front ++ back ∨ codes ∈ front' ++ back' := by
    simp only [List.mem_append] at hmem ⊢
    tauto
  exact hmem'.elim (hcodes codes) (hcodes' codes)

private theorem isStyle_green : IsStyle green := isStyle_wrap (by decide) (by decide)

private theorem isStyle_cyan : IsStyle cyan := isStyle_wrap (by decide) (by decide)

private theorem isStyle_bold : IsStyle bold := isStyle_wrap (by decide) (by decide)

private theorem isStyle_dim : IsStyle dim := isStyle_wrap (by decide) (by decide)

private theorem isStyle_header : IsStyle (header true) := isStyle_bold.comp isStyle_green

/-- Whether two pieces look the same without escape sequences, whatever follows that does. -/
def Alike (s p : Text) : Prop := ∀ t u, erase t = erase u → erase (s ++ t) = erase (p ++ u)

theorem Alike.append {s p s' p' : Text} (h : Alike s p) (h' : Alike s' p') :
    Alike (s ++ s') (p ++ p') := by
  intro t u htu
  rw [List.append_assoc, List.append_assoc]
  exact h _ _ (h' t u htu)

private theorem alike_of_not_mem {s : Text} (h : '\x1b' ∉ s) : Alike s s := by
  intro t u htu
  rw [erase_append h, erase_append h, htu]

private theorem alike_blank (s : Text) : Alike (s ++ [' ']) (s ++ [' ']) := by
  intro t u htu
  simp only [List.append_assoc, List.singleton_append]
  rw [erase_append_blank, erase_append_blank, htu]

private theorem erase_flatMap_escape_append {codes : List Text}
    (h : ∀ code ∈ codes, ∀ c ∈ code, c.isDigit = true) (t : Text) :
    erase (codes.flatMap escape ++ t) = erase t := by
  induction codes with
  | nil => rfl
  | cons code codes ih =>
    obtain ⟨hcode, hcodes⟩ := List.forall_mem_cons.mp h
    rw [List.flatMap_cons, List.append_assoc, erase_escape_append hcode, ih hcodes]

theorem IsStyle.alike {style : Text → Text} (h : IsStyle style) {s : Text} (hs : '\x1b' ∉ s) :
    Alike (style s) s := by
  obtain ⟨front, back, hcodes, hstyle⟩ := h
  obtain ⟨hfront, hback⟩ := List.forall_mem_append.mp hcodes
  intro t u htu
  rw [hstyle, List.append_assoc, List.append_assoc, erase_flatMap_escape_append hfront,
    erase_append hs, erase_append hs, erase_flatMap_escape_append hback, htu]

end Ansi

namespace Term
open Ansi

private theorem alike_labelCell (t : Term) : Alike (t.labelCell true) (t.labelCell false) := by
  have hlabel : '\x1b' ∉ t.label := fun h => absurd (le_toNat_of_mem_label h) (by decide)
  have hpadding (n : Nat) : '\x1b' ∉ List.replicate n ' ' := fun h =>
    absurd (List.eq_of_mem_replicate h) (by decide)
  have hshown : Alike (t.labelCell true) (t.label ++ List.replicate (7 - t.label.length) ' ') := by
    cases t with
    | connective k => exact (isStyle_cyan.alike hlabel).append (alike_of_not_mem (hpadding _))
    | _ => exact (alike_of_not_mem hlabel).append (alike_of_not_mem (hpadding _))
  rwa [labelCell_eq]

private theorem alike_textCell (t : Term) : Alike (t.textCell true) (t.textCell false) := by
  cases t with
  | clause c =>
    have hwords : ∀ w ∈ ["text".toList, "number".toList, "field".toList],
        '\x1b' ∉ '(' :: w ++ [')'] := by decide
    have hkind := hwords _ c.operand.kind_mem
    have hnote := (alike_of_not_mem (s := [' ']) (by decide)).append (isStyle_dim.alike hkind)
    have h := (alike_blank c.display).append hnote
    simpa [textCell] using h
  | connective k => exact alike_of_not_mem (by cases k <;> decide)
  | _ => exact alike_of_not_mem (by decide)

theorem alike_row (index : Nat) (t : Term) : Alike (t.row true index) (t.row false index) := by
  have hindex : '\x1b' ∉ Text.padRight 4 (Text.ofNat index) ++ [' '] := by
    simp [Text.padRight, Text.not_mem_ofNat]
  have hblank : '\x1b' ∉ [' '] := by decide
  have hend : '\x1b' ∉ ['\n'] := by decide
  have h := (alike_of_not_mem hindex).append <| t.alike_labelCell.append <|
    (alike_of_not_mem hblank).append <| t.alike_textCell.append (alike_of_not_mem hend)
  simpa [row] using h

private theorem alike_rows (index : Nat) (ts : List Term) :
    Alike (rows true index ts) (rows false index ts) := by
  induction ts generalizing index with
  | nil => exact alike_of_not_mem List.not_mem_nil
  | cons t ts ih => exact (t.alike_row index).append (ih (index + 1))

theorem alike_table (ts : List Term) : Alike (table true ts) (table false ts) := by
  have hheading : '\x1b' ∉ heading := by decide
  have hend : '\x1b' ∉ ['\n'] := by decide
  cases ts with
  | nil => exact alike_of_not_mem (by decide)
  | cons t ts =>
    have h := (isStyle_header.alike hheading).append <|
      (alike_of_not_mem hend).append (alike_rows 0 (t :: ts))
    exact h

private theorem escape_not_mem_rows {ts : List Term} (h : ∀ t ∈ ts, '\x1b' ∉ t.display)
    (index : Nat) : '\x1b' ∉ rows false index ts := by
  induction ts generalizing index with
  | nil => exact List.not_mem_nil
  | cons t ts ih =>
    obtain ⟨ht, hts⟩ := List.forall_mem_cons.mp h
    have hline : '\x1b' ∉ t.line index := (not_mem_line_iff index t (by decide)).mpr ht
    simp [rows, row_eq, hline, ih hts]

private theorem escape_not_mem_table {ts : List Term}
    (h : ∀ c, clause c ∈ ts → '\x1b' ∉ c.display) : '\x1b' ∉ table false ts := by
  have hrows := escape_not_mem_rows ((forall_not_mem_display_iff ts (by decide)).mpr h) 0
  have hheading : '\x1b' ∉ heading := by decide
  cases ts with
  | nil => decide
  | cons t ts =>
    have htable : table false (t :: ts) = heading ++ '\n' :: rows false 0 (t :: ts) := rfl
    simp [htable, hheading, hrows]

/-- Without its escape sequences the coloured table is the one without colours, if no clause holds
the character that such a sequence starts with; and whatever the clauses hold, the two are the same
once all escape sequences are taken out. -/
theorem erase_table (ts : List Term) :
    erase (table true ts) = erase (table false ts) ∧
    ((∀ c, clause c ∈ ts → '\x1b' ∉ c.display) → erase (table true ts) = table false ts) := by
  have halike : erase (table true ts) = erase (table false ts) := by
    have h := alike_table ts [] [] rfl
    rwa [List.append_nil, List.append_nil] at h
  exact ⟨halike, fun h => halike.trans (erase_eq_self (escape_not_mem_table h))⟩

/-- A mixed filter with a group, and a clause whose text goes on like the end of an escape
sequence. -/
theorem erase_table_group :
    let c : Clause := ⟨['a'], .eq, .text "[32m".toList⟩
    let d : Clause := ⟨['b'], .lt, .field "m".toList⟩
    let ts : List Term :=
      [.clause c, .connective .or, .openParen, .clause d, .connective .and, .clause c, .closeParen]
    (∀ e, clause e ∈ ts → '\x1b' ∉ e.display) ∧ table true ts ≠ table false ts ∧
      erase (table true ts) = table false ts := by
  intro c d ts
  have hall : ∀ t ∈ ts, '\x1b' ∉ t.display := by decide
  have hts : ∀ e, clause e ∈ ts → '\x1b' ∉ e.display := fun e he => hall _ he
  exact ⟨hts, by decide, (erase_table ts).2 hts⟩

end Term
end FilterLang
