import FilterLang.Proofs.ClauseReading
import Mathlib.Data.List.Forall2

/-!
Where the tokens of a text stand, counted in the bytes of its UTF-8 form. Their spans begin and end
between characters, come one behind another and leave out blanks only; and what a span cuts out of
the text is read as the same token again.
-/
namespace FilterLang

/-- A token with the bytes that it takes up in its text, from `start` on and up to `stop`. -/
structure PlacedToken where
  token : Token
  start : ℕ
  stop : ℕ
  deriving DecidableEq, Repr

namespace Lexeme
open Text

def placeFrom (n : ℕ) : List Lexeme → List PlacedToken
  | [] => []
  | x :: xs =>
    let start := n + utf8Size x.gap
    let stop := start + utf8Size x.raw
    ⟨x.token, start, stop⟩ :: placeFrom stop xs

end Lexeme

namespace Text

def tokens (s : Text) : List PlacedToken := Lexeme.placeFrom 0 (Lexeme.all s)

/-- Whether byte `n` of a text begins a character, or is the first one behind the text. -/
def IsBoundary (s : Text) (n : ℕ) : Prop := (⟨n⟩ : String.Pos.Raw).IsValid (String.ofList s)

instance (s : Text) (n : ℕ) : Decidable (IsBoundary s n) :=
  inferInstanceAs (Decidable ((⟨n⟩ : String.Pos.Raw).IsValid (String.ofList s)))

/-- The bytes of a text from `i` up to `j`, as a text. There is none where they would cut through a
character, reach beyond the end or come in the wrong order. -/
def slice? (s : Text) (i j : ℕ) : Option Text :=
  let t := String.ofList s
  if h : IsBoundary s i ∧ IsBoundary s j ∧ i ≤ j then
    some (t.extract (t.pos ⟨i⟩ h.1) (t.pos ⟨j⟩ h.2.1)).toList
  else none

private theorem utf8Size_pos {s : Text} (h : s ≠ []) : 0 < utf8Size s := by
  cases s with
  | nil => exact absurd rfl h
  | cons c s =>
    rw [utf8Size_cons]
    exact Nat.add_pos_left c.utf8Size_pos _

private theorem size_utf8Encode (s : Text) : s.utf8Encode.size = utf8Size s := by
  induction s with
  | nil => rfl
  | cons c s ih =>
    rw [List.utf8Encode_cons, ByteArray.size_append, ih, utf8Size_cons, List.utf8Encode_singleton,
      List.size_toByteArray, String.length_utf8EncodeChar]

private theorem isBoundary_append (s t : Text) : IsBoundary (s ++ t) (utf8Size s) := by
  refine String.Pos.Raw.isValid_iff_exists_append.mpr
    ⟨String.ofList s, String.ofList t, String.ofList_append, ?_⟩
  apply String.Pos.Raw.ext
  rw [String.byteIdx_rawEndPos, ← String.size_toByteArray, String.toByteArray_ofList,
    size_utf8Encode]

private theorem slice?_append (before piece behind : Text) :
    slice? (before ++ (piece ++ behind)) (utf8Size before) (utf8Size before + utf8Size piece) =
      some piece := by
  have hstop := isBoundary_append (before ++ piece) behind
  rw [List.append_assoc, utf8Size_append] at hstop
  rw [slice?, dif_pos ⟨isBoundary_append before _, hstop, Nat.le_add_right _ _⟩]
  congr 1
  rw [← String.ofList_inj, String.ofList_toList, ← String.toByteArray_inj,
    String.toByteArray_extract]
  simp only [String.offset_pos, String.toByteArray_ofList, List.utf8Encode_append,
    ← size_utf8Encode]
  calc (before.utf8Encode ++ (piece.utf8Encode ++ behind.utf8Encode)).extract
        before.utf8Encode.size (before.utf8Encode.size + piece.utf8Encode.size)
    _ = (piece.utf8Encode ++ behind.utf8Encode).extract 0 piece.utf8Encode.size :=
      ByteArray.extract_append_size_add (i := 0)
    _ = piece.utf8Encode := ByteArray.extract_append_eq_left rfl

private theorem split_of_append_eq {front rest before behind : Text} {c : Char}
    (h : front ++ rest = before ++ c :: behind) :
    (∃ tail, front = before ++ c :: tail) ∨
      ∃ mid, before = front ++ mid ∧ rest = mid ++ c :: behind := by
  rcases List.append_eq_append_iff.mp h with ⟨mid, hbefore, hrest⟩ | ⟨mid, hfront, hmid⟩
  · exact .inr ⟨mid, hbefore, hrest⟩
  · cases mid with
    | nil => exact .inr ⟨[], by simpa using hfront.symm, hmid.symm⟩
    | cons d tail =>
      obtain ⟨rfl, -⟩ := List.cons.inj hmid
      exact .inl ⟨tail, hfront⟩

end Text

namespace PlacedToken
open Text Lexeme

/-- The token takes up the characters `raw` of a text: they spell it, they stand at its place, and
it comes to its end where the characters behind them begin. -/
def Takes (t : PlacedToken) (s raw : Text) : Prop :=
  ∃ before behind, s = before ++ (raw ++ behind) ∧ t.start = utf8Size before ∧
    t.stop = utf8Size before + utf8Size raw ∧ Spells raw t.token ∧ StopsAt t.token behind

variable {t : PlacedToken} {s raw : Text}

theorem Takes.slice?_eq (h : t.Takes s raw) : slice? s t.start t.stop = some raw := by
  obtain ⟨before, behind, rfl, hstart, hstop, -⟩ := h
  rw [hstart, hstop]
  exact slice?_append before raw behind

theorem Takes.isBoundary (h : t.Takes s raw) : IsBoundary s t.start ∧ IsBoundary s t.stop := by
  obtain ⟨before, behind, rfl, hstart, hstop, -⟩ := h
  have hbehind := isBoundary_append (before ++ raw) behind
  rw [List.append_assoc, utf8Size_append, ← hstop] at hbehind
  exact ⟨hstart ▸ isBoundary_append before (raw ++ behind), hbehind⟩

theorem Takes.spells (h : t.Takes s raw) : Spells raw t.token := by
  obtain ⟨_, _, -, -, -, hspells, -⟩ := h
  exact hspells

theorem Takes.start_lt_stop (h : t.Takes s raw) : t.start < t.stop := by
  have hpos := utf8Size_pos h.spells.ne_nil
  obtain ⟨before, behind, -, hstart, hstop, -⟩ := h
  omega

theorem Takes.stop_le (h : t.Takes s raw) : t.stop ≤ utf8Size s := by
  obtain ⟨before, behind, rfl, -, hstop, -⟩ := h
  rw [hstop, utf8Size_append, utf8Size_append]
  omega

/-- An open literal goes on to the end of the text. -/
theorem Takes.stop_eq_of_open {content : Text} (h : t.Takes s raw)
    (ht : t.token = .quoted content false) : t.stop = utf8Size s := by
  obtain ⟨before, behind, rfl, -, hstop, -, hend⟩ := h
  rw [ht] at hend
  obtain rfl : behind = [] := hend
  rw [hstop, List.append_nil, utf8Size_append]

/-- A word goes on to the end of the text or up to a blank. -/
theorem Takes.stop_of_word {w : Text} (h : t.Takes s raw) (ht : t.token = .word w) :
    t.stop = utf8Size s ∨
      ∃ c, isBlank c = true ∧ slice? s t.stop (t.stop + c.utf8Size) = some [c] := by
  obtain ⟨before, behind, rfl, -, hstop, -, hend⟩ := h
  rw [ht] at hend
  rw [hstop, ← utf8Size_append, ← List.append_assoc]
  cases behind with
  | nil => exact .inl (by rw [List.append_nil])
  | cons c behind =>
    have hslice := slice?_append (before ++ raw) [c] behind
    rw [utf8Size_cons, utf8Size_nil, Nat.add_zero] at hslice
    exact .inr ⟨c, hend c rfl, hslice⟩

end PlacedToken

namespace Lexeme
open Text

/-- Each token takes up the characters of its lexeme, whatever stands in front of the text. -/
theorem forall₂_takes (front : Text) {s : Text} {xs : List Lexeme} (h : all s = xs) :
    List.Forall₂ (fun x t => t.Takes (front ++ s) x.raw) xs (placeFrom (utf8Size front) xs) := by
  induction xs generalizing front s with
  | nil => exact .nil
  | cons x xs ih =>
    obtain ⟨rest, hnext, hrest⟩ := exists_next?_of_all h
    obtain ⟨rfl, -, hspells, hstops⟩ := next?_eq_some_iff.mp hnext
    have htail := ih (front ++ x.gap ++ x.raw) hrest
    simp only [utf8Size_append, List.append_assoc] at htail
    refine .cons ⟨front ++ x.gap, rest, ?_, ?_, ?_, hspells, hstops⟩ ?_
    · rw [List.append_assoc]
    · rw [utf8Size_append]
    · rw [utf8Size_append]
    · simpa only [← Nat.add_assoc] using htail

private theorem le_start_of_mem {n : ℕ} {xs : List Lexeme} {t : PlacedToken}
    (h : t ∈ placeFrom n xs) : n ≤ t.start := by
  induction xs generalizing n with
  | nil => cases h
  | cons x xs ih =>
    rcases List.mem_cons.mp h with rfl | h
    · exact Nat.le_add_right _ _
    · have hstop := ih h
      omega

private theorem pairwise_placeFrom (n : ℕ) (xs : List Lexeme) :
    (placeFrom n xs).Pairwise fun t u => t.stop ≤ u.start := by
  induction xs generalizing n with
  | nil => exact .nil
  | cons x xs ih => exact .cons (fun u hu => le_start_of_mem hu) (ih _)

/-- What no token takes up is blank. -/
theorem exists_mem_of_not_blank {n : ℕ} {s before behind : Text} {c : Char} {xs : List Lexeme}
    (h : all s = xs) (hs : s = before ++ c :: behind) (hc : isBlank c = false) :
    ∃ t ∈ placeFrom n xs, t.start ≤ n + utf8Size before ∧
      n + utf8Size before + c.utf8Size ≤ t.stop := by
  induction xs generalizing n s before with
  | nil =>
    have hblank := isBlank_of_all h c (hs ▸ List.mem_append_right before List.mem_cons_self)
    rw [hc] at hblank
    cases hblank
  | cons x xs ih =>
    obtain ⟨rest, hnext, hrest⟩ := exists_next?_of_all h
    obtain ⟨hparts, hgap, -⟩ := next?_eq_some_iff.mp hnext
    -- It stands in the gap, in the characters of the token, or behind them.
    rcases split_of_append_eq (hparts.symm.trans hs) with ⟨tail, htail⟩ | ⟨inner, rfl, hinner⟩
    · have hblank := hgap c (htail ▸ List.mem_append_right before List.mem_cons_self)
      rw [hc] at hblank
      cases hblank
    rcases split_of_append_eq hinner with ⟨tail, hraw⟩ | ⟨later, rfl, hlater⟩
    · refine ⟨_, List.mem_cons_self, ?_, ?_⟩
      · simp only [utf8Size_append]
        omega
      · simp only [hraw, utf8Size_append, utf8Size_cons]
        omega
    · obtain ⟨t, ht, hstart, hstop⟩ := ih hrest hlater
      refine ⟨t, List.mem_cons_of_mem _ ht, ?_, ?_⟩ <;>
        simp only [utf8Size_append] <;> omega

end Lexeme

namespace Text

private theorem forall₂_tokens (s : Text) :
    List.Forall₂ (fun x t => t.Takes s x.raw) (Lexeme.all s) (tokens s) :=
  Lexeme.forall₂_takes [] rfl

private theorem exists_takes_of_mem {s : Text} {t : PlacedToken} (h : t ∈ tokens s) :
    ∃ raw, t.Takes s raw := by
  obtain ⟨hlength, htakes⟩ := List.forall₂_iff_get.mp (forall₂_tokens s)
  obtain ⟨i, hi, rfl⟩ := List.mem_iff_getElem.mp h
  exact ⟨_, htakes i (hlength.symm ▸ hi) hi⟩

private theorem tokens_of_spells {raw : Text} {t : Token} (h : Lexeme.Spells raw t) :
    tokens raw = [⟨t, 0, utf8Size raw⟩] := by
  rw [tokens, Lexeme.all_of_spells h]
  simp only [Lexeme.placeFrom, utf8Size_nil, Nat.zero_add]

/-- The tokens of a text come one behind another. -/
theorem pairwise_tokens (s : Text) : (tokens s).Pairwise fun t u => t.stop ≤ u.start :=
  Lexeme.pairwise_placeFrom 0 (Lexeme.all s)

/-- An open literal is the last token and goes on to the end of the text. -/
theorem getLast?_of_open {s content : Text} {t : PlacedToken} (h : t ∈ tokens s)
    (ht : t.token = .quoted content false) :
    (tokens s).getLast? = some t ∧ t.stop = utf8Size s := by
  obtain ⟨raw, htakes⟩ := exists_takes_of_mem h
  have hstop := htakes.stop_eq_of_open ht
  refine ⟨?_, hstop⟩
  obtain ⟨front, rear, hsplit⟩ := List.append_of_mem h
  cases rear with
  | nil => rw [hsplit, List.getLast?_concat]
  | cons u rear =>
    -- A token behind it would begin where the text has ended.
    have hu : u ∈ tokens s := hsplit ▸ by simp
    obtain ⟨_, hutakes⟩ := exists_takes_of_mem hu
    have hpairwise := hsplit ▸ pairwise_tokens s
    have horder : t.stop ≤ u.start :=
      List.rel_of_pairwise_cons (List.pairwise_append.mp hpairwise).2.1 List.mem_cons_self
    have hlt := hutakes.start_lt_stop
    have hle := hutakes.stop_le
    omega

/-- Every text is cut into tokens without loss: their places are not empty, begin and end between
characters, come one behind another and leave out blanks only. A word is what stands at its place,
up to a blank or the end; only the last token can be an open literal, up to the end; and what stands
at the place of a token is, on its own, cut into this token and no other. -/
theorem spans_of_tokens (s : Text) :
    (tokens s).Pairwise (fun t u => t.stop ≤ u.start) ∧
    (∀ before c behind, s = before ++ c :: behind → isBlank c = false →
      ∃ t ∈ tokens s, t.start ≤ utf8Size before ∧ utf8Size before + c.utf8Size ≤ t.stop) ∧
    ∀ t ∈ tokens s,
      IsBoundary s t.start ∧ IsBoundary s t.stop ∧ t.start < t.stop ∧
      (∀ w, t.token = .word w → slice? s t.start t.stop = some w ∧
        (∀ c ∈ w, isBlank c = false) ∧ (∀ c ∈ w.head?, isQuote c = false) ∧
        (t.stop = utf8Size s ∨
          ∃ c, isBlank c = true ∧ slice? s t.stop (t.stop + c.utf8Size) = some [c])) ∧
      (∀ content, t.token = .quoted content false →
        (tokens s).getLast? = some t ∧ t.stop = utf8Size s) ∧
      ∃ piece, slice? s t.start t.stop = some piece ∧
        tokens piece = [⟨t.token, 0, utf8Size piece⟩] := by
  refine ⟨pairwise_tokens s, fun before c behind hs hc => ?_, fun t ht => ?_⟩
  · obtain ⟨t, ht, hstart, hstop⟩ := Lexeme.exists_mem_of_not_blank (n := 0) rfl hs hc
    rw [Nat.zero_add] at hstart hstop
    exact ⟨t, ht, hstart, hstop⟩
  · obtain ⟨raw, htakes⟩ := exists_takes_of_mem ht
    have hspells := htakes.spells
    refine ⟨htakes.isBoundary.1, htakes.isBoundary.2, htakes.start_lt_stop, fun w hw => ?_,
      fun content hopen => getLast?_of_open ht hopen, raw, htakes.slice?_eq,
      tokens_of_spells hspells⟩
    rw [hw] at hspells
    obtain rfl : raw = w := hspells.eq_of_word
    have hword : IsWord raw := by
      cases hspells with
      | word h => exact h
    exact ⟨htakes.slice?_eq, hword.not_blank, hword.not_quote, htakes.stop_of_word hw⟩

/-- A letter of two bytes, an escaped quote, and a backslash at the end of an open literal. -/
theorem spans_of_openLiteral :
    let s := "né 'it\\'s'\t\"a \\".toList
    tokens s = [⟨.word "né".toList, 0, 3⟩, ⟨.quoted "it's".toList true, 4, 11⟩,
      ⟨.quoted "a ".toList false, 12, 16⟩] ∧
    slice? s 0 3 = some "né".toList ∧ utf8Size s = 16 ∧
    (tokens s).getLast? = some ⟨.quoted "a ".toList false, 12, 16⟩ ∧
    ∃ piece, slice? s 4 11 = some piece ∧
      tokens piece = [⟨.quoted "it's".toList true, 0, utf8Size piece⟩] := by
  intro s
  have htokens : tokens s = [⟨.word "né".toList, 0, 3⟩, ⟨.quoted "it's".toList true, 4, 11⟩,
      ⟨.quoted "a ".toList false, 12, 16⟩] := by decide +kernel
  obtain ⟨-, -, hspans⟩ := spans_of_tokens s
  have hword := hspans ⟨.word "né".toList, 0, 3⟩ (by simp [htokens])
  have hclosed := hspans ⟨.quoted "it's".toList true, 4, 11⟩ (by simp [htokens])
  have hopen := hspans ⟨.quoted "a ".toList false, 12, 16⟩ (by simp [htokens])
  obtain ⟨-, -, -, hslice, -⟩ := hword
  obtain ⟨-, -, -, -, -, hpiece⟩ := hclosed
  obtain ⟨-, -, -, -, hlast, -⟩ := hopen
  exact ⟨htokens, (hslice _ rfl).1, (hlast _ rfl).2.symm, (hlast _ rfl).1, hpiece⟩

end Text

namespace Clause
open Text

/-- A clause is cut out of its text by the places of three tokens: the field is what stands at the
first, and the operand what stands at the last, read again on its own. -/
theorem exists_tokens_of_read {s : Text} {c : Clause} (h : read s = .ok c) :
    ∃ f op v : PlacedToken, tokens (trim s) = [f, op, v] ∧
      slice? (trim s) f.start f.stop = some c.field ∧ op.token = .word c.operator.keyword ∧
      ∃ piece, slice? (trim s) v.start v.stop = some piece ∧
        tokens piece = [⟨v.token, 0, utf8Size piece⟩] ∧
        Operand.ofToken (trim s) v.token = .ok c.operand := by
  obtain ⟨x, y, z, hall, hfield, -, hkey, hoperand⟩ := exists_lexemes_of_read h
  have htakes := forall₂_tokens (trim s)
  have htokens : tokens (trim s) = Lexeme.placeFrom 0 [x, y, z] := congrArg _ hall
  rw [hall, htokens] at htakes
  simp only [Lexeme.placeFrom, List.forall₂_cons] at htakes
  obtain ⟨hf, -, hv, -⟩ := htakes
  exact ⟨_, _, _, htokens, hf.slice?_eq.trans (congrArg some hfield), hkey, z.raw,
    hv.slice?_eq, tokens_of_spells hv.spells, hoperand⟩

end Clause
end FilterLang
