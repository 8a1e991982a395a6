import FilterLang.Clause.Read
import FilterLang.Proofs.Words

/-!
How tokens are spelled, and where they end. A word ends at the next blank, a closed literal right
behind its closing quote, and an open one with the text. So text that is put together from such
spellings reads back as their tokens, and there is no other way to put it together.
-/
namespace FilterLang

namespace Text

def escape (s : Text) : Text := s.flatMap fun c => if c = '"' ∨ c = '\\' then ['\\', c] else [c]

theorem quote_eq (s : Text) : quote s = '"' :: escape s ++ ['"'] := rfl

theorem escape_cons (c : Char) (s : Text) :
    escape (c :: s) = (if c = '"' ∨ c = '\\' then ['\\', c] else [c]) ++ escape s := rfl

theorem eq_of_isQuote {q : Char} (h : isQuote q = true) : q = '"' ∨ q = '\'' := by
  simpa [isQuote] using h

theorem of_isQuote {q : Char} (h : isQuote q = true) : isBlank q = false ∧ q ≠ '\\' := by
  rcases eq_of_isQuote h with rfl | rfl <;> decide

theorem readLiteral_self (q : Char) (s : Text) : readLiteral q (q :: s) = ⟨[q], [], true, s⟩ := by
  unfold readLiteral
  exact if_pos rfl

theorem readLiteral_backslash {q : Char} (hq : '\\' ≠ q) (e : Char) (s : Text) :
    readLiteral q ('\\' :: e :: s) =
      ⟨'\\' :: e :: (readLiteral q s).raw, e :: (readLiteral q s).content,
        (readLiteral q s).closed, (readLiteral q s).rest⟩ := by
  rw [readLiteral, if_neg hq, if_pos rfl]

theorem readLiteral_cons {q c : Char} (hq : c ≠ q) (hc : c ≠ '\\') (s : Text) :
    readLiteral q (c :: s) =
      ⟨c :: (readLiteral q s).raw, c :: (readLiteral q s).content,
        (readLiteral q s).closed, (readLiteral q s).rest⟩ := by
  rw [readLiteral.eq_def]
  dsimp only
  rw [if_neg hq, if_neg hc]

private theorem readLiteral_raw (q : Char) (s : Text) :
    readLiteral q (readLiteral q s).raw =
      ⟨(readLiteral q s).raw, (readLiteral q s).content, (readLiteral q s).closed, []⟩ := by
  fun_induction readLiteral q s with
  | case1 => rfl
  | case2 s => exact readLiteral_self q []
  | case3 hq => simp [readLiteral, hq]
  | case4 e s t hq ih =>
    rw [readLiteral_backslash hq, ih]
  | case5 c s hq hc t ih =>
    rw [readLiteral_cons hq hc, ih]

private theorem rest_of_not_closed {q : Char} {s : Text} (h : (readLiteral q s).closed = false) :
    (readLiteral q s).rest = [] := by
  fun_induction readLiteral q s with
  | case1 => rfl
  | case2 => cases h
  | case3 => rfl
  | case4 _ _ _ _ ih => exact ih h
  | case5 _ _ _ _ _ ih => exact ih h

/-- Nothing behind the closing quote matters to a literal. -/
theorem readLiteral_append {q : Char} {s : Text} (h : (readLiteral q s).closed = true)
    (rest : Text) :
    readLiteral q (s ++ rest) = { readLiteral q s with rest := (readLiteral q s).rest ++ rest } := by
  fun_induction readLiteral q s with
  | case1 => cases h
  | case2 s => exact readLiteral_self q (s ++ rest)
  | case3 => cases h
  | case4 e s t hq ih =>
    rw [List.cons_append, List.cons_append, readLiteral_backslash hq, ih h]
  | case5 c s hq hc t ih =>
    rw [List.cons_append, readLiteral_cons hq hc, ih h]

theorem getLast?_raw {q : Char} {s : Text} (h : (readLiteral q s).closed = true) :
    (readLiteral q s).raw.getLast? = some q := by
  fun_induction readLiteral q s with
  | case1 => cases h
  | case2 => rfl
  | case3 => cases h
  | case4 e s t hq ih => simp [List.getLast?_cons, t, ih h]
  | case5 c s hq hc t ih => simp [List.getLast?_cons, t, ih h]

private theorem readLiteral_escape (s rest : Text) :
    readLiteral '"' (escape s ++ '"' :: rest) = ⟨escape s ++ ['"'], s, true, rest⟩ := by
  induction s with
  | nil => exact readLiteral_self '"' rest
  | cons c s ih =>
    rw [escape_cons]
    by_cases hc : c = '"' ∨ c = '\\'
    · rw [if_pos hc]
      simp [readLiteral_backslash, ih]
    · have hq : c ≠ '"' ∧ c ≠ '\\' := not_or.mp hc
      rw [if_neg hc]
      simp [readLiteral_cons hq.1 hq.2, ih]

/-- No part of a literal closes it before its closing quote. -/
theorem readLiteral_of_isPrefix {s t : Text} (ht : t <+: escape s) :
    ∃ content, readLiteral '"' t = ⟨t, content, false, []⟩ := by
  induction s generalizing t with
  | nil =>
    rw [List.prefix_nil.mp ht]
    exact ⟨[], rfl⟩
  | cons c s ih =>
    rw [escape_cons] at ht
    cases t with
    | nil => exact ⟨[], rfl⟩
    | cons d t =>
      by_cases hc : c = '"' ∨ c = '\\'
      · rw [if_pos hc, List.cons_append, List.singleton_append] at ht
        obtain ⟨rfl, hc'⟩ := List.cons_prefix_cons.mp ht
        cases t with
        | nil => exact ⟨[], rfl⟩
        | cons e t =>
          obtain ⟨rfl, hs⟩ := List.cons_prefix_cons.mp hc'
          obtain ⟨content, hr⟩ := ih hs
          exact ⟨e :: content, by simp [readLiteral_backslash, hr]⟩
      · rw [if_neg hc, List.singleton_append] at ht
        obtain ⟨rfl, hs⟩ := List.cons_prefix_cons.mp ht
        have hq : d ≠ '"' ∧ d ≠ '\\' := not_or.mp hc
        obtain ⟨content, hr⟩ := ih hs
        exact ⟨d :: content, by simp [readLiteral_cons hq.1 hq.2, hr]⟩

end Text

namespace Lexeme
open Text

theorem all_nil : all [] = [] := by
  rw [all]
  rfl

theorem all_of_next? {s rest : Text} {x : Lexeme} (h : next? s = some (x, rest)) :
    all s = x :: all rest := by
  rw [all]
  split
  · next hn => rw [h] at hn; cases hn
  · next y r hy =>
    rw [h] at hy
    cases hy
    rfl

theorem exists_next?_of_all {s : Text} {x : Lexeme} {xs : List Lexeme} (h : all s = x :: xs) :
    ∃ rest, next? s = some (x, rest) ∧ all rest = xs := by
  rw [all] at h
  split at h
  · cases h
  · next y rest hy =>
    obtain ⟨rfl, hrest⟩ := List.cons.inj h
    exact ⟨rest, hy, hrest⟩

theorem isBlank_of_all {s : Text} (h : all s = []) : ∀ c ∈ s, isBlank c = true := by
  rw [all] at h
  split at h
  · next hn =>
    unfold next? at hn
    cases hd : s.dropWhile isBlank with
    | nil => exact List.dropWhile_eq_nil_iff.mp hd
    | cons c r =>
      rw [hd] at hn
      dsimp only at hn
      split at hn <;> cases hn
  · cases h

private theorem takeWhile_isBlank {gap s : Text} (hg : ∀ c ∈ gap, isBlank c = true)
    (hs : ∀ c ∈ s.head?, isBlank c = false) :
    (gap ++ s).takeWhile isBlank = gap ∧ (gap ++ s).dropWhile isBlank = s := by
  rw [List.takeWhile_append_of_pos hg, List.dropWhile_append_of_pos hg]
  cases s with
  | nil => simp
  | cons c s =>
    have hc : isBlank c = false := hs c rfl
    simp [hc]

/-- How a token can be spelled: a word as itself, a literal as a quote and characters behind it that
all belong to it. -/
inductive Spells : Text → Token → Prop
  | word {w : Text} (h : IsWord w) : Spells w (.word w)
  | literal {q : Char} {body content : Text} {closed : Bool} (hq : isQuote q = true)
    (h : readLiteral q body = ⟨body, content, closed, []⟩) :
    Spells (q :: body) (.quoted content closed)

/-- Whether a token comes to its end where the rest of the text starts. -/
def StopsAt : Token → Text → Prop
  | .word _, rest => ∀ c ∈ rest.head?, isBlank c = true
  | .quoted _ true, _ => True
  | .quoted _ false, rest => rest = []

private theorem head?_dropWhile_not_blank (s : Text) :
    ∀ c ∈ (s.dropWhile (!isBlank ·)).head?, isBlank c = true := by
  intro c hc
  have h := List.head?_dropWhile_not (!isBlank ·) s
  rw [Option.mem_def.mp hc] at h
  simpa using h

private theorem spells_of_next? {s rest : Text} {x : Lexeme} (h : next? s = some (x, rest)) :
    (∀ c ∈ x.gap, isBlank c = true) ∧ Spells x.raw x.token ∧ StopsAt x.token rest := by
  have hgap : ∀ c ∈ s.takeWhile isBlank, isBlank c = true := fun c hc =>
    List.all_eq_true.mp List.all_takeWhile c hc
  have hhead := List.head?_dropWhile_not isBlank s
  unfold next? at h
  cases hd : s.dropWhile isBlank with
  | nil => simp [hd] at h
  | cons c r =>
    have hc : isBlank c = false := by simpa [hd] using hhead
    simp only [hd] at h
    split at h
    · next hq =>
      obtain ⟨rfl, rfl⟩ := Prod.mk.inj (Option.some.inj h)
      refine ⟨hgap, .literal hq (readLiteral_raw c r), ?_⟩
      dsimp only
      cases hclosed : (readLiteral c r).closed with
      | true => trivial
      | false => exact rest_of_not_closed hclosed
    · next hq =>
      obtain ⟨rfl, rfl⟩ := Prod.mk.inj (Option.some.inj h)
      refine ⟨hgap, .word ⟨List.cons_ne_nil _ _, ?_, ?_⟩, head?_dropWhile_not_blank r⟩
      · refine List.forall_mem_cons.mpr ⟨hc, fun d hd => ?_⟩
        simpa using List.all_eq_true.mp List.all_takeWhile d hd
      · intro d hd
        obtain rfl : c = d := Option.some.inj hd
        simpa using hq

theorem next?_of_spells {gap raw rest : Text} {t : Token} (hg : ∀ c ∈ gap, isBlank c = true)
    (ht : Spells raw t) (hr : StopsAt t rest) :
    next? (gap ++ (raw ++ rest)) = some (⟨gap, raw, t⟩, rest) := by
  cases ht with
  | @word _ hw =>
    cases raw with
    | nil => exact absurd rfl hw.ne_nil
    | cons c w =>
      have hc : isBlank c = false := hw.not_blank c List.mem_cons_self
      have hq : isQuote c = false := hw.not_quote c rfl
      have hn : ∀ d ∈ w, (!isBlank d) = true := fun d hd => by
        simp [hw.not_blank d (List.mem_cons_of_mem c hd)]
      have hgap := takeWhile_isBlank hg (s := c :: w ++ rest) (by simpa using hc)
      unfold next?
      rw [hgap.1, hgap.2]
      dsimp only [List.cons_append]
      rw [hq, if_neg Bool.false_ne_true, List.takeWhile_append_of_pos hn,
        List.dropWhile_append_of_pos hn]
      cases rest with
      | nil => simp
      | cons d rest =>
        have hd : isBlank d = true := hr d rfl
        simp [hd]
  | @literal q body content closed hq hbody =>
    have hlit : readLiteral q (body ++ rest) = ⟨body, content, closed, rest⟩ := by
      cases closed with
      | true => rw [readLiteral_append (by rw [hbody]), hbody, List.nil_append]
      | false => rw [show rest = [] from hr, List.append_nil, hbody]
    have hblank : isBlank q = false := (of_isQuote hq).1
    have hgap := takeWhile_isBlank hg (s := q :: body ++ rest) (by simpa using hblank)
    unfold next?
    rw [hgap.1, hgap.2]
    dsimp only [List.cons_append]
    rw [if_pos hq, hlit]

/-- Every token comes to its end with the text. -/
theorem stopsAt_nil (t : Token) : StopsAt t [] := by
  cases t with
  | word w => exact nofun
  | quoted content closed => cases closed <;> trivial

/-- Characters that spell a token are one lexeme by themselves. -/
theorem all_of_spells {raw : Text} {t : Token} (h : Spells raw t) : all raw = [⟨[], raw, t⟩] := by
  have hnext : next? ([] ++ (raw ++ [])) = some (⟨[], raw, t⟩, []) :=
    next?_of_spells nofun h (stopsAt_nil t)
  rw [List.nil_append, List.append_nil] at hnext
  rw [all_of_next? hnext, all_nil]

theorem Spells.ne_nil {raw : Text} {t : Token} (h : Spells raw t) : raw ≠ [] := by
  cases h with
  | word h => exact h.ne_nil
  | literal => exact List.cons_ne_nil _ _

theorem Spells.eq_of_word {raw w : Text} (h : Spells raw (.word w)) : raw = w := by
  cases h with
  | word => rfl

theorem Spells.isTight {raw : Text} {t : Token} (ht : Spells raw t)
    (h : ∀ content, t ≠ .quoted content false) : IsTight raw := by
  cases ht with
  | word hw => exact hw.isTight
  | @literal q body content closed hq hbody =>
    have hclosed : closed = true := by
      cases closed with
      | true => rfl
      | false => exact absurd rfl (h content)
    have hlast := getLast?_raw (q := q) (s := body) (by rw [hbody, hclosed])
    rw [hbody] at hlast
    refine ⟨List.cons_ne_nil q body, fun c hc => ?_, fun c hc => ?_⟩
    · obtain rfl : q = c := Option.some.inj hc
      exact (of_isQuote hq).1
    · rw [List.getLast?_cons, hlast] at hc
      obtain rfl : q = c := Option.some.inj hc
      exact (of_isQuote hq).1

/-- A lexeme of given parts stands at the start of a text just when the text is put together from
them, the token is spelled so, and comes to its end there. -/
theorem next?_eq_some_iff {s rest : Text} {x : Lexeme} :
    next? s = some (x, rest) ↔ s = x.gap ++ (x.raw ++ rest) ∧
      (∀ c ∈ x.gap, isBlank c = true) ∧ Spells x.raw x.token ∧ StopsAt x.token rest := by
  constructor
  · intro h
    have hs := (next?_eq_some h).1
    rw [List.append_assoc] at hs
    exact ⟨hs.symm, spells_of_next? h⟩
  · rintro ⟨rfl, hg, ht, hr⟩
    exact next?_of_spells hg ht hr

theorem next?_space {raw rest : Text} {t : Token} (ht : Spells raw t) (hr : StopsAt t rest) :
    next? (' ' :: (raw ++ rest)) = some (⟨[' '], raw, t⟩, rest) := by
  have hspace : ∀ c ∈ [' '], isBlank c = true := List.forall_mem_singleton.mpr rfl
  exact next?_of_spells hspace ht hr

theorem spells_quote (s : Text) : Spells (quote s) (.quoted s true) :=
  .literal rfl (readLiteral_escape s [])

theorem exists_spells_cut {s t : Text} (ht : t <+: escape s) :
    ∃ content, Spells ('"' :: t) (.quoted content false) := by
  obtain ⟨content, hr⟩ := readLiteral_of_isPrefix ht
  exact ⟨content, .literal rfl hr⟩

end Lexeme
end FilterLang
