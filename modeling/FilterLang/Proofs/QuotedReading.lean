import FilterLang.Sql
import Mathlib.Data.List.Basic

/-!
How SQL reads what stands in quotes: a literal of either dialect, and a dotted name whose parts are
quoted one by one. Whatever text a literal or a name is written of, reading gives that text back and
stops at the last quote written, unless the text behind it starts with what would belong to them.
-/
namespace FilterLang

/-- How a piece in quotes is read: the quote around it, whether a backslash makes the character
behind it literal, and whether a doubled quote stands for one. -/
structure Quoting where
  quote : Char
  escapes : Bool
  doubles : Bool
  deriving DecidableEq, Repr

namespace Quoting

def readContent? (g : Quoting) : Text → Option (Text × Text)
  | [] => none
  | c :: s =>
    if c = g.quote then
      match s with
      | [] => some ([], [])
      | d :: t =>
        if g.doubles ∧ d = g.quote then (g.readContent? t).map (Prod.map (d :: ·) id)
        else some ([], d :: t)
    else if g.escapes ∧ c = '\\' then
      match s with
      | [] => none
      | d :: t => (g.readContent? t).map (Prod.map (d :: ·) id)
    else (g.readContent? s).map (Prod.map (c :: ·) id)

def read? (g : Quoting) : Text → Option (Text × Text)
  | [] => none
  | c :: s => if c = g.quote then g.readContent? s else none

variable {g : Quoting} {s content rest : Text}

private theorem exists_of_map_cons {o : Option (Text × Text)} {c : Char}
    (h : o.map (Prod.map (c :: ·) id) = some (content, rest)) :
    ∃ content', o = some (content', rest) := by
  obtain ⟨⟨content', rest'⟩, ho, he⟩ := Option.map_eq_some_iff.mp h
  cases he
  exact ⟨content', ho⟩

private theorem length_lt_of_readContent? (h : g.readContent? s = some (content, rest)) :
    rest.length < s.length := by
  fun_induction g.readContent? s generalizing content rest with
  | case1 => cases h
  | case2 =>
    cases h
    exact Nat.zero_lt_one
  | case3 d t hd ih =>
    obtain ⟨content', hread⟩ := exists_of_map_cons h
    exact Nat.lt_add_right 1 (Nat.lt_add_right 1 (ih hread))
  | case4 d t hd =>
    cases h
    exact Nat.lt_add_one _
  | case5 => cases h
  | case6 c hc hescape d t ih =>
    obtain ⟨content', hread⟩ := exists_of_map_cons h
    exact Nat.lt_add_right 1 (Nat.lt_add_right 1 (ih hread))
  | case7 c t hc hescape ih =>
    obtain ⟨content', hread⟩ := exists_of_map_cons h
    exact Nat.lt_add_right 1 (ih hread)

private theorem length_lt_of_read? (h : g.read? s = some (content, rest)) :
    rest.length < s.length := by
  cases s with
  | nil => cases h
  | cons c s =>
    rw [read?] at h
    split at h
    · exact Nat.lt_add_right 1 (length_lt_of_readContent? h)
    · cases h

private theorem readContent?_cons {c : Char} (hc : c ≠ g.quote)
    (hescape : ¬(g.escapes = true ∧ c = '\\')) (t : Text) :
    g.readContent? (c :: t) = (g.readContent? t).map (Prod.map (c :: ·) id) := by
  rw [readContent?.eq_def]
  dsimp only
  rw [if_neg hc, if_neg hescape]

private theorem readContent?_quote_iff :
    g.readContent? (g.quote :: rest) = some ([], rest) ↔
      (g.doubles = true → rest.head? ≠ some g.quote) := by
  cases rest with
  | nil => simp [readContent?]
  | cons d t =>
    by_cases hd : g.doubles = true ∧ d = g.quote
    · obtain ⟨hdoubles, rfl⟩ := hd
      simp [readContent?, hdoubles]
    · simpa [readContent?, hd] using not_and.mp hd

/-- Whether each character is written so that reading gives it back. -/
def Reads (g : Quoting) (code : Char → Text) : Prop :=
  ∀ c t, g.readContent? (code c ++ t) = (g.readContent? t).map (Prod.map (c :: ·) id)

private theorem Reads.readContent?_flatMap {code : Char → Text} (h : g.Reads code) (s t : Text) :
    g.readContent? (s.flatMap code ++ t) = (g.readContent? t).map (Prod.map (s ++ ·) id) := by
  induction s with
  | nil =>
    have hid : Prod.map (fun content : Text => [] ++ content) (id : Text → Text) = id := rfl
    rw [List.flatMap_nil, List.nil_append, hid, Option.map_id, id]
  | cons c s ih =>
    rw [List.flatMap_cons, List.append_assoc, h, ih, Option.map_map]
    rfl

/-- A piece whose characters are written so is read up to its last quote, unless the text behind it
starts with another quote that doubles the last one. -/
theorem Reads.read?_iff {code : Char → Text} (h : g.Reads code) (s rest : Text) :
    g.read? (g.quote :: s.flatMap code ++ [g.quote] ++ rest) = some (s, rest) ↔
      (g.doubles = true → rest.head? ≠ some g.quote) := by
  have hread : g.read? (g.quote :: s.flatMap code ++ [g.quote] ++ rest) =
      (g.readContent? (g.quote :: rest)).map (Prod.map (s ++ ·) id) := by
    simp [read?, h.readContent?_flatMap]
  rw [hread, ← readContent?_quote_iff, Option.map_eq_some_iff]
  constructor
  · rintro ⟨⟨content, rest'⟩, hcontent, he⟩
    obtain ⟨hs, rfl⟩ := Prod.mk.inj he
    rwa [List.append_right_eq_self.mp hs] at hcontent
  · intro hcontent
    exact ⟨_, hcontent, by simp⟩

private theorem reads_doubled (hescapes : g.escapes = false) (hdoubles : g.doubles = true) :
    g.Reads fun c => if c = g.quote then [c, c] else [c] := by
  intro c t
  by_cases hc : c = g.quote
  · simp [hc, readContent?, hdoubles]
  · have hescape : ¬(g.escapes = true ∧ c = '\\') := by simp [hescapes]
    dsimp only
    rw [if_neg hc, List.singleton_append, readContent?_cons hc hescape]

end Quoting

namespace Dialect

/-- The ways to read a literal. A backslash has a meaning in MySQL only, and there a doubled quote
may be one or not. -/
def literalQuotings : Dialect → List Quoting
  | ansi => [⟨'\'', false, true⟩]
  | mysql => [⟨'\'', true, false⟩, ⟨'\'', true, true⟩]

def nameQuoting (d : Dialect) : Quoting := ⟨d.nameQuote, false, true⟩

private theorem reads_literalChar {d : Dialect} {g : Quoting} (hg : g ∈ d.literalQuotings) :
    g.quote = '\'' ∧ g.Reads d.literalChar := by
  cases d with
  | ansi =>
    obtain rfl := List.mem_singleton.mp hg
    refine ⟨rfl, ?_⟩
    have hchar : ansi.literalChar = fun c => if c = '\'' then [c, c] else [c] := by
      funext c
      by_cases hc : c = '\'' <;> simp [literalChar, hc]
    rw [hchar]
    exact Quoting.reads_doubled rfl rfl
  | mysql =>
    have hquote : g.quote = '\'' ∧ g.escapes = true := by
      simp only [literalQuotings, List.mem_cons, List.not_mem_nil, or_false] at hg
      rcases hg with rfl | rfl <;> exact ⟨rfl, rfl⟩
    obtain ⟨hq, hescapes⟩ := hquote
    refine ⟨hq, fun c t => ?_⟩
    by_cases hc : c = '\'' ∨ c = '\\'
    · simp [literalChar, hc, Quoting.readContent?, hq, hescapes]
    · have hplain : c ≠ '\'' ∧ c ≠ '\\' := not_or.mp hc
      have hescape : ¬(g.escapes = true ∧ c = '\\') := fun he => hplain.2 he.2
      rw [literalChar, if_neg hc, List.singleton_append,
        Quoting.readContent?_cons (hq ▸ hplain.1) hescape]

theorem read?_literal_iff {d : Dialect} {g : Quoting} (hg : g ∈ d.literalQuotings)
    (s rest : Text) :
    g.read? (d.literal s ++ rest) = some (s, rest) ↔
      (g.doubles = true → rest.head? ≠ some '\'') := by
  obtain ⟨hquote, hreads⟩ := reads_literalChar hg
  rw [← hquote, ← hreads.read?_iff s rest, hquote]
  rfl

theorem read?_quotePart_iff (d : Dialect) (s rest : Text) :
    d.nameQuoting.read? (d.quotePart s ++ rest) = some (s, rest) ↔
      rest.head? ≠ some d.nameQuote := by
  have hreads : d.nameQuoting.Reads fun c => if c = d.nameQuote then [c, c] else [c] :=
    Quoting.reads_doubled rfl rfl
  exact (hreads.read?_iff s rest).trans ⟨fun h => h rfl, fun h _ => h⟩

/-- Reads a dotted name in quotes: one part, and further ones as long as a point stands behind. -/
def readName? (d : Dialect) (s : Text) : Option (List Text × Text) :=
  match _h : d.nameQuoting.read? s with
  | none => none
  | some (part, t) =>
    if t.head? = some '.' then (d.readName? t.tail).map (Prod.map (part :: ·) id)
    else some ([part], t)
termination_by s.length
decreasing_by
  have := Quoting.length_lt_of_read? _h
  rw [List.length_tail]
  omega

private theorem readName?_eq (d : Dialect) (s : Text) :
    d.readName? s = (d.nameQuoting.read? s).bind fun (part, t) =>
      if t.head? = some '.' then (d.readName? t.tail).map (Prod.map (part :: ·) id)
      else some ([part], t) := by
  rw [readName?]
  split
  · next hs => rw [hs, Option.bind_none]
  · next hs => rw [hs, Option.bind_some]

private theorem ne_nil_of_readName? {d : Dialect} {s rest : Text} {parts : List Text}
    (h : d.readName? s = some (parts, rest)) : parts ≠ [] := by
  rw [readName?_eq] at h
  obtain ⟨⟨part, t⟩, -, hp⟩ := Option.bind_eq_some_iff.mp h
  dsimp only at hp
  split at hp
  · obtain ⟨p, -, he⟩ := Option.map_eq_some_iff.mp hp
    cases he
    exact List.cons_ne_nil _ _
  · cases hp
    exact List.cons_ne_nil _ _

private theorem readName?_quotePart_iff (d : Dialect) (part rest : Text) :
    d.readName? (d.quotePart part ++ rest) = some ([part], rest) ↔
      rest.head? ≠ some '.' ∧ rest.head? ≠ some d.nameQuote := by
  rw [← d.read?_quotePart_iff part rest, readName?_eq]
  constructor
  · intro h
    obtain ⟨⟨part', t⟩, hread, ht⟩ := Option.bind_eq_some_iff.mp h
    dsimp only at ht
    split at ht
    · -- A point would have led to a second part.
      obtain ⟨⟨parts, rest'⟩, hparts, he⟩ := Option.map_eq_some_iff.mp ht
      have hnil : parts = [] := (List.cons.inj (Prod.mk.inj he).1).2
      exact absurd hnil (ne_nil_of_readName? hparts)
    · next hpoint =>
      cases ht
      exact ⟨hpoint, hread⟩
  · rintro ⟨hpoint, hread⟩
    rw [hread, Option.bind_some]
    exact if_neg hpoint

/-- Parts in quotes with points between them are read one by one, up to the last. -/
theorem readName?_quoteParts_iff (d : Dialect) {parts : List Text} (hparts : parts ≠ [])
    (rest : Text) :
    d.readName? (List.intercalate ['.'] (parts.map d.quotePart) ++ rest) = some (parts, rest) ↔
      rest.head? ≠ some '.' ∧ rest.head? ≠ some d.nameQuote := by
  induction parts with
  | nil => exact absurd rfl hparts
  | cons p ps ih =>
    cases ps with
    | nil =>
      rw [List.map_singleton, List.intercalate_singleton]
      exact d.readName?_quotePart_iff p rest
    | cons q qs =>
      have hpoint (t : Text) :
          d.nameQuoting.read? (d.quotePart p ++ '.' :: t) = some (p, '.' :: t) := by
        rw [read?_quotePart_iff]
        cases d <;> simp [nameQuote]
      rw [← ih (List.cons_ne_nil q qs), List.map_cons, List.map_cons, List.intercalate_cons_cons]
      simp only [List.append_assoc, List.cons_append, List.nil_append]
      rw [readName?_eq, hpoint, Option.bind_some]
      simp

/-- From whatever value a literal is written and from whatever name a name in quotes, reading gives
the value and the parts of the name back and stops right behind them, just when the text there does
not go on with them: with a quote, for readers to whom a doubled quote is one, and behind a name
with a point too. -/
theorem read_quoted_iff (d : Dialect) {g : Quoting} (hg : g ∈ d.literalQuotings)
    (value name rest : Text) :
    (g.read? (d.literal value ++ rest) = some (value, rest) ↔
      (g.doubles = true → rest.head? ≠ some '\'')) ∧
    (d.readName? (SqlStyle.fieldName ⟨d, true⟩ name ++ rest) = some (name.splitOn '.', rest) ↔
      rest.head? ≠ some '.' ∧ rest.head? ≠ some d.nameQuote) ∧
    List.intercalate ['.'] (name.splitOn '.') = name := by
  have hname := d.readName?_quoteParts_iff (List.splitOn_ne_nil '.' name) rest
  exact ⟨read?_literal_iff hg value rest, hname, List.intercalate_splitOn '.'⟩

/-- Quotes, backslashes and points in the value and the name do not end them. -/
theorem read_quoted_behind_escapes :
    let rest := " OR 1 = 1".toList
    (⟨'\'', true, true⟩ : Quoting) ∈ mysql.literalQuotings ∧
    Quoting.read? ⟨'\'', true, true⟩ (mysql.literal "\\' OR '".toList ++ rest) =
      some ("\\' OR '".toList, rest) ∧
    mysql.readName? (SqlStyle.fieldName ⟨mysql, true⟩ "t\x60.\x60.".toList ++ rest) =
      some (["t\x60".toList, "\x60".toList, []], rest) := by
  intro rest
  have hmem : (⟨'\'', true, true⟩ : Quoting) ∈ mysql.literalQuotings := by decide
  obtain ⟨hvalue, hname, -⟩ :=
    read_quoted_iff mysql hmem "\\' OR '".toList "t\x60.\x60.".toList rest
  exact ⟨hmem, hvalue.mpr (by decide), hname.mpr (by decide)⟩

end Dialect
end FilterLang
