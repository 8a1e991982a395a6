import FilterLang.Settings
import Mathlib.Data.List.TakeDrop

/-!
The text of the settings file. Each of its lines is a header or a key of bare letters, and is read
by itself whatever follows it, so the settings that are written are the settings that are read.
-/
namespace FilterLang
namespace Toml

private theorem ne_of_isBare {c d : Char} (hc : isBare c = true) (hd : isBare d = false) :
    c ≠ d := by
  rintro rfl
  rw [hc] at hd
  cases hd

def IsBareKey (key : Text) : Prop := key ≠ [] ∧ ∀ c ∈ key, isBare c = true

instance (key : Text) : Decidable (IsBareKey key) := inferInstanceAs (Decidable (_ ∧ _))

private theorem skipSpace_cons {c : Char} (h : isSpace c = false) (s : Text) :
    skipSpace (c :: s) = c :: s :=
  List.dropWhile_cons_of_neg (by simp [h])

private theorem skipLines_cons {c : Char} (h : isBare c = true ∨ c = '[') (s : Text) (fuel : ℕ) :
    skipLines (c :: s) fuel = c :: s := by
  -- A bare letter or a bracket starts a line, so nothing is passed over.
  have hne : ∀ d, isBare d = false → d ≠ '[' → c ≠ d := by
    rintro d hd hb rfl
    rcases h with h | h
    · rw [hd] at h
      cases h
    · exact hb h
  have hspace : isSpace c = false := by
    simp [isSpace, hne ' ' (by decide) (by decide), hne '\t' (by decide) (by decide)]
  have hcomment : skipComment (c :: s) = c :: s := by
    unfold skipComment
    split
    · next heq => exact absurd (List.cons.inj heq).1 (hne '#' (by decide) (by decide))
    · rfl
  have hbreak : afterNewline? (c :: s) = none := by
    unfold afterNewline?
    split
    · next heq => exact absurd (List.cons.inj heq).1 (hne '\n' (by decide) (by decide))
    · next heq => exact absurd (List.cons.inj heq).1 (hne '\r' (by decide) (by decide))
    · rfl
  cases fuel with
  | zero => rfl
  | succ fuel => simp only [skipLines, skipSpace_cons hspace, hcomment, hbreak]

private theorem readKeyPart?_append {key : Text} (hkey : IsBareKey key) {c : Char}
    (hc : isBare c = false) (r : Text) : readKeyPart? (key ++ c :: r) = some (key, c :: r) := by
  obtain ⟨hne, hbare⟩ := hkey
  have hspan : (key ++ c :: r).span isBare = (key, c :: r) := by
    rw [List.span_eq_takeWhile_dropWhile, List.takeWhile_append_of_pos hbare,
      List.dropWhile_append_of_pos hbare, List.takeWhile_cons_of_neg (by simp [hc]),
      List.dropWhile_cons_of_neg (by simp [hc]), List.append_nil]
  obtain ⟨d, key, rfl⟩ := List.exists_cons_of_ne_nil hne
  have hd : isBare d = true := hbare d List.mem_cons_self
  unfold readKeyPart?
  split
  · next heq => exact absurd (List.cons.inj heq).1 (ne_of_isBare hd (by decide))
  · next heq => exact absurd (List.cons.inj heq).1 (ne_of_isBare hd (by decide))
  · rw [hspan]
    rfl

private theorem skipSpace_append {key : Text} (hkey : IsBareKey key) (r : Text) :
    skipSpace (key ++ r) = key ++ r := by
  obtain ⟨d, key, rfl⟩ := List.exists_cons_of_ne_nil hkey.1
  have hd : isBare d = true := hkey.2 d List.mem_cons_self
  have hblank : d ≠ ' ' := ne_of_isBare hd (by decide)
  have htab : d ≠ '\t' := ne_of_isBare hd (by decide)
  exact skipSpace_cons (by simp [isSpace, hblank, htab]) _

private theorem readKey?_append {key : Text} (hkey : IsBareKey key) {c : Char}
    (hc : isBare c = false) {r t : Text} (hr : skipSpace (c :: r) = t) (ht : t.head? ≠ some '.') :
    readKey? (key ++ c :: r) = some ([key], t) := by
  have hparts (fuel : ℕ) : readKeyParts? (fuel + 1) (key ++ c :: r) = some ([key], t) := by
    rw [readKeyParts?, skipSpace_append hkey, readKeyPart?_append hkey hc]
    simp only [Option.bind_some, hr]
    split
    · exact absurd rfl ht
    · rfl
  rw [readKey?, hparts]
  rfl

/-- A line of a document as the settings use it: a header behind an empty line, or a key with its
value. -/
inductive Line where
  | header (name : Text)
  | pair (key value : Text) (v : Toml)

namespace Line

def text : Line → Text
  | header name => '\n' :: '[' :: name ++ [']', '\n']
  | pair key value _ => Settings.line key (some value)

def enter (d : Draft) : Line → Option Draft
  | header name => d.defineAt [name] openTable
  | pair key _ v => d.add [key] v

def IsPlain : Line → Prop
  | header name => IsBareKey name
  | pair key value v => IsBareKey key ∧ ∀ fuel rest,
      readValue? (fuel + 1) maxDepth (skipSpace (value ++ '\n' :: rest)) = some (v, '\n' :: rest)

end Line

private theorem readLine?_header {name : Text} (h : IsBareKey name) (d : Draft) (rest : Text) :
    d.readLine? ('[' :: name ++ ']' :: rest) = (d.defineAt [name] openTable).map (·, rest) := by
  have hkey : readKey? (name ++ ']' :: rest) = some ([name], ']' :: rest) :=
    readKey?_append h (by decide) (skipSpace_cons (by decide) rest) (by simp)
  have hopen : name.head? ≠ some '[' := by
    intro hhead
    exact ne_of_isBare (h.2 _ (List.mem_of_mem_head? hhead)) (by decide) rfl
  rw [List.cons_append]
  unfold Draft.readLine?
  split
  · next heq =>
    obtain ⟨c, name, rfl⟩ := List.exists_cons_of_ne_nil h.1
    simp only [List.cons_append, List.cons.injEq, true_and] at heq
    simp [heq.1] at hopen
  · next heq =>
    rw [← (List.cons.inj heq).2, hkey]
    rfl
  · next hne => exact absurd rfl (hne _)

private theorem readLine?_pair {key value : Text} {v : Toml} (h : (Line.pair key value v).IsPlain)
    (d : Draft) (rest : Text) :
    d.readLine? (Settings.line key (some value) ++ rest) =
      (d.add [key] v).map (·, '\n' :: rest) := by
  obtain ⟨hbare, hvalue⟩ := h
  have hline : Settings.line key (some value) ++ rest =
      key ++ ' ' :: '=' :: ' ' :: (value ++ '\n' :: rest) := by
    simp [Settings.line]
  have hkey : readKey? (key ++ ' ' :: '=' :: ' ' :: (value ++ '\n' :: rest)) =
      some ([key], '=' :: ' ' :: (value ++ '\n' :: rest)) :=
    readKey?_append hbare (by decide) rfl (by simp)
  obtain ⟨c, tail, rfl⟩ := List.exists_cons_of_ne_nil hbare.1
  have hopen : c ≠ '[' := ne_of_isBare (hbare.2 c List.mem_cons_self) (by decide)
  rw [hline]
  unfold Draft.readLine?
  split
  · next heq => exact absurd (List.cons.inj heq).1 hopen
  · next heq => exact absurd (List.cons.inj heq).1 hopen
  · rw [hkey]
    have hspace : skipSpace (' ' :: (value ++ '\n' :: rest)) =
        skipSpace (value ++ '\n' :: rest) := rfl
    simp only [Option.bind_some, hspace, hvalue]

private theorem readLines?_of_readLine? {d : Draft} {o : Option Draft} {s r rest : Text} {c : Char}
    (hstart : skipLines s s.length = c :: r)
    (hline : d.readLine? (c :: r) = o.map (·, '\n' :: rest)) (fuel : ℕ) :
    d.readLines? (fuel + 1) s = o.bind fun d => d.readLines? fuel rest := by
  rw [Draft.readLines?, hstart]
  simp only [hline]
  cases o <;> rfl

private theorem readLines?_line {l : Line} (h : l.IsPlain) (fuel : ℕ) (d : Draft) (rest : Text) :
    d.readLines? (fuel + 1) (l.text ++ rest) =
      (l.enter d).bind fun d => d.readLines? fuel rest := by
  cases l with
  | header name =>
    have htext : (Line.header name).text ++ rest =
        '\n' :: '[' :: (name ++ ']' :: '\n' :: rest) := by
      simp [Line.text]
    refine readLines?_of_readLine? ?_ (readLine?_header h d ('\n' :: rest)) fuel
    rw [htext]
    exact skipLines_cons (.inr rfl) _ _
  | pair key value v =>
    have hline := readLine?_pair h d rest
    obtain ⟨c, tail, rfl⟩ := List.exists_cons_of_ne_nil h.1.1
    have hc : isBare c = true := h.1.2 c List.mem_cons_self
    exact readLines?_of_readLine? (skipLines_cons (.inl hc) _ _) hline fuel

private theorem length_le_flatMap_text (ls : List Line) :
    ls.length ≤ (ls.flatMap Line.text).length := by
  induction ls with
  | nil => exact Nat.le_refl 0
  | cons l ls ih =>
    have hl : 1 ≤ l.text.length := by
      cases l with
      | header name => exact Nat.succ_pos _
      | pair key value v =>
        simp only [Line.text, Settings.line, List.length_append, List.length_cons]
        omega
    rw [List.length_cons, List.flatMap_cons, List.length_append]
    omega

/-- Lines are read one after another. -/
theorem readLines?_lines {ls : List Line} (h : ∀ l ∈ ls, l.IsPlain) {fuel : ℕ}
    (hfuel : ls.length < fuel) (d : Draft) :
    d.readLines? fuel (ls.flatMap Line.text) = ls.foldlM Line.enter d := by
  induction ls generalizing fuel d with
  | nil =>
    obtain ⟨fuel, rfl⟩ := Nat.exists_eq_succ_of_ne_zero (Nat.ne_zero_of_lt hfuel)
    rfl
  | cons l ls ih =>
    obtain ⟨hl, hls⟩ := List.forall_mem_cons.mp h
    obtain ⟨fuel, rfl⟩ := Nat.exists_eq_succ_of_ne_zero (Nat.ne_zero_of_lt hfuel)
    have hrest (d : Draft) : d.readLines? fuel (ls.flatMap Line.text) = ls.foldlM Line.enter d :=
      ih hls (Nat.lt_of_succ_lt_succ hfuel) d
    rw [List.flatMap_cons, readLines?_line hl, List.foldlM_cons]
    simp only [hrest]
    rfl

private theorem readValue?_plain {t : Text} {v : Toml} (ht : t ≠ [])
    (h : ∀ c ∈ t, isPlainValueChar c = true) (hv : plainValue? t = some v) (fuel depth : ℕ)
    (rest : Text) :
    readValue? (fuel + 1) depth (skipSpace (t ++ '\n' :: rest)) = some (v, '\n' :: rest) := by
  have hspan : (t ++ '\n' :: rest).span isPlainValueChar = (t, '\n' :: rest) := by
    rw [List.span_eq_takeWhile_dropWhile, List.takeWhile_append_of_pos h,
      List.dropWhile_append_of_pos h, List.takeWhile_cons_of_neg (by decide),
      List.dropWhile_cons_of_neg (by decide), List.append_nil]
  have htake : takePlain (t ++ '\n' :: rest) = (t, '\n' :: rest) := by
    rw [takePlain, hspan]
    dsimp only
    split
    · next heq => exact absurd (List.cons.inj heq).1 (by decide)
    · rfl
  obtain ⟨c, t, rfl⟩ := List.exists_cons_of_ne_nil ht
  have hne (d : Char) (hd : isPlainValueChar d = false) : c ≠ d := by
    rintro rfl
    rw [h c List.mem_cons_self] at hd
    cases hd
  have hspace : skipSpace (c :: t ++ '\n' :: rest) = c :: t ++ '\n' :: rest :=
    skipSpace_cons (by simp [isSpace, hne ' ' (by decide), hne '\t' (by decide)]) _
  -- The first letter opens neither brackets nor quotes.
  have hopen (d : Char) (hd : isPlainValueChar d = false) (r : Text) :
      c :: t ++ '\n' :: rest ≠ d :: r :=
    fun heq => hne d hd (List.cons.inj heq).1
  rw [hspace, readValue?]
  · rw [htake]
    simp only [hv]
    rfl
  · exact hopen '"' (by decide)
  · exact hopen '\'' (by decide)
  · exact fun r _ => hopen '[' (by decide) r
  · exact fun r _ => hopen '{' (by decide) r
  · exact fun _ r _ => hopen '[' (by decide) r
  · exact fun _ r _ => hopen '{' (by decide) r

def IsQuotable (t : Text) : Prop := ∀ c ∈ t, isPlain c = true ∧ c ≠ '"' ∧ c ≠ '\\'

instance (t : Text) : Decidable (IsQuotable t) := inferInstanceAs (Decidable (∀ c ∈ t, _))

private theorem readBasic?_append {t : Text} (h : IsQuotable t) {fuel : ℕ} (hfuel : t.length < fuel)
    (rest : Text) : readBasic? fuel (t ++ '"' :: rest) = some (t, rest) := by
  induction t generalizing fuel with
  | nil =>
    obtain ⟨fuel, rfl⟩ := Nat.exists_eq_succ_of_ne_zero (Nat.ne_zero_of_lt hfuel)
    rfl
  | cons c t ih =>
    obtain ⟨fuel, rfl⟩ := Nat.exists_eq_succ_of_ne_zero (Nat.ne_zero_of_lt hfuel)
    obtain ⟨⟨hplain, hquote, hback⟩, ht⟩ := List.forall_mem_cons.mp h
    rw [List.cons_append, readBasic?]
    · rw [if_pos hplain, ih ht (Nat.lt_of_succ_lt_succ hfuel)]
      rfl
    · exact hquote
    · exact hback

private theorem readValue?_quoted {t : Text} (ht : t ≠ []) (h : IsQuotable t) (fuel depth : ℕ)
    (rest : Text) :
    readValue? (fuel + 1) depth (skipSpace ('"' :: t ++ ['"'] ++ '\n' :: rest)) =
      some (.string t, '\n' :: rest) := by
  have htext : '"' :: t ++ ['"'] ++ '\n' :: rest = '"' :: (t ++ '"' :: '\n' :: rest) := by simp
  have hstring : readString? ('"' :: (t ++ '"' :: '\n' :: rest)) = some (t, '\n' :: rest) := by
    obtain ⟨c, t, rfl⟩ := List.exists_cons_of_ne_nil ht
    have hc := (h c List.mem_cons_self).2.1
    have hlength : (c :: t).length < (c :: t ++ '"' :: '\n' :: rest).length + 1 := by
      simp only [List.length_append, List.length_cons]
      omega
    unfold readString?
    split
    · next heq => simp [hc] at heq
    · next heq =>
      rw [← (List.cons.inj heq).2]
      exact readBasic?_append h hlength _
    all_goals simp_all
  rw [htext, skipSpace_cons (by decide), readValue?, hstring]
  rfl

end Toml

namespace Settings
open Toml

def pairLines {α : Type} (key : Text) (value : α → Text) (v : α → Toml) (o : Option α) :
    List Line :=
  (o.map fun a => Line.pair key (value a) (v a)).toList

def lines (s : Settings) : List Line :=
  .pair "version".toList ['1'] (.integer 1) :: .header "sql".toList ::
    (pairLines "dialect".toList (fun d => '"' :: d.name ++ ['"']) (fun d => .string d.name)
        s.dialect ++
      pairLines "quote_identifiers".toList boolWord .boolean s.quotesNames ++
      .header "output".toList ::
      (pairLines "color".toList boolWord .boolean s.color ++
        pairLines "pretty".toList boolWord .boolean s.pretty))

def tables (s : Settings) : Entries :=
  [("version".toList, .integer 1),
    ("sql".toList, .table .header
      ((s.dialect.map fun d => ("dialect".toList, .string d.name)).toList ++
        (s.quotesNames.map fun b => ("quote_identifiers".toList, .boolean b)).toList)),
    ("output".toList, .table .header
      ((s.color.map fun b => ("color".toList, .boolean b)).toList ++
        (s.pretty.map fun b => ("pretty".toList, .boolean b)).toList))]

private theorem flatMap_pairLines {α : Type} (key : Text) (value : α → Text) (v : α → Toml)
    (o : Option α) : (pairLines key value v o).flatMap Line.text = line key (o.map value) := by
  cases o <;> simp [pairLines, Line.text, line]

private theorem write_eq (s : Settings) : s.write = s.lines.flatMap Line.text := by
  have hstart : "version = 1\n\n[sql]\n".toList =
      (Line.pair "version".toList ['1'] (.integer 1)).text ++ (Line.header "sql".toList).text := by
    decide
  have houtput : "\n[output]\n".toList = (Line.header "output".toList).text := by decide
  have hgroup (a b x y z w : Text) :
      a ++ x ++ y ++ b ++ z ++ w = a ++ (x ++ y ++ (b ++ (z ++ w))) := by
    simp only [List.append_assoc]
  calc s.write = _ := hgroup _ _ _ _ _ _
    _ = s.lines.flatMap Line.text := by
      rw [hstart, houtput]
      simp only [lines, List.flatMap_cons, List.flatMap_append, flatMap_pairLines,
        List.append_assoc]

private theorem isPlain_bool (key : Text) (hkey : IsBareKey key) (b : Bool) :
    (Line.pair key (boolWord b) (.boolean b)).IsPlain := by
  refine ⟨hkey, fun fuel rest => ?_⟩
  cases b <;> exact readValue?_plain (by decide) (by decide) rfl fuel maxDepth rest

private theorem isPlain_pairLines {α : Type} {key : Text} {value : α → Text} {v : α → Toml}
    (h : ∀ a, (Line.pair key (value a) (v a)).IsPlain) (o : Option α) :
    ∀ l ∈ pairLines key value v o, l.IsPlain := by
  cases o <;> simp [pairLines, h]

private theorem isPlain_lines (s : Settings) : ∀ l ∈ s.lines, l.IsPlain := by
  have hversion : (Line.pair "version".toList ['1'] (.integer 1)).IsPlain :=
    ⟨by decide, fun fuel rest => readValue?_plain (by decide) (by decide) rfl fuel maxDepth rest⟩
  have hdialect (d : Dialect) :
      (Line.pair "dialect".toList ('"' :: d.name ++ ['"']) (.string d.name)).IsPlain := by
    refine ⟨by decide, fun fuel rest => ?_⟩
    cases d <;> exact readValue?_quoted (by decide) (by decide) fuel maxDepth rest
  simp only [lines, List.forall_mem_cons, List.forall_mem_append]
  have hsql : IsBareKey "sql".toList := by decide
  have houtput : IsBareKey "output".toList := by decide
  have hquotes := isPlain_bool "quote_identifiers".toList (by decide)
  have hcolor := isPlain_bool "color".toList (by decide)
  have hpretty := isPlain_bool "pretty".toList (by decide)
  exact ⟨hversion, hsql, ⟨isPlain_pairLines hdialect _, isPlain_pairLines hquotes _⟩, houtput,
    isPlain_pairLines hcolor _, isPlain_pairLines hpretty _⟩

private theorem foldlM_lines (s : Settings) :
    s.lines.foldlM Line.enter ⟨[], []⟩ = some ⟨s.tables, ["output".toList]⟩ := by
  obtain ⟨dialect, quotesNames, color, pretty⟩ := s
  cases dialect <;> cases quotesNames <;> cases color <;> cases pretty <;> rfl

private theorem ofToml_tables (s : Settings) : ofToml s.tables = .ok s := by
  obtain ⟨dialect, quotesNames, color, pretty⟩ := s
  rcases dialect with _ | _ | _ <;> cases quotesNames <;> cases color <;> cases pretty <;> rfl

/-- Settings that are written are read again. -/
theorem read_write (s : Settings) : read s.write = .ok s := by
  have hlines : Draft.readLines? (s.write.length + 1) ⟨[], []⟩ s.write =
      some ⟨s.tables, "output".toList :: []⟩ := by
    have hlength := length_le_flatMap_text s.lines
    rw [write_eq, readLines?_lines s.isPlain_lines (Nat.lt_succ_of_le hlength), foldlM_lines]
  have htables : Toml.read? s.write = some s.tables := by
    have hhead : s.write.head? = some 'v' := rfl
    unfold Toml.read?
    split
    · next heq =>
      rw [heq] at hhead
      exact absurd (Option.some.inj hhead) (by decide)
    · exact congrArg (Option.map Draft.root) hlines
  rw [read, htables]
  exact s.ofToml_tables

end Settings
end FilterLang
