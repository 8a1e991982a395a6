import FilterLang.Proofs.Chain
import FilterLang.Proofs.CommandPlanning
import Mathlib.Data.List.DropRight

/-!
The rows of the term table as lines of output. Every line feed in a field or an operand breaks its
row in two. Without any there is one line for each term behind the heading, which starts with the
term's index and can be read back as the term.
-/
namespace FilterLang

namespace Text

/-- The lines of a text: what a line feed ends, and what stands behind the last one, if anything. -/
def lines : Text → List Text
  | [] => []
  | c :: s =>
    if c = '\n' then [] :: lines s
    else match lines s with
      | [] => [[c]]
      | l :: ls => (c :: l) :: ls

theorem lines_append {s : Text} (h : '\n' ∉ s) (t : Text) :
    lines (s ++ '\n' :: t) = s :: lines t := by
  induction s with
  | nil => exact if_pos rfl
  | cons c s ih =>
    obtain ⟨hc, hs⟩ := not_or.mp (mt List.mem_cons.mpr h)
    rw [List.cons_append, lines, if_neg (Ne.symm hc), ih hs]

private theorem length_lines_append (s t : Text) :
    (lines (s ++ '\n' :: t)).length = s.count '\n' + 1 + (lines t).length := by
  induction s with
  | nil => simp [lines, Nat.add_comm]
  | cons c s ih =>
    by_cases hc : c = '\n'
    · rw [List.cons_append, lines, if_pos hc, List.length_cons, ih, hc, List.count_cons_self]
      omega
    · rw [List.cons_append, lines, if_neg hc, List.count_cons_of_ne hc, ← ih]
      split
      · next hnil =>
        rw [hnil, List.length_nil] at ih
        omega
      · next hl =>
        rw [hl]
        rfl

def column (s : Text) : Text × Text :=
  (s.takeWhile (· ≠ ' '), (s.dropWhile (· ≠ ' ')).dropWhile (· = ' '))

private theorem padding_append (n : Nat) (t : Text) :
    List.replicate n ' ' ++ ' ' :: t = ' ' :: (List.replicate n ' ' ++ t) := by
  rw [List.append_cons, ← List.replicate_succ', List.replicate_succ, List.cons_append]

private theorem column_append {cell t : Text} (hcell : ' ' ∉ cell) (ht : t.head? ≠ some ' ')
    (n : Nat) : column (cell ++ List.replicate n ' ' ++ ' ' :: t) = (cell, t) := by
  have hne : ∀ c ∈ cell, decide (c ≠ ' ') = true := fun c hc =>
    decide_eq_true fun h => hcell (h ▸ hc)
  have hblanks : ∀ c ∈ ' ' :: List.replicate n ' ', decide (c = ' ') = true := by simp
  have hend : t.dropWhile (· = ' ') = t := by
    cases t with
    | nil => rfl
    | cons c t => exact List.dropWhile_cons_of_neg (by simpa using ht)
  rw [List.append_assoc, padding_append, column, List.takeWhile_append_of_pos hne,
    List.dropWhile_append_of_pos hne, List.takeWhile_cons_of_neg (by simp),
    List.dropWhile_cons_of_neg (by simp), List.append_nil, ← List.cons_append,
    List.dropWhile_append_of_pos hblanks, hend]

theorem not_mem_ofNat {c : Char} (hc : c.isDigit = false) (n : Nat) : c ∉ ofNat n := by
  intro h
  rw [Nat.isDigit_of_mem_toDigits (by decide) (Nat.le_refl 10) h] at hc
  cases hc

variable {d : Char}

private theorem count_control {s : Text} (hs : ∀ c ∈ s, 32 ≤ c.toNat) (hd : d.toNat < 32) :
    s.count d = 0 := by
  rw [List.count_eq_zero]
  intro hmem
  have := hs d hmem
  omega

private theorem count_escape (s : Text) (hd : d.toNat < 32) : (escape s).count d = s.count d := by
  have hbackslash : ['\\'].count d = 0 := count_control (by decide) hd
  induction s with
  | nil => rfl
  | cons c s ih =>
    rw [escape_cons, List.count_append, ih, ← List.singleton_append (l := s), List.count_append]
    split
    · rw [← List.singleton_append, List.count_append, hbackslash, Nat.zero_add]
    · rfl

end Text

variable {d : Char}

theorem Operand.kind_mem (o : Operand) :
    o.kind ∈ ["text".toList, "number".toList, "field".toList] := by
  cases o with
  | text s => exact List.mem_cons_self
  | number s => exact List.mem_cons_of_mem _ List.mem_cons_self
  | field s => exact List.mem_cons_of_mem _ (List.mem_cons_of_mem _ List.mem_cons_self)

private theorem Operand.count_display (o : Operand) (hd : d.toNat < 32) :
    o.display.count d = o.raw.count d := by
  cases o with
  | text s =>
    have hquote : ['"'].count d = 0 := Text.count_control (by decide) hd
    rw [display, Text.quote_eq, ← List.singleton_append, List.count_append, List.count_append,
      hquote, Text.count_escape s hd, Nat.zero_add, Nat.add_zero]
    rfl
  | number s => rfl
  | field s => rfl

private theorem Clause.count_display (c : Clause) (hd : d.toNat < 32) :
    c.display.count d = c.field.count d + c.operand.raw.count d := by
  have hoperator : (' ' :: c.operator.keyword ++ [' ']).count d = 0 := by
    refine Text.count_control ?_ hd
    cases c.operator <;> decide
  have hdisplay : c.display =
      c.field ++ ((' ' :: c.operator.keyword ++ [' ']) ++ c.operand.display) := by
    simp [display, displayParts]
  rw [hdisplay, List.count_append, List.count_append, hoperator, c.operand.count_display hd,
    Nat.zero_add]

private theorem Clause.not_mem_display_iff (c : Clause) (hd : d.toNat < 32) :
    d ∉ c.display ↔ d ∉ c.field ∧ d ∉ c.operand.raw := by
  simp only [← List.count_eq_zero, c.count_display hd, Nat.add_eq_zero_iff]

namespace Term

def line (index : Nat) (t : Term) : Text :=
  Text.padRight 4 (Text.ofNat index) ++ ' ' :: t.labelCell false ++ ' ' :: t.textCell false

theorem row_eq (index : Nat) (t : Term) : t.row false index = t.line index ++ ['\n'] := rfl

theorem labelCell_eq (t : Term) :
    t.labelCell false = t.label ++ List.replicate (7 - t.label.length) ' ' := by
  cases t <;> rfl

private theorem line_eq (index : Nat) (t : Term) :
    t.line index =
      Text.ofNat index ++ List.replicate (4 - (Text.ofNat index).length) ' ' ++ ' ' ::
        (t.label ++ (List.replicate (7 - t.label.length) ' ' ++ ' ' :: t.textCell false)) := by
  simp [line, Text.padRight, labelCell_eq]

theorem le_toNat_of_mem_label {t : Term} {c : Char} (hc : c ∈ t.label) : 32 ≤ c.toNat := by
  have hall : ∀ c ∈ t.label, 32 ≤ c.toNat := by
    have hclause : ∀ c ∈ "clause".toList, 32 ≤ c.toNat := by decide
    cases t with
    | clause c => exact hclause
    | connective k => cases k <;> decide
    | _ => decide
  exact hall c hc

private theorem count_textCell (t : Term) (hd : d.toNat < 32) :
    (t.textCell false).count d = t.display.count d := by
  cases t with
  | clause c =>
    have hnote : (' ' :: ' ' :: '(' :: c.operand.kind ++ [')']).count d = 0 := by
      have hkind : ∀ w ∈ ["text".toList, "number".toList, "field".toList],
          ∀ e ∈ ' ' :: ' ' :: '(' :: w ++ [')'], 32 ≤ e.toNat := by decide
      exact Text.count_control (hkind _ c.operand.kind_mem) hd
    have hcell : (clause c).textCell false =
        c.display ++ (' ' :: ' ' :: '(' :: c.operand.kind ++ [')']) := rfl
    rw [hcell, List.count_append, hnote]
    rfl
  | _ => rfl

private theorem count_line (index : Nat) (t : Term) (hd : d.toNat < 32) :
    (t.line index).count d = t.display.count d := by
  have hfront : ∀ c ∈ Text.padRight 4 (Text.ofNat index) ++ ' ' :: t.labelCell false ++ [' '],
      32 ≤ c.toNat := by
    intro c hc
    rw [Text.padRight, labelCell_eq] at hc
    simp only [List.mem_append, List.mem_cons, List.mem_replicate, List.not_mem_nil,
      or_false] at hc
    rcases hc with ((hc | ⟨-, rfl⟩) | rfl | hc | ⟨-, rfl⟩) | rfl
    · have hdigit := Nat.isDigit_of_mem_toDigits (by decide) (Nat.le_refl 10) hc
      exact Nat.le_trans (by decide) (Char.isDigit_iff_toNat.mp hdigit).1
    · decide
    · decide
    · exact le_toNat_of_mem_label hc
    · decide
    · decide
  have hline : t.line index =
      Text.padRight 4 (Text.ofNat index) ++ ' ' :: t.labelCell false ++ [' '] ++
        t.textCell false := by
    simp [line]
  rw [hline, List.count_append, Text.count_control hfront hd, Nat.zero_add, t.count_textCell hd]

theorem not_mem_line_iff (index : Nat) (t : Term) (hd : d.toNat < 32) :
    d ∉ t.line index ↔ d ∉ t.display := by
  rw [← List.count_eq_zero, count_line index t hd, List.count_eq_zero]

private theorem lines_rows {ts : List Term} (h : ∀ t ∈ ts, '\n' ∉ t.display) (index : Nat) :
    Text.lines (rows false index ts) = (ts.zipIdx index).map fun (t, i) => t.line i := by
  induction ts generalizing index with
  | nil => rfl
  | cons t ts ih =>
    obtain ⟨ht, hts⟩ := List.forall_mem_cons.mp h
    have hline : '\n' ∉ t.line index := (not_mem_line_iff index t (by decide)).mpr ht
    rw [rows, row_eq, List.append_assoc, List.singleton_append, Text.lines_append hline, ih hts,
      List.zipIdx_cons, List.map_cons]

private theorem length_lines_rows (index : Nat) (ts : List Term) :
    (Text.lines (rows false index ts)).length =
      ts.length + (ts.flatMap display).count '\n' := by
  induction ts generalizing index with
  | nil => rfl
  | cons t ts ih =>
    rw [rows, row_eq, List.append_assoc, List.singleton_append, Text.length_lines_append, ih,
      count_line _ _ (by decide), List.length_cons, List.flatMap_cons, List.count_append]
    omega

/-- Reads a line of the table: behind the index stands what kind of term it is, and then its text.
At the end of a clause is a note in parentheses. -/
def ofLine? (line : Text) : Option Term :=
  let (label, text) := (Text.column line).2.column
  if label = "clause".toList then
    (Clause.read (text.rdropWhile (· ≠ '(')).dropLast).toOption.map clause
  else [connective .and, connective .or, openParen, closeParen].find? (·.label = label)

private theorem index_isPrefix_line (index : Nat) (t : Term) :
    Text.ofNat index ++ [' '] <+: t.line index := by
  rw [line_eq, List.append_assoc, Text.padding_append, List.prefix_append_right_inj]
  exact List.cons_prefix_cons.mpr ⟨rfl, List.nil_prefix⟩

def Legible (t : Term) : Prop := ∀ c, t = clause c → c.Legible

private theorem blank_not_mem_label (t : Term) : ' ' ∉ t.label := fun h => by
  have hclause : ' ' ∉ "clause".toList := by decide
  cases t with
  | clause c => exact hclause h
  | connective k => cases k <;> exact absurd h (by decide)
  | _ => exact absurd h (by decide)

private theorem label_ne_nil (t : Term) : t.label ≠ [] := by
  cases t with
  | connective k => cases k <;> exact List.cons_ne_nil _ _
  | _ => exact List.cons_ne_nil _ _

private theorem Legible.head?_textCell {t : Term} (h : t.Legible) :
    (t.textCell false).head? ≠ some ' ' := by
  cases t with
  | clause c =>
    have htight := (h c rfl).isTight_display
    rw [textCell, List.head?_append_of_ne_nil _ htight.ne_nil]
    intro hhead
    have hblank := htight.head _ hhead
    cases hblank
  | connective k => cases k <;> simp [textCell, display, Connective.keyword]
  | _ => simp [textCell, display]

private theorem Legible.column_line {t : Term} (h : t.Legible) (index : Nat) :
    (Text.column (t.line index)).2.column = (t.label, t.textCell false) := by
  have hhead (s : Text) : (t.label ++ s).head? ≠ some ' ' := by
    intro hs
    rw [List.head?_append_of_ne_nil _ t.label_ne_nil] at hs
    exact t.blank_not_mem_label (List.mem_of_mem_head? hs)
  rw [line_eq, Text.column_append (Text.not_mem_ofNat rfl index) (hhead _), ← List.append_assoc,
    Text.column_append t.blank_not_mem_label h.head?_textCell]

private theorem rdropWhile_textCell (c : Clause) :
    ((clause c).textCell false).rdropWhile (· ≠ '(') = c.display ++ [' ', ' ', '('] := by
  -- The note behind a clause is what stands behind its last opening parenthesis.
  have hwords : ∀ w ∈ ["text".toList, "number".toList, "field".toList],
      ∀ d ∈ (w ++ [')']).reverse, decide (d ≠ '(') = true := by decide
  have hkind := hwords _ c.operand.kind_mem
  have hcell : (clause c).textCell false =
      c.display ++ [' ', ' ', '('] ++ (c.operand.kind ++ [')']) := by
    simp [textCell]
  rw [hcell, List.rdropWhile, List.reverse_append, List.dropWhile_append_of_pos hkind]
  simp

private theorem Legible.ofLine?_line {t : Term} (h : t.Legible) (index : Nat) :
    ofLine? (t.line index) = some t := by
  unfold ofLine?
  rw [h.column_line]
  cases t with
  | clause c =>
    have hc := h c rfl
    have htrim : Text.trim ([] ++ (c.display ++ [' ', ' '])) = c.display :=
      hc.isTight_display.trim_blanks nofun (by decide)
    have hread : Clause.read (c.display ++ [' ', ' ']) = .ok c := by
      rw [← hc.read_display, Clause.read, Clause.read, ← List.nil_append (c.display ++ _), htrim,
        hc.isTight_display.trim_eq]
    have hnote : c.display ++ [' ', ' ', '('] = c.display ++ [' ', ' '] ++ ['('] := by simp
    have hlabel : (clause c).label = "clause".toList := rfl
    dsimp only
    rw [if_pos hlabel, rdropWhile_textCell, hnote, List.dropLast_concat, hread]
    rfl
  | connective k => cases k <;> decide
  | _ => decide

/-- Whether a table is read line by line as a sequence of terms: behind the heading, one line for
each term starts with the term's index and shows the term. -/
def IsListed (out : Text) (ts : List Term) : Prop :=
  ∃ ls, Text.lines out = heading :: ls ∧ ls.length = ts.length ∧
    ∀ (i : Nat) (l : Text), ls[i]? = some l → Text.ofNat i ++ [' '] <+: l ∧ ofLine? l = ts[i]?

theorem lines_table {ts : List Term} (hne : ts ≠ []) :
    Text.lines (table false ts) = heading :: Text.lines (rows false 0 ts) := by
  have hheading : '\n' ∉ heading := by decide
  rw [table, List.isEmpty_eq_false_iff.mpr hne, if_neg Bool.false_ne_true]
  exact Text.lines_append hheading _

theorem isListed_table_iff {ts : List Term} (hne : ts ≠ []) (hts : ∀ t ∈ ts, t.Legible) :
    IsListed (table false ts) ts ↔ ∀ t ∈ ts, '\n' ∉ t.display := by
  constructor
  · rintro ⟨ls, hls, hlength, -⟩
    rw [lines_table hne] at hls
    have hcount := length_lines_rows 0 ts
    rw [(List.cons.inj hls).2, hlength] at hcount
    intro t ht
    have hzero : (ts.flatMap display).count '\n' = 0 := by omega
    exact fun hmem => List.count_eq_zero.mp hzero (List.mem_flatMap.mpr ⟨t, ht, hmem⟩)
  · intro h
    refine ⟨_, lines_table hne, by simp [lines_rows h], ?_⟩
    intro i l hl
    rw [lines_rows h, List.getElem?_map, List.getElem?_zipIdx, Nat.zero_add] at hl
    obtain ⟨⟨t, j⟩, hj, rfl⟩ := Option.map_eq_some_iff.mp hl
    obtain ⟨t', ht, he⟩ := Option.map_eq_some_iff.mp hj
    cases he
    rw [ht]
    exact ⟨t.index_isPrefix_line i, (hts t (List.mem_of_getElem? ht)).ofLine?_line i⟩

private theorem count_flatMap_display (ts : List Term) :
    (ts.flatMap display).count '\n' =
      ((ts.filterMap asClause).flatMap fun c => c.field ++ c.operand.raw).count '\n' := by
  induction ts with
  | nil => rfl
  | cons t ts ih =>
    rw [List.flatMap_cons, List.count_append, ih]
    cases t with
    | clause c =>
      have hclause : (clause c :: ts).filterMap asClause = c :: ts.filterMap asClause := rfl
      rw [hclause, List.flatMap_cons, List.count_append, List.count_append, display,
        c.count_display (by decide)]
    | connective k => cases k <;> exact Nat.zero_add _
    | _ => exact Nat.zero_add _

/-- Only clauses hold control characters. -/
theorem forall_not_mem_display_iff (ts : List Term) (hd : d.toNat < 32) :
    (∀ t ∈ ts, d ∉ t.display) ↔ ∀ c, clause c ∈ ts → d ∉ c.display := by
  constructor
  · exact fun h c hc => h _ hc
  · intro h t ht
    rw [← List.count_eq_zero]
    cases t with
    | clause c => exact List.count_eq_zero.mpr (h c ht)
    | connective k => exact Text.count_control (by cases k <;> decide) hd
    | _ => exact Text.count_control (by decide) hd

end Term

namespace Command

private theorem plan_parse {sw : Switches} {settings : Settings} {file : SettingsFile} {s : Text}
    {f : Filter} (hload : file.load = .ok settings) (hread : Filter.read s = .ok f)
    (hjson : sw.json = false) (hquiet : sw.quiet = false) :
    (parse s).plan sw (some file) =
      .finish (.success (Term.table (Context.colors ⟨sw, settings⟩) f.terms)) := by
  rw [plan_of_expr hload rfl, planFilter, parseReport, readFilter_of_ok hread]
  simp only [rendered, hjson, hquiet]
  rfl

/-- Without colours the table of a filter that was read has one line more than the filter has terms
for its heading, and one for each line feed in a field or an operand. It is read line by line as the
terms just when there is no such line feed. -/
theorem isListed_parse_iff {sw : Switches} {settings : Settings} {file : SettingsFile} {s : Text}
    {f : Filter} (hload : file.load = .ok settings) (hread : Filter.read s = .ok f)
    (hjson : sw.json = false) (hquiet : sw.quiet = false)
    (hcolors : Context.colors ⟨sw, settings⟩ = false) :
    ∃ out, (parse s).plan sw (some file) = .finish (.success out) ∧
      (Text.lines out).length = f.terms.length + 1 +
        (f.clauses.flatMap fun c => c.field ++ c.operand.raw).count '\n' ∧
      (Term.IsListed out f.terms ↔ ∀ c ∈ f.clauses, '\n' ∉ c.field ∧ '\n' ∉ c.operand.raw) := by
  have hne : f.terms ≠ [] := by
    obtain ⟨p, rfl⟩ := Filter.exists_chain_of_read hread
    cases p <;> exact List.cons_ne_nil _ _
  have hlegible : ∀ t ∈ f.terms, t.Legible := by
    rintro t ht c rfl
    exact Filter.legible_of_mem_clauses hread (Term.mem_filterMap_asClause.mpr ht)
  have hnewline : '\n'.toNat < 32 := by decide
  refine ⟨Term.table false f.terms, ?_, ?_, ?_⟩
  · rw [plan_parse hload hread hjson hquiet, hcolors]
  · rw [Term.lines_table hne, List.length_cons, Term.length_lines_rows,
      Term.count_flatMap_display]
    exact Nat.add_right_comm _ _ 1
  · rw [Term.isListed_table_iff hne hlegible, Term.forall_not_mem_display_iff _ hnewline]
    simp only [Filter.clauses, Term.mem_filterMap_asClause, Clause.not_mem_display_iff _ hnewline]

/-- Blanks and parentheses within a literal, and a group around it, leave one line for each term. -/
theorem isListed_parse_group :
    let file : SettingsFile := ⟨"c.toml".toList, .ok none⟩
    let sw : Switches := ⟨false, false, false, true⟩
    let c : Clause := ⟨['a'], .eq, .text " (text) ".toList⟩
    let d : Clause := ⟨['b'], .ge, .number ['2']⟩
    let p : Chain Clause := .group c .and (.single d)
    file.load = .ok .empty ∧ Context.colors ⟨sw, .empty⟩ = false ∧
    ∃ f out, Filter.read "(a eq ' (text) ' and b ge 2)".toList = .ok f ∧ f.terms = p.terms ∧
      (parse "(a eq ' (text) ' and b ge 2)".toList).plan sw (some file) = .finish (.success out) ∧
      (Text.lines out).length = 6 ∧ Term.IsListed out f.terms := by
  intro file sw c d p
  have hload : file.load = .ok .empty := rfl
  have hread : Filter.read "(a eq ' (text) ' and b ge 2)".toList =
      .ok ⟨some "(a eq ' (text) ' and b ge 2)".toList, p.terms, []⟩ :=
    eq_ok_of_toOption (by decide +kernel)
  have hjson : sw.json = false := rfl
  obtain ⟨out, hplan, hlength, hlisted⟩ := isListed_parse_iff hload hread hjson rfl rfl
  exact ⟨hload, rfl, _, out, hread, rfl, hplan, hlength, hlisted.mpr (by decide)⟩

/-- A literal may hold a line feed, which the table does not mark. -/
theorem exists_table_not_isListed :
    ∃ f, Filter.read "a eq \"x\ny\"".toList = .ok f ∧ f.terms.length = 1 ∧
      (Text.lines (Term.table false f.terms)).length = 3 ∧
      ¬ Term.IsListed (Term.table false f.terms) f.terms := by
  have hread : Filter.read "a eq \"x\ny\"".toList =
      .ok ⟨some "a eq \"x\ny\"".toList, [.clause ⟨['a'], .eq, .text "x\ny".toList⟩], []⟩ :=
    eq_ok_of_toOption (by decide +kernel)
  have hlength : (Text.lines (Term.table false
      [.clause ⟨['a'], .eq, .text "x\ny".toList⟩])).length = 3 := by decide
  refine ⟨_, hread, rfl, hlength, ?_⟩
  rintro ⟨ls, hls, hone, -⟩
  rw [hls, List.length_cons, hone] at hlength
  cases hlength

end Command
end FilterLang
