import FilterLang.Proofs.Chain
import FilterLang.Proofs.ConnectiveScan

/-!
Where reading fails. A text is split into pieces that are read from the left to the right, and the
first that cannot be read decides what is reported: its body stands in the text as it is reported,
fails in the same way by itself, and is the leftmost to fail.
-/
namespace FilterLang

namespace FilterError

def clause? : FilterError → Option Text
  | missingOperator s _ | emptyField s | missingValue s => some s
  | unterminatedQuote s | unexpectedText s _ => some s
  | emptyExpression | mixedConnectives => none

def surplus? : FilterError → Option Text
  | unexpectedText _ t => some t
  | _ => none

end FilterError

namespace Lexeme
open Text

/-- The text is its lexemes with the gaps before them, and perhaps some more at its end. -/
theorem exists_eq_flatMap_all (s : Text) :
    ∃ rest, s = (all s).flatMap (fun x => x.gap ++ x.raw) ++ rest := by
  fun_induction all s with
  | case1 s hs => exact ⟨s, rfl⟩
  | case2 s x rest hs ih =>
    obtain ⟨blanks, hrest⟩ := ih
    refine ⟨blanks, ?_⟩
    calc s = x.gap ++ x.raw ++ rest := (next?_eq_some hs).1.symm
      _ = x.gap ++ x.raw ++ ((all rest).flatMap (fun y => y.gap ++ y.raw) ++ blanks) :=
        congrArg _ hrest
      _ = _ := by simp

private theorem raw_ne_nil_of_mem_all {s : Text} {x : Lexeme} (h : x ∈ all s) : x.raw ≠ [] := by
  fun_induction all s with
  | case1 s hs => cases h
  | case2 s y rest hs ih =>
    rcases List.mem_cons.mp h with rfl | h
    · exact (next?_eq_some hs).2
    · exact ih h

private theorem join_isInfix {s : Text} {before xs behind : List Lexeme} {x : Lexeme}
    (h : all s = before ++ (x :: xs) ++ behind) : join (x :: xs) <:+: s := by
  obtain ⟨rest, hs⟩ := exists_eq_flatMap_all s
  rw [h] at hs
  refine ⟨before.flatMap (fun y => y.gap ++ y.raw) ++ x.gap,
    behind.flatMap (fun y => y.gap ++ y.raw) ++ rest, ?_⟩
  rw [hs]
  simp [join]

private theorem join_ne_nil {s : Text} {before xs behind : List Lexeme} {x : Lexeme}
    (h : all s = before ++ (x :: xs) ++ behind) : join (x :: xs) ≠ [] := by
  have hx : x ∈ all s := by simp [h]
  exact List.append_ne_nil_of_left_ne_nil (raw_ne_nil_of_mem_all hx) _

end Lexeme

namespace Clause
open Text

theorem eq_of_ofToken_error {clause : Text} {t : Token} {e : FilterError}
    (h : Operand.ofToken clause t = .error e) : e = .unterminatedQuote clause := by
  cases t with
  | word w => cases h
  | quoted content closed =>
    cases closed with
    | true => cases h
    | false => exact (Except.error.inj h).symm

private theorem of_ofDivision_error {text : Text} {d : Division} {e : FilterError}
    (h : ofDivision text d = .error e) :
    e.clause? = some text ∧ ∀ t, e.surplus? = some t →
      ∃ w x xs, t = Lexeme.join (x :: xs) ∧ (d.left = w :: x :: xs ∨ d.right = w :: x :: xs) := by
  obtain ⟨left, op, right⟩ := d
  unfold ofDivision at h
  dsimp only at h
  split at h
  · obtain rfl := Except.error.inj h
    exact ⟨rfl, nofun⟩
  · obtain rfl := Except.error.inj h
    exact ⟨rfl, nofun⟩
  · next w x xs _ =>
    obtain rfl := Except.error.inj h
    refine ⟨rfl, fun t ht => ⟨w, x, xs, (Option.some.inj ht).symm, .inl rfl⟩⟩
  · next w x xs _ _ =>
    obtain rfl := Except.error.inj h
    refine ⟨rfl, fun t ht => ⟨w, x, xs, (Option.some.inj ht).symm, .inr rfl⟩⟩
  · next f v =>
    cases ho : Operand.ofToken text v.token with
    | ok o => rw [ho] at h; cases h
    | error e' =>
      rw [ho] at h
      obtain rfl := Except.error.inj h
      rw [eq_of_ofToken_error ho]
      exact ⟨rfl, nofun⟩

/-- A clause is refused with its text, and what it has too much stands in that text. -/
theorem of_read_error {s : Text} {e : FilterError} (h : read s = .error e) :
    e.clause? = some (trim s) ∧ ∀ t, e.surplus? = some t → t ≠ [] ∧ t <:+: trim s := by
  unfold read readTrimmed at h
  dsimp only at h
  cases hd : Division.find? (Lexeme.all (trim s)) with
  | none =>
    rw [hd] at h
    obtain rfl := Except.error.inj h
    exact ⟨rfl, nofun⟩
  | some d =>
    rw [hd] at h
    obtain ⟨hclause, hsurplus⟩ := of_ofDivision_error h
    refine ⟨hclause, fun t ht => ?_⟩
    obtain ⟨w, x, xs, rfl, hside⟩ := hsurplus t ht
    obtain ⟨y, hall, -, -⟩ := Division.exists_of_find? hd
    obtain ⟨before, behind, hrun⟩ :
        ∃ before behind, Lexeme.all (trim s) = before ++ (x :: xs) ++ behind := by
      rcases hside with hl | hr
      · exact ⟨[w], y :: d.right, by simp [hall, hl]⟩
      · exact ⟨d.left ++ [y, w], [], by simp [hall, hr]⟩
    exact ⟨Lexeme.join_ne_nil hrun, Lexeme.join_isInfix hrun⟩

end Clause

namespace Filter

private theorem trim_body (text : Text) : Text.trim (body text).1 = (body text).1 := by
  unfold body
  dsimp only
  split
  · exact Text.trim_trim _
  · exact Text.trim_trim text

/-- The texts that are left when a text is split as far as it goes, from the left to the right. -/
def pieces (text : Text) : List Text :=
  match _h : Split.find? (body text).1 with
  | none => [text]
  | some p => pieces p.left ++ pieces p.right
termination_by text.length
decreasing_by
  all_goals
    have := Split.length_lt_of_find? _h
    have := length_body_le text
    omega

private theorem pieces_of_find?_none {text : Text} (h : Split.find? (body text).1 = none) :
    pieces text = [text] := by
  rw [pieces]
  split
  · rfl
  · next p hp => rw [h] at hp; cases hp

private theorem pieces_of_find?_some {text : Text} {p : Split}
    (h : Split.find? (body text).1 = some p) : pieces text = pieces p.left ++ pieces p.right := by
  rw [pieces]
  split
  · next hn => rw [h] at hn; cases hn
  · next q hq =>
    rw [h] at hq
    cases hq
    rfl

private theorem find?_of_mem_pieces {text s : Text} (h : s ∈ pieces text) :
    Split.find? (body s).1 = none := by
  fun_induction pieces text with
  | case1 text hn =>
    obtain rfl := List.mem_singleton.mp h
    exact hn
  | case2 text p hp ihl ihr => exact (List.mem_append.mp h).elim ihl ihr

private theorem pieces_eq_cons {text : Text} {p : Split} (h : Split.find? (body text).1 = some p) :
    pieces text = p.left :: pieces p.right := by
  -- The part left of a split is not split any further.
  have hleft : Split.find? (body p.left).1 = none :=
    Split.find?_eq_none_of_isInfix (body_isInfix p.left) (Split.find?_left h)
  rw [pieces_of_find?_some h, pieces_of_find?_none hleft]
  rfl

private theorem exists_before_of_pieces {text s : Text} {lefts rights : List Text}
    (h : pieces text = lefts ++ s :: rights) :
    ∃ before behind, text = before ++ (s ++ behind) ∧ ∀ l ∈ lefts, l <:+: before := by
  fun_induction pieces text generalizing lefts with
  | case1 text hn =>
    rcases List.singleton_eq_append_iff.mp h with ⟨rfl, hs⟩ | ⟨-, hs⟩
    · obtain ⟨rfl, -⟩ := List.cons.inj hs
      exact ⟨[], [], by simp, nofun⟩
    · cases hs
  | case2 text p hp _ ihr =>
    -- parentheses taken off the text stand before its left part and behind its right one
    rw [← pieces_of_find?_some hp, pieces_eq_cons hp] at h
    obtain ⟨front, rear, htext⟩ := body_isInfix text
    rw [Split.eq_of_find? hp] at htext
    rcases List.cons_eq_append_iff.mp h with ⟨rfl, hs⟩ | ⟨lefts, rfl, hright⟩
    · obtain ⟨rfl, -⟩ := List.cons.inj hs
      refine ⟨front, (' ' :: p.connective.keyword ++ ' ' :: p.right) ++ rear, ?_, nofun⟩
      rw [← htext]
      simp
    · obtain ⟨before, behind, hbefore, hlefts⟩ := ihr hright
      refine ⟨front ++ (p.left ++ (' ' :: p.connective.keyword ++ ' ' :: before)), behind ++ rear,
        by simp [← htext, hbefore], ?_⟩
      rintro l hl
      rcases List.mem_cons.mp hl with rfl | hl
      · exact ⟨front, _, by rw [List.append_assoc]⟩
      · exact (hlefts l hl).trans ⟨front ++ (p.left ++ (' ' :: p.connective.keyword ++ [' '])), [],
          by simp⟩

private theorem readTerms_eq_error_iff_of_find? {text : Text} {p : Split} {e : FilterError}
    (hp : Split.find? (body text).1 = some p) :
    readTerms text = .error e ↔ readTerms p.left = .error e ∨
      (∃ c, readTerms p.left = .ok [.clause c]) ∧ readTerms p.right = .error e := by
  rw [readTerms_of_find?_some hp]
  cases hl : readTerms p.left with
  | error e' =>
    change Except.error e' = _ ↔ _
    simp
  | ok ts =>
    obtain ⟨c, rfl⟩ := (derives_of_readTerms hl).exists_clause hp
    cases hr : readTerms p.right with
    | error e' =>
      change Except.error e' = _ ↔ _
      simp
    | ok us =>
      change Except.ok _ = _ ↔ _
      simp

/-- Reading fails just as it does on the first of the pieces that cannot be read. -/
theorem readTerms_eq_error_iff {text : Text} {e : FilterError} :
    readTerms text = .error e ↔ ∃ lefts s rights, pieces text = lefts ++ s :: rights ∧
      (∀ l ∈ lefts, ∃ c, readTerms l = .ok [.clause c]) ∧ readTerms s = .error e := by
  fun_induction pieces text with
  | case1 text hn =>
    constructor
    · intro h
      exact ⟨[], text, [], rfl, nofun, h⟩
    · rintro ⟨lefts, s, rights, hpieces, -, h⟩
      rcases List.singleton_eq_append_iff.mp hpieces with ⟨-, hs⟩ | ⟨-, hs⟩
      · obtain ⟨rfl, -⟩ := List.cons.inj hs
        exact h
      · cases hs
  | case2 text p hp _ ihr =>
    -- the part on the left is one piece: the fault is there, or on the right behind a clause
    rw [readTerms_eq_error_iff_of_find? hp, ihr, ← pieces_of_find?_some hp, pieces_eq_cons hp]
    constructor
    · rintro (h | ⟨hl, lefts, s, rights, hpieces, hlefts, h⟩)
      · exact ⟨[], p.left, _, rfl, nofun, h⟩
      · have hleft : ∀ l ∈ p.left :: lefts, ∃ c, readTerms l = .ok [.clause c] :=
          List.forall_mem_cons.mpr ⟨hl, hlefts⟩
        exact ⟨p.left :: lefts, s, rights, congrArg _ hpieces, hleft, h⟩
    · rintro ⟨lefts, s, rights, hpieces, hlefts, h⟩
      rcases List.cons_eq_append_iff.mp hpieces with ⟨rfl, hs⟩ | ⟨lefts, rfl, hright⟩
      · obtain ⟨rfl, -⟩ := List.cons.inj hs
        exact .inl h
      · obtain ⟨hl, hlefts⟩ := List.forall_mem_cons.mp hlefts
        exact .inr ⟨hl, lefts, s, rights, hright, hlefts, h⟩

private theorem read_body_of_piece {s : Text} {e : FilterError} (hn : Split.find? (body s).1 = none)
    (he : e ≠ .emptyExpression) (h : readTerms s = .error e) :
    Clause.read (body s).1 = .error e := by
  have hne : (body s).1 ≠ [] := by
    intro hnil
    rw [readTerms, if_pos (by simp [hnil])] at h
    exact he (Except.error.inj h).symm
  rw [readTerms_of_find?_none hn hne] at h
  cases hc : Clause.read (body s).1 with
  | error e' =>
    rw [hc] at h
    rw [Except.error.inj h]
  | ok c => rw [hc] at h; cases h

private theorem readTerms_of_read_error {text : Text} {e : FilterError} (h : read text = .error e) :
    readTerms text = .error e := by
  unfold read at h
  cases hr : readTerms text with
  | error e' =>
    rw [hr] at h
    rw [Except.error.inj h]
  | ok ts => rw [hr] at h; cases h

/-- If filter text with something in it is refused, the clause at fault stands in it as it is
reported, without blanks at its ends or a connective inside. By itself it is refused in the same
way, and what it has too much is a part of it. It comes from a piece of the text that is split no
further, and each of the pieces left of that one is read as a clause. -/
theorem read_error_located {text : Text} {e : FilterError} (h : read text = .error e)
    (he : e ≠ .emptyExpression) :
    ∃ before clause behind : Text, text = before ++ (clause ++ behind) ∧
      e.clause? = some clause ∧ Text.trim clause = clause ∧
      Text.contains " and ".toList clause = false ∧ Text.contains " or ".toList clause = false ∧
      Clause.read clause = .error e ∧
      (∀ surplus, e.surplus? = some surplus → surplus ≠ [] ∧ surplus <:+: clause) ∧
      ∃ lefts s rights, pieces text = lefts ++ s :: rights ∧ (body s).1 = clause ∧
        ∀ l ∈ lefts, l <:+: before ∧ ∃ c, read l = .ok ⟨some l, [.clause c], []⟩ := by
  obtain ⟨lefts, s, rights, hpieces, hlefts, hs⟩ :=
    readTerms_eq_error_iff.mp (readTerms_of_read_error h)
  obtain ⟨before, behind, htext, hbefore⟩ := exists_before_of_pieces hpieces
  obtain ⟨front, rear, hpiece⟩ := body_isInfix s
  have hmem : s ∈ pieces text := hpieces ▸ List.mem_append_right lefts List.mem_cons_self
  have hnone := find?_of_mem_pieces hmem
  have hread := read_body_of_piece hnone he hs
  have hfault := Clause.of_read_error hread
  rw [trim_body] at hfault
  have hconnective := Split.find?_eq_none_iff_contains.mp hnone
  refine ⟨before ++ front, (body s).1, rear ++ behind, ?_, hfault.1, trim_body s, hconnective .and,
    hconnective .or, hread, hfault.2, lefts, s, rights, hpieces, rfl, fun l hl => ⟨?_, ?_⟩⟩
  · calc text = before ++ (s ++ behind) := htext
      _ = before ++ (front ++ (body s).1 ++ rear ++ behind) := by rw [hpiece]
      _ = before ++ front ++ ((body s).1 ++ (rear ++ behind)) := by simp only [List.append_assoc]
  · exact (hbefore l hl).trans (List.prefix_append before front).isInfix
  · obtain ⟨c, hc⟩ := hlefts l hl
    exact ⟨c, by rw [read, hc]; rfl⟩

/-- The last clause has two operands. The clauses left of it are not at fault. -/
theorem read_error_in_group :
    let text := "a eq '1' or (b eq '2' and c eq '3' '4')".toList
    let e : FilterError := .unexpectedText "c eq '3' '4'".toList "'4'".toList
    read text = .error e ∧ Clause.read "c eq '3' '4'".toList = .error e ∧
      ∃ lefts s rights, pieces text = lefts ++ s :: rights ∧ (body s).1 = "c eq '3' '4'".toList ∧
        ∀ l ∈ lefts, ∃ c, read l = .ok ⟨some l, [.clause c], []⟩ := by
  intro text e
  have hread : read text = .error e := by decide +kernel
  obtain ⟨_, clause, _, -, hclause, -, -, -, hfault, -, lefts, s, rights, hpieces, hbody, hlefts⟩ :=
    read_error_located hread (by decide)
  obtain rfl : "c eq '3' '4'".toList = clause := Option.some.inj hclause
  exact ⟨hread, hfault, lefts, s, rights, hpieces, hbody, fun l hl => (hlefts l hl).2⟩

end Filter
end FilterLang
