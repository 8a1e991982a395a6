import FilterLang.Proofs.Truth
import FilterLang.Sql

/-!
What a condition says: parentheses bind first, then `AND`, then `OR`. Cut into its clauses,
connectives and parentheses, a text has one reading only, and the condition of a run has the value
that precedence gives to the run.
-/
namespace FilterLang

namespace Sql

inductive Rank where
  | factor
  | product
  | condition

/-- Whether a text is a condition, or a part of one, and has a truth value if the clauses in it, in
their order, have the given ones. -/
inductive Denotes (style : SqlStyle) : Rank → Text → List Valued → Bool → Prop where
  | clause (a : Valued) : Denotes style .factor (a.1.toSql style) [a] a.2
  | parens {s : Text} {as : List Valued} {b : Bool} (h : Denotes style .condition s as b) :
      Denotes style .factor ('(' :: s ++ [')']) as b
  | factor {s : Text} {as : List Valued} {b : Bool} (h : Denotes style .factor s as b) :
      Denotes style .product s as b
  | and {s t : Text} {as bs : List Valued} {a b : Bool} (h : Denotes style .product s as a)
      (h' : Denotes style .factor t bs b) :
      Denotes style .product (s ++ " AND ".toList ++ t) (as ++ bs) (a && b)
  | product {s : Text} {as : List Valued} {b : Bool} (h : Denotes style .product s as b) :
      Denotes style .condition s as b
  | or {s t : Text} {as bs : List Valued} {a b : Bool} (h : Denotes style .condition s as a)
      (h' : Denotes style .product t bs b) :
      Denotes style .condition (s ++ " OR ".toList ++ t) (as ++ bs) (a || b)

/-- The value of a condition as far as it has been read: that of the finished alternatives, and that
of the factors of the last one. -/
structure Partial where
  sum : Bool
  product : Bool

namespace Partial

def start : Partial := ⟨false, true⟩

def factor (p : Partial) (b : Bool) : Partial := ⟨p.sum, p.product && b⟩

def value (p : Partial) : Bool := p.sum || p.product

/-- An `OR` finishes an alternative, an `AND` goes on with it. -/
def connect (p : Partial) : Connective → Partial
  | .and => p
  | .or => ⟨p.value, true⟩

end Partial

inductive Sign where
  | clause (a : Valued)
  | connective (k : Connective)
  | openParen
  | closeParen

namespace Sign

def term : Sign → Term
  | clause a => .clause a.1
  | connective k => .connective k
  | openParen => .openParen
  | closeParen => .closeParen

def valued? : Sign → Option Valued
  | clause a => some a
  | _ => none

def text (style : SqlStyle) (signs : List Sign) : Text :=
  signs.flatMap fun x => x.term.toSql style

/-- Whether clauses and connectives alternate, parentheses aside. The flag says that a clause must
come next. -/
def alternates : Bool → List Sign → Bool
  | true, openParen :: xs => alternates true xs
  | true, clause _ :: xs => alternates false xs
  | false, closeParen :: xs => alternates false xs
  | false, connective _ :: xs => alternates true xs
  | false, [] => true
  | _, _ => false

/-- Reads signs one by one. The values around the open parentheses wait for the closing ones. -/
def run (p : Partial) (outer : List Partial) : List Sign → Bool
  | [] => p.value
  | clause a :: xs => run (p.factor a.2) outer xs
  | connective k :: xs => run (p.connect k) outer xs
  | openParen :: xs => run .start (p :: outer) xs
  | closeParen :: xs =>
    match outer with
    | around :: outer => run (around.factor p.value) outer xs
    | [] => p.value

end Sign

def Runs : Rank → List Sign → Bool → Prop
  | .factor, xs, b => ∀ p outer rest,
      Sign.run p outer (xs ++ rest) = Sign.run (p.factor b) outer rest
  | .product, xs, b => ∀ sum outer rest,
      Sign.run ⟨sum, true⟩ outer (xs ++ rest) = Sign.run ⟨sum, b⟩ outer rest
  | .condition, xs, b => ∃ p : Partial, p.value = b ∧ ∀ outer rest,
      Sign.run .start outer (xs ++ rest) = Sign.run p outer rest

/-- Every piece is written in alternating signs that are read to its value. -/
theorem Denotes.exists_signs {style : SqlStyle} {rank : Rank} {s : Text} {as : List Valued}
    {b : Bool} (h : Denotes style rank s as b) :
    ∃ xs : List Sign, Sign.text style xs = s ∧ xs.filterMap Sign.valued? = as ∧
      (∀ rest, Sign.alternates true (xs ++ rest) = Sign.alternates false rest) ∧
      Runs rank xs b := by
  induction h with
  | clause a =>
    exact ⟨[.clause a], by simp [Sign.text, Sign.term, Term.toSql], rfl, fun _ => rfl,
      fun _ _ _ => rfl⟩
  | parens h ih =>
    obtain ⟨xs, rfl, rfl, halt, p, rfl, hrun⟩ := ih
    refine ⟨.openParen :: xs ++ [.closeParen], ?_, ?_, ?_, ?_⟩
    · simp [Sign.text, Sign.term, Term.toSql]
    · simp [List.filterMap_cons, Sign.valued?]
    · intro rest
      simp [Sign.alternates, halt]
    · intro q outer rest
      simp [Sign.run, hrun]
  | factor h ih =>
    obtain ⟨xs, hs, has, halt, hrun⟩ := ih
    exact ⟨xs, hs, has, halt, fun sum outer rest => hrun ⟨sum, true⟩ outer rest⟩
  | and h h' ih ih' =>
    obtain ⟨xs, rfl, rfl, halt, hrun⟩ := ih
    obtain ⟨ys, rfl, rfl, halt', hrun'⟩ := ih'
    refine ⟨xs ++ .connective .and :: ys, ?_, ?_, ?_, ?_⟩
    · simp [Sign.text, Sign.term, Term.toSql]
    · simp [List.filterMap_cons, Sign.valued?]
    · intro rest
      simp [Sign.alternates, halt, halt']
    · intro sum outer rest
      rw [List.append_assoc, hrun, List.cons_append, Sign.run, hrun']
      rfl
  | product h ih =>
    obtain ⟨xs, hs, has, halt, hrun⟩ := ih
    exact ⟨xs, hs, has, halt, ⟨false, _⟩, rfl, fun outer rest => hrun false outer rest⟩
  | or h h' ih ih' =>
    obtain ⟨xs, rfl, rfl, halt, p, rfl, hrun⟩ := ih
    obtain ⟨ys, rfl, rfl, halt', hrun'⟩ := ih'
    refine ⟨xs ++ .connective .or :: ys, ?_, ?_, ?_, ⟨p.value, _⟩, rfl, ?_⟩
    · simp [Sign.text, Sign.term, Term.toSql]
    · simp [List.filterMap_cons, Sign.valued?]
    · intro rest
      simp [Sign.alternates, halt, halt']
    · intro outer rest
      rw [List.append_assoc, hrun, List.cons_append, Sign.run]
      exact hrun' p.value outer rest

def opening (s : Text) : Nat := (s.takeWhile (· = '(')).length

private theorem opening_toSql_append (style : SqlStyle) (c : Clause) (s : Text) :
    opening (c.toSql style ++ s) = opening (c.toSql style) := by
  have hb : ' ' ∈ c.toSql style := by simp [Clause.toSql]
  have hne : ((c.toSql style).takeWhile (· = '(')).length ≠ (c.toSql style).length := by
    intro hl
    have he := (List.takeWhile_prefix (· = '(')).eq_of_length hl
    have hp := List.mem_takeWhile_imp (he.symm ▸ hb)
    exact absurd hp (by decide)
  rw [opening, List.takeWhile_append, if_neg hne, opening]

private theorem opening_le_of_alternates (style : SqlStyle) {xs : List Sign} {a : Valued}
    {as : List Valued} (h : Sign.alternates true xs = true)
    (ha : xs.filterMap Sign.valued? = a :: as) :
    opening (a.1.toSql style) ≤ opening (Sign.text style xs) := by
  induction xs with
  | nil => cases h
  | cons x xs ih =>
    cases x with
    | clause c =>
      obtain ⟨rfl, -⟩ := List.cons.inj ha
      exact (opening_toSql_append style c.1 _).ge
    | openParen =>
      have := ih h ha
      simp only [opening, Sign.text, List.flatMap_cons, Sign.term, Term.toSql, List.cons_append,
        List.nil_append, List.takeWhile_cons, decide_true, if_true, List.length_cons] at this ⊢
      omega
    | connective k => cases h
    | closeParen => cases h

private theorem text_openParen_ne_text_clause {style : SqlStyle} {xs ys : List Sign} {a : Valued}
    (h : Sign.alternates true xs = true)
    (ha : xs.filterMap Sign.valued? = a :: ys.filterMap Sign.valued?) :
    Sign.text style (.openParen :: xs) ≠ Sign.text style (.clause a :: ys) := by
  intro ht
  have hle := opening_le_of_alternates style h ha
  have hx : opening (Sign.text style (.openParen :: xs)) = opening (Sign.text style xs) + 1 := rfl
  have hy : opening (Sign.text style (.clause a :: ys)) = opening (a.1.toSql style) :=
    opening_toSql_append style a.1 _
  rw [ht, hy] at hx
  omega

private theorem eq_nil_of_text_eq_nil {style : SqlStyle} {xs : List Sign}
    (h : Sign.text style xs = []) : xs = [] := by
  cases xs with
  | nil => rfl
  | cons x xs =>
    have hx := (List.append_eq_nil_iff.mp h).1
    cases x with
    | clause a => simp [Sign.term, Term.toSql, Clause.toSql] at hx
    | connective k => cases k <;> cases hx
    | openParen => cases hx
    | closeParen => cases hx

private theorem connective_eq_of_text_eq {style : SqlStyle} {xs ys : List Sign} {j k : Connective}
    (h : Sign.text style (.connective j :: xs) = Sign.text style (.connective k :: ys)) :
    j = k ∧ Sign.text style xs = Sign.text style ys := by
  cases j <;> cases k <;>
    simp_all [Sign.text, Sign.term, Term.toSql]

/-- A text and the clauses in it determine the signs it is written in. -/
theorem eq_of_text_eq {style : SqlStyle} {xs ys : List Sign} {operand : Bool}
    (hx : Sign.alternates operand xs = true) (hy : Sign.alternates operand ys = true)
    (ht : Sign.text style xs = Sign.text style ys)
    (ha : xs.filterMap Sign.valued? = ys.filterMap Sign.valued?) : xs = ys := by
  induction xs generalizing ys operand with
  | nil => exact (eq_nil_of_text_eq_nil ht.symm).symm
  | cons x xs ih =>
    cases ys with
    | nil => exact eq_nil_of_text_eq_nil ht
    | cons y ys =>
      cases operand with
      | true =>
        cases x with
        | clause a =>
          cases y with
          | clause b =>
            obtain ⟨rfl, hrest⟩ := List.cons.inj ha
            rw [ih hx hy (List.append_cancel_left ht) hrest]
          | openParen => exact absurd ht.symm (text_openParen_ne_text_clause hy ha.symm)
          | connective k => cases hy
          | closeParen => cases hy
        | openParen =>
          cases y with
          | clause b => exact absurd ht (text_openParen_ne_text_clause hx ha)
          | openParen =>
            have hys : Sign.alternates true ys = true := hy
            rw [ih hx hys (List.cons.inj ht).2 ha]
          | connective k => cases hy
          | closeParen => cases hy
        | connective k => cases hx
        | closeParen => cases hx
      | false =>
        cases x with
        | clause a => cases hx
        | openParen => cases hx
        | connective j =>
          cases y with
          | clause b => cases hy
          | openParen => cases hy
          | connective k =>
            obtain ⟨rfl, hrest⟩ := connective_eq_of_text_eq ht
            rw [ih hx hy hrest ha]
          | closeParen => cases j <;> cases ht
        | closeParen =>
          cases y with
          | clause b => cases hy
          | openParen => cases hy
          | connective k => cases k <;> cases ht
          | closeParen =>
            have hys : Sign.alternates false ys = true := hy
            rw [ih hx hys (List.cons.inj ht).2 ha]

/-- A condition has one value only. -/
theorem Denotes.unique {style : SqlStyle} {s : Text} {as : List Valued} {a b : Bool}
    (h : Denotes style .condition s as a) (h' : Denotes style .condition s as b) : a = b := by
  obtain ⟨xs, hs, has, halt, p, rfl, hrun⟩ := h.exists_signs
  obtain ⟨ys, hs', has', halt', q, rfl, hrun'⟩ := h'.exists_signs
  have hx := halt []
  have hy := halt' []
  rw [List.append_nil] at hx hy
  obtain rfl := eq_of_text_eq hx hy (hs.trans hs'.symm) (has.trans has'.symm)
  exact (hrun [] []).symm.trans (hrun' [] [])

/-- A text that reads as a condition so far, in which the last alternative is still open. -/
inductive Begins (style : SqlStyle) : Text → List Valued → Partial → Prop where
  | first {s : Text} {as : List Valued} {b : Bool} (h : Denotes style .product s as b) :
      Begins style s as ⟨false, b⟩
  | later {s t : Text} {as bs : List Valued} {a b : Bool} (h : Denotes style .condition s as a)
      (h' : Denotes style .product t bs b) :
      Begins style (s ++ " OR ".toList ++ t) (as ++ bs) ⟨a, b⟩

private theorem Begins.condition {style : SqlStyle} {s : Text} {as : List Valued} {p : Partial}
    (h : Begins style s as p) : Denotes style .condition s as p.value := by
  cases h with
  | first h => exact .product h
  | later h h' => exact .or h h'

private theorem Begins.extend {style : SqlStyle} {s t : Text} {as bs : List Valued} {p : Partial}
    {b : Bool} (h : Begins style s as p) (k : Connective) (h' : Denotes style .factor t bs b) :
    Begins style (s ++ Term.toSql style (.connective k) ++ t) (as ++ bs)
      ((p.connect k).factor b) := by
  cases k with
  | or =>
    have hl := Begins.later h.condition (.factor h')
    simpa [Partial.connect, Partial.factor, Term.toSql] using hl
  | and =>
    cases h with
    | first h => exact .first (.and h h')
    | later h₀ h =>
      have hl := Begins.later h₀ (.and h h')
      simpa [Partial.connect, Partial.factor, Term.toSql] using hl

end Sql

namespace Chain
variable {α : Type}

/-- The value that precedence gives to a run behind what has been read. -/
def sqlTruth (p : Sql.Partial) : Chain (α × Bool) → Bool
  | single a => (p.factor a.2).value
  | link a k r => r.sqlTruth ((p.factor a.2).connect k)
  | group a k r => (p.factor (r.sqlTruth ((Sql.Partial.start.factor a.2).connect k))).value

theorem denotes_toSql (style : SqlStyle) (q : Chain Valued) {p : Sql.Partial} (before : Text)
    (as : List Valued)
    (h : ∀ {t bs b}, Sql.Denotes style .factor t bs b →
      Sql.Begins style (before ++ t) (as ++ bs) (p.factor b)) :
    Sql.Denotes style .condition
      (before ++ (q.map Prod.fst).terms.flatMap (Term.toSql style)) (as ++ q.atoms)
      (q.sqlTruth p) := by
  induction q generalizing p before as with
  | single a => simpa [map, terms, atoms, sqlTruth, Term.toSql] using (h (.clause a)).condition
  | link a k r ih =>
    have hr := ih (before ++ a.1.toSql style ++ Term.toSql style (.connective k)) (as ++ [a])
      fun hf => (h (.clause a)).extend k hf
    simpa [map, terms, atoms, sqlTruth, Term.toSql] using hr
  | group a k r ih =>
    have hr : Sql.Denotes style .condition _ _
        (r.sqlTruth ((Sql.Partial.start.factor a.2).connect k)) :=
      ih (a.1.toSql style ++ Term.toSql style (.connective k)) [a]
        fun hf => (Sql.Begins.first (.factor (.clause a))).extend k hf
    have hg := (h (.parens hr)).condition
    simpa [map, terms, atoms, sqlTruth, Term.toSql] using hg

end Chain

/-- The condition of a run has exactly one value, the one that precedence gives. -/
theorem Sql.denotes_iff (style : SqlStyle) (q : Chain Valued) (b : Bool) :
    Denotes style .condition ((q.map Prod.fst).terms.flatMap (Term.toSql style)) q.atoms b ↔
      b = q.sqlTruth .start := by
  have hq : Denotes style .condition ((q.map Prod.fst).terms.flatMap (Term.toSql style)) q.atoms
      (q.sqlTruth .start) := q.denotes_toSql style [] [] fun hf => .first (.factor hf)
  constructor
  · intro h
    exact h.unique hq
  · rintro rfl
    exact hq

end FilterLang
