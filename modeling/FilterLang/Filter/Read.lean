import FilterLang.Filter.Basic

/-!
Reading a filter. One pair of parentheses around the whole text is taken off, the text is split at
its leftmost connective, and both halves are read in the same way. A pair around a single clause
leaves no mark.
-/
namespace FilterLang

namespace Text

/-- Where a scan for a closing parenthesis stands: between literals, at the start of a token or not,
or inside a literal opened by a quote, right behind a backslash or not. -/
inductive Scan where
  | plain (tokenStart : Bool)
  | quoted (quote : Char) (escaped : Bool)
  deriving DecidableEq, Repr

/-- The scan behind one more character. A quote opens a literal only at the start of a token. -/
def Scan.next (c : Char) : Scan → Scan
  | plain tokenStart => if tokenStart && isQuote c then quoted c false else plain (isBlank c)
  | quoted q true => quoted q false
  | quoted q false =>
    if c = '\\' then quoted q true else if c = q then plain false else quoted q false

def Scan.isPlain : Scan → Bool
  | plain _ => true
  | quoted _ _ => false

/-- The text up to the parenthesis that closes an outer one, if it is the last character. `depth`
counts the parentheses opened since the outer one. -/
def upToClosing (scan : Scan) (depth : Nat) : Text → Option Text
  | [] => none
  | c :: s =>
    if scan.isPlain && c = ')' then
      match depth with
      | 0 => if s.isEmpty then some [] else none
      | d + 1 => (upToClosing (scan.next c) d s).map (c :: ·)
    else
      let depth := if scan.isPlain && c = '(' then depth + 1 else depth
      (upToClosing (scan.next c) depth s).map (c :: ·)

theorem eq_of_upToClosing {scan : Scan} {depth : Nat} {s r : Text}
    (h : upToClosing scan depth s = some r) : s = r ++ [')'] := by
  induction s generalizing scan depth r with
  | nil => simp [upToClosing] at h
  | cons c s ih =>
    unfold upToClosing at h
    split at h
    · next hc =>
      split at h
      · split at h
        · cases Option.some.inj h
          simp_all
        · cases h
      · obtain ⟨t, ht, rfl⟩ := Option.map_eq_some_iff.mp h
        simp [ih ht]
    · obtain ⟨t, ht, rfl⟩ := Option.map_eq_some_iff.mp h
      simp [ih ht]

/-- The inside of a text whose first parenthesis is closed by its last one. -/
def insideParens? : Text → Option Text
  | '(' :: s => upToClosing (.plain false) 0 s
  | _ => none

theorem eq_of_insideParens? {s r : Text} (h : insideParens? s = some r) :
    s = '(' :: r ++ [')'] := by
  unfold insideParens? at h
  split at h
  · rw [eq_of_upToClosing h]; rfl
  · cases h

end Text

structure Split where
  left : Text
  connective : Connective
  right : Text
  deriving DecidableEq, Repr

namespace Split

/-- The connective at the start of a text, a word between single spaces, and the text after it. -/
def here? : Text → Option (Connective × Text)
  | ' ' :: 'a' :: 'n' :: 'd' :: ' ' :: s => some (.and, s)
  | ' ' :: 'o' :: 'r' :: ' ' :: s => some (.or, s)
  | _ => none

def find? : Text → Option Split
  | [] => none
  | c :: s =>
    match here? (c :: s) with
    | some (k, r) => some ⟨[], k, r⟩
    | none => (find? s).map fun p => { p with left := c :: p.left }

theorem length_lt_of_here? {s r : Text} {k : Connective} (h : here? s = some (k, r)) :
    r.length < s.length := by
  unfold here? at h
  split at h
  · obtain ⟨_, rfl⟩ := Prod.mk.inj (Option.some.inj h); simp; omega
  · obtain ⟨_, rfl⟩ := Prod.mk.inj (Option.some.inj h); simp; omega
  · cases h

theorem length_lt_of_find? {s : Text} {p : Split} (h : find? s = some p) :
    p.left.length < s.length ∧ p.right.length < s.length := by
  induction s generalizing p with
  | nil => simp [find?] at h
  | cons c s ih =>
    rw [find?] at h
    split at h
    · next hr =>
      cases Option.some.inj h
      have := length_lt_of_here? hr
      simp_all
    · obtain ⟨q, hq, rfl⟩ := Option.map_eq_some_iff.mp h
      have := ih hq
      simp only [List.length_cons]
      omega

end Split

namespace Filter

/-- The body of filter text, and whether parentheses around it were taken off. -/
def body (text : Text) : Text × Bool :=
  let t := Text.trim text
  match Text.insideParens? t with
  | some inside => (Text.trim inside, true)
  | none => (t, false)

theorem length_body_le (text : Text) : (body text).1.length ≤ text.length := by
  have ht := Text.length_trim_le text
  unfold body
  dsimp only
  split
  · next inside h =>
    have hi := Text.length_trim_le inside
    have := congrArg List.length (Text.eq_of_insideParens? h)
    simp only [List.length_append, List.length_cons, List.length_nil] at this
    dsimp only
    omega
  · exact ht

def grouped (parens : Bool) (ts : List Term) : List Term :=
  if parens then .openParen :: ts ++ [.closeParen] else ts

def readTerms (text : Text) : Except FilterError (List Term) :=
  if (body text).1.isEmpty then .error .emptyExpression
  else
    match _h : Split.find? (body text).1 with
    | none => (Clause.read (body text).1).map fun c => [.clause c]
    | some p => do
      let left ← readTerms p.left
      let right ← readTerms p.right
      return grouped (body text).2 (left ++ .connective p.connective :: right)
termination_by text.length
decreasing_by
  all_goals
    have := Split.length_lt_of_find? _h
    have := length_body_le text
    omega

def read (text : Text) : Except FilterError Filter :=
  (readTerms text).map fun ts => ⟨some text, ts, []⟩

def addText (f : Filter) (text : Text) : Except FilterError Filter :=
  (readTerms text).map f.extend

end Filter
end FilterLang
