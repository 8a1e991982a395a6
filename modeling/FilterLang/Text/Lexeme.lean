import FilterLang.Text.Basic

/-!
The tokens of clause text. A word runs up to the next blank; a quoted literal runs up to its closing
quote, and the next token may follow it without a blank. Each lexeme keeps the blanks before it and
its own characters, so that any piece of the text can be put together again.
-/
namespace FilterLang

/-- A token and what it means: a word stands for itself, a quoted literal for its content without
quotes and escapes. An unclosed literal ends with the text. -/
inductive Token where
  | word (spelling : Text)
  | quoted (content : Text) (closed : Bool)
  deriving DecidableEq, Repr

structure Lexeme where
  gap : Text
  raw : Text
  token : Token
  deriving DecidableEq, Repr

namespace Text

def isQuote (c : Char) : Bool := c = '"' || c = '\''

/-- What an opening quote starts: the characters after it that belong to the literal, its content,
whether the closing quote was met, and the text behind it. -/
structure Literal where
  raw : Text
  content : Text
  closed : Bool
  rest : Text
  deriving DecidableEq, Repr

/-- Reads a literal opened by `q`. A backslash makes the next character literal; at the end of the
text it stands for nothing. -/
def readLiteral (q : Char) : Text → Literal
  | [] => ⟨[], [], false, []⟩
  | c :: s =>
    if c = q then ⟨[c], [], true, s⟩
    else if c = '\\' then
      match s with
      | [] => ⟨[c], [], false, []⟩
      | e :: s =>
        let t := readLiteral q s
        ⟨c :: e :: t.raw, e :: t.content, t.closed, t.rest⟩
    else
      let t := readLiteral q s
      ⟨c :: t.raw, c :: t.content, t.closed, t.rest⟩

theorem raw_append_rest (q : Char) (s : Text) :
    (readLiteral q s).raw ++ (readLiteral q s).rest = s := by
  fun_induction readLiteral q s <;> simp_all +zetaDelta

/-- A text as a literal in double quotes, with a backslash before each quote and backslash. -/
def quote (s : Text) : Text :=
  '"' :: s.flatMap (fun c => if c = '"' ∨ c = '\\' then ['\\', c] else [c]) ++ ['"']

end Text

namespace Lexeme
open Text

def next? (s : Text) : Option (Lexeme × Text) :=
  let gap := s.takeWhile isBlank
  match s.dropWhile isBlank with
  | [] => none
  | c :: r =>
    if isQuote c then
      let t := readLiteral c r
      some (⟨gap, c :: t.raw, .quoted t.content t.closed⟩, t.rest)
    else
      let w := c :: r.takeWhile (!isBlank ·)
      some (⟨gap, w, .word w⟩, r.dropWhile (!isBlank ·))

/-- The lexeme and what follows it make up the text, and the lexeme is not empty. -/
theorem next?_eq_some {s rest : Text} {x : Lexeme} (h : next? s = some (x, rest)) :
    x.gap ++ x.raw ++ rest = s ∧ x.raw ≠ [] := by
  unfold next? at h
  have hs := List.takeWhile_append_dropWhile (p := isBlank) (l := s)
  cases hd : s.dropWhile isBlank with
  | nil => simp [hd] at h
  | cons c r =>
    rw [hd] at hs
    simp only [hd] at h
    split at h
    · obtain ⟨rfl, rfl⟩ := Prod.mk.inj (Option.some.inj h)
      simp [raw_append_rest, hs]
    · obtain ⟨rfl, rfl⟩ := Prod.mk.inj (Option.some.inj h)
      simp [List.takeWhile_append_dropWhile, hs]

theorem length_lt_of_next? {s rest : Text} {x : Lexeme} (h : next? s = some (x, rest)) :
    rest.length < s.length := by
  obtain ⟨hs, hx⟩ := next?_eq_some h
  have hl := congrArg List.length hs
  have := List.length_pos_iff.mpr hx
  simp only [List.length_append] at hl
  omega

/-- All lexemes of a text in order. Blanks at its end belong to none. -/
def all (s : Text) : List Lexeme :=
  match _h : next? s with
  | none => []
  | some (x, rest) => x :: all rest
termination_by s.length
decreasing_by exact length_lt_of_next? _h

/-- The characters from the first lexeme of a run to its last, with the blanks between them. -/
def join : List Lexeme → Text
  | [] => []
  | x :: xs => x.raw ++ xs.flatMap (fun y => y.gap ++ y.raw)

end Lexeme
end FilterLang
