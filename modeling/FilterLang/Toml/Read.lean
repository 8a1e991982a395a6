import FilterLang.Number.Decimal
import FilterLang.Toml.Basic

/-!
Reading TOML text, line by line: headers of tables and of arrays of tables, and keys with their
values.
-/
namespace FilterLang.Toml

def isSpace (c : Char) : Bool := c = ' ' || c = '\t'

def skipSpace (s : Text) : Text := s.dropWhile isSpace

def afterNewline? : Text → Option Text
  | '\n' :: s => some s
  | '\r' :: '\n' :: s => some s
  | _ => none

def isPlain (c : Char) : Bool := c = '\t' || (32 ≤ c.toNat && c.toNat ≠ 127)

def skipComment : Text → Text
  | '#' :: s => s.dropWhile isPlain
  | s => s

/-- The text behind the end of a line: blanks, a comment, and a line end or the end of the text. -/
def endLine? (s : Text) : Option Text :=
  match skipComment (skipSpace s) with
  | [] => some []
  | r => afterNewline? r

def skipLines (s : Text) : Nat → Text
  | 0 => s
  | fuel + 1 =>
    let r := skipComment (skipSpace s)
    match afterNewline? r with
    | some r => skipLines r fuel
    | none => r

def skipBreaks : Text → Text
  | [] => []
  | '\r' :: '\n' :: s => skipBreaks s
  | c :: s => if isSpace c || c = '\n' then skipBreaks s else c :: s

def hexNumber? (s : Text) : Option Nat :=
  s.foldl (fun n c => n.bind fun n => (Text.hexValue? c).map (16 * n + ·)) (some 0)

/-- The character of a code point. Surrogates are none. -/
def scalar? (n : Nat) : Option Char :=
  if h : n.isValidChar then some (Char.ofNatAux n h) else none

/-- The character that an escape writes, and the text after it; the backslash has been read. -/
def readEscape? : Text → Option (Char × Text)
  | 'b' :: s => some ('\x08', s)
  | 't' :: s => some ('\t', s)
  | 'n' :: s => some ('\n', s)
  | 'f' :: s => some ('\x0c', s)
  | 'r' :: s => some ('\r', s)
  | '"' :: s => some ('"', s)
  | '\\' :: s => some ('\\', s)
  | 'u' :: s => code 4 s
  | 'U' :: s => code 8 s
  | _ => none
where
  code (n : Nat) (s : Text) : Option (Char × Text) :=
    if (s.take n).length < n then none
    else ((hexNumber? (s.take n)).bind scalar?).map (·, s.drop n)

def readLiteral? (s : Text) : Option (Text × Text) :=
  let (t, r) := s.span fun c => isPlain c && c ≠ '\''
  match r with
  | '\'' :: r => some (t, r)
  | _ => none

def readBasic? (fuel : Nat) (s : Text) : Option (Text × Text) :=
  match fuel, s with
  | 0, _ => none
  | _, [] => none
  | _, '"' :: r => some ([], r)
  | fuel + 1, '\\' :: r =>
    (readEscape? r).bind fun (c, r) => (readBasic? fuel r).map fun (t, r) => (c :: t, r)
  | fuel + 1, c :: r =>
    if isPlain c then (readBasic? fuel r).map fun (t, r) => (c :: t, r) else none

/-- A text of several lines, up to three quotes `q`. Up to two more of them belong to the text.
Backslashes escape in double quotes only, and one at the end of a line joins it with the next. -/
def readLong? (q : Char) (fuel : Nat) (s : Text) : Option (Text × Text) :=
  match fuel, s with
  | 0, _ => none
  | _, [] => none
  | fuel + 1, c :: r =>
    if c = q then
      let n := min 5 (s.takeWhile (· = q)).length
      if 3 ≤ n then some (List.replicate (n - 3) q, s.drop n)
      else (readLong? q fuel r).map fun (t, r) => (c :: t, r)
    else if c = '\\' ∧ q = '"' then
      match afterNewline? (skipSpace r) with
      | some r => readLong? q fuel (skipBreaks r)
      | none =>
        (readEscape? r).bind fun (c, r) => (readLong? q fuel r).map fun (t, r) => (c :: t, r)
    else match afterNewline? s with
      | some r => (readLong? q fuel r).map fun (t, r) => ('\n' :: t, r)
      | none =>
        if isPlain c then (readLong? q fuel r).map fun (t, r) => (c :: t, r) else none

/-- A text of several lines; a line end right behind the opening quotes is left out. -/
def readLongBody? (q : Char) (s : Text) : Option (Text × Text) :=
  readLong? q (s.length + 1) ((afterNewline? s).getD s)

def readString? : Text → Option (Text × Text)
  | '"' :: '"' :: '"' :: s => readLongBody? '"' s
  | '"' :: s => readBasic? (s.length + 1) s
  | '\'' :: '\'' :: '\'' :: s => readLongBody? '\'' s
  | '\'' :: s => readLiteral? s
  | _ => none

def isBare (c : Char) : Bool := c.isAlphanum || c = '_' || c = '-'

def readKeyPart? : Text → Option (Text × Text)
  | '"' :: s => readBasic? (s.length + 1) s
  | '\'' :: s => readLiteral? s
  | s =>
    let (k, r) := s.span isBare
    if k.isEmpty then none else some (k, r)

/-- The parts of a key, which are parted by dots and blanks. The text given back has no blank in
front. -/
def readKeyParts? (fuel : Nat) (s : Text) : Option (List Text × Text) :=
  match fuel with
  | 0 => none
  | fuel + 1 =>
    (readKeyPart? (skipSpace s)).bind fun (k, r) =>
      match skipSpace r with
      | '.' :: r => (readKeyParts? fuel r).map fun (ks, r) => (k :: ks, r)
      | r => some ([k], r)

/-- A key has at most so many parts, and a value at most so many brackets around each other. -/
def maxDepth : Nat := 79

def readKey? (s : Text) : Option (List Text × Text) :=
  (readKeyParts? (s.length + 1) s).filter fun (ks, _) => ks.length ≤ maxDepth

/-- Digits with single underscores between them. -/
def ungroup? (ok : Char → Bool) : Text → Option Text
  | [] => none
  | [c] => if ok c then some [c] else none
  | c :: '_' :: s => if ok c then (ungroup? ok s).map (c :: ·) else none
  | c :: s => if ok c then (ungroup? ok s).map (c :: ·) else none

def wholeDigits? (s : Text) : Option Text :=
  (ungroup? Decimal.isDigit s).filter fun ds => ds.length = 1 || ds.head? ≠ some '0'

def based? (b : Nat) (s : Text) : Option Int := do
  let ds ← ungroup? (fun c => (Text.hexValue? c).any (· < b)) s
  let n : Nat := ds.foldl (fun n c => b * n + (Text.hexValue? c).getD 0) 0
  return n

def integer? (s : Text) : Option Int :=
  Option.filter Decimal.fitsWord <|
    match s with
    | '0' :: 'x' :: r => based? 16 r
    | '0' :: 'o' :: r => based? 8 r
    | '0' :: 'b' :: r => based? 2 r
    | s =>
      let (negative, r) := Decimal.takeSign s
      (wholeDigits? r).map fun ds =>
        if negative then -(Decimal.valueOf ds : Int) else Decimal.valueOf ds

/-- Whether a text is a float: digits with a fraction, an exponent or both, or one of two words. -/
def isFloat (s : Text) : Bool :=
  let r := (Decimal.takeSign s).2
  if r = "inf".toList || r = "nan".toList then true
  else
    let (whole, rest) := r.span fun c => Decimal.isDigit c || c = '_'
    let (point, fraction, tail) : Bool × Text × Text := match rest with
      | '.' :: t => let (f, t) := t.span fun c => Decimal.isDigit c || c = '_'; (true, f, t)
      | t => (false, [], t)
    let exponent := match tail with
      | [] => point
      | c :: t => (c = 'e' || c = 'E') && (ungroup? Decimal.isDigit (Decimal.takeSign t).2).isSome
    (wholeDigits? whole).isSome && (!point || (ungroup? Decimal.isDigit fraction).isSome) &&
      exponent && Binary64.read? (s.filter (· ≠ '_')) ≠ some (.infinite false)

def daysIn (year month : Nat) : Nat :=
  if month = 2 then
    if year % 4 = 0 && (year % 100 ≠ 0 || year % 400 = 0) then 29 else 28
  else if month = 4 || month = 6 || month = 9 || month = 11 then 30 else 31

def digits? (n : Nat) (s : Text) : Option (Nat × Text) :=
  let ds := s.take n
  if ds.length = n && ds.all Decimal.isDigit then some (Decimal.valueOf ds, s.drop n) else none

def sign? (c : Char) : Text → Option Text
  | d :: s => if d = c then some s else none
  | [] => none

def afterDate? (s : Text) : Option Text := do
  let (y, s) ← digits? 4 s
  let s ← sign? '-' s
  let (m, s) ← digits? 2 s
  let s ← sign? '-' s
  let (d, s) ← digits? 2 s
  if 1 ≤ m ∧ m ≤ 12 ∧ 1 ≤ d ∧ d ≤ daysIn y m then some s else none

def afterTime? (s : Text) : Option Text := do
  let (h, s) ← digits? 2 s
  let s ← sign? ':' s
  let (m, s) ← digits? 2 s
  let s ← sign? ':' s
  let (sec, s) ← digits? 2 s
  if h ≤ 23 ∧ m ≤ 59 ∧ sec ≤ 60 then
    match s with
    | '.' :: t =>
      let (f, r) := t.span Decimal.isDigit
      if f.isEmpty then none else some r
    | s => some s
  else none

/-- Whether a text is nothing, or how far a clock is from the common one. -/
def isOffset (s : Text) : Bool :=
  match s with
  | [] => true
  | ['Z'] | ['z'] => true
  | c :: t =>
    (c = '+' || c = '-') && ((digits? 2 t).any fun (h, t) =>
      h ≤ 23 && (sign? ':' t).any fun t =>
        (digits? 2 t).any fun (m, t) => m ≤ 59 && t.isEmpty)

def isDatetime (s : Text) : Bool :=
  match afterDate? s with
  | some [] => true
  | some (c :: t) => (c = 'T' || c = 't' || c = ' ') && (afterTime? t).any isOffset
  | none => (afterTime? s).any List.isEmpty

/-- A value that is neither a string nor in brackets, from all of its characters. -/
def plainValue? (s : Text) : Option Toml :=
  if s = "true".toList then some (.boolean true)
  else if s = "false".toList then some (.boolean false)
  else match integer? s with
    | some n => some (.integer n)
    | none =>
      if isFloat s then some .float else if isDatetime s then some .datetime else none

def isPlainValueChar (c : Char) : Bool :=
  c.isAlphanum || c = '_' || c = '+' || c = '-' || c = '.' || c = ':'

/-- The characters of a plain value. A blank may part a date from its time. -/
def takePlain (s : Text) : Text × Text :=
  let (t, r) := s.span isPlainValueChar
  match afterDate? t, r with
  | some [], ' ' :: r' =>
    let (u, r'') := r'.span isPlainValueChar
    if (afterTime? u).isSome then (t ++ ' ' :: u, r'') else (t, r)
  | _, _ => (t, r)

mutual

/-- Reads a value at the start of a text, with brackets at most `depth` deep. The length of the text
is enough `fuel`. -/
def readValue? (fuel depth : Nat) (s : Text) : Option (Toml × Text) :=
  match fuel with
  | 0 => none
  | fuel + 1 =>
    match depth, s with
    | 0, '[' :: _ | 0, '{' :: _ => none
    | depth + 1, '[' :: r => (readItems? fuel depth r).map fun (vs, r) => (.array vs, r)
    | depth + 1, '{' :: r =>
      match skipSpace r with
      | '}' :: r => some (.table .inline [], r)
      | r => (readPairs? fuel depth [] r).map fun (es, r) => (.table .inline es, r)
    | _, '"' :: _ | _, '\'' :: _ => (readString? s).map fun (t, r) => (.string t, r)
    | _, s =>
      let (t, r) := takePlain s
      (plainValue? t).map (·, r)

def readItems? (fuel depth : Nat) (s : Text) : Option (List Toml × Text) :=
  match fuel with
  | 0 => none
  | fuel + 1 =>
    match skipLines s s.length with
    | ']' :: r => some ([], r)
    | r =>
      (readValue? fuel depth r).bind fun (v, r) =>
        match skipLines r r.length with
        | ',' :: r => (readItems? fuel depth r).map fun (vs, r) => (v :: vs, r)
        | ']' :: r => some ([v], r)
        | _ => none

def readPairs? (fuel depth : Nat) (before : Entries) (s : Text) : Option (Entries × Text) :=
  match fuel with
  | 0 => none
  | fuel + 1 =>
    (readKey? s).bind fun (key, r) =>
      match r with
      | '=' :: r =>
        (readValue? fuel depth (skipSpace r)).bind fun (v, r) =>
          (insert v key before).bind fun es =>
            match skipSpace r with
            | ',' :: r => readPairs? fuel depth es r
            | '}' :: r => some (es, r)
            | _ => none
      | _ => none

end

/-- A document as far as it has been read: its tables, and the header that keys now belong to. -/
structure Draft where
  root : Entries
  header : List Text

namespace Draft

def defineAt (d : Draft) (path : List Text) (define : Text → Entries → Option Entries) :
    Option Draft :=
  (path.getLast?.bind fun key => updateAt (define key) path.dropLast d.root).map fun root =>
    ⟨root, path⟩

def add (d : Draft) (key : List Text) (v : Toml) : Option Draft :=
  (updateAt (insert v key) d.header d.root).map fun root => { d with root }

def readLine? (d : Draft) (s : Text) : Option (Draft × Text) :=
  match s with
  | '[' :: '[' :: r =>
    (readKey? r).bind fun (path, r) =>
      match r with
      | ']' :: ']' :: r => (d.defineAt path openItem).map (·, r)
      | _ => none
  | '[' :: r =>
    (readKey? r).bind fun (path, r) =>
      match r with
      | ']' :: r => (d.defineAt path openTable).map (·, r)
      | _ => none
  | s =>
    (readKey? s).bind fun (key, r) =>
      match r with
      | '=' :: r =>
        (readValue? (r.length + 1) maxDepth (skipSpace r)).bind fun (v, r) =>
          (d.add key v).map (·, r)
      | _ => none

def readLines? (fuel : Nat) (d : Draft) (s : Text) : Option Draft :=
  match fuel with
  | 0 => none
  | fuel + 1 =>
    match skipLines s s.length with
    | [] => some d
    | r => (d.readLine? r).bind fun (d, r) => (endLine? r).bind (readLines? fuel d)

end Draft

/-- Reads a document. A byte order mark before it is left out. -/
def read? (s : Text) : Option Entries :=
  let s := match s with
    | '\uFEFF' :: s => s
    | s => s
  (Draft.readLines? (s.length + 1) ⟨[], []⟩ s).map Draft.root

end FilterLang.Toml
