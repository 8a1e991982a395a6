import FilterLang.Json.Basic

/-!
Reading JSON text. The reader takes one value with nothing but blanks around it, refuses nesting of
128 brackets and more, and keeps the last of several fields of one name.
-/
namespace FilterLang.Json

def isSpace (c : Char) : Bool := c = ' ' || c = '\n' || c = '\t' || c = '\r'

def skipSpace (s : Text) : Text := s.dropWhile isSpace

def hexUnit? (a b c d : Char) : Option Nat := do
  let a ← Text.hexValue? a
  let b ← Text.hexValue? b
  let c ← Text.hexValue? c
  let d ← Text.hexValue? d
  return ((a * 16 + b) * 16 + c) * 16 + d

def isHigh (n : Nat) : Bool := 0xD800 ≤ n && n < 0xDC00

def isLow (n : Nat) : Bool := 0xDC00 ≤ n && n < 0xE000

def namedEscape? : Char → Option Char
  | '"' => some '"'
  | '\\' => some '\\'
  | '/' => some '/'
  | 'b' => some '\x08'
  | 'f' => some '\x0c'
  | 'n' => some '\n'
  | 'r' => some '\r'
  | 't' => some '\t'
  | _ => none

/-- Reads a string behind its opening quote. An escaped surrogate must be half of a pair. -/
def readString? : Text → Option (Text × Text)
  | [] => none
  | '"' :: r => some ([], r)
  | '\\' :: 'u' :: a :: b :: c :: d :: r =>
    (hexUnit? a b c d).bind fun n =>
      if isHigh n then
        match r with
        | '\\' :: 'u' :: a :: b :: c :: d :: r =>
          (hexUnit? a b c d).bind fun m =>
            if isLow m then
              (readString? r).map fun (s, r) =>
                (Char.ofNat (0x10000 + (n - 0xD800) * 0x400 + (m - 0xDC00)) :: s, r)
            else none
        | _ => none
      else if isLow n then none
      else (readString? r).map fun (s, r) => (Char.ofNat n :: s, r)
  | '\\' :: e :: r =>
    (namedEscape? e).bind fun c => (readString? r).map fun (s, r) => (c :: s, r)
  | c :: r =>
    if c = '\\' ∨ c.toNat < 32 then none
    else (readString? r).map fun (s, r) => (c :: s, r)

def afterWord? (word s : Text) : Option Text :=
  if word.isPrefixOf s then some (s.drop word.length) else none

mutual

/-- Reads one value and gives back the text after it. At most `depth` brackets may open inside one
another, less one; `fuel` bounds the steps, and the length of the text is enough. -/
def readValue? (fuel depth : Nat) (s : Text) : Option (Json × Text) :=
  match fuel with
  | 0 => none
  | fuel + 1 =>
    match skipSpace s with
    | [] => none
    | '"' :: r => (readString? r).map fun (t, r) => (.string t, r)
    | '[' :: r =>
      if depth ≤ 1 then none
      else match skipSpace r with
        | ']' :: r => some (.array [], r)
        | r => (readItems? fuel (depth - 1) r).map fun (vs, r) => (.array vs, r)
    | '{' :: r =>
      if depth ≤ 1 then none
      else match skipSpace r with
        | '}' :: r => some (.object [], r)
        | r => (readFields? fuel (depth - 1) [] r).map fun (fs, r) => (.object fs, r)
    | 't' :: r => (afterWord? "rue".toList r).map fun r => (.bool true, r)
    | 'f' :: r => (afterWord? "alse".toList r).map fun r => (.bool false, r)
    | 'n' :: r => (afterWord? "ull".toList r).map fun r => (.null, r)
    | r => (JsonNumber.read? r).map fun (n, r) => (.number n, r)

def readItems? (fuel depth : Nat) (s : Text) : Option (List Json × Text) :=
  match fuel with
  | 0 => none
  | fuel + 1 =>
    (readValue? fuel depth s).bind fun (v, r) =>
      match skipSpace r with
      | ',' :: r => (readItems? fuel depth r).map fun (vs, r) => (v :: vs, r)
      | ']' :: r => some ([v], r)
      | _ => none

def readFields? (fuel depth : Nat) (before : List (Text × Json)) (s : Text) :
    Option (List (Text × Json) × Text) :=
  match fuel with
  | 0 => none
  | fuel + 1 =>
    match skipSpace s with
    | '"' :: r =>
      (readString? r).bind fun (name, r) =>
        match skipSpace r with
        | ':' :: r =>
          (readValue? fuel depth r).bind fun (v, r) =>
            let fields := setField name v before
            match skipSpace r with
            | ',' :: r => readFields? fuel depth fields r
            | '}' :: r => some (fields, r)
            | _ => none
        | _ => none
    | _ => none

end

def read? (s : Text) : Option Json :=
  (readValue? (2 * s.length + 2) 128 s).bind fun (v, r) =>
    if (skipSpace r).isEmpty then some v else none

end FilterLang.Json
