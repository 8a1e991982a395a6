import FilterLang.Json.Basic

/-!
The two written forms of a JSON value: compact, without a blank, and indented by two spaces a level.
-/
namespace FilterLang.Json

def hexDigit (n : Nat) : Char := if n < 10 then Char.ofNat (48 + n) else Char.ofNat (87 + n)

/-- A character inside a string: quotes, backslashes and the controls below the space are escaped,
all else stands for itself. -/
def escapeChar (c : Char) : Text :=
  if c = '"' then ['\\', '"']
  else if c = '\\' then ['\\', '\\']
  else if c = '\x08' then ['\\', 'b']
  else if c = '\t' then ['\\', 't']
  else if c = '\n' then ['\\', 'n']
  else if c = '\x0c' then ['\\', 'f']
  else if c = '\r' then ['\\', 'r']
  else if c.toNat < 32 then ['\\', 'u', '0', '0', hexDigit (c.toNat / 16), hexDigit (c.toNat % 16)]
  else [c]

def stringText (s : Text) : Text := '"' :: s.flatMap escapeChar ++ ['"']

def wordText (b : Bool) : Text := if b then "true".toList else "false".toList

mutual

def compact : Json → Text
  | .null => "null".toList
  | .bool b => wordText b
  | .number n => n.text
  | .string s => stringText s
  | .array items => '[' :: compactItems items ++ [']']
  | .object fields => '{' :: compactFields fields ++ ['}']

def compactItems : List Json → Text
  | [] => []
  | v :: items =>
    compact v ++ (if items.isEmpty then [] else ',' :: compactItems items)

def compactFields : List (Text × Json) → Text
  | [] => []
  | (n, v) :: fields =>
    stringText n ++ ':' :: compact v ++ (if fields.isEmpty then [] else ',' :: compactFields fields)

end

def newLine (level : Nat) : Text := '\n' :: List.replicate (2 * level) ' '

mutual

def indented (level : Nat) : Json → Text
  | .array items =>
    if items.isEmpty then ['[', ']']
    else '[' :: indentedItems (level + 1) items ++ newLine level ++ [']']
  | .object fields =>
    if fields.isEmpty then ['{', '}']
    else '{' :: indentedFields (level + 1) fields ++ newLine level ++ ['}']
  | other => compact other

def indentedItems (level : Nat) : List Json → Text
  | [] => []
  | v :: items =>
    newLine level ++ indented level v ++
      (if items.isEmpty then [] else ',' :: indentedItems level items)

def indentedFields (level : Nat) : List (Text × Json) → Text
  | [] => []
  | (n, v) :: fields =>
    newLine level ++ stringText n ++ ':' :: ' ' :: indented level v ++
      (if fields.isEmpty then [] else ',' :: indentedFields level fields)

end

def pretty (v : Json) : Text := indented 0 v

end FilterLang.Json
