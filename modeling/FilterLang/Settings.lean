import FilterLang.Directory
import FilterLang.Json.Basic
import FilterLang.Sql
import FilterLang.Toml.Read

/-!
The settings of the command line: four values, each of which may be unset. They are kept in a TOML
file, of which other keys are ignored.
-/
namespace FilterLang

structure Settings where
  dialect : Option Dialect
  quotesNames : Option Bool
  color : Option Bool
  pretty : Option Bool
  deriving DecidableEq, Repr

inductive Setting where
  | dialect (d : Dialect)
  | quotesNames (b : Bool)
  | color (b : Bool)
  | pretty (b : Bool)
  deriving DecidableEq, Repr

inductive SettingsError where
  | noPlace
  | unreadable (f : FileFailure)
  | malformed
  | wrongValue (key : Text)
  | unknownDialect (value : Text)
  | unknownBool (value : Text)
  | unknownKey (key : Text)
  | noDirectory (f : FileFailure)
  | unwritable (f : FileFailure)
  deriving DecidableEq, Repr

namespace SettingsError

def message : SettingsError → Text
  | noPlace => "Could not determine config directory".toList
  | unreadable f => "Failed to read config: ".toList ++ f.message
  | malformed => "Failed to parse config: not a TOML document".toList
  | wrongValue key => "Failed to parse config: wrong value for ".toList ++ key
  | unknownDialect value =>
    "Invalid dialect value '".toList ++ value ++ "'. Valid values: ansi, mysql".toList
  | unknownBool value =>
    "Invalid boolean value '".toList ++ value ++ "'. Use true/false, yes/no, 1/0, or on/off".toList
  | unknownKey key =>
    "Unknown config key '".toList ++ key ++
      "'. Valid keys: sql.dialect, sql.quote_identifiers, output.color, output.pretty".toList
  | noDirectory f => "Failed to create config directory: ".toList ++ f.message
  | unwritable f => "Failed to write config: ".toList ++ f.message

end SettingsError

namespace Setting

/-- A truth value in one of four pairs of words, in any mixture of cases. -/
def readBool (value : Text) : Except SettingsError Bool :=
  let word := Text.lower value
  if ["true".toList, "yes".toList, "1".toList, "on".toList].contains word then .ok true
  else if ["false".toList, "no".toList, "0".toList, "off".toList].contains word then .ok false
  else .error (.unknownBool value)

def read (key value : Text) : Except SettingsError Setting :=
  if key = "sql.dialect".toList then
    match Dialect.ofAnyCase? value with
    | some d => .ok (.dialect d)
    | none => .error (.unknownDialect value)
  else if key = "sql.quote_identifiers".toList then (readBool value).map .quotesNames
  else if key = "output.color".toList then (readBool value).map .color
  else if key = "output.pretty".toList then (readBool value).map .pretty
  else .error (.unknownKey key)

end Setting

namespace Settings

def empty : Settings := ⟨none, none, none, none⟩

def apply (s : Settings) : Setting → Settings
  | .dialect d => { s with dialect := some d }
  | .quotesNames b => { s with quotesNames := some b }
  | .color b => { s with color := some b }
  | .pretty b => { s with pretty := some b }

/-- The two values of a section, each of which may be left out. A section is a table, or an array
that starts with both values; a date in its place has none of them. -/
def section? (name first second : Text) (es : Toml.Entries) :
    Except SettingsError (Option Toml × Option Toml) :=
  match Toml.get? name es with
  | none | some .datetime => .ok (none, none)
  | some (.table _ t) => .ok (Toml.get? first t, Toml.get? second t)
  | some (.array (a :: b :: _)) => .ok (some a, some b)
  | some _ => .error (.wrongValue name)

def bool? (key : Text) : Option Toml → Except SettingsError (Option Bool)
  | none => .ok none
  | some (.boolean b) => .ok (some b)
  | some _ => .error (.wrongValue key)

/-- Whether a value is an array or a table without anything in it. -/
def isHollow : Toml → Bool
  | .array vs => vs.isEmpty
  | .table _ es => es.isEmpty
  | _ => false

/-- A dialect is its name, or a table in which its name alone leads to a value without content. -/
def dialect? (key : Text) : Option Toml → Except SettingsError (Option Dialect)
  | none => .ok none
  | some v =>
    let name? : Option Text := match v with
      | .string s => some s
      | .table _ [(name, w)] => if isHollow w then some name else none
      | _ => none
    match name?.bind Dialect.ofName? with
    | some d => .ok (some d)
    | none => .error (.wrongValue key)

/-- A version must be a whole number of 32 bits, whichever it is. -/
def checkVersion (es : Toml.Entries) : Except SettingsError Unit :=
  match Toml.get? "version".toList es with
  | none => .ok ()
  | some (.integer n) =>
    if 0 ≤ n ∧ n < 4294967296 then .ok () else .error (.wrongValue "version".toList)
  | some _ => .error (.wrongValue "version".toList)

def ofToml (es : Toml.Entries) : Except SettingsError Settings := do
  checkVersion es
  let sql ← section? "sql".toList "dialect".toList "quote_identifiers".toList es
  let output ← section? "output".toList "color".toList "pretty".toList es
  return {
    dialect := ← dialect? "dialect".toList sql.1
    quotesNames := ← bool? "quote_identifiers".toList sql.2
    color := ← bool? "color".toList output.1
    pretty := ← bool? "pretty".toList output.2 }

def read (text : Text) : Except SettingsError Settings :=
  match Toml.read? text with
  | none => .error .malformed
  | some es => ofToml es

def boolWord (b : Bool) : Text := if b then "true".toList else "false".toList

def line (key : Text) : Option Text → Text
  | none => []
  | some value => key ++ " = ".toList ++ value ++ ['\n']

/-- The text of the settings file. It always has both sections. -/
def write (s : Settings) : Text :=
  "version = 1\n\n[sql]\n".toList ++
    line "dialect".toList (s.dialect.map fun d => '"' :: d.name ++ ['"']) ++
    line "quote_identifiers".toList (s.quotesNames.map boolWord) ++
    "\n[output]\n".toList ++
    line "color".toList (s.color.map boolWord) ++
    line "pretty".toList (s.pretty.map boolWord)

def jsonField (name : Text) : Option Json → List (Text × Json)
  | none => []
  | some v => [(name, v)]

def toJson (s : Settings) : Json :=
  .object [
    ("output".toList, .object (jsonField "color".toList (s.color.map .bool) ++
      jsonField "pretty".toList (s.pretty.map .bool))),
    ("sql".toList, .object (jsonField "dialect".toList (s.dialect.map fun d => .string d.name) ++
      jsonField "quote_identifiers".toList (s.quotesNames.map .bool))),
    ("version".toList, .number (.whole 1))]

end Settings
end FilterLang
