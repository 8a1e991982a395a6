import FilterLang.CommandLine.Arguments
import FilterLang.CommandLine.Table
import FilterLang.Document
import FilterLang.Filter.Select
import FilterLang.Json.Read
import FilterLang.Ldap
import FilterLang.Settings

/-!
What each command does. A command is planned from the settings file and the arguments; it ends at
once, or reads the records first, or writes the settings file first.
-/
namespace FilterLang

structure Report where
  exit : Nat
  stdout : Text
  stderr : Text
  deriving DecidableEq, Repr

inductive CommandError where
  | filter (e : FilterError)
  | settings (e : SettingsError)
  | unreadable (f : FileFailure)
  | notJson
  | notRecords (v : Json)
  deriving Repr

namespace CommandError

def kindOf : Json → Text
  | .null => "null".toList
  | .bool _ => "a boolean".toList
  | .number _ => "a number".toList
  | .string _ => "a string".toList
  | .array _ => "an array".toList
  | .object _ => "an object".toList

def message : CommandError → Text
  | filter e => "filter error: ".toList ++ e.message
  | settings e => "configuration error: ".toList ++ e.message
  | unreadable f => "I/O error: ".toList ++ f.message
  | notJson => "serialization error: not a JSON text".toList
  | notRecords v => "I/O error: expected a JSON array of records, got ".toList ++ kindOf v

def code : CommandError → Text
  | filter _ => "FILTER_ERROR".toList
  | settings _ => "CONFIG_ERROR".toList
  | unreadable _ | notRecords _ => "IO_ERROR".toList
  | notJson => "JSON_ERROR".toList

def exit : CommandError → Nat
  | filter _ | notJson => 1
  | unreadable _ | notRecords _ => 3
  | settings _ => 5

end CommandError

/-- A step that a command waits for, with what it reports after it. -/
inductive Plan where
  | finish (r : Report)
  | readRecords (file : Option Text) (next : Except FileFailure Text → Report)
  | saveSettings (path content : Text) (next : Except SettingsError Unit → Report)

structure SettingsFile where
  path : Text
  state : Except FileFailure (Option Text)

namespace SettingsFile

def isThere (f : SettingsFile) : Bool :=
  match f.state with
  | .ok none => false
  | _ => true

def load (f : SettingsFile) : Except SettingsError Settings :=
  match f.state with
  | .ok none => .ok .empty
  | .ok (some text) => Settings.read text
  | .error failure => .error (.unreadable failure)

end SettingsFile

structure Context where
  switches : Switches
  settings : Settings
  deriving DecidableEq, Repr

namespace Context

def colors (c : Context) : Bool := !c.switches.noColor && c.settings.color.getD true

def jsonLine (c : Context) (v : Json) : Text :=
  (if c.settings.pretty.getD true then v.sorted.pretty else v.sorted.compact) ++ ['\n']

end Context

namespace Report

def success (out : Text) : Report := ⟨0, out, []⟩

def failure (s : Switches) (e : CommandError) : Report :=
  let text := if s.json then
      Json.pretty (.single "error".toList
        (.object [("code".toList, .string e.code), ("message".toList, .string e.message)]))
    else "Error: ".toList ++ e.message
  ⟨e.exit, [], text ++ ['\n']⟩

def ofExcept (s : Switches) : Except CommandError Report → Report
  | .ok r => r
  | .error e => failure s e

end Report

namespace Command

def readFilter (expr : Text) : Except CommandError Filter :=
  (Filter.read expr).mapError .filter

def rendered (c : Context) (fields : List (Text × Json)) (line : Text) : Report :=
  .success (if c.switches.json then c.jsonLine (.object fields) else line)

def parseReport (c : Context) (expr : Text) : Except CommandError Report := do
  let f ← readFilter expr
  return rendered c
    [("source".toList, .string expr), ("terms".toList, .array (f.terms.map Term.toJson))]
    (if c.switches.quiet then [] else Term.table c.colors f.terms)

/-- The style of the SQL command. An option wins over the settings, but can only turn quoting on. -/
def sqlStyle (s : Settings) (dialect : Option Dialect) (quotesNames : Bool) : SqlStyle :=
  ⟨(dialect.or s.dialect).getD .ansi, quotesNames || s.quotesNames.getD false⟩

def sqlReport (c : Context) (expr : Text) (suffix : Option Text) (style : SqlStyle) :
    Except CommandError Report := do
  let f ← readFilter expr
  let sql := (f.addSuffix (suffix.getD [])).toSql style
  return rendered c [("sql".toList, .string sql), ("dialect".toList, .string style.dialect.name)]
    (sql ++ ['\n'])

def ldapReport (c : Context) (expr : Text) : Except CommandError Report := do
  let f ← readFilter expr
  let ldap ← f.toLdap.mapError .filter
  return rendered c [("ldap".toList, .string ldap)] (ldap ++ ['\n'])

def mongoReport (c : Context) (expr : Text) : Except CommandError Report := do
  let f ← readFilter expr
  let title := if c.switches.verbose && !c.switches.json then
      Ansi.header c.colors "Mongo filter".toList ++ ['\n']
    else []
  let report := rendered c [("mongo".toList, f.toDocument)] (c.jsonLine f.toDocument)
  return { report with stderr := title }

def evalReport (c : Context) (f : Filter) (input : Except FileFailure Text) :
    Except CommandError Report := do
  let text ← input.mapError .unreadable
  match Json.read? text with
  | none => .error .notJson
  | some (.array records) =>
    let chosen := f.evaluate Json.toRecord records
    return rendered c
      [("count".toList, .number (.whole chosen.length)), ("records".toList, .array chosen)]
      (c.jsonLine (.array chosen))
  | some v => .error (.notRecords v)

def settingsText (c : Context) (file : SettingsFile) (s : Settings) : Text :=
  Ansi.header c.colors "Configuration".toList ++
    "\n\nFile: ".toList ++ file.path ++
    "\nExists: ".toList ++ Settings.boolWord file.isThere ++
    "\n\n[sql]\n  dialect: ".toList ++ (s.dialect.getD .ansi).name ++
    "\n  quote_identifiers: ".toList ++ Settings.boolWord (s.quotesNames.getD false) ++
    "\n\n[output]\n  color: ".toList ++ Settings.boolWord (s.color.getD true) ++
    "\n  pretty: ".toList ++ Settings.boolWord (s.pretty.getD true) ++ ['\n']

def showReport (c : Context) (file : SettingsFile) (s : Settings) : Report :=
  rendered c
    [("path".toList, .string file.path), ("exists".toList, .bool file.isThere),
      ("config".toList, s.toJson)]
    (if c.switches.quiet then [] else settingsText c file s)

def pathReport (c : Context) (file : SettingsFile) : Report :=
  rendered c [("path".toList, .string file.path), ("exists".toList, .bool file.isThere)]
    (file.path ++ ['\n'])

def setReport (c : Context) (file : SettingsFile) (key value : Text) : Report :=
  rendered c
    [("status".toList, .string "success".toList), ("key".toList, .string key),
      ("value".toList, .string value), ("path".toList, .string file.path)]
    (if c.switches.quiet then []
      else "Set ".toList ++ key ++ " = ".toList ++ value ++ ['\n'])

def completionWords : Text :=
  "parse\nsql\nldap\nmongo\neval\nconfig\ncompletions\n".toList

/-- Plans the commands about settings, and the one that needs none. A broken file is reported where
the settings themselves are asked for. -/
def planSettings (c : Context) (file : SettingsFile) : Command → Plan
  | set key value =>
    match file.load.bind fun s => (Setting.read key value).map s.apply with
    | .error e => .finish (.failure c.switches (.settings e))
    | .ok s => .saveSettings file.path s.write fun
      | .ok _ => setReport c file key value
      | .error e => .failure c.switches (.settings e)
  | settingsPath => .finish (pathReport c file)
  | completions _ => .finish (.success completionWords)
  | _ =>
    .finish (.ofExcept c.switches ((file.load.mapError .settings).map (showReport c file)))

/-- Plans the commands about a filter. The expression is read before the records are. -/
def planFilter (c : Context) : Command → Plan
  | eval expr input =>
    match readFilter expr with
    | .error e => .finish (.failure c.switches e)
    | .ok f => .readRecords input fun text => .ofExcept c.switches (evalReport c f text)
  | parse expr => .finish (.ofExcept c.switches (parseReport c expr))
  | sql expr suffix dialect quotesNames =>
    .finish (.ofExcept c.switches
      (sqlReport c expr suffix (sqlStyle c.settings dialect quotesNames)))
  | ldap expr => .finish (.ofExcept c.switches (ldapReport c expr))
  | mongo expr => .finish (.ofExcept c.switches (mongoReport c expr))
  | _ => .finish (.success [])

/-- Whether a command goes on without settings when their file is broken. -/
def isLenient : Command → Bool
  | showSettings | settingsPath | set _ _ | completions _ => true
  | _ => false

/-- Plans a command. Without a place for the settings file only completions can be had. -/
def plan (s : Switches) (file : Option SettingsFile) (command : Command) : Plan :=
  match file, command with
  | none, completions _ => .finish (.success completionWords)
  | none, _ => .finish (.failure s (.settings .noPlace))
  | some file, command =>
    if command.isLenient then planSettings ⟨s, file.load.toOption.getD .empty⟩ file command
    else match file.load with
      | .error e => .finish (.failure s (.settings e))
      | .ok settings => planFilter ⟨s, settings⟩ command

end Command

namespace Request

def rejection : Report :=
  ⟨2, [], "usage: dfq [-v | -q] [--json] [--no-color] COMMAND\n".toList⟩

def plan (file : Option SettingsFile) (args : List Text) : Plan :=
  match Arguments.read? args with
  | none => .finish rejection
  | some (.version program) => .finish (.success (program ++ " 0.1.0\n".toList))
  | some (.run switches command) => command.plan switches file

end Request
end FilterLang
