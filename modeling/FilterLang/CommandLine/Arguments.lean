import FilterLang.Sql

/-!
The arguments of the command line. A command opens a scope with options, subcommands and positions
of its own, in which the arguments behind it are read. The four global switches and the version
option belong to every scope.
-/
namespace FilterLang

inductive Shell where
  | bash
  | zsh
  | fish
  | powershell
  deriving DecidableEq, Repr

def Shell.ofName? (s : Text) : Option Shell :=
  if s = "bash".toList then some .bash
  else if s = "zsh".toList then some .zsh
  else if s = "fish".toList then some .fish
  else if s = "powershell".toList then some .powershell
  else none

inductive Command where
  | parse (expr : Text)
  | sql (expr : Text) (suffix : Option Text) (dialect : Option Dialect) (quotesNames : Bool)
  | ldap (expr : Text)
  | mongo (expr : Text)
  | eval (expr : Text) (input : Option Text)
  | showSettings
  | settingsPath
  | set (key value : Text)
  | completions (shell : Shell)
  deriving DecidableEq, Repr

structure Switches where
  verbose : Bool
  quiet : Bool
  json : Bool
  noColor : Bool
  deriving DecidableEq, Repr

inductive Request where
  | run (switches : Switches) (command : Command)
  | version (program : Text)
  deriving DecidableEq, Repr

namespace Arguments

inductive Flag where
  | verbose
  | quiet
  | json
  | noColor
  | version
  | quotesNames
  | suffix
  | dialect
  | input
  deriving DecidableEq, Repr

namespace Flag

def all : List Flag :=
  [verbose, quiet, json, noColor, version, quotesNames, suffix, dialect, input]

def long : Flag → Text
  | verbose => "verbose".toList
  | quiet => "quiet".toList
  | json => "json".toList
  | noColor => "no-color".toList
  | version => "version".toList
  | quotesNames => "quote-identifiers".toList
  | suffix => "suffix".toList
  | dialect => "dialect".toList
  | input => "input".toList

def short? : Flag → Option Char
  | verbose => some 'v'
  | quiet => some 'q'
  | version => some 'V'
  | input => some 'i'
  | _ => none

def takesValue : Flag → Bool
  | suffix | dialect | input => true
  | _ => false

/-- Whether the value may look like an option. -/
def takesAnything (f : Flag) : Bool := f = suffix

def acceptsValue (f : Flag) (value : Text) : Bool :=
  match f with
  | dialect => (Dialect.ofName? value).isSome
  | input => !value.isEmpty
  | _ => true

end Flag

inductive Scope where
  | main
  | parse
  | sql
  | ldap
  | mongo
  | eval
  | config
  | configShow
  | configPath
  | configSet
  | completions
  deriving DecidableEq, Repr

namespace Scope

def sub? (s : Scope) (word : Text) : Option Scope :=
  let among (names : List (String × Scope)) : Option Scope :=
    (names.find? (fun n => n.1.toList = word)).map Prod.snd
  match s with
  | main => among [("parse", parse), ("p", parse), ("sql", sql), ("ldap", ldap), ("mongo", mongo),
      ("eval", eval), ("e", eval), ("config", config), ("completions", completions)]
  | config => among [("show", configShow), ("path", configPath), ("set", configSet)]
  | _ => none

def program : Scope → Text
  | main => "dfq".toList
  | parse => "dfq-parse".toList
  | sql => "dfq-sql".toList
  | ldap => "dfq-ldap".toList
  | mongo => "dfq-mongo".toList
  | eval => "dfq-eval".toList
  | config => "dfq-config".toList
  | configShow => "dfq-config-show".toList
  | configPath => "dfq-config-path".toList
  | configSet => "dfq-config-set".toList
  | completions => "dfq-completions".toList

def positions : Scope → Nat
  | main | config | configShow | configPath => 0
  | configSet => 2
  | _ => 1

def has (s : Scope) : Flag → Bool
  | .quotesNames | .suffix | .dialect => s = sql
  | .input => s = eval
  | _ => true

def acceptsPosition (s : Scope) (value : Text) : Bool :=
  match s with
  | completions => (Shell.ofName? value).isSome
  | _ => true

end Scope

structure Level where
  scope : Scope
  flags : List Flag
  values : List (Flag × Text)
  positions : List Text
  deriving DecidableEq, Repr

inductive Stop where
  | rejected
  | version (program : Text)
  deriving DecidableEq, Repr

namespace Level

def start (s : Scope) : Level := ⟨s, [], [], []⟩

/-- Takes a switch. None is given twice, and the version is told at once. -/
def addFlag (l : Level) (f : Flag) : Except Stop Level :=
  if f = .version then .error (.version l.scope.program)
  else if l.flags.contains f then .error .rejected
  else .ok { l with flags := f :: l.flags }

def addValue (l : Level) (f : Flag) (value : Text) : Except Stop Level :=
  if l.flags.contains f || !f.acceptsValue value then .error .rejected
  else .ok { l with flags := f :: l.flags, values := (f, value) :: l.values }

def addPosition (l : Level) (value : Text) : Except Stop Level :=
  if l.scope.positions ≤ l.positions.length || !l.scope.acceptsPosition value then
    .error .rejected
  else .ok { l with positions := l.positions ++ [value] }

def long? (l : Level) (name : Text) : Option Flag :=
  Flag.all.find? fun f => l.scope.has f && f.long = name

def short? (l : Level) (c : Char) : Option Flag :=
  Flag.all.find? fun f => l.scope.has f && f.short? = some c

def value? (l : Level) (f : Flag) : Option Text := (l.values.find? (fun v => v.1 = f)).map Prod.snd

def complete (l : Level) : Bool :=
  l.positions.length = l.scope.positions && !(l.flags.contains .verbose && l.flags.contains .quiet)

end Level

/-- What one argument makes of a level: more of it, or an option that still needs its value. -/
inductive Taken where
  | done (l : Level)
  | needs (f : Flag) (l : Level)
  deriving DecidableEq, Repr

def takeLong (l : Level) (body : Text) : Except Stop Taken :=
  let name := body.takeWhile (· ≠ '=')
  match l.long? name, body.drop name.length with
  | none, _ => .error .rejected
  | some f, [] => if f.takesValue then .ok (.needs f l) else (l.addFlag f).map .done
  | some f, _ :: value =>
    if f.takesValue then (l.addValue f value).map .done else .error .rejected

/-- Takes short options that stand together. The rest behind one with a value is its value. -/
def takeShort (l : Level) : Text → Except Stop Taken
  | [] => .ok (.done l)
  | c :: cs =>
    match l.short? c with
    | none => .error .rejected
    | some f =>
      if f.takesValue then
        match cs with
        | [] => .ok (.needs f l)
        | '=' :: value => (l.addValue f value).map .done
        | value => (l.addValue f value).map .done
      else (l.addFlag f).bind fun l => takeShort l cs

def looksLikeOption : Text → Bool
  | '-' :: _ :: _ => true
  | _ => false

/-- Takes the arguments behind a lone `--`: all of them are positions. -/
def takePositions (l : Level) : List Text → Except Stop Level
  | [] => .ok l
  | a :: rest => (l.addPosition a).bind fun l => takePositions l rest

def takeOne (l : Level) (a : Text) : Except Stop Taken :=
  match a with
  | '-' :: '-' :: body => takeLong l body
  | '-' :: c :: cs => takeShort l (c :: cs)
  | a => (l.addPosition a).map .done

/-- Reads the arguments of a scope up to a subcommand, which is given back with what follows it. An
option without its value is in `pending`. -/
def readLevel (l : Level) (pending : Option Flag) :
    List Text → Except Stop (Level × Option (Scope × List Text))
  | [] => if pending.isSome then .error .rejected else .ok (l, none)
  | a :: rest =>
    match pending with
    | some f =>
      if looksLikeOption a && !f.takesAnything then .error .rejected
      else (l.addValue f a).bind fun l => readLevel l none rest
    | none =>
      match l.scope.sub? a with
      | some s => .ok (l, some (s, rest))
      | none =>
        if a = ['-', '-'] then (takePositions l rest).map (·, none)
        else
          (takeOne l a).bind fun
            | .done l => readLevel l none rest
            | .needs f l => readLevel l (some f) rest

/-- Reads a scope and those inside it, at most `fuel` deep; the outermost comes first. The inner
ones must be complete before an outer one is looked at. -/
def readLevels (fuel : Nat) (s : Scope) (args : List Text) : Except Stop (List Level) :=
  match fuel with
  | 0 => .error .rejected
  | fuel + 1 => do
    let (l, sub) ← readLevel (.start s) none args
    let inner ← match sub with
      | none => pure []
      | some (s, rest) => readLevels fuel s rest
    if l.complete then return l :: inner else .error .rejected

def command? (l : Level) : Option Command :=
  match l.scope, l.positions with
  | .parse, [e] => some (.parse e)
  | .sql, [e] =>
    some (.sql e (l.value? .suffix) ((l.value? .dialect).bind Dialect.ofName?)
      (l.flags.contains .quotesNames))
  | .ldap, [e] => some (.ldap e)
  | .mongo, [e] => some (.mongo e)
  | .eval, [e] => some (.eval e (l.value? .input))
  | .config, [] | .configShow, [] => some .showSettings
  | .configPath, [] => some .settingsPath
  | .configSet, [k, v] => some (.set k v)
  | .completions, [s] => (Shell.ofName? s).map .completions
  | _, _ => none

def switches (ls : List Level) : Switches :=
  let given (f : Flag) : Bool := ls.any (·.flags.contains f)
  ⟨given .verbose, given .quiet, given .json, given .noColor⟩

def read? (args : List Text) : Option Request :=
  match readLevels 3 .main args with
  | .error .rejected => none
  | .error (.version program) => some (.version program)
  | .ok ls => (ls.getLast?.bind command?).map (.run (switches ls))

end Arguments
end FilterLang
