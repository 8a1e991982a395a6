import FilterLang.CommandLine.Environment
import FilterLang.CommandLine.Plan

/-!
The program: it carries out the plan of its command line on the files around it.
-/
namespace FilterLang.Program

/-- The cause of a failure. The system's number for it comes with either sign. -/
def failureOf : IO.Error → FileFailure
  | .noFileOrDirectory .. => .missing
  | .alreadyExists .. => .occupied
  | .inappropriateType _ code _ => if code = 21 then .isDirectory else .notDirectory
  | e@(.invalidArgument _ code _) =>
    if code = 36 ∨ -code = 36 then .nameTooLong else .other e.toString.toList
  | .permissionDenied .. => .other "Permission denied (os error 13)".toList
  | e => .other e.toString.toList

def valueOf (variableName : String) : IO (Option Text) := do
  return (← IO.getEnv variableName).map String.toList

def environment : IO Environment := do
  return ⟨← valueOf "DFQ_CONFIG", ← valueOf "XDG_CONFIG_HOME", ← valueOf "HOME"⟩

def readText (bytes : IO ByteArray) : IO (Except FileFailure Text) := do
  try
    match String.fromUTF8? (← bytes) with
    | some s => return .ok s.toList
    | none => return .error .notText
  catch e => return .error (failureOf e)

def readFile (path : Text) : IO (Except FileFailure Text) :=
  readText (IO.FS.readBinFile (String.ofList path))

partial def readStream (input : IO.FS.Stream) (before : ByteArray) : IO ByteArray := do
  let more ← input.read 65536
  if more.isEmpty then return before else readStream input (before ++ more)

def settingsFile (path : Text) : IO SettingsFile := do
  return ⟨path, match ← readFile path with
    | .ok text => .ok (some text)
    | .error .missing | .error .notDirectory | .error .nameTooLong => .ok none
    | .error failure => .error failure⟩

def ensure (path : String) : IO (Except FileFailure Unit) := do
  try
    IO.FS.createDir path
    return .ok ()
  catch e =>
    if failureOf e ≠ .occupied then return .error (failureOf e)
    try
      IO.FS.createDirAll path
      return .ok ()
    catch _ => return .error .occupied

def ensureAll (start : Text) : List Text → IO (Except FileFailure Unit)
  | [] => return .ok ()
  | name :: outer => do
    let path := String.ofList (start ++ List.intercalate ['/'] (name :: outer).reverse)
    match ← ensure path with
    | .error .missing =>
      match ← ensureAll start outer with
      | .ok () => ensure path
      | failed => return failed
    | made => return made

def save (path content : Text) : IO (Except SettingsError Unit) := do
  let names := (path.splitOn '/').filter fun part => part ≠ [] ∧ part ≠ ['.']
  match ← ensureAll (path.takeWhile (· = '/')) names.reverse.tail with
  | .error failure => return .error (.noDirectory failure)
  | .ok () =>
    try
      IO.FS.writeFile (String.ofList path) (String.ofList content)
      return .ok ()
    catch e => return .error (.unwritable (failureOf e))

def carryOut : Plan → IO Report
  | .finish report => return report
  | .readRecords (some path) next => return next (← readFile path)
  | .readRecords none next => do
    return next (← readText do readStream (← IO.getStdin) .empty)
  | .saveSettings path content next => return next (← save path content)

def run (args : List String) : IO Report := do
  let file ← match (← environment).settingsPath? with
    | some path => pure (some (← settingsFile path))
    | none => pure none
  carryOut (Request.plan file (args.map String.toList))

end FilterLang.Program

def main (args : List String) : IO UInt32 := do
  let report ← FilterLang.Program.run args
  IO.print (String.ofList report.stdout)
  IO.eprint (String.ofList report.stderr)
  return report.exit.toUInt32
