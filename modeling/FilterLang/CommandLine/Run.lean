import FilterLang.CommandLine.Environment
import FilterLang.CommandLine.Plan

/-!
Running a command line in a directory that is held in memory.
-/
namespace FilterLang

structure Workplace where
  directory : Directory
  name : Text
  environment : Environment

namespace Workplace

/-- The settings file as it is now. A path that leads nowhere is a file that is not there. -/
def settingsFile (w : Workplace) (path : Text) : SettingsFile :=
  ⟨path,
    match w.directory.look w.name path with
    | .error _ => .ok none
    | .ok _ => (w.directory.read w.name path).map some⟩

def settingsText? (w : Workplace) : Option Text :=
  w.environment.settingsPath?.bind fun path => (w.directory.read w.name path).toOption

/-- Writes the settings file, and first makes the directories around it that are missing. Those stay
even if the file cannot be written. -/
def save (w : Workplace) (path content : Text) : Workplace × Except SettingsError Unit :=
  let (place, parts) := Directory.start w.name path
  let names := parts.filter fun part => part ≠ [] ∧ part ≠ ['.']
  match w.directory.ensureAll place names.reverse.tail with
  | (d, .error f) => ({ w with directory := d }, .error (.noDirectory f))
  | (d, .ok ()) =>
    match d.write place parts content with
    | .error f => ({ w with directory := d }, .error (.unwritable f))
    | .ok d => ({ w with directory := d }, .ok ())

/-- The records: what is given as input, or a file of the directory. Of the files elsewhere two are
known, the input itself and one that is always empty. -/
def records (w : Workplace) (input : Except FileFailure Text) :
    Option Text → Except FileFailure Text
  | none => input
  | some path =>
    if path = "/dev/stdin".toList then input
    else if path = "/dev/null".toList then .ok []
    else w.directory.read w.name path

/-- Carries out a plan on an input, which may turn out to be no text. -/
def perform (w : Workplace) (input : Except FileFailure Text) : Plan → Report × Workplace
  | .finish r => (r, w)
  | .readRecords file next => (next (w.records input file), w)
  | .saveSettings path content next =>
    let (after, outcome) := w.save path content
    (next outcome, after)

def runOn (w : Workplace) (args : List Text) (input : Except FileFailure Text) :
    Report × Workplace :=
  w.perform input (Request.plan (w.environment.settingsPath?.map w.settingsFile) args)

def run (w : Workplace) (args : List Text) (input : Text) : Report × Workplace :=
  w.runOn args (.ok input)

end Workplace
end FilterLang
