import FilterLang.CommandLine.Run

/-!
What commands are planned to do. A command about a filter first reads its expression and then fails
with what is wrong with the filter or with the records; only setting a value saves the settings. The
switches decide on the report only.
-/
namespace FilterLang

namespace Plan

/-- Two plans that do the same and end with the same exit status, whatever they report. -/
inductive Agree : Plan → Plan → Prop
  | finish {r r' : Report} (exit : r.exit = r'.exit) : Agree (.finish r) (.finish r')
  | readRecords (file : Option Text) {next next' : Except FileFailure Text → Report}
      (exit : ∀ input, (next input).exit = (next' input).exit) :
      Agree (.readRecords file next) (.readRecords file next')
  | saveSettings (path content : Text) {next next' : Except SettingsError Unit → Report}
      (exit : ∀ outcome, (next outcome).exit = (next' outcome).exit) :
      Agree (.saveSettings path content next) (.saveSettings path content next')

theorem Agree.perform {p p' : Plan} (h : p.Agree p') (w : Workplace)
    (input : Except FileFailure Text) :
    (w.perform input p).1.exit = (w.perform input p').1.exit ∧
      (w.perform input p).2 = (w.perform input p').2 := by
  cases h with
  | finish exit => exact ⟨exit, rfl⟩
  | readRecords file exit => exact ⟨exit _, rfl⟩
  | saveSettings path content exit => exact ⟨exit _, rfl⟩

end Plan

namespace Report
variable {s s' : Switches} {x x' : Except CommandError Report}

theorem ofExcept_of_error {e : CommandError} (h : x.map exit = .error e) :
    ofExcept s x = failure s e := by
  cases x with
  | error e' =>
    cases h
    rfl
  | ok r => cases h

theorem exit_ofExcept_of_ok {n : Nat} (h : x.map exit = .ok n) : (ofExcept s x).exit = n := by
  cases x with
  | error e => cases h
  | ok r => exact Except.ok.inj h

private theorem exit_ofExcept (h : x.map exit = x'.map exit) :
    (ofExcept s x).exit = (ofExcept s' x').exit := by
  cases x with
  | error e =>
    rw [ofExcept_of_error h.symm]
    rfl
  | ok r => exact (exit_ofExcept_of_ok h.symm).symm

end Report

namespace Command

def expr? : Command → Option Text
  | parse expr | sql expr _ _ _ | ldap expr | mongo expr | eval expr _ => some expr
  | _ => none

theorem readFilter_of_ok {expr : Text} {f : Filter} (h : Filter.read expr = .ok f) :
    readFilter expr = .ok f := by
  rw [readFilter, h]
  rfl

private theorem readFilter_of_error {expr : Text} {e : FilterError}
    (h : Filter.read expr = .error e) : readFilter expr = .error (.filter e) := by
  rw [readFilter, h]
  rfl

/-- Whether a command can do with a filter what it is to do, without any records: its exit status or
what is wrong. Some filters have no search filter. -/
def render (f : Filter) : Command → Except CommandError Nat
  | ldap _ => (f.toLdap.mapError .filter).map fun _ => 0
  | _ => .ok 0

def readRecords (input : Except FileFailure Text) : Except CommandError (List Json) :=
  (input.mapError .unreadable).bind fun text =>
    match Json.read? text with
    | none => .error .notJson
    | some (.array records) => .ok records
    | some v => .error (.notRecords v)

theorem readRecords_ok (text : Text) :
    readRecords (.ok text) =
      match Json.read? text with
      | none => .error .notJson
      | some (.array records) => .ok records
      | some v => .error (.notRecords v) :=
  rfl

theorem exit_evalReport (c : Context) (f : Filter) (input : Except FileFailure Text) :
    (evalReport c f input).map Report.exit = (readRecords input).map fun _ => 0 := by
  cases input with
  | error e => rfl
  | ok text =>
    have htext : (Except.ok text : Except FileFailure Text).mapError CommandError.unreadable =
        .ok text := rfl
    rw [readRecords_ok, evalReport, htext]
    simp only [bind, Except.bind]
    cases Json.read? text with
    | none => rfl
    | some v => cases v <;> rfl

variable {settings : Settings} {c : Command} {expr : Text}

/-- A command about a filter that needs no records reads its expression and ends. -/
theorem exists_planFilter_eq (settings : Settings) (hexpr : c.expr? = some expr)
    (heval : ∀ file, c ≠ .eval expr file) :
    ∃ x : Switches → Except CommandError Report, ∀ s,
      planFilter ⟨s, settings⟩ c = .finish (.ofExcept s (x s)) ∧
        (x s).map Report.exit = (readFilter expr).bind (c.render ·) := by
  cases c with
  | parse =>
    cases hexpr
    refine ⟨fun s => parseReport ⟨s, settings⟩ expr, fun s => ⟨rfl, ?_⟩⟩
    unfold parseReport
    cases readFilter expr <;> rfl
  | sql _ suffix dialect quotesNames =>
    cases hexpr
    refine ⟨fun s => sqlReport ⟨s, settings⟩ expr suffix (sqlStyle settings dialect quotesNames),
      fun s => ⟨rfl, ?_⟩⟩
    unfold sqlReport
    cases readFilter expr <;> rfl
  | ldap =>
    cases hexpr
    refine ⟨fun s => ldapReport ⟨s, settings⟩ expr, fun s => ⟨rfl, ?_⟩⟩
    unfold ldapReport
    cases readFilter expr with
    | error e => rfl
    | ok f =>
      simp only [bind, Except.bind, render]
      cases f.toLdap <;> rfl
  | mongo =>
    cases hexpr
    refine ⟨fun s => mongoReport ⟨s, settings⟩ expr, fun s => ⟨rfl, ?_⟩⟩
    unfold mongoReport
    cases readFilter expr <;> rfl
  | eval _ file =>
    cases hexpr
    exact absurd rfl (heval file)
  | _ => cases hexpr

variable {s s' : Switches} {file : SettingsFile}

theorem plan_of_load_error {e : SettingsError} (h : file.load = .error e)
    (hpath : c ≠ .settingsPath) (hshell : ∀ shell, c ≠ .completions shell) :
    c.plan s (some file) = .finish (.failure s (.settings e)) := by
  cases c with
  | settingsPath => exact absurd rfl hpath
  | completions shell => exact absurd rfl (hshell shell)
  | showSettings | set =>
    simp only [plan, isLenient, planSettings, h]
    rfl
  | _ =>
    simp only [plan, isLenient, h]
    rfl

theorem plan_of_expr (h : file.load = .ok settings) (hexpr : c.expr? = some expr) :
    c.plan s (some file) = planFilter ⟨s, settings⟩ c := by
  cases c with
  | parse | sql | ldap | mongo | eval =>
    simp only [plan, isLenient, h]
    rfl
  | _ => cases hexpr

theorem plan_set (h : file.load = .ok settings) (key value : Text) :
    (Command.set key value).plan s (some file) =
      match Setting.read key value with
      | .error e => .finish (.failure s (.settings e))
      | .ok a => .saveSettings file.path (settings.apply a).write fun
        | .ok _ => setReport ⟨s, settings⟩ file key value
        | .error e => .failure s (.settings e) := by
  simp only [plan, isLenient, planSettings, h]
  cases Setting.read key value <;> rfl

/-- An expression that cannot be read ends a command before it reads any records. -/
theorem plan_of_expr_error {e : FilterError} (h : file.load = .ok settings)
    (hexpr : c.expr? = some expr) (hread : Filter.read expr = .error e) :
    c.plan s (some file) = .finish (.failure s (.filter e)) := by
  rw [plan_of_expr h hexpr]
  by_cases heval : ∃ file, c = .eval expr file
  · obtain ⟨records, rfl⟩ := heval
    rw [planFilter, readFilter_of_error hread]
  · obtain ⟨x, hx⟩ := exists_planFilter_eq settings hexpr (not_exists.mp heval)
    obtain ⟨hplan, hexit⟩ := hx s
    rw [readFilter_of_error hread] at hexit
    rw [hplan, Report.ofExcept_of_error hexit]

private theorem planFilter_agree (s s' : Switches) (settings : Settings)
    (hexpr : c.expr? = some expr) :
    (planFilter ⟨s, settings⟩ c).Agree (planFilter ⟨s', settings⟩ c) := by
  by_cases heval : ∃ file, c = .eval expr file
  · obtain ⟨records, rfl⟩ := heval
    rw [planFilter, planFilter]
    cases readFilter expr with
    | error e => exact .finish rfl
    | ok f =>
      refine .readRecords records fun input => Report.exit_ofExcept ?_
      rw [exit_evalReport, exit_evalReport]
  · obtain ⟨x, hx⟩ := exists_planFilter_eq settings hexpr (not_exists.mp heval)
    rw [(hx s).1, (hx s').1]
    exact .finish (Report.exit_ofExcept ((hx s).2.trans (hx s').2.symm))

/-- The switches decide neither on what a command does nor on its exit status. -/
theorem plan_agree (s s' : Switches) (file : Option SettingsFile) (c : Command) :
    (c.plan s file).Agree (c.plan s' file) := by
  cases file with
  | none => cases c <;> exact .finish rfl
  | some file =>
    cases hload : file.load with
    | error e =>
      by_cases hend : c = .settingsPath ∨ ∃ shell, c = .completions shell
      · rcases hend with rfl | ⟨shell, rfl⟩ <;> exact .finish rfl
      · obtain ⟨hpath, hshell⟩ := not_or.mp hend
        rw [plan_of_load_error hload hpath (not_exists.mp hshell),
          plan_of_load_error hload hpath (not_exists.mp hshell)]
        exact .finish rfl
    | ok settings =>
      cases hexpr : c.expr? with
      | some expr =>
        rw [plan_of_expr hload hexpr, plan_of_expr hload hexpr]
        exact planFilter_agree s s' settings hexpr
      | none =>
        cases c with
        | set key value =>
          rw [plan_set hload, plan_set hload]
          cases Setting.read key value with
          | error e => exact .finish rfl
          | ok a => exact .saveSettings _ _ fun outcome => by cases outcome <;> rfl
        | showSettings =>
          refine .finish (Report.exit_ofExcept ?_)
          rw [hload]
          rfl
        | settingsPath | completions => exact .finish rfl
        | _ => cases hexpr

/-- Only the command that sets a value saves the settings. -/
theorem eq_set_of_plan {file : Option SettingsFile} {path content : Text}
    {next : Except SettingsError Unit → Report}
    (h : c.plan s file = .saveSettings path content next) : ∃ key value, c = .set key value := by
  cases file with
  | none => cases c <;> cases h
  | some file =>
    cases c with
    | set key value => exact ⟨key, value, rfl⟩
    | showSettings | settingsPath | completions => cases h
    | parse | sql | ldap | mongo =>
      simp only [plan, isLenient, Bool.false_eq_true, if_false] at h
      split at h <;> cases h
    | eval =>
      simp only [plan, isLenient, Bool.false_eq_true, if_false, planFilter] at h
      split at h
      · cases h
      · split at h <;> cases h

end Command

end FilterLang
