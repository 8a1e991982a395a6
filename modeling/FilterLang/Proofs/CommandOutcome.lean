import FilterLang.Proofs.CommandPlanning
import FilterLang.Proofs.FileSaving
import FilterLang.Proofs.SwitchReading

/-!
How commands end. A command fails at the first of its stages that cannot be done, which decides the
exit status; whatever fails prints nothing on the first output and leaves all texts as they were.
The switches decide on the report only.
-/
namespace FilterLang

namespace Workplace
variable {w : Workplace} {path : Text} {input : Except FileFailure Text}

/-- The stage at which a command fails in a workplace, and the exit status for it. Each stage needs
those before it: the settings, then the expression, then what is to be made of the filter or of the
records. -/
inductive Fails (w : Workplace) (path : Text) (input : Except FileFailure Text) :
    Command → ℕ → Prop
  | settings {c : Command} {e : SettingsError} (hload : (w.settingsFile path).load = .error e)
      (hpath : c ≠ .settingsPath) : Fails w path input c 5
  | expression {s : Settings} {c : Command} {expr : Text} {e : FilterError}
      (hload : (w.settingsFile path).load = .ok s) (hexpr : c.expr? = some expr)
      (hread : Filter.read expr = .error e) : Fails w path input c 1
  | mixed {s : Settings} {expr : Text} {f : Filter} {e : FilterError}
      (hload : (w.settingsFile path).load = .ok s) (hread : Filter.read expr = .ok f)
      (hldap : f.toLdap = .error e) : Fails w path input (.ldap expr) 1
  | unreadable {s : Settings} {expr : Text} {f : Filter} {file : Option Text} {e : FileFailure}
      (hload : (w.settingsFile path).load = .ok s) (hread : Filter.read expr = .ok f)
      (hinput : w.records input file = .error e) : Fails w path input (.eval expr file) 3
  | notJson {s : Settings} {expr : Text} {f : Filter} {file : Option Text} {text : Text}
      (hload : (w.settingsFile path).load = .ok s) (hread : Filter.read expr = .ok f)
      (hinput : w.records input file = .ok text) (hjson : Json.read? text = none) :
      Fails w path input (.eval expr file) 1
  | notArray {s : Settings} {expr : Text} {f : Filter} {file : Option Text} {text : Text} {v : Json}
      (hload : (w.settingsFile path).load = .ok s) (hread : Filter.read expr = .ok f)
      (hinput : w.records input file = .ok text) (hjson : Json.read? text = some v)
      (harray : ∀ records, v ≠ .array records) : Fails w path input (.eval expr file) 3
  | rejected {s : Settings} {key value : Text} {e : SettingsError}
      (hload : (w.settingsFile path).load = .ok s) (hset : Setting.read key value = .error e) :
      Fails w path input (.set key value) 5
  | unsaved {s : Settings} {key value : Text} {a : Setting} {e : SettingsError}
      (hload : (w.settingsFile path).load = .ok s) (hset : Setting.read key value = .ok a)
      (hsave : (w.save path (s.apply a).write).2 = .error e) : Fails w path input (.set key value) 5

private theorem perform_eval {settings : Settings} {s : Switches} {expr : Text} {file : Option Text}
    {f : Filter} (hload : (w.settingsFile path).load = .ok settings)
    (hread : Filter.read expr = .ok f) :
    w.perform input ((Command.eval expr file).plan s (some (w.settingsFile path))) =
      (.ofExcept s (Command.evalReport ⟨s, settings⟩ f (w.records input file)), w) := by
  rw [Command.plan_of_expr hload rfl, Command.planFilter, Command.readFilter_of_ok hread]
  rfl

theorem perform_set {settings : Settings} {s : Switches} {key value : Text} {a : Setting}
    (hload : (w.settingsFile path).load = .ok settings) (hset : Setting.read key value = .ok a) :
    w.perform input ((Command.set key value).plan s (some (w.settingsFile path))) =
      (match (w.save path (settings.apply a).write).2 with
        | .ok _ => Command.setReport ⟨s, settings⟩ (w.settingsFile path) key value
        | .error e => .failure s (.settings e), (w.save path (settings.apply a).write).1) := by
  rw [Command.plan_set hload, hset]
  rfl

private theorem Fails.exists_report {c : Command} {n : ℕ} (h : w.Fails path input c n)
    (hshell : ∀ shell, c ≠ .completions shell) (s : Switches) :
    ∃ e : CommandError, e.exit = n ∧
      (w.perform input (c.plan s (some (w.settingsFile path)))).1 = .failure s e := by
  cases h with
  | settings hload hpath =>
    exact ⟨_, rfl, by rw [Command.plan_of_load_error hload hpath hshell]; rfl⟩
  | expression hload hexpr hread =>
    exact ⟨_, rfl, by rw [Command.plan_of_expr_error hload hexpr hread]; rfl⟩
  | @mixed settings _ _ e hload hread hldap =>
    obtain ⟨x, hx⟩ := Command.exists_planFilter_eq settings (c := .ldap _) rfl nofun
    obtain ⟨hplan, hexit⟩ := hx s
    rw [Command.readFilter_of_ok hread, Except.bind, Command.render, hldap] at hexit
    refine ⟨.filter e, rfl, ?_⟩
    rw [Command.plan_of_expr hload rfl, hplan]
    exact Report.ofExcept_of_error hexit
  | @unreadable _ _ _ _ e hload hread hinput =>
    refine ⟨.unreadable e, rfl, ?_⟩
    rw [perform_eval hload hread, hinput]
    rfl
  | notJson hload hread hinput hjson =>
    refine ⟨.notJson, rfl, ?_⟩
    rw [perform_eval hload hread, Report.ofExcept_of_error]
    rw [Command.exit_evalReport, hinput, Command.readRecords_ok, hjson]
    rfl
  | @notArray _ _ _ _ _ v hload hread hinput hjson harray =>
    refine ⟨.notRecords v, rfl, ?_⟩
    rw [perform_eval hload hread, Report.ofExcept_of_error]
    rw [Command.exit_evalReport, hinput, Command.readRecords_ok, hjson]
    cases v with
    | array records => exact absurd rfl (harray records)
    | _ => rfl
  | @rejected _ _ _ e hload hset =>
    refine ⟨.settings e, rfl, ?_⟩
    rw [Command.plan_set hload, hset]
    rfl
  | @unsaved _ _ _ _ e hload hset hsave =>
    refine ⟨.settings e, rfl, ?_⟩
    rw [perform_set hload hset, hsave]

private theorem exit_eval {settings : Settings} {s : Switches} {expr : Text} {file : Option Text}
    {f : Filter} (hload : (w.settingsFile path).load = .ok settings)
    (hread : Filter.read expr = .ok f) :
    (w.perform input ((Command.eval expr file).plan s (some (w.settingsFile path)))).1.exit = 0 ∨
      ∃ n, w.Fails path input (.eval expr file) n := by
  cases hinput : w.records input file with
  | error e => exact .inr ⟨3, .unreadable hload hread hinput⟩
  | ok text =>
    cases hjson : Json.read? text with
    | none => exact .inr ⟨1, .notJson hload hread hinput hjson⟩
    | some v =>
      by_cases harray : ∃ records, v = .array records
      · obtain ⟨records, rfl⟩ := harray
        left
        rw [perform_eval hload hread, hinput]
        apply Report.exit_ofExcept_of_ok
        rw [Command.exit_evalReport, Command.readRecords_ok, hjson]
        rfl
      · exact .inr ⟨3, .notArray hload hread hinput hjson (not_exists.mp harray)⟩

private theorem exit_expr {settings : Settings} {s : Switches} {c : Command} {expr : Text}
    {f : Filter} (hload : (w.settingsFile path).load = .ok settings) (hexpr : c.expr? = some expr)
    (heval : ∀ file, c ≠ .eval expr file) (hread : Filter.read expr = .ok f) :
    (w.perform input (c.plan s (some (w.settingsFile path)))).1.exit = 0 ∨
      ∃ n, w.Fails path input c n := by
  obtain ⟨x, hx⟩ := Command.exists_planFilter_eq settings hexpr heval
  obtain ⟨hplan, hexit⟩ := hx s
  rw [Command.readFilter_of_ok hread] at hexit
  rw [Command.plan_of_expr hload hexpr, hplan]
  by_cases hldap : c = .ldap expr ∧ ∃ e, f.toLdap = .error e
  · obtain ⟨rfl, e, he⟩ := hldap
    exact .inr ⟨1, .mixed hload hread he⟩
  · have hrender : c.render f = .ok 0 := by
      cases c with
      | ldap expr' =>
        cases hexpr
        cases hf : f.toLdap with
        | error e => exact absurd ⟨rfl, e, hf⟩ hldap
        | ok text =>
          rw [Command.render, hf]
          rfl
      | _ => rfl
    exact .inl (Report.exit_ofExcept_of_ok (hexit.trans hrender))

/-- A command ends with zero unless one of its stages fails. -/
theorem exit_eq_zero_or_fails (w : Workplace) (path : Text) (input : Except FileFailure Text)
    (s : Switches) (c : Command) :
    (w.perform input (c.plan s (some (w.settingsFile path)))).1.exit = 0 ∨
      ∃ n, w.Fails path input c n := by
  by_cases hpath : c = .settingsPath
  · subst hpath
    exact .inl rfl
  cases hload : (w.settingsFile path).load with
  | error e => exact .inr ⟨5, .settings hload hpath⟩
  | ok settings =>
    cases hexpr : c.expr? with
    | some expr =>
      cases hread : Filter.read expr with
      | error e => exact .inr ⟨1, .expression hload hexpr hread⟩
      | ok f =>
        by_cases heval : ∃ file, c = .eval expr file
        · obtain ⟨file, rfl⟩ := heval
          exact exit_eval hload hread
        · exact exit_expr hload hexpr (not_exists.mp heval) hread
    | none =>
      cases c with
      | set key value =>
        cases hset : Setting.read key value with
        | error e => exact .inr ⟨5, .rejected hload hset⟩
        | ok a =>
          cases hsave : (w.save path (settings.apply a).write).2 with
          | error e => exact .inr ⟨5, .unsaved hload hset hsave⟩
          | ok u =>
            left
            rw [perform_set hload hset, hsave]
            rfl
      | showSettings =>
        left
        refine Report.exit_ofExcept_of_ok ?_
        rw [hload]
        rfl
      | settingsPath | completions => exact .inl rfl
      | _ => cases hexpr

/-- The exit status of a command is that of the stage that fails. -/
theorem exit_eq_iff_fails {c : Command} (hshell : ∀ shell, c ≠ .completions shell) (s : Switches)
    (n : ℕ) :
    (w.perform input (c.plan s (some (w.settingsFile path)))).1.exit = n ∧ n ≠ 0 ↔
      w.Fails path input c n := by
  constructor
  · rintro ⟨rfl, hn⟩
    rcases w.exit_eq_zero_or_fails path input s c with hzero | ⟨n, hfails⟩
    · exact absurd hzero hn
    · obtain ⟨e, rfl, hreport⟩ := hfails.exists_report hshell s
      rw [hreport]
      exact hfails
  · intro hfails
    obtain ⟨e, rfl, hreport⟩ := hfails.exists_report hshell s
    rw [hreport]
    exact ⟨rfl, by cases e <;> exact Nat.succ_ne_zero _⟩

private theorem stdout_of_exit_ne_zero {c : Command} (hshell : ∀ shell, c ≠ .completions shell)
    {s : Switches} (h : (w.perform input (c.plan s (some (w.settingsFile path)))).1.exit ≠ 0) :
    (w.perform input (c.plan s (some (w.settingsFile path)))).1.stdout = [] := by
  obtain ⟨e, -, hreport⟩ := ((exit_eq_iff_fails hshell s _).mp ⟨rfl, h⟩).exists_report hshell s
  rw [hreport]
  rfl

/-- A command changes nothing unless it sets a value. -/
theorem perform_eq_or_set (w : Workplace) (path : Text) (input : Except FileFailure Text)
    (s : Switches) (c : Command) :
    (w.perform input (c.plan s (some (w.settingsFile path)))).2 = w ∨
      ∃ key value settings a, c = .set key value ∧
        (w.settingsFile path).load = .ok settings ∧ Setting.read key value = .ok a := by
  cases hplan : c.plan s (some (w.settingsFile path)) with
  | finish r => exact .inl rfl
  | readRecords file next => exact .inl rfl
  | saveSettings target content next =>
    obtain ⟨key, value, rfl⟩ := Command.eq_set_of_plan hplan
    cases hload : (w.settingsFile path).load with
    | error e =>
      rw [Command.plan_of_load_error (c := .set key value) hload nofun nofun] at hplan
      cases hplan
    | ok settings =>
      cases hset : Setting.read key value with
      | error e =>
        rw [Command.plan_set hload, hset] at hplan
        cases hplan
      | ok a => exact .inr ⟨key, value, settings, a, rfl, rfl, hset⟩

private theorem grows_of_save {w' : Workplace} {content : Text} {e : SettingsError}
    (h : w.save path content = (w', .error e)) : w.directory.Grows w'.directory := by
  rw [save_eq] at h
  split at h
  · next hd =>
    cases h
    exact Directory.grows_of_ensureAll hd
  · next hd =>
    split at h
    · cases h
      exact Directory.grows_of_ensureAll hd
    · cases h

private theorem settingsText?_of_save {w' : Workplace} {content : Text} {e : SettingsError}
    (hpath : w.environment.settingsPath? = some path)
    (h : w.save path content = (w', .error e)) :
    w'.settingsText? = w.settingsText? := by
  have hnone (v : Workplace) (henv : v.environment = w.environment)
      (hread : ∀ t, v.directory.read v.name path ≠ .ok t) : v.settingsText? = none := by
    rw [settingsText?, henv, hpath]
    cases ht : v.directory.read v.name path with
    | error f =>
      simp only [Option.bind_some, ht]
      rfl
    | ok t => exact absurd ht (hread t)
  have henv : w'.environment = w.environment := by
    obtain ⟨d, hd⟩ := w.exists_directory_of_save path content
    have hw : w' = { w with directory := d } := by rwa [h] at hd
    rw [hw]
  rw [hnone w' henv fun t => (not_read_of_save h t).2,
    hnone w rfl fun t => (not_read_of_save h t).1]

/-- A command that fails prints nothing, and changes no text. -/
theorem unchanged_of_exit_ne_zero (hpath : w.environment.settingsPath? = some path)
    {s : Switches} {c : Command}
    (h : (w.perform input (c.plan s (some (w.settingsFile path)))).1.exit ≠ 0) :
    (w.perform input (c.plan s (some (w.settingsFile path)))).2.settingsText? = w.settingsText? ∧
      w.directory.Grows (w.perform input (c.plan s (some (w.settingsFile path)))).2.directory := by
  rcases w.perform_eq_or_set path input s c with heq | ⟨key, value, settings, a, rfl, hload, hset⟩
  · rw [heq]
    exact ⟨rfl, .refl _⟩
  · rw [perform_set hload hset] at h ⊢
    cases hsave : (w.save path (settings.apply a).write).2 with
    | ok u =>
      rw [hsave] at h
      exact absurd rfl h
    | error e =>
      have hfail : w.save path (settings.apply a).write =
          ((w.save path (settings.apply a).write).1, .error e) := Prod.ext rfl hsave
      exact ⟨settingsText?_of_save hpath hfail, grows_of_save hfail⟩

/-- Only a value that is set with success changes the settings. -/
theorem set_of_settingsText?_ne (hpath : w.environment.settingsPath? = some path)
    {s : Switches} {c : Command}
    (h : (w.perform input (c.plan s (some (w.settingsFile path)))).2.settingsText? ≠
      w.settingsText?) :
    (w.perform input (c.plan s (some (w.settingsFile path)))).1.exit = 0 ∧
      ∃ key value, c = .set key value := by
  constructor
  · by_contra hexit
    exact h (unchanged_of_exit_ne_zero hpath hexit).1
  · rcases w.perform_eq_or_set path input s c with heq | ⟨key, value, _, _, hc, -⟩
    · rw [heq] at h
      exact absurd rfl h
    · exact ⟨key, value, hc⟩

private theorem exists_finish_of_expr_error (file : SettingsFile) {s : Switches} {c : Command}
    {expr : Text} {e : FilterError} (hexpr : c.expr? = some expr)
    (hread : Filter.read expr = .error e) (hshell : ∀ shell, c ≠ .completions shell) :
    ∃ r, c.plan s (some file) = .finish r := by
  cases hload : file.load with
  | error e =>
    have hpath : c ≠ .settingsPath := by
      rintro rfl
      cases hexpr
    exact ⟨_, Command.plan_of_load_error hload hpath hshell⟩
  | ok settings => exact ⟨_, Command.plan_of_expr_error hload hexpr hread⟩

theorem runOn_of_run {args : List Text} {s : Switches} {c : Command}
    (hpath : w.environment.settingsPath? = some path)
    (hread : Arguments.read? args = some (.run s c)) (input : Except FileFailure Text) :
    w.runOn args input = w.perform input (c.plan s (some (w.settingsFile path))) := by
  rw [runOn, Request.plan, hread, hpath]
  rfl

theorem runOn_of_version {args : List Text} {program : Text}
    (hread : Arguments.read? args = some (.version program)) (w : Workplace)
    (input : Except FileFailure Text) :
    w.runOn args input = (.success (program ++ " 0.1.0\n".toList), w) := by
  rw [runOn, Request.plan, hread]
  rfl

end Workplace

def Request.withJson : Request → Request
  | run s c => run { s with json := true } c
  | version program => version program

namespace Workplace

/-- How a command line ends. The first stage that fails decides the exit status; then nothing is
printed, the settings keep their text, and nothing but directories has been made. Only setting a
value changes the settings. An expression that is wrong is found before any records are read, and
the switch for JSON changes the report only. -/
theorem outcome_of_stages {w : Workplace} {path : Text} {args : List Text} {request : Request}
    (hpath : w.environment.settingsPath? = some path)
    (hread : Arguments.read? args = some request)
    (hshell : ∀ s shell, request ≠ .run s (.completions shell))
    (input : Except FileFailure Text) :
    (∀ n, (w.runOn args input).1.exit = n ∧ n ≠ 0 ↔
      ∃ s c, request = .run s c ∧ w.Fails path input c n) ∧
    ((w.runOn args input).1.exit ≠ 0 →
      (w.runOn args input).1.stdout = [] ∧
      (w.runOn args input).2.settingsText? = w.settingsText? ∧
      w.directory.Grows (w.runOn args input).2.directory) ∧
    ((w.runOn args input).2.settingsText? ≠ w.settingsText? →
      (w.runOn args input).1.exit = 0 ∧ ∃ s key value, request = .run s (.set key value)) ∧
    (∀ s c expr e, request = .run s c → c.expr? = some expr → Filter.read expr = .error e →
      ∃ r, Request.plan (some (w.settingsFile path)) args = .finish r) ∧
    (∀ args', Arguments.read? args' = some request.withJson →
      (w.runOn args' input).1.exit = (w.runOn args input).1.exit ∧
      (w.runOn args' input).2 = (w.runOn args input).2) ∧
    ∀ s c, request = .run s c → s.json = false →
      Arguments.read? ("--json".toList :: args) = some request.withJson := by
  cases request with
  | version program =>
    have hzero : (w.runOn args input).1.exit = 0 := by rw [runOn_of_version hread]; rfl
    have hsame : (w.runOn args input).2 = w := by rw [runOn_of_version hread]
    refine ⟨fun n => ⟨?_, ?_⟩, fun h => absurd hzero h, fun h => ?_, ?_, fun args' hread' => ?_, ?_⟩
    · rintro ⟨rfl, hn⟩
      exact absurd hzero hn
    · rintro ⟨_, _, h, -⟩
      cases h
    · rw [hsame] at h
      exact absurd rfl h
    · rintro _ _ _ _ ⟨⟩
    · rw [runOn_of_version hread', runOn_of_version hread]
      exact ⟨rfl, rfl⟩
    · rintro _ _ ⟨⟩
  | run s c =>
    have hc : ∀ shell, c ≠ .completions shell := by
      rintro shell rfl
      exact hshell s shell rfl
    rw [runOn_of_run hpath hread]
    refine ⟨fun n => (exit_eq_iff_fails hc s n).trans ⟨fun h => ⟨s, c, rfl, h⟩, ?_⟩,
      fun h => ⟨stdout_of_exit_ne_zero hc h, unchanged_of_exit_ne_zero hpath h⟩,
      fun h => ?_, ?_, fun args' hread' => ?_, ?_⟩
    · rintro ⟨s, c, ⟨⟩, h⟩
      exact h
    · obtain ⟨hzero, key, value, rfl⟩ := set_of_settingsText?_ne hpath h
      exact ⟨hzero, s, key, value, rfl⟩
    · rintro s c expr e ⟨⟩ hexpr hfilter
      rw [Request.plan, hread]
      exact exists_finish_of_expr_error (w.settingsFile path) hexpr hfilter hc
    · rw [runOn_of_run hpath hread']
      exact (Command.plan_agree _ _ _ c).perform w input
    · rintro s c ⟨⟩ hjson
      exact Arguments.read?_json_cons hread hjson

/-- A settings file whose path ends in a separator cannot be written, and by then the directory
around it has been made. -/
theorem outcome_of_set_at_directory :
    let w : Workplace := ⟨.empty, "/work".toList, ⟨some "new/settings/".toList, none, none⟩⟩
    let args := ["config".toList, "set".toList, "output.color".toList, "NO".toList]
    let request := Request.run ⟨false, false, false, false⟩ (.set "output.color".toList "NO".toList)
    w.environment.settingsPath? = some "new/settings/".toList ∧
      Arguments.read? args = some request ∧
      (∀ s shell, request ≠ .run s (.completions shell)) ∧
      (w.runOn args (.ok [])).1.exit = 5 ∧ (w.runOn args (.ok [])).1.stdout = [] ∧
      w.directory.Grows (w.runOn args (.ok [])).2.directory ∧
      (w.runOn args (.ok [])).2.directory.node? ["new".toList] = some .directory ∧
      (w.runOn ("--json".toList :: args) (.ok [])).1.exit = 5 := by
  intro w args request
  have hpath : w.environment.settingsPath? = some "new/settings/".toList := rfl
  have hread : Arguments.read? args = some request := by decide
  have hshell : ∀ s shell, request ≠ .run s (.completions shell) := by simp [request]
  obtain ⟨hexit, hfail, -, -, hsame, hjson⟩ := outcome_of_stages hpath hread hshell (.ok [])
  have hfails : w.Fails "new/settings/".toList (.ok [])
      (.set "output.color".toList "NO".toList) 5 :=
    .unsaved (s := .empty) (a := .color false) (e := .unwritable .isDirectory) rfl rfl rfl
  obtain ⟨h5, -⟩ := (hexit 5).mpr ⟨_, _, rfl, hfails⟩
  have hne : (w.runOn args (.ok [])).1.exit ≠ 0 := by
    rw [h5]
    decide
  obtain ⟨hstdout, -, hgrows⟩ := hfail hne
  have hjson5 := (hsame _ (hjson _ _ rfl rfl)).1
  refine ⟨hpath, hread, hshell, h5, hstdout, hgrows, ?_, hjson5.trans h5⟩
  decide +kernel

end Workplace
end FilterLang
