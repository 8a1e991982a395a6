import FilterLang.Proofs.CommandOutcome
import FilterLang.Proofs.SettingsText

/-!
Settings over many runs. Each command line that sets a value is a read, a change and a rewrite of
the settings file; in the end the file holds the settings that were there before, changed by those
that were accepted, the last one for each key.
-/
namespace FilterLang

inductive Setting.Key where
  | dialect
  | quotesNames
  | color
  | pretty
  deriving DecidableEq, Repr

namespace Setting

def Key.name : Key → Text
  | dialect => "sql.dialect".toList
  | quotesNames => "sql.quote_identifiers".toList
  | color => "output.color".toList
  | pretty => "output.pretty".toList

def key : Setting → Key
  | dialect _ => .dialect
  | quotesNames _ => .quotesNames
  | color _ => .color
  | pretty _ => .pretty

def words : Bool → List Text
  | true => ["true".toList, "yes".toList, "1".toList, "on".toList]
  | false => ["false".toList, "no".toList, "0".toList, "off".toList]

/-- Whether a text gives the value of a setting, in any mixture of cases: the name of the dialect,
or one of the words for the truth value. -/
def IsGivenBy (value : Text) : Setting → Prop
  | dialect d => Text.asciiLower value = d.name
  | quotesNames b | color b | pretty b => Text.lower value ∈ words b

theorem readBool_eq_ok_iff {value : Text} {b : Bool} :
    readBool value = .ok b ↔ Text.lower value ∈ words b := by
  have hyes : ["true".toList, "yes".toList, "1".toList, "on".toList] = words true := rfl
  have hno : ["false".toList, "no".toList, "0".toList, "off".toList] = words false := rfl
  have hdisjoint : ∀ w ∈ words true, w ∉ words false := by decide
  unfold readBool
  simp only [hyes, hno, List.contains_iff_mem]
  split
  · next htrue =>
    cases b with
    | true => simp [htrue]
    | false => simp [hdisjoint _ htrue]
  · next htrue =>
    split
    · next hfalse =>
      cases b with
      | true => simp [htrue]
      | false => simp [hfalse]
    · next hfalse => cases b <;> simp [htrue, hfalse]

private theorem ofAnyCase?_eq_some_iff {value : Text} {d : Dialect} :
    Dialect.ofAnyCase? value = some d ↔ Text.asciiLower value = d.name := by
  unfold Dialect.ofAnyCase? Dialect.ofName?
  constructor
  · intro h
    have hname := List.find?_some h
    exact (of_decide_eq_true hname).symm
  · intro h
    rw [h]
    cases d <;> rfl

theorem Key.name_injective : Function.Injective Key.name := by
  have hne : ∀ k k' : Key, k ≠ k' → k.name ≠ k'.name := by
    intro k k'
    cases k <;> cases k' <;> decide
  intro k k' h
  by_contra hk
  exact hne k k' hk h

private theorem read_name (k : Key) (value : Text) :
    Setting.read k.name value =
      match k with
      | .dialect =>
        match Dialect.ofAnyCase? value with
        | some d => .ok (.dialect d)
        | none => .error (.unknownDialect value)
      | .quotesNames => (readBool value).map .quotesNames
      | .color => (readBool value).map .color
      | .pretty => (readBool value).map .pretty := by
  cases k <;> rfl

private theorem read_unknown {key : Text} (h : ∀ k : Key, k.name ≠ key) (value : Text) :
    Setting.read key value = .error (.unknownKey key) := by
  rw [Setting.read, if_neg fun heq => h .dialect heq.symm,
    if_neg fun heq => h .quotesNames heq.symm, if_neg fun heq => h .color heq.symm,
    if_neg fun heq => h .pretty heq.symm]

/-- A setting is read from its key and a text that gives its value, and from nothing else. -/
theorem read_eq_ok_iff {key value : Text} {a : Setting} :
    Setting.read key value = .ok a ↔ a.key.name = key ∧ a.IsGivenBy value := by
  by_cases hkey : ∃ k : Key, k.name = key
  · obtain ⟨k, rfl⟩ := hkey
    rw [read_name, Key.name_injective.eq_iff]
    cases k with
    | dialect =>
      have hread : (match Dialect.ofAnyCase? value with
          | some d => Except.ok (Setting.dialect d)
          | none => .error (SettingsError.unknownDialect value)) = .ok a ↔
          ∃ d, Dialect.ofAnyCase? value = some d ∧ .dialect d = a := by
        cases Dialect.ofAnyCase? value <;> simp
      rw [hread]
      cases a <;> simp [key, IsGivenBy, ofAnyCase?_eq_some_iff]
    | _ =>
      rw [map_eq_ok_iff]
      cases a <;> simp [key, IsGivenBy, readBool_eq_ok_iff]
  · have hunknown := read_unknown (not_exists.mp hkey) value
    rw [hunknown]
    exact ⟨nofun, fun h => absurd ⟨_, h.1⟩ hkey⟩

end Setting

namespace Settings

def setting? (s : Settings) : Setting.Key → Option Setting
  | .dialect => s.dialect.map .dialect
  | .quotesNames => s.quotesNames.map .quotesNames
  | .color => s.color.map .color
  | .pretty => s.pretty.map .pretty

theorem setting?_apply (s : Settings) (a : Setting) (k : Setting.Key) :
    (s.apply a).setting? k = if a.key = k then some a else s.setting? k := by
  cases a <;> cases k <;> rfl

/-- The last setting of a key counts, and a key that is never set keeps its setting. -/
theorem setting?_foldl (as : List Setting) (s : Settings) (k : Setting.Key) :
    (as.foldl apply s).setting? k = (as.reverse.find? fun a => a.key = k).or (s.setting? k) := by
  induction as generalizing s with
  | nil => rfl
  | cons a as ih =>
    rw [List.foldl_cons, ih, setting?_apply, List.reverse_cons, List.find?_append, Option.or_assoc]
    by_cases h : a.key = k <;> simp [h]

/-- Settings of different keys may be made in any order. -/
theorem apply_comm {a b : Setting} (h : a.key ≠ b.key) (s : Settings) :
    (s.apply a).apply b = (s.apply b).apply a := by
  cases a <;> cases b <;> simp_all [apply, Setting.key]

end Settings

namespace Arguments

def setting? (args : List Text) : Option Setting :=
  match read? args with
  | some (.run _ (.set key value)) => (Setting.read key value).toOption
  | _ => none

private theorem setting?_of_set {args : List Text} {switches : Switches} {key value : Text}
    (h : read? args = some (.run switches (.set key value))) {a : Setting} :
    setting? args = some a ↔ Setting.read key value = .ok a := by
  unfold setting?
  rw [h]
  dsimp only
  cases Setting.read key value <;> simp [Except.toOption]

private theorem exists_set_of_setting? {args : List Text} {a : Setting}
    (h : setting? args = some a) :
    ∃ switches key value, read? args = some (.run switches (.set key value)) := by
  unfold setting? at h
  split at h
  · next switches key value hread => exact ⟨switches, key, value, hread⟩
  · cases h

end Arguments

namespace Workplace

abbrev Session := List (List Text × Except FileFailure Text)

def Session.settings (session : Session) : List Setting :=
  session.filterMap fun line => Arguments.setting? line.1

def after (w : Workplace) (session : Session) : Workplace :=
  session.foldl (fun w line => (w.runOn line.1 line.2).2) w

/-- Whether settings are loaded from a file, which can be written. -/
structure Keeps (w : Workplace) (path : Text) (s : Settings) : Prop where
  settingsPath : w.environment.settingsPath? = some path
  load : (w.settingsFile path).load = .ok s
  writable : ∀ content, (w.save path content).2 = .ok ()

variable {w : Workplace} {path : Text} {s : Settings}

private theorem load_of_read {content : Text} (h : w.directory.read w.name path = .ok content) :
    (w.settingsFile path).load = Settings.read content := by
  have hstate : (w.settingsFile path).state = .ok (some content) := by
    unfold settingsFile
    cases hlook : w.directory.look w.name path with
    | error f =>
      rw [Directory.read, hlook] at h
      cases h
    | ok n =>
      rw [h]
      rfl
  rw [SettingsFile.load, hstate]

private theorem settingsText?_of_read {content : Text}
    (hpath : w.environment.settingsPath? = some path)
    (h : w.directory.read w.name path = .ok content) : w.settingsText? = some content := by
  rw [settingsText?, hpath, Option.bind_some, h]
  rfl

/-- Settings that are saved are the ones that are loaded, and can be saved anew. -/
theorem Keeps.save (h : w.Keeps path s) (t : Settings) :
    (w.save path t.write).1.Keeps path t ∧
      (w.save path t.write).1.settingsText? = some t.write := by
  have hread : (w.save path t.write).1.directory.read (w.save path t.write).1.name path =
      .ok t.write :=
    read_of_save (Prod.ext rfl (h.writable t.write))
  have hpath : (w.save path t.write).1.environment.settingsPath? = some path := by
    obtain ⟨d, hd⟩ := w.exists_directory_of_save path t.write
    rw [hd]
    exact h.settingsPath
  exact ⟨⟨hpath, (load_of_read hread).trans t.read_write, save_of_read hread⟩,
    settingsText?_of_read hpath hread⟩

private theorem Keeps.runOn_of_some (h : w.Keeps path s) {args : List Text} {a : Setting}
    (ha : Arguments.setting? args = some a) (input : Except FileFailure Text) :
    (w.runOn args input).1.exit = 0 ∧
      (w.runOn args input).2 = (w.save path (s.apply a).write).1 := by
  obtain ⟨switches, key, value, hread⟩ := Arguments.exists_set_of_setting? ha
  rw [runOn_of_run h.settingsPath hread, perform_set h.load ((Arguments.setting?_of_set hread).mp ha),
    h.writable]
  exact ⟨rfl, rfl⟩

private theorem Keeps.runOn_of_none (h : w.Keeps path s) {args : List Text}
    (ha : Arguments.setting? args = none) (input : Except FileFailure Text) :
    (w.runOn args input).2 = w := by
  cases hread : Arguments.read? args with
  | none =>
    rw [runOn, Request.plan, hread]
    rfl
  | some request =>
    cases request with
    | version program => rw [runOn_of_version hread]
    | run switches c =>
      rw [runOn_of_run h.settingsPath hread]
      rcases w.perform_eq_or_set path input switches c with heq | ⟨key, value, _, a, rfl, -, hset⟩
      · exact heq
      · rw [(Arguments.setting?_of_set hread).mpr hset] at ha
        cases ha

/-- A command line that sets a value succeeds just when it makes a setting. -/
theorem Keeps.exit_eq_zero_iff (h : w.Keeps path s) {args : List Text} {switches : Switches}
    {key value : Text} (hread : Arguments.read? args = some (.run switches (.set key value)))
    (input : Except FileFailure Text) :
    (w.runOn args input).1.exit = 0 ↔ ∃ a, Arguments.setting? args = some a := by
  constructor
  · intro hzero
    by_contra hnone
    cases hset : Setting.read key value with
    | ok a => exact hnone ⟨a, (Arguments.setting?_of_set hread).mpr hset⟩
    | error e =>
      have hfive := (exit_eq_iff_fails (c := .set key value) nofun switches 5).mpr
        (Fails.rejected h.load hset : w.Fails path input (.set key value) 5)
      rw [← runOn_of_run h.settingsPath hread, hzero] at hfive
      exact absurd hfive.1 (by decide)
  · rintro ⟨a, ha⟩
    exact (h.runOn_of_some ha input).1

/-- After a session the settings are those from before, changed by each that was made. If any was
made, the file holds them as they are written. -/
theorem Keeps.after (h : w.Keeps path s) (session : Session) :
    (w.after session).Keeps path (session.settings.foldl Settings.apply s) ∧
      (w.after session).settingsText? =
        if session.settings = [] then w.settingsText?
        else some (session.settings.foldl Settings.apply s).write := by
  induction session generalizing w s with
  | nil => exact ⟨h, rfl⟩
  | cons line session ih =>
    have hafter : w.after (line :: session) = (w.runOn line.1 line.2).2.after session := rfl
    rw [hafter]
    cases hline : Arguments.setting? line.1 with
    | none =>
      have hsettings : Session.settings (line :: session) = Session.settings session :=
        List.filterMap_cons_none hline
      rw [hsettings, h.runOn_of_none hline]
      exact ih h
    | some a =>
      have hsettings : Session.settings (line :: session) = a :: Session.settings session :=
        List.filterMap_cons_some hline
      obtain ⟨hkeeps, htext⟩ := h.save (s.apply a)
      obtain ⟨hrest, hresttext⟩ := ih hkeeps
      rw [hsettings, (h.runOn_of_some hline line.2).2, List.foldl_cons, if_neg (by simp)]
      refine ⟨hrest, hresttext.trans ?_⟩
      split
      · next hnone => rw [htext, hnone, List.foldl_nil]
      · rfl

/-- Settings over many runs. From settings that are loaded, a session makes those of its command
lines that are accepted, in their order and the last one for each key. Once one was made the file's
text is that of the settings alone. A command line that sets a value succeeds just when its key is
one of the four and the value is one for it, and else changes nothing. -/
theorem settings_of_session (h : w.Keeps path s) (session : Session) :
    ((w.after session).settingsFile path).load =
      .ok (session.settings.foldl Settings.apply s) ∧
    (w.after session).settingsText? =
      (if session.settings = [] then w.settingsText?
        else some (session.settings.foldl Settings.apply s).write) ∧
    Settings.read (session.settings.foldl Settings.apply s).write =
      .ok (session.settings.foldl Settings.apply s) ∧
    (∀ k, (session.settings.foldl Settings.apply s).setting? k =
      (session.settings.reverse.find? fun a => a.key = k).or (s.setting? k)) ∧
    (∀ x y a b, Arguments.setting? x.1 = some a → Arguments.setting? y.1 = some b →
      a.key ≠ b.key →
      ((w.after session).after [x, y]).settingsText? =
        ((w.after session).after [y, x]).settingsText?) ∧
    ∀ args input switches key value,
      Arguments.read? args = some (.run switches (.set key value)) →
      (∀ a, Arguments.setting? args = some a ↔ a.key.name = key ∧ a.IsGivenBy value) ∧
      (((w.after session).runOn args input).1.exit = 0 ↔
        ∃ a : Setting, a.key.name = key ∧ a.IsGivenBy value) ∧
      (((w.after session).runOn args input).1.exit ≠ 0 →
        ((w.after session).runOn args input).2 = w.after session) := by
  obtain ⟨hkeeps, htext⟩ := h.after session
  refine ⟨hkeeps.load, htext, Settings.read_write _, Settings.setting?_foldl _ s, ?_, ?_⟩
  · intro x y a b hx hy hkey
    have hxy : Session.settings [x, y] = [a, b] := by simp [Session.settings, hx, hy]
    have hyx : Session.settings [y, x] = [b, a] := by simp [Session.settings, hx, hy]
    rw [(hkeeps.after [x, y]).2, (hkeeps.after [y, x]).2, hxy, hyx, if_neg (by simp),
      if_neg (by simp)]
    exact congrArg (fun t => some (Settings.write t)) (Settings.apply_comm hkey _)
  · intro args input switches key value hread
    have hmade (a : Setting) :
        Arguments.setting? args = some a ↔ a.key.name = key ∧ a.IsGivenBy value :=
      (Arguments.setting?_of_set hread).trans Setting.read_eq_ok_iff
    have hexit := hkeeps.exit_eq_zero_iff hread input
    refine ⟨hmade, hexit.trans (exists_congr hmade), fun hne => ?_⟩
    have hnone : Arguments.setting? args = none :=
      Option.eq_none_iff_forall_ne_some.mpr fun a ha => hne (hexit.mpr ⟨a, ha⟩)
    exact hkeeps.runOn_of_none hnone input

/-- A file with a comment and a key of its own is rewritten once a setting is made. What it set
before is kept, a refused value changes nothing, and the later of two values for a key counts. -/
theorem settings_of_session_over_file :
    let w : Workplace :=
      ⟨⟨[(["c.toml".toList], .text "# mine\n[output]\nwidth = 80\npretty = false\n".toList)]⟩,
        "/work".toList, ⟨some "c.toml".toList, none, none⟩⟩
    let session : Session :=
      [(["config".toList, "set".toList, "output.color".toList, "off".toList], .ok []),
        (["config".toList, "set".toList, "output.pretty".toList, "maybe".toList], .ok []),
        (["config".toList, "path".toList], .ok []),
        (["config".toList, "set".toList, "sql.dialect".toList, "MySQL".toList], .ok []),
        (["--json".toList, "config".toList, "set".toList, "output.color".toList, "YES".toList],
          .ok [])]
    w.Keeps "c.toml".toList ⟨none, none, none, some false⟩ ∧
      ((w.after session).settingsFile "c.toml".toList).load =
        .ok ⟨some .mysql, none, some true, some false⟩ ∧
      (w.after session).settingsText? =
        some (Settings.write ⟨some .mysql, none, some true, some false⟩) := by
  intro w session
  have hread : w.directory.read w.name "c.toml".toList =
      .ok "# mine\n[output]\nwidth = 80\npretty = false\n".toList := by decide +kernel
  have h : w.Keeps "c.toml".toList ⟨none, none, none, some false⟩ :=
    ⟨rfl, (load_of_read hread).trans (by decide +kernel), save_of_read hread⟩
  have hmade : Session.settings session = [.color false, .dialect .mysql, .color true] := by
    decide +kernel
  obtain ⟨hload, htext, -⟩ := settings_of_session h session
  rw [hmade] at hload htext
  exact ⟨h, hload, htext⟩

end Workplace
end FilterLang
