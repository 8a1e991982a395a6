import FilterLang.CommandLine.Run
import FilterLang.Proofs.PathWalk

/-!
Saving the settings file. What has been saved is read again, and a file that can be read can be
saved, so a path that took one text takes any other later. Where saving fails no text can be read,
before and after.
-/
namespace FilterLang

namespace Directory
variable {d d' : Directory} {place : Place} {parts : List Text}

theorem node?_set_self (d : Directory) {path : Path} (h : path ≠ []) (n : Node) :
    (d.set path n).node? path = some n := by
  cases path with
  | nil => exact absurd rfl h
  | cons name path => simp [node?, set]

theorem node?_set_of_ne (d : Directory) {path other : Path} (n : Node) (h : other ≠ path) :
    (d.set path n).node? other = d.node? other := by
  cases other with
  | nil => rfl
  | cons name other =>
    have hfind : (d.nodes.filter fun m => m.1 ≠ path).find? (fun m => m.1 = name :: other) =
        d.nodes.find? (fun m => m.1 = name :: other) := by
      rw [List.find?_filter]
      congr 1
      funext m
      by_cases hm : m.1 = name :: other
      · simp [hm, h]
      · simp [hm]
    simp only [node?, set]
    rw [List.find?_cons_of_neg (by simpa using h.symm), hfind]

private theorem keepsDirectories_set {path : Path} (h : d.node? path ≠ some .directory) (n : Node) :
    d.KeepsDirectories (d.set path n) := by
  intro place hdir
  cases place with
  | outside => rfl
  | inside other =>
    have hne : other ≠ path := by
      rintro rfl
      exact h hdir
    rw [nodeAt?, node?_set_of_ne d n hne]
    exact hdir

/-- Whether the second directory holds what the first one holds, and besides directories only. -/
def Grows (d d' : Directory) : Prop :=
  ∀ path, d'.node? path = d.node? path ∨ d.node? path = none ∧ d'.node? path = some .directory

theorem Grows.refl (d : Directory) : d.Grows d := fun _ => .inl rfl

theorem Grows.trans {d'' : Directory} (h : d.Grows d') (h' : d'.Grows d'') : d.Grows d'' := by
  intro path
  rcases h path with hd | ⟨hnone, hdir⟩
  · rw [← hd]
    exact h' path
  · rcases h' path with hd' | ⟨hnone', -⟩
    · exact .inr ⟨hnone, hd'.trans hdir⟩
    · rw [hdir] at hnone'
      cases hnone'

theorem grows_set {path : Path} (h : d.node? path = none) : d.Grows (d.set path .directory) := by
  intro other
  by_cases heq : other = path
  · subst heq
    refine .inr ⟨h, node?_set_self d ?_ _⟩
    rintro rfl
    cases h
  · exact .inl (node?_set_of_ne d _ heq)

def Reaches (d : Directory) (place : Place) (parts : List Text) : Prop :=
  ∃ q, d.follow place parts = .ok q ∧ d.nodeAt? q = some .directory

private theorem Reaches.of_append {behind : List Text} (h : d.Reaches place (parts ++ behind)) :
    d.Reaches place parts := by
  obtain ⟨r, hr, hdir⟩ := h
  obtain ⟨hlength, hleads⟩ := follow_eq_ok_iff.mp hr
  obtain ⟨q, hq, hqr⟩ := leads_append_iff.mp hleads
  have hshort := checkLength_of_sublist (List.sublist_append_left parts behind) hlength
  exact ⟨q, follow_eq_ok_iff.mpr ⟨hshort, hq⟩, hqr.nodeAt?_start hdir⟩

private theorem grows_of_make (h : d.make place parts = .ok d') : d.Grows d' := by
  unfold make at h
  obtain ⟨outer, -, h⟩ := bind_eq_ok_iff.mp h
  split at h
  · cases h
  · obtain ⟨path, -, h⟩ := bind_eq_ok_iff.mp h
    split at h
    · cases h
    · next hnone =>
      cases h
      exact grows_set (by simpa using hnone)

private theorem Reaches.make_eq (h : d.Reaches place parts) (hparts : [] ∉ parts) :
    d.make place parts = .error .occupied := by
  obtain ⟨q, hq, hdir⟩ := h
  obtain ⟨hlength, hleads⟩ := follow_eq_ok_iff.mp hq
  rcases List.eq_nil_or_concat parts with rfl | ⟨init, name, rfl⟩
  · cases hleads
    have haround : d.around place [] = .ok place :=
      around_eq_ok_iff.mpr ⟨hlength, .stay place, hdir⟩
    rw [make, haround]
    rfl
  · rw [List.concat_eq_append] at *
    obtain ⟨outer, hinit, hstep⟩ := leads_append_iff.mp hleads
    obtain ⟨houter, hturn⟩ := leads_singleton_iff.mp hstep
    have haround : d.around place (init ++ [name]) = .ok outer :=
      around_eq_ok_iff.mpr ⟨hlength, by rwa [List.dropLast_concat], houter⟩
    have hname : name ≠ [] := by
      rintro rfl
      simp at hparts
    cases hdots : isDots name with
    | true =>
      have hlast : (init ++ [name]).getLast?.filter (!isDots ·) = none := by simp [hdots]
      rw [make, haround]
      simp only [bind, Except.bind, hlast]
    | false =>
      have hlast : (init ++ [name]).getLast?.filter (!isDots ·) = some name := by simp [hdots]
      rw [Place.turn_of_name hname hdots] at hturn
      obtain ⟨path, hchild, rfl⟩ := map_eq_ok_iff.mp hturn
      have hsome : (d.node? path).isSome = true := by
        rw [show d.node? path = some .directory from hdir]
        rfl
      rw [make, haround]
      simp only [bind, Except.bind, hlast, hchild]
      exact if_pos hsome

private theorem grows_of_ensure (h : d.ensure place parts = .ok d') : d.Grows d' := by
  unfold ensure at h
  split at h
  · split at h
    · cases h
      exact .refl d
    · cases h
  · exact grows_of_make h

private theorem Reaches.ensure_eq (h : d.Reaches place parts) (hparts : [] ∉ parts) :
    d.ensure place parts = .ok d := by
  rw [ensure, h.make_eq hparts]
  obtain ⟨q, hq, hdir⟩ := h
  rw [hq]
  exact if_pos hdir

theorem grows_of_ensureAll {names : List Text} {r : Except FileFailure Unit}
    (h : d.ensureAll place names = (d', r)) : d.Grows d' := by
  induction names generalizing d' r with
  | nil =>
    cases h
    exact .refl d
  | cons name outer ih =>
    rw [ensureAll] at h
    split at h
    · next hmade =>
      cases h
      exact grows_of_ensure hmade
    · split at h
      · next houter =>
        cases h
        exact ih houter
      · next houter =>
        split at h
        · next hmade =>
          cases h
          exact (ih houter).trans (grows_of_ensure hmade)
        · cases h
          exact ih houter
    · cases h
      exact .refl d

private theorem Reaches.ensureAll_eq {names : List Text} (h : d.Reaches place names.reverse)
    (hnames : [] ∉ names) : d.ensureAll place names = (d, .ok ()) := by
  cases names with
  | nil => rfl
  | cons name outer => rw [ensureAll, h.ensure_eq fun hmem => hnames (List.mem_reverse.mp hmem)]

private theorem not_reaches_of_ensureAll {names : List Text} {f : FileFailure} (hnames : [] ∉ names)
    (h : d.ensureAll place names = (d', .error f)) : ¬ d'.Reaches place names.reverse := by
  induction names generalizing d' f with
  | nil => cases h
  | cons name outer ih =>
    have hparts : [] ∉ (name :: outer).reverse := fun hmem => hnames (List.mem_reverse.mp hmem)
    have houter : [] ∉ outer := fun hmem => hnames (List.mem_cons_of_mem name hmem)
    intro hreach
    rw [ensureAll] at h
    split at h
    · cases h
    · split at h
      · next hfail =>
        cases h
        rw [List.reverse_cons] at hreach
        exact ih houter hfail hreach.of_append
      · split at h
        · cases h
        · next hfail =>
          cases h
          rw [hreach.ensure_eq hparts] at hfail
          cases hfail
    · next hfail =>
      cases h
      rw [hreach.ensure_eq hparts] at hfail
      cases hfail

def HoldsText (d : Directory) (place : Place) (parts : List Text) (content : Text) : Prop :=
  ∃ path, d.follow place parts = .ok (.inside path) ∧ d.node? path = some (.text content)

theorem read_eq_ok_iff {name path content : Text} :
    d.read name path = .ok content ↔
      path ≠ [] ∧ d.HoldsText (start name path).1 (start name path).2 content := by
  have hread : d.read name path = (d.locate name path >>= fun q =>
      match d.nodeAt? q with
      | some (.text content) => .ok content
      | some .bytes => .error .notText
      | some .directory => .error .isDirectory
      | none => .error .missing) := by
    unfold read look
    cases d.locate name path with
    | error f => rfl
    | ok q =>
      simp only [bind, Except.bind]
      cases d.nodeAt? q with
      | none => rfl
      | some n => cases n <;> rfl
  rw [hread, bind_eq_ok_iff, locate, HoldsText]
  constructor
  · rintro ⟨q, hq, htext⟩
    split at hq
    · cases hq
    · next hne =>
      refine ⟨by simpa using hne, ?_⟩
      split at htext
      · next hnode =>
        cases htext
        cases q with
        | outside => cases hnode
        | inside place => exact ⟨place, hq, hnode⟩
      all_goals cases htext
  · rintro ⟨hne, place, hplace, htext⟩
    rw [if_neg (by simpa using hne)]
    refine ⟨_, hplace, ?_⟩
    rw [nodeAt?, htext]

private theorem filter_concat {keep : Text → Bool} {name : Text} (h : keep name = true)
    (init : List Text) : (init ++ [name]).filter keep = init.filter keep ++ [name] := by
  rw [List.filter_append, List.filter_cons_of_pos h, List.filter_nil]

private theorem stays_of_isEmpty (part : Text) (h : decide (part ≠ []) = false) :
    Place.Stays part :=
  .inl (by simpa using h)

private theorem write_eq {init : List Text} {name content : Text} {outer : Place} {path : Path}
    (hlength : checkLength (init ++ [name]) = .ok ()) (hname : name ≠ [])
    (hdots : isDots name = false) (hinit : d.Leads place init outer)
    (houter : d.nodeAt? outer = some .directory) (hchild : outer.child name = .ok path)
    (hpath : d.node? path ≠ some .directory) :
    d.write place (init ++ [name]) content = .ok (d.set path (.text content)) := by
  have hnames : (init ++ [name]).filter (· ≠ []) = init.filter (· ≠ []) ++ [name] :=
    filter_concat (by simp [hname]) init
  have hshort : checkLength (init.filter (· ≠ []) ++ [name]) = .ok () :=
    checkLength_of_sublist (List.filter_sublist.append (List.Sublist.refl [name])) hlength
  have haround : d.around place (init.filter (· ≠ []) ++ [name]) = .ok outer := by
    refine around_eq_ok_iff.mpr ⟨hshort, ?_, houter⟩
    rw [List.dropLast_concat]
    exact hinit.filter stays_of_isEmpty
  have hlast : ((init.filter (· ≠ []) ++ [name]).getLast?.filter fun last =>
      !isDots last && (init ++ [name]).getLast? ≠ some []) = some name := by
    simp [hdots, hname]
  unfold write
  simp only [hlength, hnames, haround, bind, Except.bind, hlast, hchild]
  exact if_neg hpath

private theorem exists_of_write {content : Text} (h : d.write place parts content = .ok d') :
    ∃ init name outer path, parts = init ++ [name] ∧ checkLength parts = .ok () ∧ name ≠ [] ∧
      isDots name = false ∧ d.Leads place init outer ∧ d.nodeAt? outer = some .directory ∧
      outer.child name = .ok path ∧ d.node? path ≠ some .directory ∧
      d' = d.set path (.text content) := by
  unfold write at h
  simp only [bind_eq_ok_iff] at h
  obtain ⟨⟨⟩, hlength, outer, haround, h⟩ := h
  obtain ⟨-, hleads, houter⟩ := around_eq_ok_iff.mp haround
  split at h
  · cases h
  · next name hname =>
    obtain ⟨hlast, hname⟩ := Option.filter_eq_some_iff.mp hname
    simp only [bind_eq_ok_iff] at h
    obtain ⟨path, hchild, h⟩ := h
    split at h
    · cases h
    · next hpath =>
      cases h
      rcases List.eq_nil_or_concat parts with rfl | ⟨init, last, rfl⟩
      · cases hlast
      · simp only [List.concat_eq_append, List.getLast?_concat] at *
        have hproper : isDots name = false ∧ last ≠ [] := by simpa using hname
        have hnames : (init ++ [last]).filter (· ≠ []) = init.filter (· ≠ []) ++ [last] :=
          filter_concat (by simp [hproper.2]) init
        rw [hnames, List.getLast?_concat] at hlast
        cases hlast
        rw [hnames, List.dropLast_concat] at hleads
        exact ⟨init, name, outer, path, rfl, hlength, hproper.2, hproper.1,
          hleads.of_filter stays_of_isEmpty houter, houter, hchild, hpath, rfl⟩

/-- What has been written is there. -/
theorem holdsText_of_write {content : Text} (h : d.write place parts content = .ok d') :
    d'.HoldsText place parts content := by
  obtain ⟨init, name, outer, path, rfl, hlength, hname, hdots, hinit, houter, hchild, hpath, rfl⟩ :=
    exists_of_write h
  have hk := keepsDirectories_set hpath (.text content)
  have hturn : outer.turn name = .ok (.inside path) := by
    rw [Place.turn_of_name hname hdots, hchild]
    rfl
  have hleads : (d.set path (.text content)).Leads place (init ++ [name]) (.inside path) :=
    leads_append_iff.mpr ⟨outer, hinit.mono hk, leads_singleton_iff.mpr ⟨hk _ houter, hturn⟩⟩
  obtain ⟨above, -, rfl⟩ := Place.exists_of_child hchild
  exact ⟨_, follow_eq_ok_iff.mpr ⟨hlength, hleads⟩, node?_set_self d (by simp) _⟩

/-- A text can be replaced by any other one, and all directories on the way to it are there. -/
theorem HoldsText.writable {t : Text} (h : d.HoldsText place parts t) (hroot : d.Rooted place)
    (hplace : d.nodeAt? place = some .directory) :
    (∀ content, ∃ d', d.write place parts content = .ok d') ∧
      d.Reaches place (parts.filter fun part => part ≠ [] ∧ part ≠ ['.']).dropLast := by
  obtain ⟨path, hpath, htext⟩ := h
  obtain ⟨hlength, hleads⟩ := follow_eq_ok_iff.mp hpath
  have hfile : d.node? path ≠ some .directory := by
    rw [htext]
    nofun
  obtain ⟨init, name, outer, path', rfl, hname, hdots, hinit, houter, hchild, hq⟩ :=
    hleads.exists_name hroot hplace hfile
  obtain rfl := Place.inside.inj hq
  refine ⟨fun content =>
    ⟨_, write_eq hlength hname hdots hinit houter hchild hfile⟩, outer, ?_, houter⟩
  have hkeep : ∀ part : Text, decide (part ≠ [] ∧ part ≠ ['.']) = false → Place.Stays part := by
    intro part hpart
    by_contra hstays
    simp [not_or.mp hstays] at hpart
  have hnames : ((init ++ [name]).filter fun part => part ≠ [] ∧ part ≠ ['.']).dropLast =
      init.filter fun part => part ≠ [] ∧ part ≠ ['.'] := by
    have hdot : name ≠ ['.'] := by
      rintro rfl
      cases hdots
    rw [filter_concat (by simp [hname, hdot]), List.dropLast_concat]
  rw [hnames]
  have hinside : init.Sublist (init ++ [name]) := List.sublist_append_left init [name]
  exact follow_eq_ok_iff.mpr
    ⟨checkLength_of_sublist (List.filter_sublist.trans hinside) hlength, hinit.filter hkeep⟩

private theorem rooted_start (d : Directory) (name path : Text) : d.Rooted (start name path).1 := by
  have hinside : d.Rooted (.inside []) := by
    intro outer houter hne
    exact absurd (List.prefix_nil.mp houter) hne
  unfold start
  split
  · exact hinside
  · dsimp only
    split
    · trivial
    · exact hinside

private theorem nodeAt?_start (d : Directory) (name path : Text) :
    d.nodeAt? (start name path).1 = some .directory := by
  unfold start
  split
  · rfl
  · dsimp only
    split <;> rfl

end Directory

namespace Workplace
variable {w w' : Workplace} {path content : Text}

def outerNames (w : Workplace) (path : Text) : List Text :=
  ((Directory.start w.name path).2.filter fun part => part ≠ [] ∧ part ≠ ['.']).reverse.tail

private theorem nil_not_mem_outerNames (w : Workplace) (path : Text) : [] ∉ w.outerNames path := by
  intro h
  have hmem := List.mem_reverse.mp (List.mem_of_mem_tail h)
  simp at hmem

theorem save_eq (w : Workplace) (path content : Text) :
    w.save path content =
      match w.directory.ensureAll (Directory.start w.name path).1 (w.outerNames path) with
      | (d, .error f) => ({ w with directory := d }, .error (.noDirectory f))
      | (d, .ok ()) =>
        match d.write (Directory.start w.name path).1 (Directory.start w.name path).2 content with
        | .error f => ({ w with directory := d }, .error (.unwritable f))
        | .ok d => ({ w with directory := d }, .ok ()) :=
  rfl

/-- Saving changes the directory only. -/
theorem exists_directory_of_save (w : Workplace) (path content : Text) :
    ∃ d, (w.save path content).1 = { w with directory := d } := by
  rw [save_eq]
  split
  · exact ⟨_, rfl⟩
  · split <;> exact ⟨_, rfl⟩

/-- What has been saved is read again. -/
theorem read_of_save (h : w.save path content = (w', .ok ())) :
    w'.directory.read w'.name path = .ok content := by
  rw [save_eq] at h
  split at h
  · cases h
  · next d hd =>
    split at h
    · cases h
    · next d' hwrite =>
      cases h
      refine Directory.read_eq_ok_iff.mpr ⟨?_, Directory.holdsText_of_write hwrite⟩
      rintro rfl
      have hparts : (Directory.start w.name []).2 = [[]] := by
        simp [Directory.start, Directory.behind?]
      obtain ⟨init, name, _, _, hname, -, hne, -⟩ := Directory.exists_of_write hwrite
      rw [hparts] at hname
      have hlast := congrArg List.getLast? hname
      rw [List.getLast?_concat] at hlast
      exact hne (Option.some.inj hlast).symm

/-- Where a file can be read, its directories are there, and it can be written anew. -/
theorem writable_of_read {d : Directory} {t : Text} (h : d.read w.name path = .ok t) :
    d.Reaches (Directory.start w.name path).1 (w.outerNames path).reverse ∧
      ∀ content, ∃ d', d.write (Directory.start w.name path).1 (Directory.start w.name path).2
        content = .ok d' := by
  obtain ⟨-, htext⟩ := Directory.read_eq_ok_iff.mp h
  obtain ⟨hwrite, hreach⟩ :=
    htext.writable (d.rooted_start w.name path) (d.nodeAt?_start w.name path)
  rw [outerNames, List.tail_reverse, List.reverse_reverse]
  exact ⟨hreach, hwrite⟩

/-- A file that can be read can be saved. -/
theorem save_of_read {t : Text} (h : w.directory.read w.name path = .ok t) (content : Text) :
    (w.save path content).2 = .ok () := by
  obtain ⟨hreach, hwrite⟩ := writable_of_read h
  obtain ⟨d, hd⟩ := hwrite content
  rw [save_eq, hreach.ensureAll_eq (w.nil_not_mem_outerNames path)]
  simp only [hd]

/-- Where saving fails, there is no text before and none after. -/
theorem not_read_of_save {e : SettingsError} (h : w.save path content = (w', .error e)) (t : Text) :
    w.directory.read w.name path ≠ .ok t ∧ w'.directory.read w'.name path ≠ .ok t := by
  constructor
  · intro hread
    have hsave := save_of_read hread content
    rw [h] at hsave
    cases hsave
  · intro hread
    rw [save_eq] at h
    split at h
    · next d f hd =>
      cases h
      obtain ⟨hreach, -⟩ := writable_of_read (w := w) hread
      exact Directory.not_reaches_of_ensureAll (w.nil_not_mem_outerNames path) hd hreach
    · next d hd =>
      split at h
      · next f hwrite =>
        cases h
        obtain ⟨-, hwritable⟩ := writable_of_read (w := w) hread
        obtain ⟨d', hd'⟩ := hwritable content
        rw [hd'] at hwrite
        cases hwrite
      · cases h

end Workplace
end FilterLang
