import FilterLang.Directory
import Mathlib.Data.List.Infix

/-!
Where paths lead. A part is followed only from a directory, so a path leads to the same place
wherever the directories on its way are kept, and the parts that stay where they are may be left
out. Only a name leads to a file.
-/
namespace FilterLang

theorem bind_eq_ok_iff {ε α β : Type} {x : Except ε α} {f : α → Except ε β} {b : β} :
    x >>= f = .ok b ↔ ∃ a, x = .ok a ∧ f a = .ok b := by
  cases x with
  | error e => exact ⟨nofun, fun ⟨a, ha, _⟩ => nomatch ha⟩
  | ok a =>
    constructor
    · intro h
      exact ⟨a, rfl, h⟩
    · rintro ⟨a', ha, h⟩
      cases ha
      exact h

theorem map_eq_ok_iff {ε α β : Type} {x : Except ε α} {f : α → β} {b : β} :
    x.map f = .ok b ↔ ∃ a, x = .ok a ∧ f a = b := by
  cases x with
  | error e => exact ⟨nofun, fun ⟨a, ha, _⟩ => nomatch ha⟩
  | ok a => simp [Except.map]

namespace Text

private theorem utf8Size_le_of_sublist {s t : Text} (h : s.Sublist t) :
    utf8Size s ≤ utf8Size t := by
  induction h with
  | slnil => exact Nat.le_refl 0
  | cons c _ ih =>
    rw [utf8Size_cons]
    exact Nat.le_add_left_of_le ih
  | cons_cons c _ ih =>
    rw [utf8Size_cons, utf8Size_cons]
    exact Nat.add_le_add_left ih _

private theorem intercalate_sublist_cons (sep x : Text) (xs : List Text) :
    (List.intercalate sep xs).Sublist (List.intercalate sep (x :: xs)) := by
  cases xs with
  | nil => simp
  | cons y ys =>
    rw [List.intercalate_cons_cons]
    exact List.sublist_append_right _ _

private theorem intercalate_sublist (sep : Text) {xs ys : List Text} (h : xs.Sublist ys) :
    (List.intercalate sep xs).Sublist (List.intercalate sep ys) := by
  induction h with
  | slnil => exact List.Sublist.refl _
  | cons y _ ih => exact ih.trans (intercalate_sublist_cons sep y _)
  | @cons_cons xs ys y h ih =>
    cases xs with
    | nil =>
      cases ys with
      | nil => exact List.Sublist.refl _
      | cons z zs =>
        rw [List.intercalate_cons_cons, List.append_assoc]
        simp
    | cons x xs =>
      cases ys with
      | nil => cases h
      | cons z zs =>
        rw [List.intercalate_cons_cons, List.intercalate_cons_cons]
        exact ih.append_left _

end Text

def Place.turn (place : Place) (part : Text) : Except FileFailure Place :=
  if part = [] ∨ part = ['.'] then .ok place
  else if part = ['.', '.'] then .ok place.parent
  else (place.child part).map .inside

def Place.Stays (part : Text) : Prop := part = [] ∨ part = ['.']

private theorem Place.turn_of_stays {part : Text} (h : Stays part) (place : Place) :
    place.turn part = .ok place :=
  if_pos h

theorem Place.turn_of_name {name : Text} (hname : name ≠ []) (hdots : Directory.isDots name = false)
    (place : Place) : place.turn name = (place.child name).map .inside := by
  have hne : name ≠ ['.'] ∧ name ≠ ['.', '.'] := by simpa [Directory.isDots] using hdots
  rw [turn, if_neg (not_or.mpr ⟨hname, hne.1⟩), if_neg hne.2]

theorem Place.exists_of_child {place : Place} {name : Text} {path : Path}
    (h : place.child name = .ok path) : ∃ outer, place = inside outer ∧ path = outer ++ [name] := by
  unfold child at h
  split at h
  · cases h
  · cases place with
    | inside outer => exact ⟨outer, rfl, (Except.ok.inj h).symm⟩
    | outside => cases h

namespace Directory
variable {d d' : Directory} {place q r : Place} {part : Text} {parts : List Text}

private theorem enter_eq_ok_iff : d.enter place = .ok () ↔ d.nodeAt? place = some .directory := by
  unfold enter
  split <;> simp_all

private theorem step_eq_ok_iff :
    d.step place part = .ok q ↔ d.nodeAt? place = some .directory ∧ place.turn part = .ok q := by
  have hstep : d.step place part = d.enter place >>= fun _ => place.turn part := by
    unfold step Place.turn
    split_ifs <;> rfl
  rw [hstep, bind_eq_ok_iff, ← enter_eq_ok_iff]
  constructor
  · rintro ⟨⟨⟩, henter, hturn⟩
    exact ⟨henter, hturn⟩
  · rintro ⟨henter, hturn⟩
    exact ⟨(), henter, hturn⟩

inductive Leads (d : Directory) : Place → List Text → Place → Prop
  | stay (place : Place) : Leads d place [] place
  | step {place q r : Place} {part : Text} {parts : List Text}
    (hdir : d.nodeAt? place = some .directory) (hturn : place.turn part = .ok q)
    (h : Leads d q parts r) : Leads d place (part :: parts) r

private theorem foldlM_step_eq_ok_iff :
    parts.foldlM d.step place = .ok q ↔ d.Leads place parts q := by
  induction parts generalizing place with
  | nil =>
    constructor
    · intro h
      cases h
      exact .stay _
    · rintro ⟨⟩
      rfl
  | cons part parts ih =>
    rw [List.foldlM_cons, bind_eq_ok_iff]
    constructor
    · rintro ⟨p, hp, h⟩
      obtain ⟨hdir, hturn⟩ := step_eq_ok_iff.mp hp
      exact .step hdir hturn (ih.mp h)
    · rintro (_ | ⟨hdir, hturn, h⟩)
      exact ⟨_, step_eq_ok_iff.mpr ⟨hdir, hturn⟩, ih.mpr h⟩

theorem leads_singleton_iff :
    d.Leads place [part] q ↔ d.nodeAt? place = some .directory ∧ place.turn part = .ok q := by
  constructor
  · rintro (_ | ⟨hdir, hturn, ⟨⟩⟩)
    exact ⟨hdir, hturn⟩
  · rintro ⟨hdir, hturn⟩
    exact .step hdir hturn (.stay q)

theorem leads_append_iff {behind : List Text} :
    d.Leads place (parts ++ behind) r ↔ ∃ q, d.Leads place parts q ∧ d.Leads q behind r := by
  constructor
  · intro h
    induction parts generalizing place with
    | nil => exact ⟨place, .stay place, h⟩
    | cons part parts ih =>
      cases h with
      | step hdir hturn h =>
        obtain ⟨q, hq, hr⟩ := ih h
        exact ⟨q, .step hdir hturn hq, hr⟩
  · rintro ⟨q, hq, hr⟩
    induction hq with
    | stay => exact hr
    | step hdir hturn _ ih => exact .step hdir hturn (ih hr)

/-- A path to a directory starts in one. -/
theorem Leads.nodeAt?_start (h : d.Leads place parts q) (hq : d.nodeAt? q = some .directory) :
    d.nodeAt? place = some .directory := by
  cases h with
  | stay => exact hq
  | step hdir _ _ => exact hdir

def KeepsDirectories (d d' : Directory) : Prop :=
  ∀ place, d.nodeAt? place = some .directory → d'.nodeAt? place = some .directory

theorem Leads.mono (hk : d.KeepsDirectories d') (h : d.Leads place parts q) :
    d'.Leads place parts q := by
  induction h with
  | stay place => exact .stay place
  | step hdir hturn _ ih => exact .step (hk _ hdir) hturn ih

theorem Leads.filter {keep : Text → Bool} (hkeep : ∀ part, keep part = false → Place.Stays part)
    (h : d.Leads place parts q) : d.Leads place (parts.filter keep) q := by
  induction h with
  | stay place => exact .stay place
  | @step place q r part parts hdir hturn _ ih =>
    cases hpart : keep part with
    | true =>
      rw [List.filter_cons_of_pos hpart]
      exact .step hdir hturn ih
    | false =>
      rw [Place.turn_of_stays (hkeep part hpart)] at hturn
      cases hturn
      rw [List.filter_cons_of_neg (by simp [hpart])]
      exact ih

theorem Leads.of_filter {keep : Text → Bool} (hkeep : ∀ part, keep part = false → Place.Stays part)
    (h : d.Leads place (parts.filter keep) q) (hq : d.nodeAt? q = some .directory) :
    d.Leads place parts q := by
  induction parts generalizing place with
  | nil => exact h
  | cons part parts ih =>
    cases hpart : keep part with
    | true =>
      rw [List.filter_cons_of_pos hpart] at h
      cases h with
      | step hdir hturn h => exact .step hdir hturn (ih h)
    | false =>
      rw [List.filter_cons_of_neg (by simp [hpart])] at h
      exact .step (h.nodeAt?_start hq) (Place.turn_of_stays (hkeep part hpart) place) (ih h)

private theorem checkLength_eq_ok_iff :
    checkLength parts = .ok () ↔ Text.utf8Size (List.intercalate ['/'] parts) ≤ maxPath := by
  unfold checkLength
  split <;> simp <;> omega

theorem checkLength_of_sublist {names : List Text} (h : names.Sublist parts)
    (hparts : checkLength parts = .ok ()) : checkLength names = .ok () := by
  rw [checkLength_eq_ok_iff] at hparts ⊢
  exact (Text.utf8Size_le_of_sublist (Text.intercalate_sublist _ h)).trans hparts

theorem follow_eq_ok_iff :
    d.follow place parts = .ok q ↔ checkLength parts = .ok () ∧ d.Leads place parts q := by
  unfold follow
  rw [bind_eq_ok_iff]
  simp only [foldlM_step_eq_ok_iff]
  constructor
  · rintro ⟨⟨⟩, hlength, h⟩
    exact ⟨hlength, h⟩
  · rintro ⟨hlength, h⟩
    exact ⟨(), hlength, h⟩

theorem around_eq_ok_iff :
    d.around place parts = .ok q ↔ checkLength parts = .ok () ∧
      d.Leads place parts.dropLast q ∧ d.nodeAt? q = some .directory := by
  unfold around
  simp only [bind_eq_ok_iff, foldlM_step_eq_ok_iff, pure, Except.pure]
  constructor
  · rintro ⟨⟨⟩, hlength, outer, h, ⟨⟩, henter, ⟨⟩⟩
    exact ⟨hlength, h, enter_eq_ok_iff.mp henter⟩
  · rintro ⟨hlength, h, hdir⟩
    exact ⟨(), hlength, q, h, (), enter_eq_ok_iff.mpr hdir, rfl⟩

def Rooted (d : Directory) : Place → Prop
  | .inside path => ∀ outer, outer <+: path → outer ≠ path → d.node? outer = some .directory
  | .outside => True

theorem Rooted.nodeAt?_parent (h : d.Rooted place) :
    d.nodeAt? place.parent = some .directory := by
  cases place with
  | outside => rfl
  | inside path =>
    cases path with
    | nil => rfl
    | cons name path =>
      apply h _ (List.dropLast_prefix _)
      intro heq
      have hlength := congrArg List.length heq
      rw [List.length_dropLast, List.length_cons] at hlength
      omega

theorem Rooted.parent (h : d.Rooted place) : d.Rooted place.parent := by
  cases place with
  | outside => trivial
  | inside path =>
    cases path with
    | nil => trivial
    | cons name path =>
      intro outer houter _
      apply h outer (houter.trans (List.dropLast_prefix _))
      rintro rfl
      have hlength := houter.length_le
      rw [List.length_dropLast, List.length_cons] at hlength
      omega

theorem Rooted.turn (h : d.Rooted place) (hdir : d.nodeAt? place = some .directory)
    (hturn : place.turn part = .ok q) : d.Rooted q := by
  unfold Place.turn at hturn
  split_ifs at hturn with hstays hup
  · cases hturn
    exact h
  · cases hturn
    exact h.parent
  · obtain ⟨path, hchild, rfl⟩ := map_eq_ok_iff.mp hturn
    obtain ⟨outer, rfl, rfl⟩ := Place.exists_of_child hchild
    intro between hbetween hne
    rcases List.prefix_concat_iff.mp hbetween with rfl | hbetween
    · exact absurd rfl hne
    · by_cases heq : between = outer
      · rw [heq]
        exact hdir
      · exact h between hbetween heq

theorem Leads.rooted (h : d.Leads place parts q) (hroot : d.Rooted place) : d.Rooted q := by
  induction h with
  | stay => exact hroot
  | step hdir hturn _ ih => exact ih (hroot.turn hdir hturn)

/-- The last part of a path that does not lead to a directory is a name. -/
theorem Leads.exists_name (h : d.Leads place parts q) (hroot : d.Rooted place)
    (hplace : d.nodeAt? place = some .directory) (hq : d.nodeAt? q ≠ some .directory) :
    ∃ init name outer path, parts = init ++ [name] ∧ name ≠ [] ∧ isDots name = false ∧
      d.Leads place init outer ∧ d.nodeAt? outer = some .directory ∧
      outer.child name = .ok path ∧ q = .inside path := by
  rcases List.eq_nil_or_concat parts with rfl | ⟨init, name, rfl⟩
  · cases h
    exact absurd hplace hq
  · rw [List.concat_eq_append] at h ⊢
    obtain ⟨outer, hinit, hlast⟩ := leads_append_iff.mp h
    obtain ⟨hdir, hturn⟩ := leads_singleton_iff.mp hlast
    unfold Place.turn at hturn
    split_ifs at hturn with hstays hup
    · cases hturn
      exact absurd hdir hq
    · cases hturn
      exact absurd (hinit.rooted hroot).nodeAt?_parent hq
    · obtain ⟨path, hchild, rfl⟩ := map_eq_ok_iff.mp hturn
      have hname := not_or.mp hstays
      exact ⟨init, name, outer, path, rfl, hname.1, by simp [isDots, hname.2, hup], hinit, hdir,
        hchild, rfl⟩

end Directory
end FilterLang
