import Mathlib.Data.List.Basic

/-!
Written pieces that can be told apart from whatever stands behind them. A sequence that starts with
such a piece determines the piece and the rest, so pieces put one behind another stay apart.
-/
namespace FilterLang

/-- Whether a sequence that starts with a written piece shows which piece it is and where it ends, if
its rest is one that may stand behind a piece. -/
def Separates {α β : Type} (write : α → List β) (valid : α → Prop) (ends : List β → Prop) : Prop :=
  ∀ ⦃a b r s⦄, valid a → valid b → ends r → ends s → write a ++ r = write b ++ s → a = b ∧ r = s

variable {α β : Type}

/-- A piece without delimiters is known from the delimiter behind it. -/
theorem separates_id (delimits : β → Prop) :
    Separates (fun a : List β => a) (fun a => ∀ c ∈ a, ¬ delimits c)
      (fun r => ∀ c ∈ r.head?, delimits c) := by
  intro a b r s ha hb hr hs h
  dsimp only at h
  induction a generalizing b with
  | nil =>
    cases b with
    | nil => exact ⟨rfl, h⟩
    | cons d b =>
      rw [List.nil_append] at h
      subst h
      exact absurd (hr d rfl) (hb d List.mem_cons_self)
  | cons c a ih =>
    obtain ⟨hc, ha'⟩ := List.forall_mem_cons.mp ha
    cases b with
    | nil =>
      rw [List.nil_append] at h
      subst h
      exact absurd (hs c rfl) hc
    | cons d b =>
      obtain ⟨rfl, htail⟩ := List.cons.inj h
      obtain ⟨rfl, hrest⟩ := ih ha' (List.forall_mem_cons.mp hb).2 htail
      exact ⟨rfl, hrest⟩

/-- Pieces written one behind another stay apart, and so do they and the rest, if no piece can be
taken for the rest. -/
theorem separates_flatMap {write : α → List β} {valid : α → Prop} {ends : List β → Prop}
    (hw : Separates write valid fun _ => True)
    (hends : ∀ a r, valid a → ¬ ends (write a ++ r)) :
    Separates (List.flatMap write) (fun as => ∀ a ∈ as, valid a) ends := by
  intro as bs r s has hbs hr hs h
  induction as generalizing bs with
  | nil =>
    cases bs with
    | nil => exact ⟨rfl, h⟩
    | cons b bs =>
      rw [List.flatMap_nil, List.nil_append, List.flatMap_cons, List.append_assoc] at h
      exact absurd (h ▸ hr) (hends b _ (hbs b List.mem_cons_self))
  | cons a as ih =>
    obtain ⟨ha, has'⟩ := List.forall_mem_cons.mp has
    cases bs with
    | nil =>
      rw [List.flatMap_nil, List.nil_append, List.flatMap_cons, List.append_assoc] at h
      exact absurd (h ▸ hs) (hends a _ ha)
    | cons b bs =>
      obtain ⟨hb, hbs'⟩ := List.forall_mem_cons.mp hbs
      rw [List.flatMap_cons, List.flatMap_cons, List.append_assoc, List.append_assoc] at h
      obtain ⟨rfl, htail⟩ := hw ha hb trivial trivial h
      obtain ⟨rfl, hrest⟩ := ih has' hbs' htail
      exact ⟨rfl, hrest⟩

end FilterLang
