import FilterLang.Clause.Suggestion
import Mathlib.Data.List.Forall2
import Mathlib.Order.Lattice.Nat
import Mathlib.Order.Bounds.Basic

/-!
The distance of two texts is the least number of single edits that lead from one to the other. No
edit changes the distance to a third text by more than one, so no run of edits is shorter than the
distance, and there is one of just this length.
-/
namespace FilterLang.Text

/-- An insertion, a deletion or a replacement of one character. -/
inductive Edit : Text → Text → Prop
  | insert (before : Text) (c : Char) (behind : Text) :
    Edit (before ++ behind) (before ++ c :: behind)
  | delete (before : Text) (c : Char) (behind : Text) :
    Edit (before ++ c :: behind) (before ++ behind)
  | replace (before : Text) (c d : Char) (behind : Text) :
    Edit (before ++ c :: behind) (before ++ d :: behind)

inductive Edits : Nat → Text → Text → Prop
  | refl (s : Text) : Edits 0 s s
  | step {n : Nat} {s t u : Text} (h : Edit s t) (hs : Edits n t u) : Edits (n + 1) s u

/-- The Levenshtein distance: how many edits lead from one text to the other, at least. -/
noncomputable def editDistance (s t : Text) : Nat := sInf {n | Edits n s t}

@[simp] theorem distance_nil (t : Text) : distance [] t = t.length := by
  rw [distance]

@[simp] theorem distance_nil_right (s : Text) : distance s [] = s.length := by
  cases s <;> simp [distance]

private theorem distance_cons_cons (a b : Char) (s t : Text) :
    distance (a :: s) (b :: t) =
      if a = b then distance s t
      else 1 + min (distance s t) (min (distance s (b :: t)) (distance (a :: s) t)) := by
  rw [distance]

private theorem distance_cons_near (c : Char) (s t : Text) :
    (distance (c :: s) t ≤ distance s t + 1 ∧ distance s t ≤ distance (c :: s) t + 1) ∧
      distance s (c :: t) ≤ distance s t + 1 ∧ distance s t ≤ distance s (c :: t) + 1 := by
  induction s generalizing c t with
  | nil =>
    induction t generalizing c with
    | nil => simp
    | cons b t iht =>
      have ht := (iht b).1
      have hc := (iht c).1
      simp only [distance_cons_cons, distance_nil, List.length_cons] at ht hc ⊢
      split <;> omega
  | cons a s ihs =>
    induction t generalizing c with
    | nil =>
      have hs := (ihs c []).2
      simp only [distance_cons_cons, distance_nil_right, List.length_cons] at hs ⊢
      split <;> omega
    | cons b t iht =>
      have hb := (iht b).2
      have ha := (ihs a (b :: t)).1
      have hleft := (iht c).1
      have hright := (ihs c (b :: t)).2
      rw [distance_cons_cons c b (a :: s) t, distance_cons_cons a c s (b :: t)]
      constructor <;> split <;> omega

private theorem distance_cons_le_of_forall {s t : Text} (h : ∀ u, distance s u ≤ distance t u + 1)
    (c : Char) (u : Text) : distance (c :: s) u ≤ distance (c :: t) u + 1 := by
  induction u with
  | nil => simpa using h []
  | cons b u ih =>
    have hu := h u
    have hb := h (b :: u)
    rw [distance_cons_cons, distance_cons_cons]
    split <;> omega

private theorem distance_replace_head (c d : Char) (s u : Text) :
    distance (c :: s) u ≤ distance (d :: s) u + 1 := by
  induction u with
  | nil => simp
  | cons b u ih =>
    have hleft := (distance_cons_near d s u).1
    have hright := (distance_cons_near b s u).2
    rw [distance_cons_cons, distance_cons_cons]
    split <;> split <;> omega

private theorem distance_append_le_of_forall {s t : Text} (h : ∀ u, distance s u ≤ distance t u + 1)
    (before u : Text) : distance (before ++ s) u ≤ distance (before ++ t) u + 1 := by
  induction before generalizing u with
  | nil => exact h u
  | cons a before ih => exact distance_cons_le_of_forall ih a u

/-- An edit changes the distance to any text by one at most. -/
theorem Edit.distance_le {s t : Text} (h : Edit s t) (u : Text) :
    distance s u ≤ distance t u + 1 := by
  cases h with
  | insert before c behind =>
    exact distance_append_le_of_forall (fun u => (distance_cons_near c behind u).1.2) before u
  | delete before c behind =>
    exact distance_append_le_of_forall (fun u => (distance_cons_near c behind u).1.1) before u
  | replace before c d behind =>
    exact distance_append_le_of_forall (distance_replace_head c d behind) before u

theorem distance_self (s : Text) : distance s s = 0 := by
  induction s with
  | nil => simp
  | cons a s ih => rw [distance_cons_cons, if_pos rfl, ih]

/-- No run of edits from one text to another is shorter than their distance. -/
theorem Edits.distance_le {n : Nat} {s t : Text} (h : Edits n s t) : distance s t ≤ n := by
  induction h with
  | refl s => exact (distance_self s).le
  | step h hs ih => exact (h.distance_le _).trans (Nat.add_le_add_right ih 1)

theorem Edit.cons {s t : Text} (a : Char) (h : Edit s t) : Edit (a :: s) (a :: t) := by
  cases h with
  | insert before c behind => exact .insert (a :: before) c behind
  | delete before c behind => exact .delete (a :: before) c behind
  | replace before c d behind => exact .replace (a :: before) c d behind

theorem Edits.cons {n : Nat} {s t : Text} (a : Char) (h : Edits n s t) :
    Edits n (a :: s) (a :: t) := by
  induction h with
  | refl s => exact .refl (a :: s)
  | step h _ ih => exact .step (h.cons a) ih

private theorem Edits.least {m n : Nat} {s t : Text} (hm : Edits m s t) (hn : Edits n s t) :
    Edits (min m n) s t := by
  rcases min_choice m n with h | h
  · rwa [h]
  · rwa [h]

/-- Some run of edits is just as long as the distance. -/
theorem edits_distance (s t : Text) : Edits (distance s t) s t := by
  induction s generalizing t with
  | nil =>
    rw [distance_nil]
    induction t with
    | nil => exact .refl []
    | cons b t ih => exact .step (.insert [] b []) (ih.cons b)
  | cons a s ihs =>
    induction t with
    | nil =>
      have hs := ihs []
      rw [distance_nil_right] at hs ⊢
      exact .step (.delete [] a s) hs
    | cons b t iht =>
      rw [distance_cons_cons]
      split
      · next hab => exact hab ▸ (ihs t).cons a
      · have hreplace : Edits (distance s t + 1) (a :: s) (b :: t) :=
          .step (.replace [] a b s) ((ihs t).cons b)
        have hdelete : Edits (distance s (b :: t) + 1) (a :: s) (b :: t) :=
          .step (.delete [] a s) (ihs (b :: t))
        have hinsert : Edits (distance (a :: s) t + 1) (a :: s) (b :: t) :=
          .step (.insert [] b (a :: s)) (iht.cons b)
        rw [Nat.add_comm, ← Nat.add_min_add_right, ← Nat.add_min_add_right]
        exact hreplace.least (hdelete.least hinsert)

/-- The distance is the least number of edits. -/
theorem isLeast_distance (s t : Text) : IsLeast {n | Edits n s t} (distance s t) :=
  ⟨edits_distance s t, fun _ h => h.distance_le⟩

theorem editDistance_eq (s t : Text) : editDistance s t = distance s t :=
  (isLeast_distance s t).csInf_eq

private theorem Edits.length_le {n : Nat} {s t : Text} (h : Edits n s t) :
    s.length ≤ t.length + n := by
  induction h with
  | refl s => exact Nat.le_refl _
  | step h _ ih =>
    have hstep := h.distance_le []
    simp only [distance_nil_right] at hstep
    omega

/-- Each surplus character of a text counts. -/
theorem length_le_add_distance (s t : Text) : s.length ≤ t.length + distance s t :=
  (edits_distance s t).length_le

/-- Characters that another text does not have can be replaced by others that it does not have. -/
theorem distance_congr {t s u : Text}
    (h : List.Forall₂ (fun a b => ∀ c ∈ t, a = c ↔ b = c) s u) : distance s t = distance u t := by
  induction t generalizing s u with
  | nil => simpa using h.length_eq
  | cons c t iht =>
    have htail {v w : Text} (h : List.Forall₂ (fun a b => ∀ d ∈ c :: t, a = d ↔ b = d) v w) :
        distance v t = distance w t :=
      iht (h.imp fun _ _ hab d hd => hab d (List.mem_cons_of_mem c hd))
    induction h with
    | nil => rfl
    | @cons a b s u hab h ih =>
      rw [distance_cons_cons, distance_cons_cons, htail h, ih, htail (.cons hab h)]
      simp only [hab c List.mem_cons_self]

end FilterLang.Text
