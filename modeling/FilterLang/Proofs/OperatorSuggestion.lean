import FilterLang.Proofs.EditDistance
import FilterLang.Proofs.FaultLocation
import Mathlib.Data.List.MinMax
import Mathlib.Data.List.ProdSigma

/-!
The operator that is suggested for a clause without one. A sign behind the first token decides, and
otherwise the keyword at the least distance from a word there. The words are measured in lower case;
how characters outside ASCII are lowered makes no difference, since no keyword has them.
-/
namespace FilterLang

namespace Text

/-- What a character can be in lower case. A character of ASCII and the dotted capital I are lowered
in just one way. Any other one gives one character, and this one is outside ASCII too unless it is
the Kelvin sign that is lowered. -/
inductive LowersTo : Char → Text → Prop
  | ascii {c : Char} (h : c.toNat < 128) : LowersTo c [c.toLower]
  | dotted : LowersTo '\u0130' ['i', '\u0307']
  | other {c d : Char} (hc : 128 ≤ c.toNat) (hdotted : c ≠ '\u0130')
    (hd : 128 ≤ d.toNat ∨ c = '\u212A' ∧ d = 'k') : LowersTo c [d]

/-- Whether a text is another one in lower case. What a character becomes may depend on where it
stands. -/
inductive Lowers : Text → Text → Prop
  | nil : Lowers [] []
  | cons {c : Char} {s u t : Text} (hc : LowersTo c s) (h : Lowers u t) : Lowers (c :: u) (s ++ t)

private theorem toLower_of_not_ascii {c : Char} (h : 128 ≤ c.toNat) : c.toLower = c := by
  unfold Char.toLower
  rw [dif_neg]
  rintro ⟨-, hz⟩
  exact Nat.not_lt.mpr h (Nat.lt_of_le_of_lt (UInt32.le_iff_toNat_le.mp hz) (by decide))

private theorem lowersTo_lowerChar (c : Char) : LowersTo c (lowerChar c) := by
  unfold lowerChar
  split
  · next h =>
    obtain rfl : c = '\u0130' := Char.toNat_inj.mp h
    exact .dotted
  · next h =>
    by_cases hc : c.toNat < 128
    · exact .ascii hc
    · have hforeign : 128 ≤ c.toNat := Nat.le_of_not_lt hc
      rw [toLower_of_not_ascii hforeign]
      refine .other hforeign ?_ (.inl hforeign)
      rintro rfl
      exact h rfl

private theorem lowers_lower (s : Text) : Lowers s (lower s) := by
  induction s with
  | nil => exact .nil
  | cons c s ih => exact .cons (lowersTo_lowerChar c) ih

private theorem LowersTo.forall₂ {c : Char} {s s' : Text} (h : LowersTo c s) (h' : LowersTo c s')
    {t : Text} (ht : ∀ d ∈ t, d.toNat < 128 ∧ d ≠ 'k') :
    List.Forall₂ (fun a b => ∀ d ∈ t, a = d ↔ b = d) s s' := by
  have hforeign {a : Char} (ha : 128 ≤ a.toNat ∨ c = '\u212A' ∧ a = 'k') : ∀ d ∈ t, a ≠ d := by
    rintro d hd rfl
    rcases ha with ha | ⟨-, rfl⟩
    · exact absurd (ht a hd).1 (Nat.not_lt.mpr ha)
    · exact (ht 'k' hd).2 rfl
  cases h with
  | ascii hc =>
    cases h' with
    | ascii => exact .cons (fun _ _ => .rfl) .nil
    | dotted => exact absurd hc (by decide)
    | other hc' => exact absurd hc (Nat.not_lt.mpr hc')
  | dotted =>
    cases h' with
    | ascii hc => exact absurd hc (by decide)
    | dotted => exact .cons (fun _ _ => .rfl) (.cons (fun _ _ => .rfl) .nil)
    | other _ hdotted => exact absurd rfl hdotted
  | other hc hdotted ha =>
    cases h' with
    | ascii hc' => exact absurd hc' (Nat.not_lt.mpr hc)
    | dotted => exact absurd rfl hdotted
    | other _ _ hb =>
      exact .cons (fun d hd => iff_of_false (hforeign ha d hd) (hforeign hb d hd)) .nil

private theorem Lowers.distance_eq {w s s' t : Text} (h : Lowers w s) (h' : Lowers w s')
    (ht : ∀ d ∈ t, d.toNat < 128 ∧ d ≠ 'k') : distance s t = distance s' t := by
  apply distance_congr
  induction h generalizing s' with
  | nil =>
    cases h'
    exact .nil
  | cons hc _ ih =>
    cases h' with
    | cons hc' h' => exact List.rel_append (hc.forall₂ hc' ht) (ih h')

end Text

namespace Operator
open Text

/-- What bare words most likely mean: the operator of the first sign among them, or else the one
whose keyword is nearest to some word in lower case, if they are one edit apart at most. Of several
that are equally near `argmin` takes the first, word by word in the order of the keywords. -/
noncomputable def meant (lower : Text → Text) (words : List Text) : Option Operator :=
  (words.findSome? ofAlias?).or <|
    (((words ×ˢ all).argmin fun p => editDistance (lower p.1) p.2.keyword).filter
      fun p => editDistance (lower p.1) p.2.keyword ≤ 1).map Prod.snd

theorem keyword_ascii (op : Operator) : ∀ c ∈ op.keyword, c.toNat < 128 ∧ c ≠ 'k' := by
  cases op <;> decide

def measured (p : Text × Operator) : Nearby := ⟨distance (Text.lower p.1) p.2.keyword, p.2⟩

private theorem better_eq (word : Text) (best : Option Nearby) (op : Operator) :
    better word best op =
      if distance word op.keyword ≤ maxDistance ∧
        ∀ b ∈ best, distance word op.keyword < b.distance
      then some ⟨distance word op.keyword, op⟩ else best := by
  -- The lengths alone never decide otherwise than the distance.
  have hlength := length_le_add_distance word op.keyword
  unfold better maxDistance
  dsimp only
  by_cases hlong : op.keyword.length + 1 < word.length
  · have hfar : ¬ distance word op.keyword ≤ 1 := by omega
    rw [if_pos hlong, if_neg fun h => hfar h.1]
  · rw [if_neg hlong]
    by_cases hfar : 1 < distance word op.keyword
    · rw [if_pos hfar, if_neg fun h => Nat.not_lt.mpr h.1 hfar]
    · rw [if_neg hfar]
      cases best <;> simp [Nat.le_of_not_lt hfar]

private theorem foldl_keep_eq_argmin {α : Type} (f : α → Nat) (m : Nat) (l : List α) :
    l.foldl (fun best a => if f a ≤ m ∧ ∀ b ∈ best, f a < f b then some a else best) none =
      (l.argmin f).filter fun a => f a ≤ m := by
  induction l using List.reverseRecOn with
  | nil => rfl
  | append_singleton l a ih =>
    rw [List.foldl_append, ih, List.argmin_concat, List.foldl_cons, List.foldl_nil]
    cases l.argmin f with
    | none => simp [Option.filter_some]
    | some q =>
      dsimp only
      by_cases hlt : f a < f q
      · rw [if_pos hlt]
        by_cases ha : f a ≤ m
        · by_cases hq : f q ≤ m <;> simp [Option.filter_some, ha, hq, hlt]
        · have hq : ¬ f q ≤ m := by omega
          simp [Option.filter_some, ha, hq]
      · rw [if_neg hlt]
        by_cases hq : f q ≤ m
        · simp [Option.filter_some, hq, hlt]
        · have ha : ¬ f a ≤ m := by omega
          simp [Option.filter_some, ha, hq]

private theorem foldl_better (ps : List (Text × Operator)) :
    ps.foldl (fun best p => better (Text.lower p.1) best p.2) none =
      ((ps.argmin fun p => (measured p).distance).filter
        fun p => (measured p).distance ≤ maxDistance).map measured := by
  rw [← foldl_keep_eq_argmin]
  change ps.foldl _ (Option.map measured none) = _
  apply List.foldl_hom
  intro best p
  rw [better_eq, apply_ite (Option.map measured)]
  cases best <;> simp [measured]

private theorem nearest_eq (best : Option Nearby) (words : List Text) :
    nearest best words = (words.findSome? ofAlias?).or
      (((words ×ˢ all).foldl (fun best p => better (Text.lower p.1) best p.2) best).map
        Nearby.operator) := by
  -- The search is over once a sign is met. Up to there all words are measured by one fold.
  induction words generalizing best with
  | nil => rfl
  | cons w words ih =>
    rw [nearest, List.findSome?_cons, List.product_cons, List.foldl_append, List.foldl_map]
    cases ofAlias? w with
    | some op => rfl
    | none => exact ih _

theorem suggest_eq_meant {lower : Text → Text} (h : ∀ w, Lowers w (lower w))
    (lexemes : List Lexeme) :
    suggest lexemes = meant lower ((lexemes.drop 1).filterMap wordOf?) := by
  have hdistance (p : Text × Operator) :
      editDistance (lower p.1) p.2.keyword = (measured p).distance := by
    rw [editDistance_eq]
    exact (h p.1).distance_eq (lowers_lower p.1) (keyword_ascii p.2)
  simp only [suggest, meant, nearest_eq, foldl_better, hdistance, Option.map_map]
  rfl

end Operator

private theorem Division.find?_eq_none_iff {xs : List Lexeme} :
    find? xs = none ↔ ∀ w ∈ xs.filterMap Operator.wordOf?, Operator.ofKeyword? w = none := by
  induction xs with
  | nil => simp [find?]
  | cons x xs ih =>
    rw [find?, List.filterMap_cons, Operator.ofLexeme?]
    cases Operator.wordOf? x with
    | none => simpa using ih
    | some w =>
      cases hw : Operator.ofKeyword? w with
      | some op => simp [hw]
      | none => simpa [hw] using ih

namespace Clause
open Text

private theorem ofDivision_ne_missingOperator (text : Text) (d : Division) (clause : Text)
    (suggestion : Option Operator) :
    ofDivision text d ≠ .error (.missingOperator clause suggestion) := by
  intro h
  obtain ⟨left, op, right⟩ := d
  unfold ofDivision at h
  dsimp only at h
  split at h
  · cases h
  · cases h
  · cases h
  · cases h
  · next f v =>
    cases ho : Operand.ofToken text v.token with
    | ok o => rw [ho] at h; cases h
    | error e =>
      rw [ho] at h
      cases Except.error.inj h
      cases eq_of_ofToken_error ho

/-- A clause is refused for want of an operator just when none of its bare words is a keyword. It is
reported as a whole, without the blanks at its ends, and with what the bare words behind its first
token most likely mean. -/
theorem read_eq_missingOperator_iff {lower : Text → Text} (hlower : ∀ w, Lowers w (lower w))
    (text clause : Text) (suggestion : Option Operator) :
    read text = .error (.missingOperator clause suggestion) ↔
      (∀ w ∈ (Lexeme.all (trim text)).filterMap Operator.wordOf?, Operator.ofKeyword? w = none) ∧
      clause = trim text ∧
      suggestion =
        Operator.meant lower (((Lexeme.all (trim text)).drop 1).filterMap Operator.wordOf?) := by
  rw [← Division.find?_eq_none_iff, ← Operator.suggest_eq_meant hlower]
  unfold read readTrimmed
  dsimp only
  cases Division.find? (Lexeme.all (trim text)) with
  | none => simp [eq_comm]
  | some d => simp [ofDivision_ne_missingOperator]

/-- The word `GET` is as near to `gt` as to `ge`, which is the later keyword. A sign behind it means
more than both. -/
theorem read_missingOperator_near_and_sign :
    (∀ w, Lowers w (lower w)) ∧
    read "a GET 1".toList = .error (.missingOperator "a GET 1".toList (some .gt)) ∧
    read "a GET <> 1".toList = .error (.missingOperator "a GET <> 1".toList (some .ne)) := by
  have hnear : (Lexeme.all (trim "a GET 1".toList)).filterMap Operator.wordOf? =
      ["a".toList, "GET".toList, "1".toList] := by decide +kernel
  have hsign : (Lexeme.all (trim "a GET <> 1".toList)).filterMap Operator.wordOf? =
      ["a".toList, "GET".toList, "<>".toList, "1".toList] := by decide +kernel
  refine ⟨lowers_lower, (read_eq_missingOperator_iff lowers_lower _ _ _).mpr ⟨?_, ?_, ?_⟩,
    (read_eq_missingOperator_iff lowers_lower _ _ _).mpr ⟨?_, ?_, ?_⟩⟩
  · rw [hnear]
    decide
  · decide
  · simp only [Operator.meant, editDistance_eq]
    decide +kernel
  · rw [hsign]
    decide
  · decide
  · simp only [Operator.meant, editDistance_eq]
    decide +kernel

end Clause
end FilterLang
