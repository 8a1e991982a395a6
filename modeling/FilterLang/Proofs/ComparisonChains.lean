import FilterLang.Proofs.Comparison
import Mathlib.Data.Char
import Mathlib.Data.Int.Order.Basic
import Mathlib.Data.List.Lex

/-!
Comparisons one after another. Numbers are in order, and so are texts, but which of the two orders
counts is settled for each pair by itself. So a chain of three values breaks just when one of them
is no number and stands, as a text, between the other two, which are numbers in another order than
their texts.
-/
namespace FilterLang

namespace Text
variable {s t : Text}

private theorem order_eq_lt_iff : order s t = .lt ↔ s < t := by
  induction s generalizing t with
  | nil => cases t <;> simp [order]
  | cons a s ih =>
    cases t with
    | nil => simp [order]
    | cons b t =>
      rw [order, Ordering.then_eq_lt, List.cons_lt_cons_iff, ih, Nat.compare_eq_lt,
        Nat.compare_eq_eq, Char.toNat_inj]
      rfl

private theorem order_ne_gt_iff : order s t ≠ .gt ↔ s ≤ t := by
  rw [← not_lt, ← order_eq_lt_iff, ← order_swap s t, Ordering.swap_eq_lt]

end Text

namespace Scalar
variable {a b c : Scalar}

/-- The number that a value is compared by, in units, if the value reads as a finite number. -/
def value? (a : Scalar) : Option ℤ := a.asNumber.bind Binary64.value?

/-- Whether a value that is no number stands, as a text, from `low` to `high`, two numbers of which
`low` is not the smaller one. -/
structure StandsBetween (a low high : Scalar) : Prop where
  not_number : a.value? = none
  not_lt : ∃ m ∈ low.value?, ∃ n ∈ high.value?, n ≤ m
  low_le : Text.order low.asText a.asText ≠ .gt
  le_high : Text.order a.asText high.asText ≠ .gt

/-- Whether one of three values stands between the other two. -/
def Tangled (a b c : Scalar) : Prop :=
  (StandsBetween a b c ∨ StandsBetween a c b) ∨ (StandsBetween b a c ∨ StandsBetween b c a) ∨
    (StandsBetween c a b ∨ StandsBetween c b a)

instance (a low high : Scalar) : Decidable (StandsBetween a low high) :=
  decidable_of_iff
    (a.value? = none ∧ (∃ m ∈ low.value?, ∃ n ∈ high.value?, n ≤ m) ∧
      Text.order low.asText a.asText ≠ .gt ∧ Text.order a.asText high.asText ≠ .gt)
    ⟨fun ⟨ha, hle, hlow, hhigh⟩ => ⟨ha, hle, hlow, hhigh⟩,
      fun ⟨ha, hle, hlow, hhigh⟩ => ⟨ha, hle, hlow, hhigh⟩⟩

instance (a b c : Scalar) : Decidable (Tangled a b c) :=
  inferInstanceAs (Decidable ((StandsBetween a b c ∨ StandsBetween a c b) ∨ _ ∨ _))

/-- Two numbers are compared by their values. -/
theorem compare_of_values {m n : ℤ} (ha : a.value? = some m) (hb : b.value? = some n) :
    a.compare b = Ord.compare m n := by
  simp only [value?] at ha hb
  simp only [compare, ha, hb]

private theorem compare_eq_lt_iff_of_values {m n : ℤ} (ha : a.value? = some m)
    (hb : b.value? = some n) : a.compare b = .lt ↔ m < n := by
  rw [compare_of_values ha hb, Int.compare_eq_lt]

private theorem compare_eq_lt_iff_of_none (h : a.value? = none ∨ b.value? = none) :
    a.compare b = .lt ↔ a.asText < b.asText := by
  rw [← Text.order_eq_lt_iff, compare]
  simp only [value?] at h
  rcases h with h | h
  · simp only [h]
  · cases ha : a.asNumber.bind Binary64.value? <;> simp only [h]

namespace StandsBetween
variable {low high : Scalar}

private theorem of_le {m n : ℤ} (ha : a.value? = none) (hm : low.value? = some m)
    (hn : high.value? = some n) (hle : n ≤ m) (hlow : low.asText ≤ a.asText)
    (hhigh : a.asText ≤ high.asText) : StandsBetween a low high :=
  ⟨ha, ⟨m, hm, n, hn, hle⟩, Text.order_ne_gt_iff.mpr hlow, Text.order_ne_gt_iff.mpr hhigh⟩

private theorem low_not_lt_high (h : StandsBetween a low high) : low.compare high ≠ .lt := by
  obtain ⟨m, hm, n, hn, hle⟩ := h.not_lt
  rw [Ne, compare_eq_lt_iff_of_values hm hn]
  exact hle.not_gt

private theorem not_lt_low (h : StandsBetween a low high) : a.compare low ≠ .lt := by
  rw [Ne, compare_eq_lt_iff_of_none (.inl h.not_number)]
  exact (Text.order_ne_gt_iff.mp h.low_le).not_gt

private theorem high_not_lt (h : StandsBetween a low high) : high.compare a ≠ .lt := by
  rw [Ne, compare_eq_lt_iff_of_none (.inr h.not_number)]
  exact (Text.order_ne_gt_iff.mp h.le_high).not_gt

end StandsBetween

/-- Of three values in a chain, one that stands between the other two is where the chain breaks. -/
theorem Tangled.not_lt (h : Tangled a b c) (hab : a.compare b = .lt) (hbc : b.compare c = .lt) :
    a.compare c ≠ .lt := by
  rcases h with (h | h) | (h | h) | (h | h)
  · exact absurd hbc h.low_not_lt_high
  · exact h.not_lt_low
  · exact h.low_not_lt_high
  · exact absurd hab h.high_not_lt
  · exact absurd hab h.low_not_lt_high
  · exact h.high_not_lt

/-- Where a chain breaks, two of the values are numbers and the third one stands between them. With
three numbers, or no two, there is one order for all and nothing can break. -/
theorem tangled_of_not_lt (hab : a.compare b = .lt) (hbc : b.compare c = .lt)
    (hac : a.compare c ≠ .lt) : Tangled a b c := by
  cases ha : a.value? with
  | none =>
    rw [compare_eq_lt_iff_of_none (.inl ha)] at hab
    rw [Ne, compare_eq_lt_iff_of_none (.inl ha), not_lt] at hac
    cases hb : b.value? with
    | none =>
      rw [compare_eq_lt_iff_of_none (.inl hb)] at hbc
      exact absurd (hab.trans hbc) hac.not_gt
    | some m =>
      cases hc : c.value? with
      | none =>
        rw [compare_eq_lt_iff_of_none (.inr hc)] at hbc
        exact absurd (hab.trans hbc) hac.not_gt
      | some n =>
        rw [compare_eq_lt_iff_of_values hb hc] at hbc
        exact .inl (.inr (.of_le ha hc hb hbc.le hac hab.le))
  | some k =>
    cases hb : b.value? with
    | none =>
      rw [compare_eq_lt_iff_of_none (.inr hb)] at hab
      rw [compare_eq_lt_iff_of_none (.inl hb)] at hbc
      cases hc : c.value? with
      | none =>
        rw [Ne, compare_eq_lt_iff_of_none (.inr hc)] at hac
        exact absurd (hab.trans hbc) hac
      | some n =>
        rw [Ne, compare_eq_lt_iff_of_values ha hc, not_lt] at hac
        exact .inr (.inl (.inl (.of_le hb ha hc hac hab.le hbc.le)))
    | some m =>
      rw [compare_eq_lt_iff_of_values ha hb] at hab
      cases hc : c.value? with
      | none =>
        rw [compare_eq_lt_iff_of_none (.inr hc)] at hbc
        rw [Ne, compare_eq_lt_iff_of_none (.inr hc), not_lt] at hac
        exact .inr (.inr (.inr (.of_le hc hb ha hab.le hbc.le hac)))
      | some n =>
        rw [compare_eq_lt_iff_of_values hb hc] at hbc
        rw [Ne, compare_eq_lt_iff_of_values ha hc] at hac
        exact absurd (hab.trans hbc) hac

end Scalar

namespace Clause
variable {r : Record}

/-- A clause that compares two fields holds just when both have values and the operator accepts
them. -/
theorem holds_field_iff {name other : Text} {op : Operator} :
    holds ⟨name, op, .field other⟩ r = true ↔
      ∃ a b, r name = some a ∧ r other = some b ∧ op.accepts (a.compare b) = true := by
  cases ha : r name with
  | none => simp [holds_of_none (c := ⟨name, op, .field other⟩) (.inl ha)]
  | some a =>
    cases hb : r other with
    | none => simp [holds_of_none (c := ⟨name, op, .field other⟩) (.inr hb)]
    | some b => simp [holds_of_values (c := ⟨name, op, .field other⟩) ha hb]

private theorem holds_lt_iff {name other : Text} {a b : Scalar} (ha : r name = some a)
    (hb : r other = some b) :
    holds ⟨name, .lt, .field other⟩ r = true ↔ a.compare b = .lt := by
  rw [holds_field_iff]
  simp [ha, hb, Operator.accepts]

/-- Of three values of which the first is less than the second and the second less than the third,
the first is less than the third unless one of them is no number and stands, as a text, between the
other two, which are numbers in another order than their texts. Then it never is. The same holds of
three fields of a record. -/
theorem lt_trans_iff_not_tangled :
    (∀ a b c : Scalar, a.compare b = .lt → b.compare c = .lt →
      (a.compare c = .lt ↔ ¬ Scalar.Tangled a b c)) ∧
    ∀ (r : Record) (x y z : Text), holds ⟨x, .lt, .field y⟩ r = true →
      holds ⟨y, .lt, .field z⟩ r = true →
      ∃ a b c, r x = some a ∧ r y = some b ∧ r z = some c ∧
        (holds ⟨x, .lt, .field z⟩ r = true ↔ ¬ Scalar.Tangled a b c) := by
  have hchain (a b c : Scalar) (hab : a.compare b = .lt) (hbc : b.compare c = .lt) :
      a.compare c = .lt ↔ ¬ Scalar.Tangled a b c :=
    ⟨fun hac h => h.not_lt hab hbc hac,
      fun h => not_not.mp (mt (Scalar.tangled_of_not_lt hab hbc) h)⟩
  refine ⟨hchain, fun r x y z hxy hyz => ?_⟩
  obtain ⟨a, b, ha, hb, -⟩ := holds_field_iff.mp hxy
  obtain ⟨-, c, -, hc, -⟩ := holds_field_iff.mp hyz
  refine ⟨a, b, c, ha, hb, hc, ?_⟩
  rw [holds_lt_iff ha hc]
  exact hchain a b c ((holds_lt_iff ha hb).mp hxy) ((holds_lt_iff hb hc).mp hyz)

/-- A text that stands behind both numbers leaves the chain whole, though the two numbers are in
another order than their texts. -/
theorem lt_trans_of_text_behind :
    let r := (Json.object [("x".toList, .string "2".toList), ("y".toList, .string "10".toList),
      ("z".toList, .string "9a".toList)]).toRecord
    holds ⟨"x".toList, .lt, .field "y".toList⟩ r = true ∧
      holds ⟨"y".toList, .lt, .field "z".toList⟩ r = true ∧
      holds ⟨"x".toList, .lt, .field "z".toList⟩ r = true := by
  intro r
  have hxy : holds ⟨"x".toList, .lt, .field "y".toList⟩ r = true := by decide +kernel
  have hyz : holds ⟨"y".toList, .lt, .field "z".toList⟩ r = true := by decide +kernel
  obtain ⟨a, b, c, ha, hb, hc, hxz⟩ := lt_trans_iff_not_tangled.2 r _ _ _ hxy hyz
  cases Option.some.inj ha
  cases Option.some.inj hb
  cases Option.some.inj hc
  exact ⟨hxy, hyz, hxz.mpr (by decide +kernel)⟩

/-- Two numbers in another order than their texts, and a text between them. -/
theorem exists_lt_not_trans :
    let r := (Json.object [("x".toList, .string "9".toList), ("y".toList, .string "10".toList),
      ("z".toList, .string "1a".toList)]).toRecord
    (∃ a b c : Scalar, r "x".toList = some a ∧ r "y".toList = some b ∧ r "z".toList = some c ∧
      a.compare b = .lt ∧ b.compare c = .lt ∧ a.compare c = .gt) ∧
    holds ⟨"x".toList, .lt, .field "y".toList⟩ r = true ∧
    holds ⟨"y".toList, .lt, .field "z".toList⟩ r = true ∧
    holds ⟨"x".toList, .lt, .field "z".toList⟩ r = false := by
  refine ⟨⟨.text "9".toList, .text "10".toList, .text "1a".toList, ?_⟩, ?_⟩ <;> decide +kernel

end Clause
end FilterLang
