import FilterLang.Record
import Mathlib.Logic.ExistsUnique

/-!
Comparison of values. Two values stand to each other in one way, and in the opposite way if they are
exchanged, whether they are compared by number or by text. So beside a record all six operators are
settled by which one of `eq`, `lt` and `gt` holds.
-/
namespace FilterLang

namespace Operator

/-- The operator that holds of two values when this one holds of them in exchange. -/
def mirror : Operator → Operator
  | eq => eq
  | ne => ne
  | gt => lt
  | ge => le
  | lt => gt
  | le => ge

theorem accepts_mirror (op : Operator) (o : Ordering) :
    op.mirror.accepts o.swap = op.accepts o := by
  cases op <;> cases o <;> rfl

/-- What the six operators say of two values that can be compared. -/
structure Trichotomy (holds : Operator → Bool) : Prop where
  existsUnique : ∃! op, op ∈ [eq, lt, gt] ∧ holds op = true
  ge : holds ge = (holds gt || holds eq)
  le : holds le = (holds lt || holds eq)
  ne : holds ne = !holds eq

theorem trichotomy_accepts (o : Ordering) : Trichotomy fun op => op.accepts o := by
  refine ⟨?_, ?_, ?_, ?_⟩
  · cases o with
    | lt => exact ⟨lt, by decide, fun op => by cases op <;> decide⟩
    | eq => exact ⟨eq, by decide, fun op => by cases op <;> decide⟩
    | gt => exact ⟨gt, by decide, fun op => by cases op <;> decide⟩
  all_goals cases o <;> rfl

end Operator

theorem Text.order_swap (s t : Text) : (order s t).swap = order t s := by
  induction s generalizing t with
  | nil => cases t <;> rfl
  | cons a s ih =>
    cases t with
    | nil => rfl
    | cons b t => rw [order, order, Ordering.swap_then, ← Std.OrientedOrd.eq_swap, ih]

namespace Scalar
variable {a b : Scalar} {o : Ordering}

/-- How one value stands to another: by number if both read as finite ones, and otherwise by
text. -/
inductive Compares (a b : Scalar) : Ordering → Prop
  | number {x y : Binary64} {m n : Int} (ha : a.asNumber = some x) (hb : b.asNumber = some y)
    (hm : x.value? = some m) (hn : y.value? = some n) : Compares a b (Ord.compare m n)
  | text (h : a.asNumber = none ∨ b.asNumber = none) : Compares a b (Text.order a.asText b.asText)

private theorem exists_value_of_asNumber {x : Binary64} (h : a.asNumber = some x) :
    ∃ n, x.value? = some n := by
  have hfinite : x.isFinite = true := by
    cases a with
    | text s => exact (Option.filter_eq_some_iff.mp h).2
    | number z =>
      rw [asNumber] at h
      split at h
      · next hz => exact Option.some.inj h ▸ hz
      · cases h
    | bool _ => cases h
  cases x with
  | finite negative u => cases negative <;> exact ⟨_, rfl⟩
  | infinite _ => cases hfinite
  | nan => cases hfinite

theorem Compares.compare_eq (h : Compares a b o) : a.compare b = o := by
  cases h with
  | number ha hb hm hn => simp [compare, ha, hb, hm, hn]
  | text h =>
    rcases h with h | h
    · simp [compare, h]
    · cases ha : a.asNumber.bind Binary64.value? <;> simp [compare, h, ha]

private theorem exists_compares (a b : Scalar) : ∃ o, Compares a b o := by
  cases ha : a.asNumber with
  | none => exact ⟨_, .text (.inl ha)⟩
  | some x =>
    cases hb : b.asNumber with
    | none => exact ⟨_, .text (.inr hb)⟩
    | some y =>
      obtain ⟨m, hm⟩ := exists_value_of_asNumber ha
      obtain ⟨n, hn⟩ := exists_value_of_asNumber hb
      exact ⟨_, .number ha hb hm hn⟩

private theorem compares_compare (a b : Scalar) : Compares a b (a.compare b) := by
  obtain ⟨o, h⟩ := exists_compares a b
  rwa [h.compare_eq]

theorem Compares.swap (h : Compares a b o) : Compares b a o.swap := by
  cases h with
  | number ha hb hm hn =>
    rw [← Std.OrientedOrd.eq_swap]
    exact .number hb ha hn hm
  | text h =>
    rw [Text.order_swap]
    exact .text h.symm

theorem compare_swap (a b : Scalar) : (a.compare b).swap = b.compare a :=
  (compares_compare a b).swap.compare_eq.symm

end Scalar

/-- A field of JSON has no value as a scalar if it is missing, null, an array or an object. -/
theorem Json.toRecord_eq_none_iff (v : Json) (name : Text) :
    v.toRecord name = none ↔ v.field? name = none ∨ v.field? name = some .null ∨
      (∃ items, v.field? name = some (.array items)) ∨
      ∃ fields, v.field? name = some (.object fields) := by
  cases hv : v.field? name with
  | none => simp [toRecord, hv]
  | some u => cases u <;> simp [toRecord, hv, toScalar?]

private theorem Operand.value?_eq_none_iff {r : Record} {o : Operand} :
    o.value? r = none ↔ ∃ name, o = .field name ∧ r name = none := by
  cases o <;> simp [value?]

namespace Clause
variable {c : Clause} {r : Record}

theorem holds_of_values {a b : Scalar} (ha : r c.field = some a)
    (hb : c.operand.value? r = some b) : c.holds r = c.operator.accepts (a.compare b) := by
  rw [holds, ha, hb]

theorem holds_of_none (h : r c.field = none ∨ c.operand.value? r = none) : c.holds r = false := by
  rcases h with h | h
  · rw [holds, h]
  · cases ha : r c.field <;> rw [holds, ha, h]

/-- The sides of a comparison of two fields can be exchanged, together with its operator. -/
theorem holds_mirror (r : Record) (name other : Text) (op : Operator) :
    holds ⟨name, op, .field other⟩ r = holds ⟨other, op.mirror, .field name⟩ r := by
  cases ha : r name with
  | none =>
    have hleft : holds ⟨name, op, .field other⟩ r = false := holds_of_none (.inl ha)
    have hright : holds ⟨other, op.mirror, .field name⟩ r = false := holds_of_none (.inr ha)
    rw [hleft, hright]
  | some a =>
    cases hb : r other with
    | none =>
      have hleft : holds ⟨name, op, .field other⟩ r = false := holds_of_none (.inr hb)
      have hright : holds ⟨other, op.mirror, .field name⟩ r = false := holds_of_none (.inl hb)
      rw [hleft, hright]
    | some b =>
      calc holds ⟨name, op, .field other⟩ r
        _ = op.accepts (a.compare b) := holds_of_values ha hb
        _ = op.mirror.accepts (a.compare b).swap := (op.accepts_mirror _).symm
        _ = op.mirror.accepts (b.compare a) := by rw [a.compare_swap b]
        _ = holds ⟨other, op.mirror, .field name⟩ r := Eq.symm (holds_of_values hb ha)

/-- Of clauses that differ in their operator only, none holds of a record in which a field that they
mention has no value. Otherwise the operators that hold are those of the one order in which the two
sides stand. -/
theorem holds_trichotomy (r : Record) (name : Text) (o : Operand) :
    let holds (op : Operator) : Bool := Clause.holds ⟨name, op, o⟩ r
    let missing : Prop := r name = none ∨ ∃ other, o = .field other ∧ r other = none
    (missing → ∀ op, holds op = false) ∧
    (¬ missing → Operator.Trichotomy holds ∧ ∃ a b order, r name = some a ∧
      o.value? r = some b ∧ Scalar.Compares a b order ∧ ∀ op, holds op = op.accepts order) ∧
    (∀ other op, Clause.holds ⟨name, op, .field other⟩ r =
      Clause.holds ⟨other, op.mirror, .field name⟩ r) ∧
    ∀ v : Json, v.toRecord name = none ↔ v.field? name = none ∨ v.field? name = some .null ∨
      (∃ items, v.field? name = some (.array items)) ∨
      ∃ fields, v.field? name = some (.object fields) := by
  intro holds missing
  refine ⟨fun h op => ?_, fun h => ?_, holds_mirror r name, fun v => v.toRecord_eq_none_iff name⟩
  · exact holds_of_none (h.imp_right Operand.value?_eq_none_iff.mpr)
  · obtain ⟨hleft, hright⟩ := not_or.mp h
    obtain ⟨a, ha⟩ := Option.ne_none_iff_exists'.mp hleft
    obtain ⟨b, hb⟩ := Option.ne_none_iff_exists'.mp (mt Operand.value?_eq_none_iff.mp hright)
    have hholds (op : Operator) : holds op = op.accepts (a.compare b) := holds_of_values ha hb
    refine ⟨?_, a, b, _, ha, hb, a.compares_compare b, hholds⟩
    rw [funext hholds]
    exact Operator.trichotomy_accepts _

end Clause
end FilterLang
