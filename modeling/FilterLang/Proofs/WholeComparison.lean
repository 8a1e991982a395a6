import FilterLang.Proofs.ClausePrinting
import FilterLang.Proofs.ComparisonChains
import FilterLang.Proofs.NumberReading
import FilterLang.Sql

/-!
Whole numbers in comparisons. A document and a condition keep a whole number as it is written, but a
record is compared with the number of the format that is nearest to it. Whole numbers of at most 53
bits are numbers of the format themselves. Larger ones may be taken for their neighbours, but two of
them never change their order.
-/
namespace FilterLang
open Binary64

namespace Binary64
variable {m n v w : ℤ}

private theorem units_pos : 0 < one := by
  delta one
  generalize 1074 = n
  exact Nat.two_pow_pos n

private theorem rounds_mul_one (h : |m| ≤ 2 ^ 53) : Rounds (m * one) (m * one : ℤ) := by
  have hshort : IsShort (m * 2 ^ 0) := isShort_of_abs_le h 0
  rw [pow_zero, mul_one] at hshort
  exact_mod_cast hshort.mul_one.rounds

namespace Rounds

theorem le_of_le (hv : Rounds (m * one) v) (hw : Rounds (n * one) w) (h : m ≤ n) : v ≤ w :=
  hv.mono hw (mul_le_mul_of_nonneg_right (by exact_mod_cast h) (Nat.cast_nonneg one))

theorem lt_iff (hv : Rounds (m * one) v) (hw : Rounds (n * one) w) : v < w ↔ m < n ∧ v ≠ w := by
  constructor
  · intro h
    exact ⟨not_le.mp fun hle => (hw.le_of_le hv hle).not_gt h, h.ne⟩
  · rintro ⟨hlt, hne⟩
    exact (hv.le_of_le hw hlt.le).lt_of_ne hne

/-- A whole number of at most 53 bits keeps its distance from both of its neighbours, so no other
one is rounded to it. -/
theorem eq_of_abs_lt (hv : Rounds (m * one) v) (hw : Rounds (n * one) v) (h : |m| < 2 ^ 53) :
    m = n := by
  have hm : v = m * one := hv.unique (rounds_mul_one h.le)
  have hone : 0 < (one : ℤ) := Int.natCast_pos.mpr units_pos
  obtain ⟨hlow, hhigh⟩ := abs_lt.mp h
  by_contra hne
  rcases lt_or_gt_of_ne hne with hlt | hlt
  · have hnext := (rounds_mul_one (abs_le.mpr ⟨by omega, hhigh⟩)).le_of_le hw hlt
    rw [hm] at hnext
    exact absurd (le_of_mul_le_mul_right hnext hone) (by omega)
  · have hprev := hw.le_of_le (rounds_mul_one (abs_le.mpr ⟨by omega, by omega⟩))
      (Int.le_sub_one_of_lt hlt)
    rw [hm] at hprev
    exact absurd (le_of_mul_le_mul_right hprev hone) (by omega)

theorem eq_iff_of_abs_lt (hv : Rounds (m * one) v) (hw : Rounds (n * one) w)
    (h : |m| < 2 ^ 53 ∨ |n| < 2 ^ 53) : v = w ↔ m = n := by
  constructor
  · rintro rfl
    exact h.elim (hv.eq_of_abs_lt hw) fun hn => (hw.eq_of_abs_lt hv hn).symm
  · rintro rfl
    exact hv.unique hw

end Rounds
end Binary64

namespace Scalar

private theorem value?_number {x : Binary64} {v : ℤ} (h : x.value? = some v) :
    (number x).value? = some v := by
  cases x with
  | finite negative u => exact h
  | infinite _ => cases h
  | nan => cases h

end Scalar

/-- A text that writes a whole number of 64 bits reads as the number nearest to it. -/
theorem Binary64.exists_rounds_of_writesWhole {s : Text} {n : ℤ} (h : Decimal.WritesWhole s n)
    (hn : n.natAbs ≤ 2 ^ 64) :
    ∃ x w, readFinite? s = some x ∧ x.value? = some w ∧ Rounds (n * one) w := by
  obtain ⟨x, hx⟩ := exists_readFinite?_of_writesWhole h hn
  obtain ⟨d, w, hd, -, hw, hround⟩ := exists_decimal_of_readFinite? hx
  obtain ⟨e, he, -, -, hvalue⟩ := Decimal.exists_read?_of_writesWhole h
  cases Option.some.inj (hd.symm.trans he)
  rw [hvalue] at hround
  exact ⟨x, w, hx, hw, hround⟩

namespace Clause

/-- A comparison with a whole number of 64 bits is read from its text, and its document and its
condition keep the number. A record with a whole number of 64 bits is compared by what the two are
rounded to: they are equal if they are rounded to the same number of the format, and otherwise in
the order in which they are. So the comparison is exact if one of them has at most 53 bits. -/
theorem holds_whole_iff {name s : Text} {m n : ℤ} (hname : Text.IsFieldText name)
    (hs : Decimal.WritesWhole s n) (hm : -2 ^ 63 ≤ m ∧ m < 2 ^ 63) (hn : -2 ^ 63 ≤ n ∧ n < 2 ^ 63) :
    let clause (op : Operator) : Clause := ⟨name, op, .number s⟩
    let record := (Json.single name (.number (.whole m))).toRecord
    (∃ v w, Rounds (m * one) v ∧ Rounds (n * one) w ∧
      ((clause .eq).holds record = true ↔ v = w) ∧
      ((clause .lt).holds record = true ↔ m < n ∧ v ≠ w)) ∧
    (|m| < 2 ^ 53 ∨ |n| < 2 ^ 53 →
      ((clause .eq).holds record = true ↔ m = n) ∧ ((clause .lt).holds record = true ↔ m < n)) ∧
    ∀ op, read (displayParts name op (.number s)) = .ok (clause op) ∧
      (clause op).toDocument = Document.comparison name op (.number (.whole n)) ∧
      ∀ style, (clause op).toSql style =
        style.fieldName name ++ ' ' :: op.sqlSymbol ++ ' ' :: s := by
  intro clause record
  obtain ⟨v, hv, hround⟩ := rounds_ofInt (n := m) (by omega)
  obtain ⟨x, w, hx, hw, hround'⟩ := exists_rounds_of_writesWhole hs (by omega)
  have hleft : record name = some (.number (ofInt m)) := by
    simp [record, Json.toRecord, Json.field?, Json.single, Json.toScalar?, JsonNumber.toBinary64]
  have hread : Binary64.read? s = some x := (Option.filter_eq_some_iff.mp hx).1
  have hright (op : Operator) : (clause op).operand.value? record = some (.number x) := by
    simp only [clause, Operand.value?, hread]
  have hholds (op : Operator) : (clause op).holds record = op.accepts (Ord.compare v w) := by
    rw [holds_of_values hleft (hright op), Scalar.compare_of_values (Scalar.value?_number hv)
      (Scalar.value?_number hw)]
  have heq : (clause .eq).holds record = true ↔ v = w := by
    rw [hholds, Operator.accepts, decide_eq_true_iff, compare_eq_iff_eq]
  have hlt : (clause .lt).holds record = true ↔ v < w := by
    rw [hholds, Operator.accepts, decide_eq_true_iff, Int.compare_eq_lt]
  refine ⟨⟨v, w, hround, hround', heq, hlt.trans (hround.lt_iff hround')⟩, fun h => ?_,
    fun op => ?_⟩
  · have hiff := hround.eq_iff_of_abs_lt hround' h
    refine ⟨heq.trans hiff, ?_⟩
    rw [hlt, hround.lt_iff hround', Ne, hiff]
    exact ⟨And.left, fun hmn => ⟨hmn, hmn.ne⟩⟩
  · have hlegible : (clause op).Legible :=
      legible_iff.mpr ⟨hname, Option.isSome_iff_exists.mpr ⟨x, hx⟩⟩
    exact ⟨hlegible.read_display, by rw [← Document.number_of_writesWhole hs hn]; rfl, fun _ => rfl⟩

/-- The largest whole number of 53 bits, and the largest of 64 bits, which is rounded up. -/
theorem holds_whole_of_bits :
    let s := Text.ofInt 9223372036854775807
    let record := (Json.single ['x'] (.number (.whole 9007199254740991))).toRecord
    read (displayParts ['x'] .lt (.number s)) = .ok ⟨['x'], .lt, .number s⟩ ∧
      holds ⟨['x'], .lt, .number s⟩ record = true ∧
      ¬ holds ⟨['x'], .eq, .number s⟩ record = true := by
  intro s record
  have hword : Text.IsWord ['x'] :=
    ⟨List.cons_ne_nil _ _, List.forall_mem_singleton.mpr rfl, fun c hc => by cases hc; rfl⟩
  have hname : Text.IsFieldText ['x'] := .inl ⟨hword, fun op => by cases op <;> decide⟩
  obtain ⟨-, hexact, hparts⟩ := holds_whole_iff (m := 9007199254740991) hname
    (Decimal.writesWhole_ofInt 9223372036854775807) (by norm_num) (by norm_num)
  obtain ⟨heq, hlt⟩ := hexact (.inl (by norm_num))
  exact ⟨(hparts .lt).1, hlt.mpr (by norm_num), fun h => absurd (heq.mp h) (by norm_num)⟩

/-- Two whole numbers of 54 bits that are rounded to the same number. -/
theorem exists_whole_taken_for_next :
    ∃ c d, read "x eq 9007199254740992".toList = .ok c ∧
      c.holds (Json.single ['x'] (.number (.whole 9007199254740993))).toRecord = true ∧
      read "x lt 9007199254740993".toList = .ok d ∧
      d.holds (Json.single ['x'] (.number (.whole 9007199254740992))).toRecord = false := by
  refine ⟨⟨['x'], .eq, .number "9007199254740992".toList⟩,
    ⟨['x'], .lt, .number "9007199254740993".toList⟩, eq_ok_of_toOption ?_, ?_,
    eq_ok_of_toOption ?_, ?_⟩ <;> decide +kernel

end Clause
end FilterLang
