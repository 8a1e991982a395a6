import FilterLang.Number.Decimal
import Mathlib.Algebra.Order.Field.Rat
import Mathlib.Algebra.Order.Group.Unbundled.Int
import Mathlib.Data.Nat.Cast.Order.Field
import Mathlib.Tactic.FieldSimp
import Mathlib.Tactic.Linarith
import Mathlib.Tactic.Positivity
import Mathlib.Tactic.Ring

/-!
Rounding to the numbers of the binary64 format. A number is rounded to the nearest count of units
with at most 53 significant bits; of two that are equally near, to the even one. What rounding gives
is thereby settled, and it keeps the order of numbers.
-/
namespace FilterLang.Binary64

/-- A count of units that the format has if its range is left aside: one of 53 significant bits. -/
def IsShort (v : ℤ) : Prop := ∃ (s : ℤ) (e : ℕ), |s| < 2 ^ 53 ∧ v = s * 2 ^ e

/-- Whether `v` is the count of the format that a number of `r` units is rounded to: the nearest
one, and of two that are equally near the one that is an even multiple of their distance. -/
structure Rounds (r : ℚ) (v : ℤ) : Prop where
  isShort : IsShort v
  le : ∀ w, IsShort w → |r - v| ≤ |r - w|
  even : ∀ w, IsShort w → w ≠ v → |r - v| = |r - w| → 2 * |v - w| ∣ v

namespace Rounds
variable {r r' : ℚ} {v v' : ℤ}

private theorem eq_midpoint (h : Rounds r v) (h' : Rounds r' v') (hr : r ≤ r') (hv : v' < v) :
    |r - v| = |r - v'| ∧ |r' - v'| = |r' - v| := by
  have hlt : (v' : ℚ) < v := by exact_mod_cast hv
  have hle := sq_le_sq.mpr (h.le v' h'.isShort)
  have hle' := sq_le_sq.mpr (h'.le v h.isShort)
  have hmid : (v - v' : ℚ) * (v + v') ≤ (v - v') * (2 * r) := by nlinarith
  have hmid' : (v - v' : ℚ) * (2 * r') ≤ (v - v') * (v + v') := by nlinarith
  have hpos : (0 : ℚ) < v - v' := by linarith
  have hlow := le_of_mul_le_mul_left hmid hpos
  have hhigh := le_of_mul_le_mul_left hmid' hpos
  obtain rfl : r = r' := by linarith
  have hneg : r - v' = -(r - v) := by linarith
  rw [hneg, abs_neg]
  exact ⟨rfl, rfl⟩

theorem mono (h : Rounds r v) (h' : Rounds r' v') (hr : r ≤ r') : v ≤ v' := by
  by_contra hv
  have hv := not_le.mp hv
  obtain ⟨heq, heq'⟩ := h.eq_midpoint h' hr hv
  have hdvd := h.even v' h'.isShort hv.ne heq
  have hdvd' := h'.even v h.isShort hv.ne' heq'
  rw [abs_of_pos (sub_pos.mpr hv)] at hdvd
  rw [abs_sub_comm, abs_of_pos (sub_pos.mpr hv)] at hdvd'
  have hle := Int.le_of_dvd (sub_pos.mpr hv) (dvd_sub hdvd hdvd')
  omega

theorem unique (h : Rounds r v) (h' : Rounds r v') : v = v' :=
  le_antisymm (h.mono h' le_rfl) (h'.mono h le_rfl)

theorem neg (h : Rounds r v) : Rounds (-r) (-v) := by
  have hshort {w : ℤ} (hw : IsShort w) : IsShort (-w) := by
    obtain ⟨s, e, hs, rfl⟩ := hw
    exact ⟨-s, e, by rwa [abs_neg], (neg_mul s _).symm⟩
  have hdist (w : ℤ) : |-r - w| = |r - (-w : ℤ)| := by
    rw [← abs_neg]
    push_cast
    ring_nf
  refine ⟨hshort h.isShort, fun w hw => ?_, fun w hw hne heq => ?_⟩
  · rw [hdist, hdist, neg_neg]
    exact h.le _ (hshort hw)
  · rw [hdist, hdist, neg_neg] at heq
    have hdvd := h.even _ (hshort hw) (fun hv => hne (by omega)) heq
    rw [dvd_neg]
    rwa [← abs_neg, neg_sub, sub_neg_eq_add, add_comm, ← sub_neg_eq_add]

end Rounds

theorem IsShort.rounds {v : ℤ} (h : IsShort v) : Rounds v v := by
  refine ⟨h, fun w _ => by simp, fun w _ hne heq => absurd ?_ hne⟩
  rw [sub_self, abs_zero, eq_comm, abs_eq_zero, sub_eq_zero] at heq
  exact_mod_cast heq.symm

theorem isShort_of_abs_le {s : ℤ} (hs : |s| ≤ 2 ^ 53) (e : ℕ) : IsShort (s * 2 ^ e) := by
  rcases hs.lt_or_eq with hs | hs
  · exact ⟨s, e, hs, rfl⟩
  · rcases (abs_eq (by positivity)).mp hs with rfl | rfl
    · exact ⟨1, e + 53, by norm_num, by ring⟩
    · exact ⟨-1, e + 53, by norm_num, by ring⟩

private theorem le_of_multiple {r g : ℚ} {q j : ℤ} (hg : 0 < g) (hnear : 2 * |r - q * g| ≤ g)
    (hj : j ≠ q) : g ≤ 2 * |r - j * g| ∧ (|r - j * g| ≤ |r - q * g| → |q - j| = 1) := by
  have hone : (1 : ℤ) ≤ |q - j| := Int.one_le_abs (sub_ne_zero.mpr hj.symm)
  have hdist : (|q - j| : ℤ) * g ≤ |r - q * g| + |r - j * g| := by
    calc ((|q - j| : ℤ) : ℚ) * g
      _ = |(r - j * g) - (r - q * g)| := by
        rw [Int.cast_abs, ← abs_of_pos hg, ← abs_mul, abs_of_pos hg]
        push_cast
        ring_nf
      _ ≤ |r - j * g| + |r - q * g| := abs_sub _ _
      _ = |r - q * g| + |r - j * g| := add_comm _ _
  have hstep : g ≤ (|q - j| : ℤ) * g := le_mul_of_one_le_left hg.le (by exact_mod_cast hone)
  refine ⟨by linarith, fun hle => le_antisymm ?_ hone⟩
  have hle' : ((|q - j| : ℤ) : ℚ) * g ≤ 1 * g := by linarith
  exact_mod_cast le_of_mul_le_mul_right hle' hg

private theorem IsShort.multiple_or_lt {w : ℤ} (h : IsShort w) (k : ℕ) :
    (∃ j : ℤ, w = j * 2 ^ k) ∨ 0 < k ∧ w < 2 ^ 52 * 2 ^ k := by
  obtain ⟨s, e, hs, rfl⟩ := h
  by_cases hke : k ≤ e
  · exact .inl ⟨s * 2 ^ (e - k), by rw [mul_assoc, ← pow_add, Nat.sub_add_cancel hke]⟩
  · refine .inr ⟨by omega, ?_⟩
    calc s * 2 ^ e
      _ < 2 ^ 53 * 2 ^ e := mul_lt_mul_of_pos_right (abs_lt.mp hs).2 (by positivity)
      _ = 2 ^ 52 * 2 ^ (e + 1) := by ring
      _ ≤ 2 ^ 52 * 2 ^ k :=
        mul_le_mul_of_nonneg_left (pow_le_pow_right₀ (by norm_num) (by omega)) (by norm_num)

/-- The multiple of a power of two that is nearest to a number is what the number is rounded to, if
the number is so large that no finer count of the format is near. -/
theorem rounds_of_multiple {r : ℚ} {q : ℤ} {k : ℕ} (hnear : 2 * |r - q * 2 ^ k| ≤ 2 ^ k)
    (heven : 2 * |r - q * 2 ^ k| = 2 ^ k → 2 ∣ q) (hq : |q| ≤ 2 ^ 53)
    (hr : k = 0 ∨ 2 ^ 52 * 2 ^ k ≤ r) : Rounds r (q * 2 ^ k) := by
  have hg : (0 : ℚ) < 2 ^ k := by positivity
  have hmultiple (j : ℤ) : |r - q * 2 ^ k| ≤ |r - j * 2 ^ k| := by
    by_cases hj : j = q
    · rw [hj]
    · have := (le_of_multiple hg hnear hj).1
      linarith
  have hcases {w : ℤ} (hw : IsShort w) :
      (∃ j : ℤ, w = j * 2 ^ k) ∨ |r - q * 2 ^ k| < |r - w| := by
    refine (hw.multiple_or_lt k).imp_right fun ⟨hk, hlt⟩ => ?_
    have hlarge := hr.resolve_left hk.ne'
    have hlt' : (w : ℚ) < 2 ^ 52 * 2 ^ k := by exact_mod_cast hlt
    have hle := hmultiple ((2 : ℤ) ^ 52)
    rw [Int.cast_pow, Int.cast_ofNat, abs_of_nonneg (sub_nonneg.mpr hlarge)] at hle
    have hself := le_abs_self (r - w)
    linarith
  refine ⟨isShort_of_abs_le hq k, fun w hw => ?_, fun w hw hne heq => ?_⟩
  · push_cast
    rcases hcases hw with ⟨j, rfl⟩ | hlt
    · push_cast
      exact hmultiple j
    · exact hlt.le
  · push_cast at heq
    rcases hcases hw with ⟨j, rfl⟩ | hlt
    · push_cast at heq
      have hj : j ≠ q := fun h => hne (by rw [h])
      obtain ⟨hfar, hone⟩ := le_of_multiple hg hnear hj
      have hdvd : 2 ∣ q := heven (le_antisymm hnear (by rwa [heq]))
      rw [← sub_mul, abs_mul, hone heq.ge, one_mul, abs_of_pos (by positivity)]
      exact mul_dvd_mul_right hdvd _
    · exact absurd heq hlt.ne

theorem roundDiv_spec (num : ℕ) {den : ℕ} (hden : 0 < den) :
    2 * |(num / den : ℚ) - roundDiv num den| ≤ 1 ∧
      (2 * |(num / den : ℚ) - roundDiv num den| = 1 → 2 ∣ roundDiv num den) := by
  have hden' : (0 : ℚ) < den := by exact_mod_cast hden
  have hmod : ((num % den : ℕ) : ℚ) < den := by exact_mod_cast Nat.mod_lt num hden
  have hnum : (num : ℚ) = den * (num / den : ℕ) + (num % den : ℕ) := by
    exact_mod_cast (Nat.div_add_mod num den).symm
  have hrest : 0 ≤ (num % den : ℕ) / (den : ℚ) := by positivity
  have hquot : (num / den : ℚ) = (num / den : ℕ) + (num % den : ℕ) / den := by
    rw [hnum]
    field_simp
  unfold roundDiv
  dsimp only
  rw [hquot]
  split
  · next h =>
    rw [add_sub_cancel_left, abs_of_nonneg hrest]
    have hle : (2 * (num % den : ℕ) : ℚ) ≤ den := by
      exact_mod_cast (by omega : 2 * (num % den) ≤ den)
    refine ⟨by rwa [← mul_div_assoc, div_le_one hden'], fun heq => ?_⟩
    rw [← mul_div_assoc, div_eq_one_iff_eq hden'.ne'] at heq
    have heq : 2 * (num % den) = den := by exact_mod_cast heq
    omega
  · next h =>
    have hle : (den : ℚ) ≤ 2 * (num % den : ℕ) := by
      exact_mod_cast (by omega : den ≤ 2 * (num % den))
    have hlt : (num % den : ℕ) / (den : ℚ) < 1 := by rwa [div_lt_one hden']
    have hhalf : 1 ≤ 2 * ((num % den : ℕ) / (den : ℚ)) := by rwa [← mul_div_assoc, one_le_div hden']
    rw [Nat.cast_add, Nat.cast_one, add_sub_add_left_eq_sub, abs_of_neg (by linarith)]
    refine ⟨by linarith, fun heq => ?_⟩
    have heq : 2 * ((num % den : ℕ) / (den : ℚ)) = 1 := by linarith
    rw [← mul_div_assoc, div_eq_one_iff_eq hden'.ne'] at heq
    have heq : 2 * (num % den) = den := by exact_mod_cast heq
    omega

private theorem exists_spacing (n : ℕ) :
    ∃ k, spacing n = 2 ^ k ∧ n < 2 ^ 53 * 2 ^ k ∧ (k = 0 ∨ 2 ^ 52 * 2 ^ k ≤ n) := by
  refine ⟨n.log2 + 1 - 53, rfl, ?_, ?_⟩
  · calc n
      _ < 2 ^ (n.log2 + 1) := Nat.lt_log2_self
      _ ≤ 2 ^ (53 + (n.log2 + 1 - 53)) := Nat.pow_le_pow_right (by norm_num) (by omega)
      _ = 2 ^ 53 * 2 ^ (n.log2 + 1 - 53) := pow_add _ _ _
  · by_cases hk : n.log2 + 1 - 53 = 0
    · exact .inl hk
    · right
      have hn : n ≠ 0 := by
        rintro rfl
        exact hk rfl
      calc 2 ^ 52 * 2 ^ (n.log2 + 1 - 53)
        _ = 2 ^ (52 + (n.log2 + 1 - 53)) := (pow_add _ _ _).symm
        _ = 2 ^ n.log2 := by congr 1; omega
        _ ≤ n := Nat.log2_self_le hn

private theorem roundDiv_le (num den : ℕ) : roundDiv num den ≤ num / den + 1 := by
  unfold roundDiv
  dsimp only
  split <;> omega

/-- Division that rounds to a multiple of the distance rounds to the nearest count of the format. -/
theorem rounds_roundDiv (num : ℕ) {den : ℕ} (hden : 0 < den) :
    let gap := spacing (num / den)
    Rounds (num / den : ℚ) ((roundDiv num (den * gap) * gap : ℕ) : ℤ) := by
  intro gap
  obtain ⟨k, hgap, hlt, hk⟩ := exists_spacing (num / den)
  have hgap : gap = 2 ^ k := hgap
  rw [hgap]
  have hscale : (num / den : ℚ) = (num / (den * 2 ^ k : ℕ) : ℚ) * 2 ^ k := by
    push_cast
    field_simp
  obtain ⟨hnear, htie⟩ := roundDiv_spec num (Nat.mul_pos hden (Nat.two_pow_pos k))
  have hle : roundDiv num (den * 2 ^ k) ≤ 2 ^ 53 := by
    have hquot : num / (den * 2 ^ k) < 2 ^ 53 := by
      rwa [← Nat.div_div_eq_div_mul, Nat.div_lt_iff_lt_mul (Nat.two_pow_pos k)]
    have := roundDiv_le num (den * 2 ^ k)
    omega
  generalize roundDiv num (den * 2 ^ k) = q at hnear htie hle
  have hpow : (0 : ℚ) < 2 ^ k := by positivity
  have hdist : 2 * |(num / den : ℚ) - (q : ℤ) * 2 ^ k| =
      2 * |(num / (den * 2 ^ k : ℕ) : ℚ) - q| * 2 ^ k := by
    rw [hscale, Int.cast_natCast, ← sub_mul, abs_mul, abs_of_pos hpow, mul_assoc]
  push_cast
  refine rounds_of_multiple ?_ ?_ ?_ (hk.imp_right fun h => ?_)
  · rw [hdist]
    exact mul_le_of_le_one_left hpow.le hnear
  · intro heq
    rw [hdist, mul_eq_right₀ hpow.ne'] at heq
    exact_mod_cast htie heq
  · rw [Nat.abs_cast]
    exact_mod_cast hle
  · calc (2 : ℚ) ^ 52 * 2 ^ k
      _ ≤ (num / den : ℕ) := by exact_mod_cast h
      _ ≤ num / den := Nat.cast_div_le

def withSign (negative : Bool) (r : ℚ) : ℚ := if negative then -r else r

/-- A fraction that does not lie beyond the format is rounded once. -/
theorem rounds_ofRatio {negative : Bool} {num den : ℕ} (hden : 0 < den)
    (h : (ofRatio negative num den).isFinite = true) :
    ∃ v, (ofRatio negative num den).value? = some v ∧
      Rounds (withSign negative (num / den) * one) v := by
  have hround := rounds_roundDiv (num * one) hden
  unfold ofRatio at h ⊢
  dsimp only at hround h ⊢
  generalize roundDiv (num * one) (den * spacing (num * one / den)) * spacing (num * one / den) = u
    at hround h ⊢
  rw [Nat.cast_mul, mul_div_right_comm] at hround
  by_cases hu : u < ceiling
  · rw [if_pos hu]
    cases negative with
    | false => exact ⟨u, rfl, hround⟩
    | true =>
      refine ⟨-u, rfl, ?_⟩
      rw [withSign, if_pos rfl, neg_mul]
      exact hround.neg
  · rw [if_neg hu] at h
    cases h

private theorem one_eq : one = 2 ^ 1074 := by
  delta one
  generalize 1074 = n
  exact Nat.pow_eq

private theorem ceiling_eq : ceiling = 2 ^ 2098 := by
  delta ceiling
  generalize 2098 = n
  exact Nat.pow_eq

/-- A whole number of at most 53 significant bits is a number of the format. -/
theorem IsShort.mul_one {v : ℤ} (h : IsShort v) : IsShort (v * one) := by
  obtain ⟨s, e, hs, rfl⟩ := h
  refine ⟨s, e + 1074, hs, ?_⟩
  rw [one_eq, Nat.cast_pow, Nat.cast_ofNat, pow_add, mul_assoc]

/-- Numbers up to `2 ^ 64` do not lie beyond the format. -/
theorem isFinite_ofRatio {negative : Bool} {num den : ℕ} (hden : 0 < den)
    (h : num ≤ den * 2 ^ 64) : (ofRatio negative num den).isFinite = true := by
  have hround := rounds_roundDiv (num * one) hden
  have hbound : IsShort (2 ^ 64 * one) := IsShort.mul_one ⟨1, 64, by norm_num, by norm_num⟩
  have hle (o : ℕ) : ((num * o : ℕ) / den : ℚ) ≤ (2 ^ 64 * o : ℤ) := by
    rw [div_le_iff₀ (by exact_mod_cast hden)]
    norm_cast
    calc num * o
      _ ≤ den * 2 ^ 64 * o := Nat.mul_le_mul_right _ h
      _ = 2 ^ 64 * o * den := by ring
  have hunits := hround.mono hbound.rounds (hle one)
  have hlt : 2 ^ 64 * one < ceiling := by
    rw [one_eq, ceiling_eq, ← pow_add]
    gcongr <;> norm_num
  unfold ofRatio
  dsimp only at hunits ⊢
  generalize roundDiv (num * one) (den * spacing (num * one / den)) * spacing (num * one / den) = u
    at hunits ⊢
  generalize one = o at hunits hlt
  rw [if_pos (lt_of_le_of_lt (by exact_mod_cast hunits) hlt)]
  rfl

theorem rounds_ofInt {n : ℤ} (h : n.natAbs ≤ 2 ^ 64) :
    ∃ v, (ofInt n).value? = some v ∧ Rounds (n * one) v := by
  have hfinite : (ofInt n).isFinite = true := isFinite_ofRatio Nat.one_pos (by rwa [one_mul])
  obtain ⟨v, hv, hround⟩ := rounds_ofRatio Nat.one_pos hfinite
  refine ⟨v, hv, ?_⟩
  have hn : withSign (decide (n < 0)) (n.natAbs / (1 : ℕ)) = n := by
    rw [Nat.cast_one, div_one, Nat.cast_natAbs, withSign]
    by_cases hneg : n < 0
    · rw [if_pos (decide_eq_true hneg), abs_of_neg hneg, Int.cast_neg, neg_neg]
    · rw [if_neg (by simpa using hneg), abs_of_nonneg (not_lt.mp hneg)]
  rwa [hn] at hround

theorem rounds_zero {r : ℚ} (h : 2 * |r| ≤ 1) : Rounds r 0 := by
  have hround := rounds_of_multiple (k := 0) (q := 0) (r := r) (by simpa using h)
    (fun _ => dvd_zero 2) (by norm_num) (.inl rfl)
  simpa using hround

private theorem two_mul_one_le : 2 * one ≤ 10 ^ 401 := by decide +kernel

private theorem abs_withSign (negative : Bool) (r : ℚ) : |withSign negative r| = |r| := by
  cases negative
  · rfl
  · exact abs_neg r

private theorem two_mul_decimal_le {digits n : ℕ} (h : digits.log2 + 402 ≤ n) :
    2 * |(digits * 10 ^ (-(n : ℤ)) * one : ℚ)| ≤ 1 := by
  have hone := two_mul_one_le
  generalize one = o at hone ⊢
  have hle : 2 * (digits * o) ≤ 10 ^ n := by
    calc 2 * (digits * o)
      _ = digits * (2 * o) := by ring
      _ ≤ 2 ^ (digits.log2 + 1) * 10 ^ 401 := Nat.mul_le_mul Nat.lt_log2_self.le hone
      _ ≤ 10 ^ (digits.log2 + 1) * 10 ^ 401 :=
        Nat.mul_le_mul_right _ (Nat.pow_le_pow_left (by norm_num) _)
      _ = 10 ^ (digits.log2 + 402) := (pow_add _ _ _).symm
      _ ≤ 10 ^ n := Nat.pow_le_pow_right (by norm_num) h
  have hle' : (2 * (digits * o) : ℚ) ≤ 10 ^ n := by exact_mod_cast hle
  rw [zpow_neg, zpow_natCast, abs_of_nonneg (by positivity)]
  calc (2 * (digits * (10 ^ n)⁻¹ * o) : ℚ)
    _ = 2 * (digits * o) / 10 ^ n := by ring
    _ ≤ 1 := (div_le_one (by positivity)).mpr hle'

/-- A decimal that does not lie beyond the format is rounded once. -/
theorem rounds_ofDecimal {negative : Bool} {digits : ℕ} {exponent : ℤ}
    (h : (ofDecimal negative digits exponent).isFinite = true) :
    ∃ v, (ofDecimal negative digits exponent).value? = some v ∧
      Rounds (withSign negative (digits * 10 ^ exponent) * one) v := by
  have hzero {r : ℚ} (hr : 2 * |r| ≤ 1) :
      ∃ v, (finite negative 0).value? = some v ∧ Rounds r v := by
    refine ⟨0, ?_, rounds_zero hr⟩
    cases negative <;> rfl
  unfold ofDecimal at h ⊢
  by_cases hdigits : digits = 0
  · rw [if_pos hdigits]
    apply hzero
    rw [abs_mul, abs_withSign, hdigits, Nat.cast_zero, zero_mul, abs_zero, zero_mul, mul_zero]
    exact zero_le_one
  rw [if_neg hdigits] at h ⊢
  by_cases hneg : exponent < 0
  · obtain ⟨n, rfl⟩ : ∃ n : ℕ, exponent = -n := ⟨exponent.natAbs, by omega⟩
    rw [if_pos hneg] at h ⊢
    by_cases hsmall : -(n : ℤ) + digits.log2 + 1 < -400
    · rw [if_pos hsmall]
      apply hzero
      have hle := two_mul_decimal_le (show digits.log2 + 402 ≤ n by omega)
      rwa [abs_mul, abs_withSign, ← abs_mul]
    · rw [if_neg hsmall] at h ⊢
      rw [Int.natAbs_neg, Int.natAbs_natCast, Nat.pow_eq] at h ⊢
      have hratio := rounds_ofRatio (Nat.pow_pos (by norm_num)) h
      rwa [Nat.cast_pow, Nat.cast_ofNat, div_eq_mul_inv, ← zpow_natCast, ← zpow_neg] at hratio
  · obtain ⟨n, rfl⟩ : ∃ n : ℕ, exponent = n := ⟨exponent.natAbs, by omega⟩
    rw [if_neg hneg] at h ⊢
    by_cases hbig : 400 < (n : ℤ)
    · rw [if_pos hbig] at h
      cases h
    · rw [if_neg hbig] at h ⊢
      rw [Int.natAbs_natCast, Nat.pow_eq] at h ⊢
      have hratio := rounds_ofRatio Nat.one_pos h
      rwa [Nat.cast_one, div_one, Nat.cast_mul, Nat.cast_pow, Nat.cast_ofNat, ← zpow_natCast]
        at hratio

end FilterLang.Binary64
