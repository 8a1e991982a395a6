import FilterLang.Document
import FilterLang.Proofs.Chain
import FilterLang.Proofs.Rounding
import FilterLang.Record

/-!
Numbers as they are read. A number operand is read three times: when its clause is read, for a
document and for the comparison with a record. All three take the same texts for numbers, and each
gives the number of the format that is nearest to the one that is written.
-/
namespace FilterLang
open Binary64

namespace Decimal

inductive WritesWhole : Text → ℤ → Prop
  | unsigned {ds : Text} (hne : ds ≠ []) (h : ∀ c ∈ ds, isDigit c = true) :
    WritesWhole ds (Nat.ofDigitChars 10 ds 0)
  | plus {ds : Text} (hne : ds ≠ []) (h : ∀ c ∈ ds, isDigit c = true) :
    WritesWhole ('+' :: ds) (Nat.ofDigitChars 10 ds 0)
  | minus {ds : Text} (hne : ds ≠ []) (h : ∀ c ∈ ds, isDigit c = true) :
    WritesWhole ('-' :: ds) (-Nat.ofDigitChars 10 ds 0)

/-- Every whole number has a text of its own. -/
theorem writesWhole_ofInt (n : ℤ) : WritesWhole (Text.ofInt n) n := by
  have hdigits (k : ℕ) : ∀ c ∈ Nat.toDigits 10 k, isDigit c = true := fun c hc =>
    Nat.isDigit_of_mem_toDigits (by norm_num) le_rfl hc
  have hvalue (k : ℕ) : Nat.ofDigitChars 10 (Nat.toDigits 10 k) 0 = k :=
    Nat.ofDigitChars_toDigits (by norm_num) le_rfl
  cases n with
  | ofNat k =>
    have hk := WritesWhole.unsigned Nat.toDigits_ne_nil (hdigits k)
    rwa [hvalue] at hk
  | negSucc k =>
    have hk := WritesWhole.minus Nat.toDigits_ne_nil (hdigits (k + 1))
    rwa [hvalue] at hk

private theorem takeSign_digits {ds : Text} (h : ∀ c ∈ ds, isDigit c = true) :
    takeSign ds = (false, ds) := by
  unfold takeSign
  split
  · exact absurd (h '-' List.mem_cons_self) (by decide)
  · exact absurd (h '+' List.mem_cons_self) (by decide)
  · rfl

private theorem of_takeSign {s ds : Text} {negative : Bool} (h : takeSign s = (negative, ds)) :
    negative = true ∧ s = '-' :: ds ∨ negative = false ∧ (s = '+' :: ds ∨ s = ds) := by
  unfold takeSign at h
  split at h <;> cases h <;> simp

private theorem takeSign_eq {s : Text} {n : ℤ} (h : WritesWhole s n) :
    ∃ negative ds, takeSign s = (negative, ds) ∧ ds ≠ [] ∧ (∀ c ∈ ds, isDigit c = true) ∧
      n = if negative then -(valueOf ds : ℤ) else valueOf ds := by
  cases h with
  | unsigned hne h => exact ⟨false, s, takeSign_digits h, hne, h, rfl⟩
  | @plus ds hne h => exact ⟨false, ds, rfl, hne, h, rfl⟩
  | @minus ds hne h => exact ⟨true, ds, rfl, hne, h, rfl⟩

private theorem readInt?_eq {s : Text} {n : ℤ} (h : WritesWhole s n) : readInt? s = some n := by
  obtain ⟨negative, ds, hs, hne, hds, rfl⟩ := takeSign_eq h
  have hempty : ds.isEmpty = false := List.isEmpty_eq_false_iff.mpr hne
  have hall : ds.all isDigit = true := List.all_eq_true.mpr hds
  simp [readInt?, hs, hempty, hall]

private theorem writesWhole_of_readInt? {s : Text} {n : ℤ} (h : readInt? s = some n) :
    WritesWhole s n := by
  unfold readInt? at h
  rcases hs : takeSign s with ⟨negative, ds⟩
  rw [hs] at h
  dsimp only at h
  split at h
  · cases h
  · next hempty =>
    have hds : ds ≠ [] ∧ ∀ c ∈ ds, isDigit c = true := by simpa using hempty
    cases Option.some.inj h
    rcases of_takeSign hs with ⟨rfl, rfl⟩ | ⟨rfl, rfl | rfl⟩
    · exact .minus hds.1 hds.2
    · exact .plus hds.1 hds.2
    · exact .unsigned hds.1 hds.2

theorem readInt?_eq_some_iff {s : Text} {n : ℤ} : readInt? s = some n ↔ WritesWhole s n :=
  ⟨writesWhole_of_readInt?, readInt?_eq⟩

theorem fitsWord_iff {n : ℤ} : fitsWord n = true ↔ -2 ^ 63 ≤ n ∧ n < 2 ^ 63 := by
  simp [fitsWord]
  omega

def value (d : Decimal) : ℚ := withSign d.negative (d.digits * 10 ^ d.exponent)

/-- A whole number is also read as a decimal, of the same value. -/
theorem exists_read?_of_writesWhole {s : Text} {n : ℤ} (h : WritesWhole s n) :
    ∃ d, read? s = some d ∧ d.digits = n.natAbs ∧ d.exponent = 0 ∧ d.value = n := by
  obtain ⟨negative, ds, hs, hne, hds, rfl⟩ := takeSign_eq h
  have hspan : ds.span isDigit = (ds, []) := by
    rw [List.span_eq_takeWhile_dropWhile, List.takeWhile_eq_self_iff.mpr hds,
      List.dropWhile_eq_nil_iff.mpr hds]
  refine ⟨⟨negative, valueOf ds, 0⟩, ?_, ?_, rfl, ?_⟩
  · unfold read? readUnsigned?
    rw [hs]
    dsimp only
    rw [hspan]
    simp [takeFraction, readExponent?, hne]
  · cases negative <;> simp
  · cases negative <;> simp [value, withSign]

theorem rounds_toBinary64 {d : Decimal} (h : d.toBinary64.isFinite = true) :
    ∃ v, d.toBinary64.value? = some v ∧ Rounds (d.value * one) v :=
  rounds_ofDecimal h

end Decimal

namespace Binary64

private theorem toLower_of_isDigit {c : Char} (h : Decimal.isDigit c = true) : c.toLower = c := by
  have hdigit := (Decimal.toNat_of_isDigit h).2
  unfold Char.toLower
  split
  · next hc =>
    have hupper : 65 ≤ c.toNat := UInt32.le_iff_toNat_le.mp hc.1
    omega
  · rfl

private theorem ofWord?_eq_none_of_digits {negative : Bool} {ds : Text}
    (h : ∀ c ∈ ds, Decimal.isDigit c = true) : ofWord? negative ds = none := by
  -- The words for the values that no digits write have a letter in common.
  have hletter : 'n' ∉ Text.asciiLower ds := by
    intro hn
    obtain ⟨c, hc, hlower⟩ := List.mem_map.mp hn
    rw [toLower_of_isDigit (h c hc)] at hlower
    exact absurd (h c hc) (hlower ▸ by decide)
  have hword {w : Text} (hw : 'n' ∈ w) : Text.asciiLower ds ≠ w := fun heq => hletter (heq ▸ hw)
  unfold ofWord?
  dsimp only
  rw [if_neg (not_or.mpr ⟨hword (by decide), hword (by decide)⟩), if_neg (hword (by decide))]

/-- A text that reads as a finite number is a decimal, and reads as the number nearest to it. -/
theorem exists_decimal_of_readFinite? {s : Text} {x : Binary64} (h : readFinite? s = some x) :
    ∃ d v, Decimal.read? s = some d ∧ d.toBinary64 = x ∧ x.value? = some v ∧
      Rounds (d.value * one) v := by
  obtain ⟨hread, hfinite⟩ := Option.filter_eq_some_iff.mp h
  unfold read? at hread
  dsimp only at hread
  rcases Option.or_eq_some_iff.mp hread with hword | ⟨-, hd⟩
  · rw [not_isFinite_of_ofWord? hword] at hfinite
    cases hfinite
  · obtain ⟨d, hdecimal, rfl⟩ := Option.map_eq_some_iff.mp hd
    obtain ⟨v, hv, hround⟩ := Decimal.rounds_toBinary64 hfinite
    exact ⟨d, v, hdecimal, rfl, hv, hround⟩

/-- A whole number that is not too large reads as a finite number. -/
theorem exists_readFinite?_of_writesWhole {s : Text} {n : ℤ} (h : Decimal.WritesWhole s n)
    (hn : n.natAbs ≤ 2 ^ 64) : ∃ x, readFinite? s = some x := by
  obtain ⟨negative, ds, hs, -, hds, -⟩ := Decimal.takeSign_eq h
  obtain ⟨⟨negative', digits, exponent⟩, hd, rfl, rfl, -⟩ := Decimal.exists_read?_of_writesWhole h
  have hread : read? s = some (ofDecimal negative' n.natAbs 0) := by
    unfold read?
    rw [hs]
    dsimp only
    rw [ofWord?_eq_none_of_digits hds, Option.none_or, hd]
    rfl
  have hfinite : (ofDecimal negative' n.natAbs 0).isFinite = true := by
    unfold ofDecimal
    by_cases hzero : n.natAbs = 0
    · rw [if_pos hzero]
      rfl
    · rw [if_neg hzero, if_neg (by decide), if_neg (by decide)]
      exact isFinite_ofRatio Nat.one_pos (by simpa using hn)
  exact ⟨_, Option.filter_eq_some_iff.mpr ⟨hread, hfinite⟩⟩

end Binary64

namespace Document

/-- A whole number of 64 bits stays whole. -/
theorem number_of_writesWhole {s : Text} {n : ℤ} (h : Decimal.WritesWhole s n)
    (hn : -2 ^ 63 ≤ n ∧ n < 2 ^ 63) : number s = .number (.whole n) := by
  rw [number, Decimal.readInt?_eq_some_iff.mpr h, Option.filter_some,
    if_pos (Decimal.fitsWord_iff.mpr hn)]

/-- A text that reads as a finite number is a number of a document: a whole number of 64 bits that
it writes, or else the number that it is read as. -/
theorem exists_number_of_readFinite? {s : Text} {x : Binary64} (h : readFinite? s = some x) :
    ∃ n : JsonNumber, number s = .number n ∧
      ((∃ k : ℤ, Decimal.WritesWhole s k ∧ (-2 ^ 63 ≤ k ∧ k < 2 ^ 63) ∧ n = .whole k) ∨
        n = .float x) := by
  cases hk : (Decimal.readInt? s).filter Decimal.fitsWord with
  | some k =>
    obtain ⟨hread, hfits⟩ := Option.filter_eq_some_iff.mp hk
    have hwhole := Decimal.readInt?_eq_some_iff.mp hread
    have hrange := Decimal.fitsWord_iff.mp hfits
    exact ⟨.whole k, number_of_writesWhole hwhole hrange, .inl ⟨k, hwhole, hrange, rfl⟩⟩
  | none => exact ⟨.float x, by rw [number, hk, h], .inr rfl⟩

/-- Read by itself, the number of a document has the same value. -/
theorem value?_toBinary64 {s : Text} {x : Binary64} {n : JsonNumber} (h : readFinite? s = some x)
    (hn : number s = .number n) : n.toBinary64.value? = x.value? := by
  obtain ⟨d, v, hd, -, hv, hround⟩ := exists_decimal_of_readFinite? h
  obtain ⟨m, hm, hcases⟩ := exists_number_of_readFinite? h
  obtain rfl : m = n := Json.number.inj (hm.symm.trans hn)
  rcases hcases with ⟨k, hk, ⟨hlow, hhigh⟩, rfl⟩ | rfl
  · obtain ⟨e, he, -, -, hvalue⟩ := Decimal.exists_read?_of_writesWhole hk
    cases Option.some.inj (hd.symm.trans he)
    obtain ⟨w, hw, hround'⟩ := rounds_ofInt (n := k) (by omega)
    rw [hvalue] at hround
    rw [hv, hround.unique hround']
    exact hw
  · rfl

end Document

namespace Clause

/-- The number of a clause that was read is a number of its document as well: the whole number that
its text writes, if it writes one of 64 bits. Both have the value of the format that is nearest to
what the text writes, and that value is what a record is compared with. -/
theorem number_of_read {text : Text} {c : Clause} {s : Text} (h : read text = .ok c)
    (hs : c.operand = .number s) :
    ∃ (n : JsonNumber) (x : Binary64) (d : Decimal) (v : ℤ),
      c.toDocument = Document.comparison c.field c.operator (.number n) ∧
      (∀ k, Decimal.WritesWhole s k → -2 ^ 63 ≤ k → k < 2 ^ 63 → n = .whole k) ∧
      c.operand.asNumber = some x ∧ x.value? = some v ∧ n.toBinary64.value? = some v ∧
      (Decimal.read? s = some d ∧ Rounds (d.value * one) v) ∧
      (Scalar.number x).asNumber = some x ∧
      ∀ r : Record, c.holds r =
        (r c.field).any fun a => c.operator.accepts (a.compare (.number x)) := by
  have hfinite : (readFinite? s).isSome = true := by
    have hlegible := (legible_of_read h).operand
    rwa [hs] at hlegible
  obtain ⟨x, hx⟩ := Option.isSome_iff_exists.mp hfinite
  obtain ⟨hread, hfin⟩ := Option.filter_eq_some_iff.mp hx
  obtain ⟨d, v, hd, -, hv, hround⟩ := exists_decimal_of_readFinite? hx
  obtain ⟨n, hn, -⟩ := Document.exists_number_of_readFinite? hx
  refine ⟨n, x, d, v, ?_, fun k hk hlow hhigh => ?_, ?_, hv, ?_, ⟨hd, hround⟩, ?_, fun r => ?_⟩
  · rw [toDocument, hs]
    dsimp only
    rw [hn]
  · exact Json.number.inj (hn.symm.trans (Document.number_of_writesWhole hk ⟨hlow, hhigh⟩))
  · rw [hs]
    exact hread
  · rw [Document.value?_toBinary64 hx hn, hv]
  · rw [Scalar.asNumber, if_pos hfin]
  · have hvalue : c.operand.value? r = some (.number x) := by rw [hs, Operand.value?, hread]
    rw [holds, hvalue]
    cases r c.field <;> rfl

/-- A sign and zeros in front, and more digits than the format keeps. -/
theorem number_of_read_beyondBits :
    ∃ c x, read "a le +09007199254740993".toList = .ok c ∧
      c.toDocument = .single ['a'] (.single "$lte".toList (.number (.whole 9007199254740993))) ∧
      c.operand.asNumber = some x ∧ x.value? = some (9007199254740992 * one) ∧
      ∀ r : Record, c.holds r =
        (r ['a']).any fun a => Operator.le.accepts (a.compare (.number x)) := by
  have hread : read "a le +09007199254740993".toList =
      .ok ⟨['a'], .le, .number "+09007199254740993".toList⟩ := eq_ok_of_toOption (by decide +kernel)
  obtain ⟨n, x, d, v, hdoc, hwhole, hx, hv, -, -, -, hholds⟩ := number_of_read hread rfl
  have hwrites : Decimal.WritesWhole "+09007199254740993".toList 9007199254740993 :=
    .plus (by decide) (by decide)
  obtain rfl := hwhole _ hwrites (by norm_num) (by norm_num)
  have hvalue : (Binary64.read? "+09007199254740993".toList).bind value? =
      some (9007199254740992 * one) := by decide +kernel
  refine ⟨_, x, hread, hdoc, hx, ?_, hholds⟩
  rwa [show Binary64.read? "+09007199254740993".toList = some x from hx] at hvalue

end Clause
end FilterLang
