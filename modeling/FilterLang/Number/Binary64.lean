import FilterLang.Text.Basic

/-!
Binary floating point with 53 significant bits. A finite number is kept exactly, as a sign and a
whole count of the smallest positive number, so that rounding and comparison are arithmetic of whole
numbers and two finite numbers are the same number just when sign and count agree.
-/
namespace FilterLang

/-- A number of the binary64 format. A finite one has magnitude `units · 2 ^ -1074`; the two zeros
differ in their sign only. -/
inductive Binary64 where
  | finite (negative : Bool) (units : Nat)
  | infinite (negative : Bool)
  | nan
  deriving DecidableEq, Repr

namespace Binary64

def one : Nat := Nat.pow 2 1074

/-- The count at which the format ends: rounding up to it gives infinity. -/
def ceiling : Nat := Nat.pow 2 2098

/-- The quotient to the nearest whole number, a half going to the even neighbour. -/
def roundDiv (num den : Nat) : Nat :=
  let q := num / den
  let r := num % den
  if 2 * r < den ∨ (2 * r = den ∧ q % 2 = 0) then q else q + 1

/-- The distance between neighbouring numbers of the format at `units`, so that 53 bits remain. -/
def spacing (units : Nat) : Nat := Nat.pow 2 (units.log2 + 1 - 53)

/-- `num / den` rounded to the nearest number of the format, a half going to the even neighbour. -/
def ofRatio (negative : Bool) (num den : Nat) : Binary64 :=
  let gap := spacing (num * one / den)
  let units := roundDiv (num * one) (den * gap) * gap
  if units < ceiling then .finite negative units else .infinite negative

def ofInt (n : Int) : Binary64 := ofRatio (n < 0) n.natAbs 1

/-- `digits · 10 ^ exponent` rounded once. Exponents far outside the format are settled without
forming the power. -/
def ofDecimal (negative : Bool) (digits : Nat) (exponent : Int) : Binary64 :=
  if digits = 0 then .finite negative 0
  else if exponent < 0 then
    if exponent + digits.log2 + 1 < -400 then .finite negative 0
    else ofRatio negative digits (Nat.pow 10 exponent.natAbs)
  else if 400 < exponent then .infinite negative
  else ofRatio negative (digits * Nat.pow 10 exponent.natAbs) 1

def isFinite : Binary64 → Bool
  | .finite _ _ => true
  | _ => false

def value? : Binary64 → Option Int
  | .finite false u => some u
  | .finite true u => some (-(u : Int))
  | _ => none

end Binary64
end FilterLang
