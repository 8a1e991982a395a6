import FilterLang.Number.Shortest

/-!
The numbers of JSON. A whole number of 64 bits stays whole. Any other number is read in two steps:
its leading digits as a 64-bit whole number, then one multiplication or division by a power of ten,
each rounded on its own.
-/
namespace FilterLang

inductive JsonNumber where
  | whole (n : Int)
  | float (x : Binary64)
  deriving DecidableEq, Repr

namespace JsonNumber

def toBinary64 : JsonNumber → Binary64
  | whole n => .ofInt n
  | float x => x

/-- Numbers with an exponent from -5 to 15 are written out, with a digit behind the point. -/
def layout : Layout := ⟨.toEven, fun k => -5 ≤ k && k ≤ 15, true⟩

def text : JsonNumber → Text
  | whole n => Text.ofInt n
  | float x => layout.text x

def maxSignificand : Nat := Nat.pow 2 64 - 1

/-- The leading digits of a number so far, and the power of ten that they count. -/
structure Leading where
  significand : Nat
  exponent : Int
  full : Bool

namespace Leading

/-- Takes a digit of the whole part. Once a digit does not fit, it and those after it only count. -/
def wholeDigit (d : Leading) (c : Char) : Leading :=
  let n := 10 * d.significand + Decimal.digitValue c
  if d.full || maxSignificand < n then { d with exponent := d.exponent + 1, full := true }
  else { d with significand := n }

/-- Takes a digit behind the point. Once a digit does not fit, it and those after it are lost. -/
def fractionDigit (d : Leading) (c : Char) : Leading :=
  let n := 10 * d.significand + Decimal.digitValue c
  if d.full || maxSignificand < n then { d with full := true }
  else { d with significand := n, exponent := d.exponent - 1 }

end Leading

def tenPower (k : Nat) : Nat :=
  match Binary64.ofRatio false (Nat.pow 10 k) 1 with
  | .finite _ u => u
  | _ => 0

def times? (a b : Nat) : Option Nat :=
  match Binary64.ofRatio false (a * b) (Binary64.one * Binary64.one) with
  | .finite _ u => some u
  | _ => none

def quotient (a b : Nat) : Nat :=
  match Binary64.ofRatio false a b with
  | .finite _ u => u
  | _ => 0

/-- Divides by `10 ^ k`, by `10 ^ 308` at a time. -/
def divideByTen (units k : Nat) : Nat :=
  if units = 0 then 0
  else if k ≤ 308 then quotient units (tenPower k)
  else divideByTen (quotient units (tenPower 308)) (k - 308)
termination_by k

def scale? (significand : Nat) (exponent : Int) : Option Nat :=
  let units := significand * Binary64.one
  let gap := Binary64.spacing units
  let units := Binary64.roundDiv units gap * gap
  if exponent < 0 then some (divideByTen units exponent.natAbs)
  else if units = 0 then some 0
  else if 308 < exponent then none
  else times? units (tenPower exponent.natAbs)

/-- Whole numbers from `-2 ^ 63` up to `2 ^ 64 - 1` stay whole; minus zero does not. -/
def wholeNumber (negative : Bool) (d : Leading) : Option JsonNumber :=
  if d.full || (negative && (d.significand = 0 || Nat.pow 2 63 < d.significand)) then
    (scale? d.significand d.exponent).map fun u => .float (.finite negative u)
  else some (.whole (if negative then -(d.significand : Int) else d.significand))

def takeExponent? (s : Text) : Option (Option Int × Text) :=
  match s with
  | [] => some (none, [])
  | c :: r =>
    if c = 'e' ∨ c = 'E' then
      let (negative, r) := Decimal.takeSign r
      let (ds, r) := r.span Decimal.isDigit
      if ds.isEmpty then none
      else
        let k : Int := Decimal.valueOf ds
        some (some (if negative then -k else k), r)
    else some (none, s)

def readUnsigned? (negative : Bool) (s : Text) : Option (JsonNumber × Text) :=
  let (ds, r) := s.span Decimal.isDigit
  if ds.isEmpty || (ds.head? = some '0' && ds.length ≠ 1) then none
  else
    let d := ds.foldl Leading.wholeDigit ⟨0, 0, false⟩
    let point := r.head? = some '.'
    let (fs, r) := Decimal.takeFraction r
    if point && fs.isEmpty then none
    else
      let e := fs.foldl Leading.fractionDigit { d with full := false }
      (takeExponent? r).bind fun (k, r) =>
        if !point && k.isNone then (wholeNumber negative d).map (·, r)
        else (scale? e.significand (e.exponent + k.getD 0)).map fun u =>
          (.float (.finite negative u), r)

def read? : Text → Option (JsonNumber × Text)
  | '-' :: s => readUnsigned? true s
  | s => readUnsigned? false s

end JsonNumber
end FilterLang
