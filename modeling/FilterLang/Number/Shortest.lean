import FilterLang.Number.Decimal

/-!
The shortest decimal text of a binary64 number: as few digits as read back to the same number, and
of those the nearest. A layout says how the digits are set out.
-/
namespace FilterLang

structure Digits where
  digits : Nat
  exponent : Int
  deriving DecidableEq, Repr

/-- Which of two equally near digit strings is taken. -/
inductive Tie where
  | upward
  | toEven
  deriving DecidableEq, Repr

namespace Digits

/-- The fraction that `units` make of `10 ^ k`, as numerator and denominator. -/
def inPowers (units : Nat) (k : Int) : Nat × Nat :=
  if k < 0 then (units * Nat.pow 10 k.natAbs, Binary64.one)
  else (units, Binary64.one * Nat.pow 10 k.natAbs)

def reaches (units : Nat) (k : Int) : Bool :=
  let (num, den) := inPowers units k
  den ≤ num

/-- The exponent of the leading decimal digit. An estimate from the binary exponent is at most one
off. -/
def leading (units : Nat) : Int :=
  let estimate := (((units.log2 : Int) - 1074) * 30103) / 100000
  if reaches units (estimate + 1) then estimate + 1
  else if reaches units estimate then estimate
  else estimate - 1

def readsBack (units digits : Nat) (k : Int) : Bool :=
  Binary64.ofDecimal false digits k = .finite false units

/-- The decimal on the grid of `10 ^ k` that reads back to `units` and is nearest to it, if the grid
has one: only the two grid points around the number can be it. -/
def onGrid? (tie : Tie) (units : Nat) (k : Int) : Option Nat :=
  let (num, den) := inPowers units k
  let low := num / den
  let up := low + 1
  let rest := 2 * (num % den)
  match readsBack units low k, readsBack units up k with
  | true, false => some low
  | false, true => some up
  | false, false => none
  | true, true =>
    if rest < den then some low
    else if den < rest then some up
    else match tie with
      | .upward => some up
      | .toEven => some (if low % 2 = 0 then low else up)

/-- Goes from one grid to the next finer one until one has a point that reads back. -/
def refine (tie : Tie) (units : Nat) (k : Int) : Nat → Digits
  | 0 => ⟨(inPowers units k).1 / (inPowers units k).2, k⟩
  | fuel + 1 =>
    match onGrid? tie units k with
    | some n => ⟨n, k⟩
    | none => refine tie units (k - 1) fuel

def strip (d : Digits) : Nat → Digits
  | 0 => d
  | fuel + 1 =>
    if d.digits % 10 = 0 then strip ⟨d.digits / 10, d.exponent + 1⟩ fuel else d

/-- The shortest decimal that reads back to a positive number of `units`. Seventeen digits always
suffice. -/
def shortest (tie : Tie) (units : Nat) : Digits :=
  (refine tie units (leading units) 17).strip 17

end Digits

structure Layout where
  /-- The choice between two equally near digit strings. -/
  tie : Tie
  /-- Whether a number whose first digit counts `10 ^ k` is written without an exponent. -/
  positional : Int → Bool
  /-- Whether a whole number keeps a zero behind a point. -/
  keepsPoint : Bool

namespace Layout

/-- `n` digits behind which stand `k` zeros, or in which the point stands `-k` places from the
end. -/
def place (keepsPoint : Bool) (ds : Text) (k : Int) : Text :=
  if 0 ≤ k then
    ds ++ List.replicate k.toNat '0' ++ (if keepsPoint then ['.', '0'] else [])
  else
    let point := (ds.length : Int) + k
    if 0 < point then ds.take point.toNat ++ '.' :: ds.drop point.toNat
    else '0' :: '.' :: List.replicate (-point).toNat '0' ++ ds

def scientific (ds : Text) (k : Int) : Text :=
  ds.take 1 ++ (if ds.length ≤ 1 then [] else '.' :: ds.drop 1) ++
    'e' :: (if k < 0 then '-' else '+') :: Text.ofNat k.natAbs

def magnitude (layout : Layout) (units : Nat) : Text :=
  if units = 0 then place layout.keepsPoint ['0'] 0
  else
    let d := Digits.shortest layout.tie units
    let ds := Text.ofNat d.digits
    let first := d.exponent + ds.length - 1
    if layout.positional first then place layout.keepsPoint ds d.exponent
    else scientific ds first

def text (layout : Layout) : Binary64 → Text
  | .nan => "NaN".toList
  | .infinite negative => if negative then "-inf".toList else "inf".toList
  | .finite negative units =>
    (if negative then ['-'] else []) ++ layout.magnitude units

end Layout

/-- A number as plain text: no exponent ever, no point in a whole number, ties away from zero. -/
def Binary64.plainText : Binary64 → Text := Layout.text ⟨.upward, fun _ => true, false⟩

end FilterLang
