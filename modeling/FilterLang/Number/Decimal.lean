import FilterLang.Number.Binary64

/-!
Numbers written in decimal: an optional sign, digits with an optional point, an optional exponent,
and the words for infinity and for no number. Nothing else may stand in the text, blanks included.
-/
namespace FilterLang

/-- A decimal number as written: `± digits · 10 ^ exponent`. -/
structure Decimal where
  negative : Bool
  digits : Nat
  exponent : Int
  deriving DecidableEq, Repr

namespace Decimal

def isDigit (c : Char) : Bool := '0' ≤ c && c ≤ '9'

def digitValue (c : Char) : Nat := c.toNat - '0'.toNat

def valueOf (s : Text) : Nat := s.foldl (fun n c => 10 * n + digitValue c) 0

/-- A sign, if there is one, and the text after it; the flag says whether it was a minus. -/
def takeSign : Text → Bool × Text
  | '-' :: s => (true, s)
  | '+' :: s => (false, s)
  | s => (false, s)

def readInt? (s : Text) : Option Int :=
  let (negative, ds) := takeSign s
  if ds.isEmpty || !ds.all isDigit then none
  else some (if negative then -(valueOf ds : Int) else valueOf ds)

def fitsWord (n : Int) : Bool := -9223372036854775808 ≤ n && n ≤ 9223372036854775807

def readExponent? : Text → Option Int
  | [] => some 0
  | c :: s => if c = 'e' ∨ c = 'E' then readInt? s else none

def takeFraction : Text → Text × Text
  | '.' :: s => s.span isDigit
  | s => ([], s)

/-- Reads a number without its sign. There is a digit before or after the point. -/
def readUnsigned? (negative : Bool) (s : Text) : Option Decimal :=
  let (whole, rest) := s.span isDigit
  let (fraction, rest) := takeFraction rest
  if whole.isEmpty && fraction.isEmpty then none
  else (readExponent? rest).map fun e =>
    ⟨negative, valueOf (whole ++ fraction), e - fraction.length⟩

def read? (s : Text) : Option Decimal :=
  let (negative, s) := takeSign s
  readUnsigned? negative s

def toBinary64 (d : Decimal) : Binary64 := .ofDecimal d.negative d.digits d.exponent

end Decimal

namespace Binary64

def ofWord? (negative : Bool) (s : Text) : Option Binary64 :=
  let word := Text.asciiLower s
  if word = "inf".toList ∨ word = "infinity".toList then some (.infinite negative)
  else if word = "nan".toList then some .nan
  else none

/-- Reads a number from the whole text, correctly rounded. -/
def read? (s : Text) : Option Binary64 :=
  let (negative, rest) := Decimal.takeSign s
  (ofWord? negative rest).or ((Decimal.read? s).map Decimal.toBinary64)

def readFinite? (s : Text) : Option Binary64 := (read? s).filter isFinite

end Binary64
end FilterLang
