import FilterLang.Number.Shortest

/-!
Scalar values and their comparison: by number if both sides read as finite numbers, and otherwise by
their texts.
-/
namespace FilterLang

inductive Scalar where
  | text (s : Text)
  | number (x : Binary64)
  | bool (b : Bool)
  deriving DecidableEq, Repr

namespace Scalar

/-- The value as a finite number. A text may have blanks around the number. -/
def asNumber : Scalar → Option Binary64
  | text s => Binary64.readFinite? (Text.trim s)
  | number x => if x.isFinite then some x else none
  | bool _ => none

def asText : Scalar → Text
  | text s => s
  | number x => x.plainText
  | bool b => if b then "true".toList else "false".toList

def compare (a b : Scalar) : Ordering :=
  match a.asNumber.bind Binary64.value?, b.asNumber.bind Binary64.value? with
  | some m, some n => Ord.compare m n
  | _, _ => Text.order a.asText b.asText

end Scalar
end FilterLang
