import FilterLang.Text.Basic

/-!
The six comparison operators, their spellings, and the orderings that each accepts.
-/
namespace FilterLang

inductive Operator where
  | eq
  | ne
  | gt
  | ge
  | lt
  | le
  deriving DecidableEq, Repr

namespace Operator

/-- All operators, in the order in which they are suggested. -/
def all : List Operator := [eq, ne, gt, ge, lt, le]

def keyword : Operator → Text
  | eq => "eq".toList
  | ne => "ne".toList
  | gt => "gt".toList
  | ge => "ge".toList
  | lt => "lt".toList
  | le => "le".toList

/-- The operator of a keyword, in exactly this case. -/
def ofKeyword? (word : Text) : Option Operator := all.find? (·.keyword = word)

/-- The signs that people write instead of a keyword. -/
def aliases : List (Text × Operator) :=
  [("=".toList, eq), ("==".toList, eq), ("!=".toList, ne), ("<>".toList, ne), (">".toList, gt),
    (">=".toList, ge), ("<".toList, lt), ("<=".toList, le)]

def ofAlias? (word : Text) : Option Operator :=
  (aliases.find? (fun a => a.1 = word)).map Prod.snd

def accepts : Operator → Ordering → Bool
  | eq, o => o = .eq
  | ne, o => o ≠ .eq
  | gt, o => o = .gt
  | ge, o => o ≠ .lt
  | lt, o => o = .lt
  | le, o => o ≠ .gt

end Operator
end FilterLang
