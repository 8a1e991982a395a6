import FilterLang.Filter.Read

/-!
Filters as LDAP search filters. All clauses stand under one combinator, so a filter with both
connectives has no such form, and parentheses leave no mark.
-/
namespace FilterLang

namespace Ldap

def escapeChar (c : Char) : Text :=
  if c = '*' then "\\2a".toList
  else if c = '(' then "\\28".toList
  else if c = ')' then "\\29".toList
  else if c = '\\' then "\\5c".toList
  else if c = '\x00' then "\\00".toList
  else [c]

def escape (s : Text) : Text := s.flatMap escapeChar

def item (field sign value : Text) : Text := '(' :: field ++ sign ++ value ++ [')']

def negation (component : Text) : Text := '(' :: '!' :: component ++ [')']

def combine (k : Connective) (components : Text) : Text :=
  '(' :: (match k with | .and => '&' | .or => '|') :: components ++ [')']

end Ldap

/-- Texts are escaped; numbers and names stand as they are. -/
def Operand.toLdap : Operand → Text
  | text s => Ldap.escape s
  | number s | field s => s

/-- A clause as a component. There are no strict comparisons, so one is the weak comparison without
equality. -/
def Clause.toLdap (c : Clause) : Text :=
  let item sign := Ldap.item c.field sign c.operand.toLdap
  let unequal := Ldap.negation (item ['='])
  match c.operator with
  | .eq => item ['=']
  | .ne => unequal
  | .ge => item ['>', '=']
  | .le => item ['<', '=']
  | .gt => Ldap.combine .and (item ['>', '='] ++ unequal)
  | .lt => Ldap.combine .and (item ['<', '='] ++ unequal)

namespace Filter

def soleConnective (f : Filter) : Except FilterError (Option Connective) :=
  match f.connectives with
  | [] => .ok none
  | k :: ks => if ks.all (· = k) then .ok (some k) else .error .mixedConnectives

/-- The search filter. Clauses without any connective must all hold, and a single one stands by
itself. -/
def toLdap (f : Filter) : Except FilterError Text :=
  let components := f.clauses.flatMap Clause.toLdap
  f.soleConnective.map fun
    | some k => Ldap.combine k components
    | none => if f.clauses.length ≤ 1 then components else Ldap.combine .and components

end Filter
end FilterLang
