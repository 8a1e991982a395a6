import FilterLang.Clause.Operator

/-!
What can be wrong with a filter, and how it is reported.
-/
namespace FilterLang

/-- The reasons for which filter text or a rendering of it is refused. All but the first and the
last name the clause at fault. -/
inductive FilterError where
  | emptyExpression
  | missingOperator (clause : Text) (suggestion : Option Operator)
  | emptyField (clause : Text)
  | missingValue (clause : Text)
  | unterminatedQuote (clause : Text)
  | unexpectedText (clause surplus : Text)
  | mixedConnectives
  deriving DecidableEq, Repr

namespace FilterError

def suggestionText : Option Operator → Text
  | none => []
  | some op => " (did you mean '".toList ++ op.keyword ++ "'?)".toList

def message : FilterError → Text
  | emptyExpression => "filter expression is empty".toList
  | missingOperator clause suggestion =>
    "no comparison operator in clause '".toList ++ clause ++ '\'' :: suggestionText suggestion
  | emptyField clause => "missing field name in clause '".toList ++ clause ++ ['\'']
  | missingValue clause => "missing value in clause '".toList ++ clause ++ ['\'']
  | unterminatedQuote clause => "unterminated quote in clause '".toList ++ clause ++ ['\'']
  | unexpectedText clause surplus =>
    "unexpected '".toList ++ surplus ++ "' in clause '".toList ++ clause ++ ['\'']
  | mixedConnectives =>
    "mixed combinators unsupported: LDAP filters cannot mix 'and' and 'or' at one level".toList

end FilterError
end FilterLang
