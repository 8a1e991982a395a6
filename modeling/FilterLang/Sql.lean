import FilterLang.Filter.Read

/-!
Filters as SQL conditions, in two dialects, with or without quotes around names.
-/
namespace FilterLang

inductive Dialect where
  | ansi
  | mysql
  deriving DecidableEq, Repr

namespace Dialect

def name : Dialect → Text
  | ansi => "ansi".toList
  | mysql => "mysql".toList

/-- The dialect of a name in exactly this spelling. -/
def ofName? (s : Text) : Option Dialect := [ansi, mysql].find? (·.name = s)

def ofAnyCase? (s : Text) : Option Dialect := ofName? (Text.asciiLower s)

def nameQuote : Dialect → Char
  | ansi => '"'
  | mysql => '\x60'

def literalChar (d : Dialect) (c : Char) : Text :=
  match d with
  | ansi => if c = '\'' then ['\'', '\''] else [c]
  | mysql => if c = '\'' ∨ c = '\\' then ['\\', c] else [c]

def literal (d : Dialect) (s : Text) : Text := '\'' :: s.flatMap d.literalChar ++ ['\'']

def quotePart (d : Dialect) (s : Text) : Text :=
  d.nameQuote :: s.flatMap (fun c => if c = d.nameQuote then [c, c] else [c]) ++ [d.nameQuote]

end Dialect

structure SqlStyle where
  dialect : Dialect
  quotesNames : Bool
  deriving DecidableEq, Repr

/-- The style of a dialect by itself leaves names as they are. -/
def Dialect.plain (d : Dialect) : SqlStyle := ⟨d, false⟩

namespace SqlStyle

/-- The name of a field. Each part of a dotted name is quoted by itself. -/
def fieldName (style : SqlStyle) (name : Text) : Text :=
  if style.quotesNames then
    List.intercalate ['.'] ((name.splitOn '.').map style.dialect.quotePart)
  else name

end SqlStyle

def Operator.sqlSymbol : Operator → Text
  | eq => "=".toList
  | ne => "!=".toList
  | gt => ">".toList
  | ge => ">=".toList
  | lt => "<".toList
  | le => "<=".toList

def Operand.toSql (style : SqlStyle) : Operand → Text
  | text s => style.dialect.literal s
  | number s => s
  | field name => style.fieldName name

def Clause.toSql (style : SqlStyle) (c : Clause) : Text :=
  style.fieldName c.field ++ ' ' :: c.operator.sqlSymbol ++ ' ' :: c.operand.toSql style

def Term.toSql (style : SqlStyle) : Term → Text
  | clause c => c.toSql style
  | connective .and => " AND ".toList
  | connective .or => " OR ".toList
  | openParen => ['(']
  | closeParen => [')']

def Filter.toSql (style : SqlStyle) (f : Filter) : Text :=
  f.terms.flatMap (Term.toSql style) ++ f.suffix

end FilterLang
