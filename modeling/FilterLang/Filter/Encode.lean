import FilterLang.Filter.Read
import FilterLang.Json.Print

/-!
The written form of a filter as JSON, with the fields of each object in a fixed order. A source that
is missing and a suffix that is empty are left out.
-/
namespace FilterLang

def Operand.kind : Operand → Text
  | text _ => "text".toList
  | number _ => "number".toList
  | field _ => "field".toList

def Operand.toJson (o : Operand) : Json :=
  .object [("kind".toList, .string o.kind), ("value".toList, .string o.raw)]

def Clause.jsonFields (c : Clause) : List (Text × Json) :=
  [("field".toList, .string c.field), ("operator".toList, .string c.operator.keyword),
    ("operand".toList, c.operand.toJson)]

def Term.type : Term → Text
  | clause _ => "clause".toList
  | connective k => k.keyword
  | openParen => "open_paren".toList
  | closeParen => "close_paren".toList

def Term.toJson (t : Term) : Json :=
  .object (("type".toList, .string t.type) ::
    match t with
    | clause c => c.jsonFields
    | _ => [])

def Filter.toJson (f : Filter) : Json :=
  let source := match f.source with
    | some s => [("source".toList, Json.string s)]
    | none => []
  let suffix := if f.suffix.isEmpty then [] else [("sql_suffix".toList, Json.string f.suffix)]
  .object (source ++ ("terms".toList, .array (f.terms.map Term.toJson)) :: suffix)

def Filter.serialize (f : Filter) : Text := Json.compact f.toJson

end FilterLang
