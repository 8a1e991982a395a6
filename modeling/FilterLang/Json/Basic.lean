import FilterLang.Json.Number

/-!
JSON values. An object is a list of fields in the order in which they are written; a field set by
name takes its place in the order of names.
-/
namespace FilterLang

inductive Json where
  | null
  | bool (b : Bool)
  | number (n : JsonNumber)
  | string (s : Text)
  | array (items : List Json)
  | object (fields : List (Text × Json))
  deriving Repr

namespace Json

def single (name : Text) (value : Json) : Json := .object [(name, value)]

/-- Sets a field among fields in the order of their names; an earlier value of the name is lost. -/
def setField (name : Text) (value : Json) : List (Text × Json) → List (Text × Json)
  | [] => [(name, value)]
  | (n, v) :: fields =>
    match Text.order name n with
    | .lt => (name, value) :: (n, v) :: fields
    | .eq => (name, value) :: fields
    | .gt => (n, v) :: setField name value fields

def field? (name : Text) : Json → Option Json
  | .object fields => (fields.find? (fun f => f.1 = name)).map Prod.snd
  | _ => none

mutual

def sorted : Json → Json
  | .array items => .array (sortedItems items)
  | .object fields => .object (sortedFields fields)
  | other => other

def sortedItems : List Json → List Json
  | [] => []
  | v :: items => sorted v :: sortedItems items

def sortedFields : List (Text × Json) → List (Text × Json)
  | [] => []
  | (n, v) :: fields => setField n (sorted v) (sortedFields fields)

end

end Json
end FilterLang
