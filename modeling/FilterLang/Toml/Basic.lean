import FilterLang.Text.Basic

/-!
TOML values, and how the lines of a document build up its tables. A table may be defined once: by a
header, by dotted keys or in one piece between braces.
-/
namespace FilterLang

/-- How a table came to be: by its own header, by the header of a table inside it, by dotted keys,
or between braces. -/
inductive TableOrigin where
  | header
  | outer
  | dotted
  | inline
  deriving DecidableEq, Repr

/-- A TOML value. Of a float, a date or a time only the fact that there is one is kept. -/
inductive Toml where
  | string (s : Text)
  | integer (n : Int)
  | boolean (b : Bool)
  | float
  | datetime
  | array (items : List Toml)
  | table (origin : TableOrigin) (entries : List (Text × Toml))
  | tables (before : List (List (Text × Toml))) (last : List (Text × Toml))
  deriving Repr

namespace Toml

abbrev Entries := List (Text × Toml)

def get? (key : Text) (es : Entries) : Option Toml :=
  (es.find? (fun e => e.1 = key)).map Prod.snd

def put (key : Text) (v : Toml) : Entries → Entries
  | [] => [(key, v)]
  | (k, w) :: es => if k = key then (k, v) :: es else (k, w) :: put key v es

/-- Changes the table that a header names, and makes the tables on the way to it that are missing.
Of an array of tables the last one is meant. -/
def updateAt (change : Entries → Option Entries) : List Text → Entries → Option Entries
  | [], es => change es
  | key :: path, es =>
    match get? key es with
    | none => (updateAt change path []).map fun t => put key (.table .outer t) es
    | some (.table .inline _) => none
    | some (.table origin t) => (updateAt change path t).map fun t => put key (.table origin t) es
    | some (.tables before last) =>
      (updateAt change path last).map fun t => put key (.tables before t) es
    | some _ => none

def openTable (key : Text) (es : Entries) : Option Entries :=
  match get? key es with
  | none => some (put key (.table .header []) es)
  | some (.table .outer t) => some (put key (.table .header t) es)
  | some _ => none

def openItem (key : Text) (es : Entries) : Option Entries :=
  match get? key es with
  | none => some (put key (.tables [] []) es)
  | some (.tables before last) => some (put key (.tables (before ++ [last]) []) es)
  | some _ => none

/-- Adds a value under a dotted key. The table that gets it must come from dotted keys too, if there
are dots, and a table with a header of its own is not entered. -/
def insert (v : Toml) : List Text → Entries → Option Entries
  | [], _ => none
  | [key], es =>
    match get? key es with
    | none => some (put key v es)
    | some _ => none
  | key :: next :: rest, es =>
    match get? key es with
    | none => (insert v (next :: rest) []).map fun t => put key (.table .dotted t) es
    | some (.table .dotted t) =>
      (insert v (next :: rest) t).map fun t => put key (.table .dotted t) es
    | some (.table .outer t) =>
      if rest.isEmpty then none
      else (insert v (next :: rest) t).map fun t => put key (.table .outer t) es
    | some (.tables before last) =>
      if rest.isEmpty then none
      else (insert v (next :: rest) last).map fun t => put key (.tables before t) es
    | some _ => none

end Toml
end FilterLang
