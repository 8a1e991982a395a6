import FilterLang.Filter.Encode

/-!
The table of a filter's terms, one row a term, with or without colours.
-/
namespace FilterLang

namespace Ansi

def escape (codes : Text) : Text := '\x1b' :: '[' :: codes ++ ['m']

def wrap (start stop s : Text) : Text := escape start ++ s ++ escape stop

def green : Text → Text := wrap "32".toList "39".toList

def cyan : Text → Text := wrap "36".toList "39".toList

def bold : Text → Text := wrap ['1'] ['0']

def dim : Text → Text := wrap ['2'] ['0']

def header (colors : Bool) (s : Text) : Text := if colors then bold (green s) else s

end Ansi

namespace Term

def label : Term → Text
  | clause _ => "clause".toList
  | connective k => k.keyword
  | openParen => "open".toList
  | closeParen => "close".toList

/-- The label in its column. It is padded by its own width, whatever colours it has. -/
def labelCell (colors : Bool) (t : Term) : Text :=
  let shown := match t with
    | connective _ => if colors then Ansi.cyan t.label else t.label
    | _ => t.label
  shown ++ List.replicate (7 - t.label.length) ' '

def textCell (colors : Bool) : Term → Text
  | clause c =>
    let kind := '(' :: c.operand.kind ++ [')']
    c.display ++ ' ' :: ' ' :: (if colors then Ansi.dim kind else kind)
  | t => t.display

def row (colors : Bool) (index : Nat) (t : Term) : Text :=
  Text.padRight 4 (Text.ofNat index) ++
    ' ' :: t.labelCell colors ++ ' ' :: t.textCell colors ++ ['\n']

def rows (colors : Bool) (index : Nat) : List Term → Text
  | [] => []
  | t :: ts => t.row colors index ++ rows colors (index + 1) ts

def heading : Text := "#    KIND    TERM".toList

def table (colors : Bool) (ts : List Term) : Text :=
  if ts.isEmpty then "No terms.".toList
  else Ansi.header colors heading ++ '\n' :: rows colors 0 ts

end Term
end FilterLang
