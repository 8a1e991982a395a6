import FilterLang.Filter.Read

/-!
Filters under names, built up one edit after another.
-/
namespace FilterLang

inductive Edit where
  | read (text : Text)
  | clear
  | copy (source : Text)
  | addConnective (k : Connective)
  | addText (text : Text)
  | addClause (c : Clause)
  | merge (source : Text)
  | addSuffix (text : Text)
  deriving DecidableEq, Repr

/-- A filter for every slot; a slot never used holds the empty one. -/
def Workbench := Text → Filter

namespace Workbench

def empty : Workbench := fun _ => .empty

def set (w : Workbench) (slot : Text) (f : Filter) : Workbench :=
  fun s => if s = slot then f else w s

def edited (w : Workbench) (slot : Text) : Edit → Except FilterError Filter
  | .read text => Filter.read text
  | .clear => .ok .empty
  | .copy source => .ok (w source)
  | .addConnective k => .ok ((w slot).addConnective k)
  | .addText text => (w slot).addText text
  | .addClause c => .ok ((w slot).addClause c)
  | .merge source => .ok ((w slot).merge (w source))
  | .addSuffix text => .ok ((w slot).addSuffix text)

/-- Edits a slot. A refused edit changes nothing. -/
def edit (w : Workbench) (slot : Text) (e : Edit) : Except FilterError Unit × Workbench :=
  match w.edited slot e with
  | .ok f => (.ok (), w.set slot f)
  | .error err => (.error err, w)

end Workbench
end FilterLang
