import FilterLang.Proofs.Chain
import FilterLang.Proofs.PointwiseSelection

/-!
What filtering looks at. A clause reads no field but its own and the one that its operand names, so
a filter in which no clause mentions a name gives the same positions for two lists of records that
differ in fields with that name inside their names only.
-/
namespace FilterLang

namespace Text

private theorem contains_self (s : Text) : contains s s = true := by
  cases s with
  | nil => rfl
  | cons c s => simp [contains]

end Text

/-- Whether two records have the same values in all fields whose names do not contain a text. -/
def Record.AgreeOutside (needle : Text) (r r' : Record) : Prop :=
  ∀ name, Text.contains needle name = false → r name = r' name

namespace Record.AgreeOutside
variable {needle : Text} {r r' : Record}

/-- Records that differ in one field at most. -/
theorem of_forall_ne (h : ∀ name, name ≠ needle → r name = r' name) : AgreeOutside needle r r' := by
  intro name hname
  apply h
  rintro rfl
  rw [Text.contains_self] at hname
  cases hname

theorem value?_eq {o : Operand} (h : AgreeOutside needle r r')
    (ho : o.asField.any (Text.contains needle) = false) : o.value? r = o.value? r' := by
  cases o with
  | text s => rfl
  | number s => rfl
  | field name => exact h name ho

/-- A clause that does not mention the text holds of both records or of neither. -/
theorem holds_eq {c : Clause} (h : AgreeOutside needle r r') (hc : c.mentions needle = false) :
    c.holds r = c.holds r' := by
  obtain ⟨hfield, hoperand⟩ := Bool.or_eq_false_iff.mp hc
  rw [Clause.holds, Clause.holds, h c.field hfield, h.value?_eq hoperand]

end Record.AgreeOutside

namespace Term
variable {α : Type}

/-- What is selected depends on the clauses only by what they hold of. -/
theorem select_congr {holds holds' : Clause → α → Bool} {ts : List Term}
    (h : ∀ c, clause c ∈ ts → ∀ x, holds c x = holds' c x) (all : List α) :
    select holds ts all = select holds' ts all := by
  have hstep : ∀ t ∈ ts, ∀ s : Selection α,
      Selection.step holds all s t = Selection.step holds' all s t := by
    intro t ht s
    cases t with
    | clause c =>
      have hc : holds c = holds' c := funext (h c ht)
      rw [Selection.step, Selection.step, hc]
    | connective k => cases k <;> rfl
    | openParen => rfl
    | closeParen => rfl
  rw [select, select, List.foldl_ext _ _ _ fun s t ht => hstep t ht s]

end Term

namespace Filter
variable {α β : Type}

private theorem mentions_of_findMention {f : Filter} {needle : Text}
    (h : f.findMention needle = none) {c : Clause} (hc : .clause c ∈ f.terms) :
    c.mentions needle = false := by
  have hnot := List.find?_eq_none.mp h c (Term.mem_filterMap_asClause.mpr hc)
  exact Bool.not_eq_true _ ▸ hnot

private theorem map_cast_finRange {m n : ℕ} (h : m = n) :
    (List.finRange m).map (Fin.cast h) = List.finRange n := by
  subst h
  exact List.map_id _

/-- Two lists of one length give the same positions if each clause holds of both elements at a
position or of neither. -/
theorem positions_congr {f : Filter} {record : α → Record} {record' : β → Record} {all : List α}
    {all' : List β} (hlength : all.length = all'.length)
    (h : ∀ (i : Fin all.length) (c : Clause), .clause c ∈ f.terms →
      c.holds (record all[i]) = c.holds (record' all'[i.cast hlength])) :
    f.positions record' all' = (f.positions record all).map (Fin.cast hlength) := by
  let holds' (c : Clause) (j : Fin all'.length) : Bool := c.holds (record' all'[j])
  calc f.positions record' all'
      = Term.select holds' f.terms ((List.finRange all.length).map (Fin.cast hlength)) := by
        rw [map_cast_finRange]
        rfl
    _ = (Term.select (fun c i => holds' c (i.cast hlength)) f.terms
          (List.finRange all.length)).map (Fin.cast hlength) := Term.select_map _ _ _ _
    _ = (f.positions record all).map (Fin.cast hlength) := by
        rw [Term.select_congr fun c hc i => (h i c hc).symm]
        rfl

private theorem positions_of_agreeOutside {f : Filter} {needle : Text} {record : α → Record}
    {record' : β → Record} {all : List α} {all' : List β} (hf : f.findMention needle = none)
    (hlength : all.length = all'.length)
    (h : ∀ i : Fin all.length,
      (record all[i]).AgreeOutside needle (record' all'[i.cast hlength])) :
    f.positions record' all' = (f.positions record all).map (Fin.cast hlength) := by
  apply positions_congr hlength
  intro i c hc
  exact (h i).holds_eq (mentions_of_findMention hf hc)

/-- If no clause mentions a name, nothing that records hold under it has any part in filtering: two
lists that agree on all other fields give the same positions, as often and in the same order. -/
theorem positions_of_findMention_eq_none {f : Filter} {needle : Text} {record : α → Record}
    {record' : β → Record} {all : List α} {all' : List β} (hf : f.findMention needle = none)
    (hlength : all.length = all'.length)
    (h : ∀ (i : Fin all.length) (name : Text), name ≠ needle →
      record all[i] name = record' all'[i.cast hlength] name) :
    f.positions record' all' = (f.positions record all).map (Fin.cast hlength) ∧
      f.evaluate record all = (f.positions record all).map all.get ∧
      f.evaluate record' all' =
        (f.positions record all).map fun i => all'.get (i.cast hlength) := by
  have hpositions : f.positions record' all' = (f.positions record all).map (Fin.cast hlength) :=
    positions_of_agreeOutside hf hlength fun i => .of_forall_ne (h i)
  refine ⟨hpositions, (map_get_positions record f all).symm, ?_⟩
  rw [← map_get_positions, hpositions, List.map_map]
  rfl

/-- Both alternatives of this filter hold of the record, so it comes twice, whatever its third field
is. -/
theorem positions_of_unmentioned_field :
    let r (value : Text) : Record := fun name =>
      if name = ['a'] ∨ name = ['b'] then some (.text ['1'])
      else if name = ['c'] then some (.text value) else none
    ∃ f, read "a eq '1' or a le b".toList = .ok f ∧ f.findMention ['c'] = none ∧
      f.positions id [r ['x']] = [0, 0] ∧ f.positions id [r ['y']] = [0, 0] := by
  intro r
  let f : Filter := ⟨some "a eq '1' or a le b".toList, [.clause ⟨['a'], .eq, .text ['1']⟩,
    .connective .or, .clause ⟨['a'], .le, .field ['b']⟩], []⟩
  have hread : read "a eq '1' or a le b".toList = .ok f := eq_ok_of_toOption (by decide +kernel)
  have hfind : f.findMention ['c'] = none := by decide
  let first := [r ['x']]
  let second := [r ['y']]
  have hlength : first.length = second.length := rfl
  have hagree : ∀ (i : Fin first.length) (name : Text), name ≠ ['c'] →
      id first[i] name = id second[i.cast hlength] name := by
    intro i name hname
    obtain rfl : i = 0 := @Subsingleton.elim (Fin 1) _ i 0
    change r ['x'] name = r ['y'] name
    simp only [r, if_neg hname]
  obtain ⟨hpositions, -, -⟩ :=
    @positions_of_findMention_eq_none Record Record f ['c'] id id first second hfind hlength hagree
  have hfirst : f.positions id first = [0, 0] := by decide +kernel
  rw [hfirst] at hpositions
  exact ⟨f, hread, hfind, hfirst, hpositions⟩

end Filter
end FilterLang
