import FilterLang.Filter.Encode
import FilterLang.Proofs.ClauseReading
import FilterLang.Proofs.JsonSeparation

/-!
The written form of a filter loses nothing. Its JSON value shows the source, each term with its
kind, and the suffix, though the source and the suffix may be left out; and no number is in it, so
that the text shows the value.
-/
namespace FilterLang
open Json

private theorem Operand.length_kind (o : Operand) :
    o.kind.length = match o with
      | text _ => 4
      | number _ => 6
      | field _ => 5 := by
  cases o <;> rfl

theorem Operand.toJson_injective : Function.Injective Operand.toJson := by
  intro o p h
  simp only [toJson, Json.object.injEq, List.cons.injEq, Prod.mk.injEq, Json.string.injEq] at h
  obtain ⟨⟨-, hkind⟩, ⟨-, hraw⟩, -⟩ := h
  have hlength := congrArg List.length hkind
  rw [length_kind, length_kind] at hlength
  cases o with
  | text s =>
    cases p with
    | text t => exact congrArg text hraw
    | _ => cases hlength
  | number s =>
    cases p with
    | number t => exact congrArg number hraw
    | _ => cases hlength
  | field s =>
    cases p with
    | field t => exact congrArg field hraw
    | _ => cases hlength

theorem Clause.jsonFields_injective : Function.Injective Clause.jsonFields := by
  intro c d h
  simp only [jsonFields, List.cons.injEq, Prod.mk.injEq, Json.string.injEq] at h
  obtain ⟨⟨-, hfield⟩, ⟨-, hop⟩, ⟨-, hoperand⟩, -⟩ := h
  obtain ⟨field, operator, operand⟩ := c
  obtain rfl := Operator.keyword_injective hop
  obtain rfl := Operand.toJson_injective hoperand
  obtain rfl : field = d.field := hfield
  rfl

private theorem Term.length_type (t : Term) :
    t.type.length = match t with
      | clause _ => 6
      | connective .and => 3
      | connective .or => 2
      | openParen => 10
      | closeParen => 11 := by
  rcases t with c | (_ | _) | _ | _ <;> rfl

theorem Term.toJson_injective : Function.Injective Term.toJson := by
  intro t u h
  simp only [toJson, Json.object.injEq, List.cons.injEq, Prod.mk.injEq, Json.string.injEq] at h
  obtain ⟨⟨-, htype⟩, hfields⟩ := h
  have hlength := congrArg List.length htype
  rw [length_type, length_type] at hlength
  cases t with
  | clause c =>
    rcases u with d | (_ | _) | _ | _
    · rw [Clause.jsonFields_injective hfields]
    all_goals cases hlength
  | connective k =>
    cases k <;> rcases u with d | (_ | _) | _ | _ <;> first | rfl | cases hlength
  | openParen => rcases u with d | (_ | _) | _ | _ <;> first | rfl | cases hlength
  | closeParen => rcases u with d | (_ | _) | _ | _ <;> first | rfl | cases hlength

private theorem eq_of_optionalField {name s t : Text}
    (h : (if s.isEmpty then [] else [(name, Json.string s)]) =
      if t.isEmpty then [] else [(name, Json.string t)]) : s = t := by
  cases s with
  | nil =>
    cases t with
    | nil => rfl
    | cons d t => cases h
  | cons c s =>
    cases t with
    | nil => cases h
    | cons d t =>
      have hfield := (List.cons.inj h).1
      exact Json.string.inj (Prod.mk.inj hfield).2

theorem Filter.toJson_injective : Function.Injective Filter.toJson := by
  intro f g h
  obtain ⟨source, terms, suffix⟩ := f
  obtain ⟨source', terms', suffix'⟩ := g
  have hfields := Json.object.inj h
  have hrest : source = source' ∧
      ("terms".toList, Json.array (terms.map Term.toJson)) ::
          (if suffix.isEmpty then [] else [("sql_suffix".toList, Json.string suffix)]) =
        ("terms".toList, Json.array (terms'.map Term.toJson)) ::
          (if suffix'.isEmpty then [] else [("sql_suffix".toList, Json.string suffix')]) := by
    cases source with
    | none =>
      cases source' with
      | none => exact ⟨rfl, hfields⟩
      | some s' => exact absurd (Prod.mk.inj (List.cons.inj hfields).1).1 (by decide)
    | some s =>
      cases source' with
      | none => exact absurd (Prod.mk.inj (List.cons.inj hfields).1).1 (by decide)
      | some s' =>
        obtain ⟨hsource, hrest⟩ := List.cons.inj hfields
        rw [Json.string.inj (Prod.mk.inj hsource).2]
        exact ⟨rfl, hrest⟩
  obtain ⟨rfl, hrest⟩ := hrest
  obtain ⟨hterms, hsuffix⟩ := List.cons.inj hrest
  have hmap := Json.array.inj (Prod.mk.inj hterms).2
  rw [Term.toJson_injective.list_map hmap, eq_of_optionalField hsuffix]

private theorem numberlessFields_append {fs gs : List (Text × Json)} (hf : NumberlessFields fs)
    (hg : NumberlessFields gs) : NumberlessFields (fs ++ gs) := by
  induction fs with
  | nil => exact hg
  | cons f fs ih => exact ⟨hf.1, ih hf.2⟩

private theorem Term.numberless_toJson (t : Term) : Numberless t.toJson := by
  cases t <;> simp [toJson, Numberless, NumberlessFields, Clause.jsonFields, Operand.toJson]

private theorem numberlessItems_map (ts : List Term) : NumberlessItems (ts.map Term.toJson) := by
  induction ts with
  | nil => trivial
  | cons t ts ih => exact ⟨t.numberless_toJson, ih⟩

theorem Filter.numberless_toJson (f : Filter) : Numberless f.toJson := by
  apply numberlessFields_append
  · cases f.source <;> simp [NumberlessFields, Numberless]
  · refine ⟨numberlessItems_map f.terms, ?_⟩
    split <;> simp [NumberlessFields, Numberless]

/-- Two filters that are written in the same way are the same: their sources, their terms with all
fields, operators and operands, and their suffixes. -/
theorem Filter.serialize_eq_iff {f g : Filter} : f.serialize = g.serialize ↔ f = g := by
  constructor
  · intro h
    have htext : compact f.toJson ++ [] = compact g.toJson ++ [] := congrArg (· ++ []) h
    exact toJson_injective
      (compact_append_inj _ _ f.numberless_toJson g.numberless_toJson htext).1
  · rintro rfl
    rfl

end FilterLang
