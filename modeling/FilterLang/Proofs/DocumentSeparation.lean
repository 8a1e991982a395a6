import FilterLang.Proofs.DocumentReading
import FilterLang.Proofs.NumberReading

/-!
Documents apart. The document of a filter that was read shows in which pairs its clauses are
combined, and all of each clause but the spelling of a number. This holds for any sense in which two
numbers of a document may be the same, such as that they have the same value.
-/
namespace FilterLang

namespace Json

mutual

/-- Whether two values are equal but for their numbers, which are the same in a given sense. -/
def Alike (same : JsonNumber → JsonNumber → Prop) : Json → Json → Prop
  | .null, .null => True
  | .bool a, .bool b => a = b
  | .number m, .number n => same m n
  | .string s, .string t => s = t
  | .array vs, .array ws => AlikeItems same vs ws
  | .object fs, .object gs => AlikeFields same fs gs
  | _, _ => False

def AlikeItems (same : JsonNumber → JsonNumber → Prop) : List Json → List Json → Prop
  | [], [] => True
  | v :: vs, w :: ws => Alike same v w ∧ AlikeItems same vs ws
  | _, _ => False

def AlikeFields (same : JsonNumber → JsonNumber → Prop) :
    List (Text × Json) → List (Text × Json) → Prop
  | [], [] => True
  | (n, v) :: fs, (m, w) :: gs => n = m ∧ Alike same v w ∧ AlikeFields same fs gs
  | _, _ => False

end

mutual

theorem alike_eq_iff : ∀ v w : Json, Alike Eq v w ↔ v = w
  | .null, w => by cases w <;> simp [Alike]
  | .bool _, w => by cases w <;> simp [Alike]
  | .number _, w => by cases w <;> simp [Alike]
  | .string _, w => by cases w <;> simp [Alike]
  | .array vs, w => by cases w <;> simp [Alike, alikeItems_eq_iff vs]
  | .object fs, w => by cases w <;> simp [Alike, alikeFields_eq_iff fs]

theorem alikeItems_eq_iff : ∀ vs ws : List Json, AlikeItems Eq vs ws ↔ vs = ws
  | [], ws => by cases ws <;> simp [AlikeItems]
  | v :: vs, ws => by cases ws <;> simp [AlikeItems, alike_eq_iff v, alikeItems_eq_iff vs]

theorem alikeFields_eq_iff : ∀ fs gs : List (Text × Json), AlikeFields Eq fs gs ↔ fs = gs
  | [], gs => by cases gs <;> simp [AlikeFields]
  | (n, v) :: fs, gs => by
    cases gs <;> simp [AlikeFields, alike_eq_iff v, alikeFields_eq_iff fs, Prod.ext_iff, and_assoc]

end

variable {same : JsonNumber → JsonNumber → Prop}

@[simp] theorem alike_single {n m : Text} {v w : Json} :
    Alike same (single n v) (single m w) ↔ n = m ∧ Alike same v w := by
  simp [single, Alike, AlikeFields]

/-- A text or a number: no value that another one stands in. -/
def IsScalar : Json → Prop
  | .string _ | .number _ => True
  | _ => False

private theorem IsScalar.not_alike_single {v w : Json} (hv : v.IsScalar) (n : Text) :
    ¬ Alike same v (single n w) ∧ ¬ Alike same (single n w) v := by
  cases v <;> simp_all [IsScalar, Alike, single]

private theorem IsScalar.not_alike_array {v : Json} (hv : v.IsScalar) (ws : List Json) :
    ¬ Alike same v (.array ws) ∧ ¬ Alike same (.array ws) v := by
  cases v <;> simp_all [IsScalar, Alike]

end Json

theorem Operator.documentKey_injective {j k : Operator} (h : j.documentKey = k.documentKey) :
    j = k := by
  cases j <;> cases k <;> first | rfl | exact absurd h (by decide)

namespace Document
open Json
variable {same : JsonNumber → JsonNumber → Prop} {op op' : Operator} {v w : Json}

/-- What a comparison says of a field, apart from its name. -/
def test (op : Operator) (v : Json) : Json := if op = .eq then v else .single op.documentKey v

private theorem comparison_eq (field : Text) (op : Operator) (v : Json) :
    comparison field op v = .single field (test op v) := by
  cases op <;> rfl

private theorem alike_test_iff (hv : v.IsScalar) (hw : w.IsScalar) :
    Alike same (test op v) (test op' w) ↔ op = op' ∧ Alike same v w := by
  -- The value in the short form is a scalar, so it is taken for no other comparison.
  unfold test
  split <;> split
  · next h h' => simp [h, h']
  · next h h' =>
    exact iff_of_false (hv.not_alike_single _).1 fun ⟨hop, _⟩ => h' (hop ▸ h)
  · next h h' =>
    exact iff_of_false (hw.not_alike_single _).2 fun ⟨hop, _⟩ => h (hop ▸ h')
  · rw [alike_single]
    exact and_congr_left' ⟨Operator.documentKey_injective, congrArg _⟩

private theorem not_alike_test_array (hv : v.IsScalar) (ws : List Json) :
    ¬ Alike same (test op v) (.array ws) ∧ ¬ Alike same (.array ws) (test op v) := by
  unfold test
  split
  · exact hv.not_alike_array ws
  · simp [Alike, single]

theorem alike_comparison_iff {field field' : Text} (hv : v.IsScalar) (hw : w.IsScalar) :
    Alike same (comparison field op v) (comparison field' op' w) ↔
      field = field' ∧ op = op' ∧ Alike same v w := by
  rw [comparison_eq, comparison_eq, alike_single, alike_test_iff hv hw]

theorem alike_fieldComparison_iff {left left' right right' : Text} :
    Alike same (fieldComparison left op right) (fieldComparison left' op' right') ↔
      left = left' ∧ op = op' ∧ right = right' := by
  have hkey : op.documentKey = op'.documentKey ↔ op = op' :=
    ⟨Operator.documentKey_injective, congrArg _⟩
  simp [fieldComparison, Alike, AlikeItems, hkey, and_left_comm]

private theorem not_alike_comparison_fieldComparison (hv : v.IsScalar) (field left right : Text) :
    ¬ Alike same (comparison field op v) (fieldComparison left op' right) ∧
      ¬ Alike same (fieldComparison left op' right) (comparison field op v) := by
  -- Even if the name of the field is the key of comparisons of two fields, the values differ.
  rw [comparison_eq, fieldComparison, alike_single, alike_single]
  unfold test
  split
  · exact ⟨fun h => (hv.not_alike_single _).1 h.2, fun h => (hv.not_alike_single _).2 h.2⟩
  · rw [alike_single, alike_single]
    exact ⟨fun h => (hv.not_alike_array _).1 h.2.2, fun h => (hv.not_alike_array _).2 h.2.2⟩

theorem alike_pair_iff {j k : Connective} {v w v' w' : Json} :
    Alike same (pair j v w) (pair k v' w') ↔ j = k ∧ Alike same v v' ∧ Alike same w w' := by
  have hkey : j.documentKey = k.documentKey ↔ j = k := ⟨documentKey_injective, congrArg _⟩
  simp [pair, Alike, AlikeItems, hkey]

end Document

namespace Operand
variable {same : JsonNumber → JsonNumber → Prop} {o o' : Operand} {v w : Json}

inductive Literal : Operand → Json → Prop
  | text (s : Text) : Literal (.text s) (.string s)
  | number (s : Text) : Literal (.number s) (Document.number s)

/-- Whether two operands are of one kind and equal, numbers as numbers of a document. -/
def Alike (same : JsonNumber → JsonNumber → Prop) : Operand → Operand → Prop
  | text s, text t => s = t
  | number s, number t =>
    ∃ m n, Document.number s = .number m ∧ Document.number t = .number n ∧ same m n
  | field name, field other => name = other
  | _, _ => False

private theorem literal_or_field (o : Operand) : (∃ v, Literal o v) ∨ ∃ name, o = field name := by
  cases o with
  | text s => exact .inl ⟨_, .text s⟩
  | number s => exact .inl ⟨_, .number s⟩
  | field name => exact .inr ⟨name, rfl⟩

private theorem Legible.exists_number {s : Text} (h : (number s).Legible) :
    ∃ n, Document.number s = .number n := by
  obtain ⟨x, hx⟩ := Option.isSome_iff_exists.mp h
  obtain ⟨n, hn, -⟩ := Document.exists_number_of_readFinite? hx
  exact ⟨n, hn⟩

namespace Literal

private theorem toDocument_eq (h : Literal o v) (field : Text) (op : Operator) :
    Clause.toDocument ⟨field, op, o⟩ = Document.comparison field op v := by
  cases h <;> rfl

private theorem isScalar (h : Literal o v) : v.IsScalar := by
  cases h with
  | text s => trivial
  | number s =>
    unfold Document.number
    split
    · trivial
    · split <;> trivial

/-- A number is told apart from a text, since it is a number in a document as well. -/
theorem alike_iff (h : Literal o v) (h' : Literal o' w) (ho : o.Legible) (ho' : o'.Legible) :
    Json.Alike same v w ↔ o.Alike same o' := by
  cases h with
  | text s =>
    cases h' with
    | text t => simp [Json.Alike, Alike]
    | number t =>
      obtain ⟨n, hn⟩ := ho'.exists_number
      rw [hn]
      simp [Json.Alike, Alike]
  | number s =>
    obtain ⟨m, hm⟩ := ho.exists_number
    cases h' with
    | text t =>
      rw [hm]
      simp [Json.Alike, Alike]
    | number t =>
      obtain ⟨n, hn⟩ := ho'.exists_number
      simp only [Alike, hm, hn]
      simp [Json.Alike]

private theorem not_alike_field (h : Literal o v) (name : Text) :
    ¬ o.Alike same (field name) ∧ ¬ (field name).Alike same o := by
  cases h <;> exact ⟨id, id⟩

end Literal
end Operand

namespace Clause
variable {same : JsonNumber → JsonNumber → Prop}

structure Alike (same : JsonNumber → JsonNumber → Prop) (c d : Clause) : Prop where
  field : c.field = d.field
  operator : c.operator = d.operator
  operand : c.operand.Alike same d.operand

theorem alike_iff {c d : Clause} : Alike same c d ↔
    c.field = d.field ∧ c.operator = d.operator ∧ c.operand.Alike same d.operand :=
  ⟨fun h => ⟨h.field, h.operator, h.operand⟩, fun ⟨hf, hop, ho⟩ => ⟨hf, hop, ho⟩⟩

theorem alike_toDocument_iff {c d : Clause} (hc : c.Legible) (hd : d.Legible) :
    Json.Alike same c.toDocument d.toDocument ↔ Alike same c d := by
  obtain ⟨name, op, o⟩ := c
  obtain ⟨other, op', o'⟩ := d
  rw [alike_iff]
  obtain ⟨v, hv⟩ | ⟨right, rfl⟩ := o.literal_or_field
  · rw [hv.toDocument_eq]
    obtain ⟨w, hw⟩ | ⟨right', rfl⟩ := o'.literal_or_field
    · rw [hw.toDocument_eq, Document.alike_comparison_iff hv.isScalar hw.isScalar,
        hv.alike_iff hw hc.operand hd.operand]
    · exact iff_of_false (Document.not_alike_comparison_fieldComparison hv.isScalar _ _ _).1
        fun h => (hv.not_alike_field right').1 h.2.2
  · obtain ⟨w, hw⟩ | ⟨right', rfl⟩ := o'.literal_or_field
    · rw [hw.toDocument_eq]
      exact iff_of_false (Document.not_alike_comparison_fieldComparison hw.isScalar _ _ _).2
        fun h => (hw.not_alike_field right).2 h.2.2
    · exact Document.alike_fieldComparison_iff

/-- No clause with a literal has the document of a comparison of two fields. -/
theorem not_alike_fieldComparison {c : Clause} (h : c.operand.asField = none) (left : Text)
    (op : Operator) (right : Text) :
    ¬ Json.Alike same c.toDocument (Document.fieldComparison left op right) := by
  obtain ⟨name, op', o⟩ := c
  obtain ⟨v, hv⟩ | ⟨other, rfl⟩ := o.literal_or_field
  · rw [hv.toDocument_eq]
    exact (Document.not_alike_comparison_fieldComparison hv.isScalar _ _ _).1
  · cases h

/-- No clause has the document of a combination, whatever its field is. -/
theorem not_alike_combination (c : Clause) (name : Text) (docs : List Json) :
    ¬ Json.Alike same c.toDocument (.single name (.array docs)) ∧
      ¬ Json.Alike same (.single name (.array docs)) c.toDocument := by
  obtain ⟨field, op, o⟩ := c
  obtain ⟨v, hv⟩ | ⟨right, rfl⟩ := o.literal_or_field
  · rw [hv.toDocument_eq, Document.comparison_eq, Json.alike_single, Json.alike_single]
    exact ⟨fun h => (Document.not_alike_test_array hv.isScalar docs).1 h.2,
      fun h => (Document.not_alike_test_array hv.isScalar docs).2 h.2⟩
  · simp [toDocument, Document.fieldComparison, Json.Alike, Json.single, Json.AlikeFields]

end Clause

inductive Combination (α : Type) where
  | operand (a : α)
  | pair (k : Connective) (left right : Combination α)
  deriving DecidableEq, Repr

namespace Combination
variable {α β : Type}

def operands : Combination α → List α
  | operand a => [a]
  | pair _ l r => l.operands ++ r.operands

def toDocument : Combination Clause → Json
  | operand c => c.toDocument
  | pair k l r => Document.pair k l.toDocument r.toDocument

/-- Whether two combinations have one shape and the same connectives, and each operand of the one is
related to the operand of the other in its place. -/
inductive Matches (r : α → β → Prop) : Combination α → Combination β → Prop
  | operand {a : α} {b : β} (h : r a b) : Matches r (.operand a) (.operand b)
  | pair (k : Connective) {t u : Combination α} {t' u' : Combination β} (ht : Matches r t t')
    (hu : Matches r u u') : Matches r (.pair k t u) (.pair k t' u')

theorem alike_toDocument_iff {same : JsonNumber → JsonNumber → Prop} {t u : Combination Clause}
    (ht : ∀ c ∈ t.operands, c.Legible) (hu : ∀ c ∈ u.operands, c.Legible) :
    Json.Alike same t.toDocument u.toDocument ↔ t.Matches (Clause.Alike same) u := by
  induction t generalizing u with
  | operand c =>
    cases u with
    | operand d =>
      refine (Clause.alike_toDocument_iff (ht c List.mem_cons_self) (hu d List.mem_cons_self)).trans
        ⟨.operand, fun h => ?_⟩
      cases h with
      | operand h => exact h
    | pair k l r => exact iff_of_false (c.not_alike_combination _ _).1 nofun
  | pair k l r ihl ihr =>
    cases u with
    | operand d => exact iff_of_false (d.not_alike_combination _ _).2 nofun
    | pair k' l' r' =>
      obtain ⟨hl, hr⟩ := List.forall_mem_append.mp ht
      obtain ⟨hl', hr'⟩ := List.forall_mem_append.mp hu
      rw [toDocument, toDocument, Document.alike_pair_iff, ihl hl hl', ihr hr hr']
      constructor
      · rintro ⟨rfl, hl, hr⟩
        exact .pair k hl hr
      · intro h
        cases h with
        | pair _ hl hr => exact ⟨rfl, hl, hr⟩

end Combination

namespace Chain
variable {α : Type}

def combination (p : Chain α) : Combination α := p.fold .operand .pair id

private theorem operands_fold (p : Chain α) {context : Combination α → Combination α}
    (before : List α) (h : ∀ t, (context t).operands = before ++ t.operands) :
    (p.fold .operand .pair context).operands = before ++ p.atoms := by
  induction p generalizing context before with
  | single a => exact h _
  | link a k r ih =>
    have hstep (t : Combination α) :
        (Combination.pair k (context (.operand a)) t).operands = before ++ [a] ++ t.operands := by
      rw [Combination.operands, h, Combination.operands]
    have hr := ih (before ++ [a]) hstep
    rwa [List.append_assoc] at hr
  | group a k r ih => exact (h _).trans (congrArg _ (ih [a] fun t => rfl))

private theorem toDocument_fold (p : Chain Clause) {context : Json → Json}
    {context' : Combination Clause → Combination Clause}
    (h : ∀ t, (context' t).toDocument = context t.toDocument) :
    (p.fold .operand .pair context').toDocument = p.toDocument context := by
  induction p generalizing context context' with
  | single c => exact h _
  | link c k r ih => exact ih fun t => congrArg (Document.pair k · t.toDocument) (h (.operand c))
  | group c k r ih => exact (h _).trans (congrArg context (ih fun t => rfl))

private theorem operands_combination (p : Chain α) : p.combination.operands = p.atoms :=
  p.operands_fold [] fun _ => rfl

private theorem toDocument_combination (p : Chain Clause) :
    p.combination.toDocument = p.toDocument id :=
  p.toDocument_fold fun _ => rfl

end Chain

namespace Filter

private theorem legible_of_mem_operands {text : Text} {f : Filter} (h : read text = .ok f)
    {p : Chain Clause} (hp : f.terms = p.terms) {c : Clause} (hc : c ∈ p.combination.operands) :
    c.Legible := by
  rw [p.operands_combination] at hc
  exact legible_of_mem_clauses h (clauses_eq hp ▸ hc)

/-- Two filters that were read have the same document just when the same clauses are combined in the
same pairs, where numbers may be spelled differently. This holds for any sense in which two numbers
of a document may be the same. No clause at all is taken for a combination, nor one with a literal
for a comparison of two fields, whatever its field and its literal are. -/
theorem toDocument_iff_matches {s t : Text} {f g : Filter} (hf : read s = .ok f)
    (hg : read t = .ok g) :
    (∃ p q : Chain Clause, f.terms = p.terms ∧ g.terms = q.terms ∧
      (f.toDocument = g.toDocument ↔ p.combination.Matches (Clause.Alike Eq) q.combination) ∧
      ∀ same, Json.Alike same f.toDocument g.toDocument ↔
        p.combination.Matches (Clause.Alike same) q.combination) ∧
    ∀ (c : Clause) (same : JsonNumber → JsonNumber → Prop),
      (∀ name docs, ¬ Json.Alike same c.toDocument (.single name (.array docs))) ∧
      (c.operand.asField = none → ∀ left op right,
        ¬ Json.Alike same c.toDocument (Document.fieldComparison left op right)) := by
  obtain ⟨p, hp⟩ := exists_chain_of_read hf
  obtain ⟨q, hq⟩ := exists_chain_of_read hg
  have hpterms : f.terms = p.terms := hp ▸ rfl
  have hqterms : g.terms = q.terms := hq ▸ rfl
  have halike (same : JsonNumber → JsonNumber → Prop) :
      Json.Alike same f.toDocument g.toDocument ↔
        p.combination.Matches (Clause.Alike same) q.combination := by
    rw [toDocument_eq hpterms, toDocument_eq hqterms, ← p.toDocument_combination,
      ← q.toDocument_combination]
    exact Combination.alike_toDocument_iff (fun _ => legible_of_mem_operands hf hpterms)
      (fun _ => legible_of_mem_operands hg hqterms)
  refine ⟨⟨p, q, hpterms, hqterms, ?_, halike⟩, fun c same => ⟨fun name docs => ?_,
    Clause.not_alike_fieldComparison⟩⟩
  · rw [← Json.alike_eq_iff]
    exact halike Eq
  · exact (c.not_alike_combination name docs).1

/-- A group of the whole changes nothing, nor does a sign or a zero in front of a number. -/
theorem combination_of_respelledNumbers :
    ∃ f g, read "($and eq 1 and b lt +2)".toList = .ok f ∧
      read "$and eq 01 and b lt 2".toList = .ok g ∧
      f.terms ≠ g.terms ∧ ∃ p q : Chain Clause, f.terms = p.terms ∧ g.terms = q.terms ∧
        p.combination.Matches (Clause.Alike Eq) q.combination := by
  have hf : read "($and eq 1 and b lt +2)".toList = .ok ⟨some "($and eq 1 and b lt +2)".toList,
      [.openParen, .clause ⟨"$and".toList, .eq, .number ['1']⟩, .connective .and,
        .clause ⟨['b'], .lt, .number ['+', '2']⟩, .closeParen], []⟩ :=
    eq_ok_of_toOption (by decide +kernel)
  have hg : read "$and eq 01 and b lt 2".toList = .ok ⟨some "$and eq 01 and b lt 2".toList,
      [.clause ⟨"$and".toList, .eq, .number ['0', '1']⟩, .connective .and,
        .clause ⟨['b'], .lt, .number ['2']⟩], []⟩ :=
    eq_ok_of_toOption (by decide +kernel)
  obtain ⟨⟨p, q, hp, hq, hiff, -⟩, -⟩ := toDocument_iff_matches hf hg
  refine ⟨_, _, hf, hg, nofun, p, q, hp, hq, hiff.mp ?_⟩
  -- unfolded first, so that the texts the two were read from are not compared
  unfold toDocument
  rfl

end Filter
end FilterLang
