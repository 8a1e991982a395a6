import FilterLang.Document
import FilterLang.Proofs.Truth

/-!
What a document says: `$and` and `$or` stand for conjunction and disjunction, and any other document
is that of a clause. The document of a run is true just when the run is, its operands combined from
the left and a group by itself first.
-/
namespace FilterLang

namespace Document

mutual

/-- Whether a document has a truth value if the clauses in it, in their order, have the given
ones. -/
inductive Denotes : Json → List Valued → Bool → Prop where
  | clause (a : Valued) : Denotes a.1.toDocument [a] a.2
  | combination (k : Connective) {docs : List Json} {as : List Valued} {bs : List Bool}
      (h : DenoteAll docs as bs) : Denotes (.single k.documentKey (.array docs)) as (k.ofAll bs)

inductive DenoteAll : List Json → List Valued → List Bool → Prop where
  | nil : DenoteAll [] [] []
  | cons {doc : Json} {docs : List Json} {as bs : List Valued} {b : Bool} {vs : List Bool}
      (h : Denotes doc as b) (hs : DenoteAll docs bs vs) :
      DenoteAll (doc :: docs) (as ++ bs) (b :: vs)

end

theorem documentKey_injective {j k : Connective} (h : j.documentKey = k.documentKey) : j = k := by
  cases j <;> cases k <;> first | rfl | exact absurd h (by decide)

/-- No clause has the document of a combination: its value is a scalar or an object. -/
theorem toDocument_ne_combination (c : Clause) (name : Text) (docs : List Json) :
    c.toDocument ≠ .single name (.array docs) := by
  obtain ⟨field, op, operand⟩ := c
  intro h
  cases operand with
  | text s => cases op <;> simp [Clause.toDocument, comparison, Json.single] at h
  | number s =>
    have hn : number s ≠ .array docs := by
      unfold number
      split
      · exact Json.noConfusion
      · split <;> exact Json.noConfusion
    cases op <;> simp [Clause.toDocument, comparison, Json.single, hn] at h
  | field name => simp [Clause.toDocument, fieldComparison, Json.single] at h

mutual

/-- A document takes the same clauses off any list of them, and has one value. -/
theorem Denotes.unique {doc : Json} {as as' rest rest' : List Valued} {b b' : Bool}
    (h : Denotes doc as b) (h' : Denotes doc as' b') (hr : as ++ rest = as' ++ rest') :
    as = as' ∧ b = b' ∧ rest = rest' := by
  cases h with
  | clause a =>
    generalize hd : a.1.toDocument = doc at h'
    cases h' with
    | clause a' =>
      obtain ⟨rfl, rfl⟩ := List.cons.inj hr
      exact ⟨rfl, rfl, rfl⟩
    | combination k hs => exact absurd hd (toDocument_ne_combination _ _ _)
  | @combination k docs as bs hs =>
    generalize hd : Json.single k.documentKey (.array docs) = doc at h'
    cases h' with
    | clause a' => exact absurd hd.symm (toDocument_ne_combination _ _ _)
    | @combination k' docs' as' bs' hs' =>
      simp only [Json.single, Json.object.injEq, List.cons.injEq, Prod.mk.injEq,
        Json.array.injEq, and_true] at hd
      obtain ⟨hk, rfl⟩ := hd
      obtain rfl := documentKey_injective hk
      obtain ⟨rfl, rfl, rfl⟩ := hs.unique hs' hr
      exact ⟨rfl, rfl, rfl⟩

theorem DenoteAll.unique {docs : List Json} {as as' rest rest' : List Valued} {bs bs' : List Bool}
    (h : DenoteAll docs as bs) (h' : DenoteAll docs as' bs') (hr : as ++ rest = as' ++ rest') :
    as = as' ∧ bs = bs' ∧ rest = rest' := by
  cases h with
  | nil =>
    cases h'
    exact ⟨rfl, rfl, hr⟩
  | cons hd hs =>
    cases h' with
    | cons hd' hs' =>
      rw [List.append_assoc, List.append_assoc] at hr
      obtain ⟨rfl, rfl, hr⟩ := hd.unique hd' hr
      obtain ⟨rfl, rfl, rfl⟩ := hs.unique hs' hr
      exact ⟨rfl, rfl, rfl⟩

end

private theorem denotes_pair (k : Connective) {doc doc' : Json} {as as' : List Valued} {b b' : Bool}
    (h : Denotes doc as b) (h' : Denotes doc' as' b') :
    Denotes (pair k doc doc') (as ++ as') (k.combine b b') := by
  have hp := Denotes.combination k (.cons h (.cons h' .nil))
  rwa [List.append_nil, Connective.ofAll_cons, Connective.ofAll_singleton] at hp

end Document

namespace Chain

/-- The document of a run, given what becomes of that of its first operand. -/
def toDocument (context : Json → Json) (p : Chain Clause) : Json :=
  p.fold Clause.toDocument Document.pair context

private theorem denotes_toDocument (q : Chain Valued) {context : Json → Json} {truth : Bool → Bool}
    (before : List Valued)
    (h : ∀ {doc as b}, Document.Denotes doc as b →
      Document.Denotes (context doc) (before ++ as) (truth b)) :
    Document.Denotes ((q.map Prod.fst).toDocument context) (before ++ q.atoms) (q.truth truth) := by
  induction q generalizing context truth before with
  | single a => exact h (.clause a)
  | link a k r ih =>
    have hr := ih (before ++ [a]) fun hd => Document.denotes_pair k (h (.clause a)) hd
    rwa [List.append_assoc] at hr
  | group a k r ih =>
    exact h (ih [a] fun hd => Document.denotes_pair k (.clause a) hd)

end Chain

namespace Levels

/-- Running over the terms of a run leaves one result on the level it stands on. The context is what
that level makes of the next document. -/
theorem foldl_step_terms (p : Chain Clause) {level : Level} {context : Json → Json}
    (outer : List Level) (h : ∀ doc, level.push doc = ⟨[context doc], none⟩) :
    p.terms.foldl step ⟨level, outer⟩ = ⟨⟨[p.toDocument context], none⟩, outer⟩ := by
  induction p generalizing level context outer with
  | single c => simp [Chain.terms, step, h, Chain.toDocument, Chain.fold]
  | link c k r ih =>
    simp only [Chain.terms, List.foldl_cons, step, h]
    exact ih outer fun doc => rfl
  | group c k r ih =>
    simp only [Chain.terms, List.cons_append, List.foldl_cons, List.foldl_append, List.foldl_nil,
      step]
    have hr : r.terms.foldl step ⟨⟨[c.toDocument], some k⟩, level :: outer⟩ =
        ⟨⟨[r.toDocument (Document.pair k c.toDocument)], none⟩, level :: outer⟩ :=
      ih (level :: outer) fun doc => rfl
    exact (congrArg close hr).trans (congrArg (Levels.mk · outer) (h _))

end Levels

/-- The document of a filter that holds a run is the document of the run. -/
theorem Filter.toDocument_eq {f : Filter} {p : Chain Clause} (h : f.terms = p.terms) :
    f.toDocument = p.toDocument id := by
  have hs : p.terms.foldl Levels.step Levels.start = ⟨⟨[p.toDocument id], none⟩, []⟩ :=
    Levels.foldl_step_terms p [] fun doc => rfl
  rw [toDocument, h, hs]
  rfl

/-- The document of a run has exactly one truth value, that of the run. -/
theorem Document.denotes_iff (q : Chain Valued) (b : Bool) :
    Denotes ((q.map Prod.fst).toDocument id) q.atoms b ↔ b = q.truth id := by
  have hq : Denotes ((q.map Prod.fst).toDocument id) q.atoms (q.truth id) :=
    q.denotes_toDocument [] fun hd => hd
  constructor
  · intro h
    exact (h.unique hq (rfl : q.atoms ++ [] = q.atoms ++ [])).2.1
  · rintro rfl
    exact hq

end FilterLang
