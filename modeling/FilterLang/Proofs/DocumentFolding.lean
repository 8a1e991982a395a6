import FilterLang.Proofs.DocumentReading
import FilterLang.Proofs.Editing
import Mathlib.Data.List.SplitBy

/-!
The document of any filter from its tree. The operands are the clauses and the outermost groups; they
are cut apart where no connective stands between two of them, and each piece is combined from the
left. The stack of levels holds these pieces all the time, so nothing is lost or combined twice.
-/
namespace FilterLang

namespace Document

structure Placed where
  gap : List Connective
  doc : Json
  deriving Repr

/-- The operands, cut where no connective stands between two of them. -/
def pieces (ops : List Placed) : List (List Placed) := ops.splitBy fun _ op => !op.gap.isEmpty

/-- Combines what stands before an operand with it, by the last connective between them. -/
def join (before : Json) (op : Placed) : Json :=
  match op.gap.getLast? with
  | some k => pair k before op.doc
  | none => op.doc -- not within a piece

/-- The document of a piece. The connectives before its first operand have no effect. -/
def ofPiece : List Placed → Json
  | [] => .array []
  | op :: ops => ops.foldl join op.doc

def collect : List Json → Json
  | [doc] => doc
  | docs => .array docs

def ofOperands (ops : List Placed) : Json := collect ((pieces ops).map ofPiece)

/-- The documents from which a document was combined, from left to right. -/
def leaves : Json → List Json
  | .object [(name, .array [a, b])] =>
    if name = Connective.and.documentKey ∨ name = Connective.or.documentKey then leaves a ++ leaves b
    else [.object [(name, .array [a, b])]]
  | doc => [doc]

end Document

namespace Nest
open Document

/-- The operands from the first to the last, if connectives stand before the first already. -/
def operands : Nest → List Connective → List Placed
  | done, _ => []
  | clause c rest, gap => ⟨gap, c.toDocument⟩ :: rest.operands []
  | connective k rest, gap => rest.operands (gap ++ [k])
  | group inside rest, gap => ⟨gap, ofOperands (inside.operands [])⟩ :: rest.operands []

def documents (n : Nest) : List Json := (pieces (n.operands [])).map ofPiece

def toDocument (n : Nest) : Json := ofOperands (n.operands [])

end Nest

namespace Document

private theorem pieces_append_of_gap_nil (ops : List Placed) (doc : Json) :
    pieces (ops ++ [⟨[], doc⟩]) = pieces ops ++ [[⟨[], doc⟩]] :=
  List.splitBy_append_cons [] fun _ _ => rfl

private theorem exists_pieces_append {ops : List Placed} (hops : ops ≠ []) {gap : List Connective}
    (hgap : gap ≠ []) (doc : Json) :
    ∃ before piece, piece ≠ [] ∧ pieces ops = before ++ [piece] ∧
      pieces (ops ++ [⟨gap, doc⟩]) = before ++ [piece ++ [⟨gap, doc⟩]] := by
  obtain hnil | ⟨before, piece, hpieces⟩ := List.eq_nil_or_concat' (pieces ops)
  · exact absurd (List.splitBy_eq_nil.mp hnil) hops
  obtain ⟨hflat, hne, hchain, hbreak⟩ := List.splitBy_eq_iff.mp hpieces
  have hpiece : piece ≠ [] := by
    rintro rfl
    exact hne (by simp)
  refine ⟨before, piece, hpiece, hpieces, List.splitBy_eq_iff.mpr ⟨?_, ?_, ?_, ?_⟩⟩
  · rw [hflat]
    simp
  · intro h
    have hb : [] ∈ before := by simpa using h
    exact hne (List.mem_append_left _ hb)
  · intro m hm
    rcases List.mem_append.mp hm with hm | hm
    · exact hchain m (List.mem_append_left _ hm)
    · obtain rfl := List.mem_singleton.mp hm
      refine List.isChain_append.mpr ⟨hchain piece (by simp), List.isChain_singleton _, ?_⟩
      intro x _ y hy
      obtain rfl : ⟨gap, doc⟩ = y := Option.some.inj hy
      simpa using hgap
  · obtain ⟨hbefore, -, hlast⟩ := List.isChain_append.mp hbreak
    refine List.isChain_append.mpr ⟨hbefore, List.isChain_singleton _, ?_⟩
    intro x hx y hy
    obtain ⟨hx', _, hr⟩ := hlast x hx piece rfl
    obtain rfl : piece ++ [Placed.mk gap doc] = y := Option.some.inj hy
    exact ⟨hx', by simp, by rwa [List.head_append_of_ne_nil hpiece]⟩

private theorem pieces_singleton (op : Placed) : pieces [op] = [[op]] :=
  List.splitBy_of_isChain (List.cons_ne_nil _ _) (List.isChain_singleton op)

private theorem leaves_pair (k : Connective) (a b : Json) :
    leaves (pair k a b) = leaves a ++ leaves b := by
  cases k <;> simp [pair, Json.single, leaves]

private theorem leaves_clause (c : Clause) : leaves c.toDocument = [c.toDocument] := by
  unfold leaves
  split
  · next name a b h => exact absurd h (toDocument_ne_combination c name [a, b])
  · rfl

private theorem ofPiece_append {piece : List Placed} (h : piece ≠ []) (op : Placed) :
    ofPiece (piece ++ [op]) = join (ofPiece piece) op := by
  obtain ⟨first, rest, rfl⟩ := List.exists_cons_of_ne_nil h
  simp [ofPiece]

private theorem join_of_getLast? {gap : List Connective} {k : Connective}
    (h : gap.getLast? = some k) (before doc : Json) :
    join before ⟨gap, doc⟩ = pair k before doc := by
  rw [join, h]

private theorem leaves_ofPiece {piece : List Placed} (h : piece ≠ [])
    (hjoined : piece.IsChain fun _ op => (!op.gap.isEmpty) = true) :
    leaves (ofPiece piece) = piece.flatMap fun op => leaves op.doc := by
  induction piece using List.reverseRecOn with
  | nil => exact absurd rfl h
  | append_singleton piece op ih =>
    by_cases hp : piece = []
    · subst hp
      simp [ofPiece]
    obtain ⟨hpiece, -, hlast⟩ := List.isChain_append.mp hjoined
    obtain ⟨gap, doc⟩ := op
    have hgap : gap ≠ [] := by
      simpa using hlast _ (List.getLast_mem_getLast? hp) _ rfl
    have hk := List.getLast?_eq_getLast_of_ne_nil hgap
    rw [ofPiece_append hp, join_of_getLast? hk, leaves_pair, ih hp hpiece]
    simp

private theorem flatMap_leaves_pieces (ops : List Placed) :
    ((pieces ops).map ofPiece).flatMap leaves = ops.flatMap fun op => leaves op.doc := by
  have h : ∀ piece ∈ pieces ops,
      leaves (ofPiece piece) = piece.flatMap fun op => leaves op.doc := fun piece hp =>
    leaves_ofPiece (List.ne_nil_of_mem_splitBy hp) (List.isChain_of_mem_splitBy hp)
  have hflat : (pieces ops).flatten = ops := List.flatten_splitBy _ ops
  calc ((pieces ops).map ofPiece).flatMap leaves
      = (pieces ops).flatMap fun piece => piece.flatMap fun op => leaves op.doc := by
        rw [List.flatMap_map, List.flatMap_congr h]
    _ = (pieces ops).flatten.flatMap fun op => leaves op.doc := by
        rw [← List.flatMap_id, List.flatMap_assoc]
        rfl
    _ = ops.flatMap fun op => leaves op.doc := by rw [hflat]

end Document

namespace Level
open Document

/-- A level that has met operands, and connectives behind the last of them. -/
def of (ops : List Placed) (gap : List Connective) : Level :=
  ⟨((pieces ops).map ofPiece).reverse, gap.getLast?⟩

private theorem push_of (ops : List Placed) (gap : List Connective) (doc : Json) :
    (of ops gap).push doc = of (ops ++ [⟨gap, doc⟩]) [] := by
  by_cases hops : ops = []
  · subst hops
    rw [of, of, List.nil_append, pieces_singleton]
    cases hg : gap.getLast? <;> rfl
  by_cases hgap : gap = []
  · subst hgap
    rw [of, of, pieces_append_of_gap_nil]
    simp [push, ofPiece]
  obtain ⟨before, piece, hpiece, hold, hnew⟩ := exists_pieces_append hops hgap doc
  have hk := List.getLast?_eq_getLast_of_ne_nil hgap
  rw [of, of, hold, hnew, hk]
  simp [push, ofPiece_append hpiece, join_of_getLast? hk]

private theorem result_of (ops : List Placed) (gap : List Connective) :
    (of ops gap).result = ofOperands ops := by
  rw [of, ofOperands]
  generalize (pieces ops).map ofPiece = docs
  unfold result
  split
  · next doc h =>
    obtain rfl : docs = [doc] := by simpa using congrArg List.reverse h
    rfl
  · next h =>
    unfold collect
    split
    · exact absurd rfl (h _)
    · rw [List.reverse_reverse]

end Level

namespace Levels
open Document

/-- Running over a tree adds its operands to the level it stands on. -/
theorem exists_foldl_step_terms (n : Nest) (ops : List Placed) (gap : List Connective)
    (outer : List Level) : ∃ gap', n.terms.foldl step ⟨.of ops gap, outer⟩ =
      ⟨.of (ops ++ n.operands gap) gap', outer⟩ := by
  induction n generalizing ops gap outer with
  | done => exact ⟨gap, by simp [Nest.terms, Nest.operands]⟩
  | clause c rest ih =>
    obtain ⟨gap', h⟩ := ih (ops ++ [⟨gap, c.toDocument⟩]) [] outer
    refine ⟨gap', ?_⟩
    rw [Nest.terms, List.foldl_cons, step, Level.push_of, h]
    simp [Nest.operands]
  | connective k rest ih =>
    obtain ⟨gap', h⟩ := ih ops (gap ++ [k]) outer
    refine ⟨gap', ?_⟩
    rw [Nest.terms, List.foldl_cons, Nest.operands, ← h]
    simp [step, Level.of]
  | group inside rest ihi ihr =>
    obtain ⟨inner, hinside⟩ := ihi [] [] (.of ops gap :: outer)
    obtain ⟨gap', h⟩ := ihr (ops ++ [⟨gap, ofOperands (inside.operands [])⟩]) [] outer
    refine ⟨gap', ?_⟩
    rw [List.nil_append] at hinside
    rw [Nest.terms, List.foldl_cons, List.foldl_append, List.foldl_cons]
    change List.foldl step (step (List.foldl step ⟨.of [] [], .of ops gap :: outer⟩ inside.terms)
      .closeParen) rest.terms = _
    rw [hinside, step, close, Level.result_of, Level.push_of, h]
    simp [Nest.operands]

end Levels

private theorem Filter.toDocument_of_nest {f : Filter} {n : Nest} (h : n.terms = f.terms) :
    f.toDocument = n.toDocument := by
  obtain ⟨gap, hrun⟩ := Levels.exists_foldl_step_terms n [] [] []
  rw [toDocument, ← h]
  change (let levels := List.foldl Levels.step ⟨.of [] [], []⟩ n.terms
    Levels.finish levels.inmost levels.outer) = _
  rw [hrun, List.nil_append]
  exact Level.result_of _ _

namespace Chain

/-- The leaves of the document of a run are the documents of its clauses. -/
theorem leaves_toDocument (p : Chain Clause) (context : Json → Json) (before : List Json)
    (h : ∀ doc, Document.leaves (context doc) = before ++ Document.leaves doc) :
    Document.leaves (p.toDocument context) = before ++ p.atoms.map Clause.toDocument := by
  induction p generalizing context before with
  | single c => exact (h _).trans (congrArg _ (Document.leaves_clause c))
  | link c k r ih =>
    have hr := ih (Document.pair k (context c.toDocument)) (before ++ [c.toDocument]) fun doc => by
      rw [Document.leaves_pair, h, Document.leaves_clause]
    rw [List.append_assoc] at hr
    exact hr
  | group c k r ih =>
    have hr := ih (Document.pair k c.toDocument) [c.toDocument] fun doc => by
      rw [Document.leaves_pair, Document.leaves_clause]
    exact (h _).trans (congrArg _ hr)

end Chain

namespace Nest
open Document

/-- A tree with the terms of a run has the document of the run. -/
theorem toDocument_eq {n : Nest} {p : Chain Clause} (h : n.terms = p.terms) :
    n.toDocument = p.toDocument id := by
  have hn := Filter.toDocument_of_nest (f := ⟨none, p.terms, []⟩) h
  rw [← hn]
  exact Filter.toDocument_eq rfl

private theorem flatMap_leaves_operands {n : Nest}
    (h : ∀ g ∈ n.groups, ∃ p : Chain Clause, g.terms = p.terms) (gap : List Connective) :
    ((n.operands gap).flatMap fun op => leaves op.doc) =
      (n.terms.filterMap Term.asClause).map Clause.toDocument := by
  induction n generalizing gap with
  | done => rfl
  | clause c rest ih =>
    simp [operands, terms, Term.asClause, leaves_clause, ih h]
  | connective k rest ih =>
    simp [operands, terms, Term.asClause, List.filterMap_cons, ih h]
  | group inside rest _ ihr =>
    obtain ⟨p, hp⟩ := h inside List.mem_cons_self
    have hinside : leaves inside.toDocument = p.atoms.map Clause.toDocument := by
      rw [toDocument_eq hp]
      exact p.leaves_toDocument id [] fun doc => rfl
    have hrest := ihr (fun g hg => h g (List.mem_cons_of_mem _ hg)) []
    rw [operands, List.flatMap_cons, hrest]
    change leaves inside.toDocument ++ _ = _
    simp [hinside, terms, Term.asClause, List.filterMap_cons, hp, p.clauses_terms]

end Nest

private theorem Clause.toDocument_ne_array (c : Clause) (docs : List Json) :
    c.toDocument ≠ .array docs := by
  obtain ⟨field, op, operand⟩ := c
  cases operand <;> cases op <;> exact Json.noConfusion

/-- However a filter was put together, its terms are those of one tree and its document is that of
the tree. The leaves of the pieces are the documents of the clauses, each once and in their order, so
a list of documents stands at the top or nowhere. -/
theorem Workbench.toDocument_run (edits : List (Text × Edit)) (slot : Text) :
    let f := Workbench.empty.run edits slot
    ∃ n : Nest, (∀ m : Nest, m.terms = f.terms ↔ m = n) ∧ f.toDocument = n.toDocument ∧
      n.documents.flatMap Document.leaves = f.clauses.map Clause.toDocument ∧
      ∀ doc ∈ n.documents, ∀ docs, Json.array docs ∉ Document.leaves doc := by
  intro f
  have hcomposed : Term.Composed f.terms := composed_run (fun _ => Term.composed_nil) edits slot
  obtain ⟨n, hn, hgroups⟩ := hcomposed
  have hleaves : n.documents.flatMap Document.leaves = f.clauses.map Clause.toDocument := by
    rw [Nest.documents, Document.flatMap_leaves_pieces, Filter.clauses, ← hn]
    refine Nest.flatMap_leaves_operands (fun g hg => ?_) []
    obtain ⟨c, k, r, hg⟩ := hgroups g hg
    exact ⟨_, hg⟩
  refine ⟨n, fun m => ⟨fun hm => Nest.terms_injective (hm.trans hn.symm), ?_⟩,
    Filter.toDocument_of_nest hn, hleaves, ?_⟩
  · rintro rfl
    exact hn
  · intro doc hdoc docs hmem
    have hleaf : Json.array docs ∈ n.documents.flatMap Document.leaves :=
      List.mem_flatMap.mpr ⟨doc, hdoc, hmem⟩
    rw [hleaves] at hleaf
    obtain ⟨c, -, hc⟩ := List.mem_map.mp hleaf
    exact c.toDocument_ne_array docs hc

end FilterLang
