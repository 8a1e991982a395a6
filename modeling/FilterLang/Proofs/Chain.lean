import FilterLang.Proofs.ClauseReading
import FilterLang.Proofs.Occurrence

/-!
How text comes to its terms, and the shape of every filter that was read: a clause, then perhaps a
connective and the same again, the whole run within parentheses or not. Nothing but closing
parentheses ever follows a group.
-/
namespace FilterLang

theorem eq_ok_of_toOption {ε α : Type} {x : Except ε α} {a : α} (h : x.toOption = some a) :
    x = .ok a := by
  cases x with
  | error e => cases h
  | ok b => exact congrArg _ (Option.some.inj h)

theorem Term.mem_filterMap_asClause {ts : List Term} {c : Clause} :
    c ∈ ts.filterMap asClause ↔ clause c ∈ ts := by
  constructor
  · intro h
    obtain ⟨t, ht, hc⟩ := List.mem_filterMap.mp h
    cases t with
    | clause d =>
      obtain rfl : d = c := Option.some.inj hc
      exact ht
    | connective k => cases hc
    | openParen => cases hc
    | closeParen => cases hc
  · intro h
    exact List.mem_filterMap.mpr ⟨clause c, h, rfl⟩

/-- A run of operands. Each one but the last is single, and the last may be a group. -/
inductive Chain (α : Type) where
  | single (a : α)
  | link (a : α) (k : Connective) (rest : Chain α)
  | group (a : α) (k : Connective) (rest : Chain α)
  deriving DecidableEq, Repr

namespace Chain
variable {α β γ : Type}

def atoms : Chain α → List α
  | single a => [a]
  | link a _ r | group a _ r => a :: r.atoms

def connectives : Chain α → List Connective
  | single _ => []
  | link _ k r | group _ k r => k :: r.connectives

def map (f : α → β) : Chain α → Chain β
  | single a => single (f a)
  | link a k r => link (f a) k (r.map f)
  | group a k r => group (f a) k (r.map f)

def ungroup : Chain α → Chain α
  | single a => single a
  | link a k r | group a k r => link a k r.ungroup

def terms : Chain Clause → List Term
  | single c => [.clause c]
  | link c k r => .clause c :: .connective k :: r.terms
  | group c k r => .openParen :: .clause c :: .connective k :: r.terms ++ [.closeParen]

/-- Combines the operands in pairs from the left, a group by itself first. `context` is what becomes
of the first operand. -/
def fold (leaf : α → β) (pair : Connective → β → β → β) (context : β → β) : Chain α → β
  | single a => context (leaf a)
  | link a k r => r.fold leaf pair (pair k (context (leaf a)))
  | group a k r => context (r.fold leaf pair (pair k (leaf a)))

@[simp] theorem atoms_map (f : α → β) (p : Chain α) : (p.map f).atoms = p.atoms.map f := by
  induction p <;> simp_all [map, atoms]

@[simp] theorem connectives_map (f : α → β) (p : Chain α) :
    (p.map f).connectives = p.connectives := by
  induction p <;> simp_all [map, connectives]

@[simp] theorem map_map (f : α → β) (g : β → γ) (p : Chain α) :
    (p.map f).map g = p.map (g ∘ f) := by
  induction p <;> simp_all [map]

@[simp] theorem map_id (p : Chain α) : p.map id = p := by
  induction p <;> simp_all [map]

@[simp] theorem atoms_ungroup (p : Chain α) : p.ungroup.atoms = p.atoms := by
  induction p <;> simp_all [ungroup, atoms]

@[simp] theorem connectives_ungroup (p : Chain α) : p.ungroup.connectives = p.connectives := by
  induction p <;> simp_all [ungroup, connectives]

theorem ungroup_map (f : α → β) (p : Chain α) : (p.map f).ungroup = p.ungroup.map f := by
  induction p <;> simp_all [ungroup, map]

theorem fold_map (f : α → β) (leaf : β → γ) (pair : Connective → γ → γ → γ) (context : γ → γ)
    (p : Chain α) : (p.map f).fold leaf pair context = p.fold (leaf ∘ f) pair context := by
  induction p generalizing context <;> simp_all [map, fold]

theorem clauses_terms (p : Chain Clause) : p.terms.filterMap Term.asClause = p.atoms := by
  induction p <;> simp_all [terms, atoms, Term.asClause, List.filterMap_cons]

theorem connectives_terms (p : Chain Clause) :
    p.terms.filterMap Term.asConnective = p.connectives := by
  induction p <;> simp_all [terms, connectives, Term.asConnective, List.filterMap_cons]

/-- Any atoms in place of those of a run, matched one by one, make a run of the same shape. -/
theorem exists_map_eq {f : β → α} {p : Chain α} {bs : List β} (h : bs.map f = p.atoms) :
    ∃ q : Chain β, q.map f = p ∧ q.atoms = bs := by
  induction p generalizing bs with
  | single a =>
    obtain ⟨b, rfl, rfl⟩ := List.map_eq_singleton_iff.mp h
    exact ⟨single b, rfl, rfl⟩
  | link a k r ih =>
    obtain ⟨b, bs, rfl, rfl, hr⟩ := List.map_eq_cons_iff.mp h
    obtain ⟨q, rfl, rfl⟩ := ih hr
    exact ⟨link b k q, rfl, rfl⟩
  | group a k r ih =>
    obtain ⟨b, bs, rfl, rfl, hr⟩ := List.map_eq_cons_iff.mp h
    obtain ⟨q, rfl, rfl⟩ := ih hr
    exact ⟨group b k q, rfl, rfl⟩

end Chain

private theorem Clause.read_nil : ∃ e, Clause.read [] = .error e := by
  have hall : Lexeme.all (Text.trim []) = [] := Lexeme.all_nil
  unfold Clause.read Clause.readTrimmed
  dsimp only
  rw [hall]
  exact ⟨_, rfl⟩

namespace Filter

theorem clauses_eq {f : Filter} {p : Chain Clause} (h : f.terms = p.terms) :
    f.clauses = p.atoms := by
  rw [clauses, h, p.clauses_terms]

theorem connectives_eq {f : Filter} {p : Chain Clause} (h : f.terms = p.terms) :
    f.connectives = p.connectives := by
  rw [connectives, h, p.connectives_terms]

theorem body_of_insideParens? {text inside : Text}
    (h : Text.insideParens? (Text.trim text) = some inside) :
    body text = (Text.trim inside, true) := by
  unfold body
  dsimp only
  rw [h]

theorem body_of_trim {text s : Text} (ht : Text.trim text = s) (h : Text.insideParens? s = none) :
    body text = (s, false) := by
  unfold body
  dsimp only
  rw [ht, h]

theorem readTerms_of_find?_none {text : Text} (hn : Split.find? (body text).1 = none)
    (he : (body text).1 ≠ []) :
    readTerms text = (Clause.read (body text).1).map fun c => [.clause c] := by
  rw [readTerms, if_neg (by simpa using he)]
  split
  · rfl
  · next p hp => rw [hn] at hp; cases hp

theorem readTerms_of_find?_some {text : Text} {p : Split}
    (hp : Split.find? (body text).1 = some p) :
    readTerms text = do
      let left ← readTerms p.left
      let right ← readTerms p.right
      return grouped (body text).2 (left ++ .connective p.connective :: right) := by
  have he : (body text).1 ≠ [] := by
    intro he
    rw [he] at hp
    cases hp
  rw [readTerms, if_neg (by simpa using he)]
  split
  · next hn => rw [hn] at hp; cases hp
  · next q hq =>
    rw [hp] at hq
    cases hq
    rfl

/-- Reading depends on no more than the body of the text. -/
theorem readTerms_congr {s t : Text} (h : body s = body t) : readTerms s = readTerms t := by
  by_cases he : (body t).1 = []
  · rw [readTerms, readTerms, if_pos (by simp [h, he]), if_pos (by simp [he])]
  · cases hp : Split.find? (body t).1 with
    | none =>
      rw [readTerms_of_find?_none hp he, readTerms_of_find?_none (h ▸ hp) (h ▸ he), h]
    | some p => rw [readTerms_of_find?_some hp, readTerms_of_find?_some (h ▸ hp), h]

theorem readTerms_of_trim {s t : Text} (h : Text.trim s = Text.trim t) :
    readTerms s = readTerms t := by
  apply readTerms_congr
  rw [body, body, h]

/-- How a text comes to its terms: as a clause, or as a clause in front of a connective and more. -/
inductive Derives : Text → List Term → Prop
  | clause {text : Text} {c : Clause} (hn : Split.find? (body text).1 = none)
    (hc : Clause.read (body text).1 = .ok c) : Derives text [.clause c]
  | split {text : Text} {p : Split} {c : Clause} {right : List Term}
    (hp : Split.find? (body text).1 = some p) (hl : Derives p.left [.clause c])
    (hr : Derives p.right right) :
    Derives text (grouped (body text).2 (.clause c :: .connective p.connective :: right))

/-- The part left of a split holds no connective, so it can only come to a clause. -/
theorem Derives.exists_clause {text : Text} {p : Split} {ts : List Term}
    (hp : Split.find? (body text).1 = some p) (h : Derives p.left ts) : ∃ c, ts = [.clause c] := by
  cases h with
  | clause _ hc => exact ⟨_, rfl⟩
  | split hq _ _ =>
    rw [Split.find?_eq_none_of_isInfix (body_isInfix p.left) (Split.find?_left hp)] at hq
    cases hq

theorem derives_of_readTerms {text : Text} {ts : List Term} (h : readTerms text = .ok ts) :
    Derives text ts := by
  fun_induction readTerms text generalizing ts with
  | case1 text he => cases h
  | case2 text he hn =>
    cases hc : Clause.read (body text).1 with
    | error e => rw [hc] at h; cases h
    | ok c =>
      rw [hc] at h
      cases Except.ok.inj h
      exact .clause hn hc
  | case3 text he p hp ihl ihr =>
    cases hl : readTerms p.left with
    | error e => rw [hl] at h; cases h
    | ok left =>
      cases hr : readTerms p.right with
      | error e => rw [hl, hr] at h; cases h
      | ok right =>
        rw [hl, hr] at h
        cases Except.ok.inj h
        obtain ⟨c, rfl⟩ := (ihl hl).exists_clause hp
        exact .split hp (ihl hl) (ihr hr)

theorem Derives.readTerms_eq {text : Text} {ts : List Term} (h : Derives text ts) :
    readTerms text = .ok ts := by
  induction h with
  | @clause text c hn hc =>
    have hne : (body text).1 ≠ [] := by
      intro hnil
      obtain ⟨e, he⟩ := Clause.read_nil
      rw [hnil, he] at hc
      cases hc
    rw [readTerms_of_find?_none hn hne, hc]
    rfl
  | split hp _ _ ihl ihr =>
    rw [readTerms_of_find?_some hp, ihl, ihr]
    rfl

/-- The parts of a text that is split. -/
theorem Derives.exists_halves {text : Text} {p : Split} {ts : List Term} (h : Derives text ts)
    (hp : Split.find? (body text).1 = some p) :
    ∃ c right, Derives p.left [.clause c] ∧ Derives p.right right ∧
      ts = grouped (body text).2 (.clause c :: .connective p.connective :: right) := by
  cases h with
  | clause hn _ => rw [hn] at hp; cases hp
  | split hq hl hr =>
    cases Option.some.inj (hp.symm.trans hq)
    exact ⟨_, _, hl, hr, rfl⟩

private theorem grouped_injective (parens : Bool) : Function.Injective (grouped parens) := by
  intro ts us h
  cases parens with
  | false => exact h
  | true => exact List.append_cancel_right (List.cons.inj h).2

/-- One clause can only come from the body of the text itself. -/
theorem Derives.read_body {text : Text} {c : Clause} (h : Derives text [.clause c]) :
    Clause.read (body text).1 = .ok c := by
  generalize hts : [Term.clause c] = ts at h
  cases h with
  | clause _ hc =>
    cases hts
    exact hc
  | split _ _ _ => cases hparens : (body text).2 <;> simp [hparens, grouped] at hts

/-- A clause, a connective and more are within parentheses just when those of the text were taken
off, and come from its two parts. -/
theorem Derives.of_grouped {text : Text} {parens : Bool} {c : Clause} {k : Connective}
    {ts : List Term} (h : Derives text (grouped parens (.clause c :: .connective k :: ts))) :
    (body text).2 = parens ∧ ∀ {q : Split}, Split.find? (body text).1 = some q →
      Derives q.left [.clause c] ∧ Derives q.right ts := by
  generalize hus : grouped parens (.clause c :: .connective k :: ts) = us at h
  cases h with
  | clause _ _ => cases parens <;> simp [grouped] at hus
  | split hp hl hr =>
    have hparens : (body text).2 = parens := by
      cases hb : (body text).2 <;> cases parens <;> simp [hb, grouped] at hus ⊢
    rw [hparens] at hus
    have heq := grouped_injective parens hus
    simp only [List.cons.injEq, Term.clause.injEq] at heq
    obtain ⟨rfl, -, rfl⟩ := heq
    refine ⟨hparens, fun hq => ?_⟩
    cases Option.some.inj (hq.symm.trans hp)
    exact ⟨hl, hr⟩

/-- Reading succeeds only with the terms of a run. Only the part right of a split can be more than a
clause. -/
theorem exists_chain_of_derives {text : Text} {ts : List Term} (h : Derives text ts) :
    ∃ p : Chain Clause, p.terms = ts := by
  induction h with
  | clause _ _ => exact ⟨.single _, rfl⟩
  | @split text p c _ _ _ _ _ ih =>
    obtain ⟨r, rfl⟩ := ih
    cases (body text).2 with
    | false => exact ⟨.link c p.connective r, rfl⟩
    | true => exact ⟨.group c p.connective r, rfl⟩

/-- Every clause is read by itself, from text that holds no connective. -/
theorem Derives.exists_read {text : Text} {ts : List Term} (h : Derives text ts) {c : Clause}
    (hc : .clause c ∈ ts) : ∃ s, Split.find? s = none ∧ Clause.read s = .ok c := by
  induction h with
  | @clause text d hn hread =>
    cases List.mem_singleton.mp hc
    exact ⟨_, hn, hread⟩
  | @split text p d right _ _ _ ihl ihr =>
    have hmem : c = d ∨ .clause c ∈ right := by
      cases hb : (body text).2 <;> simpa [hb, grouped] using hc
    rcases hmem with rfl | hc
    · exact ihl List.mem_cons_self
    · exact ihr hc

theorem derives_of_read {text : Text} {f : Filter} (h : read text = .ok f) :
    Derives text f.terms ∧ f = ⟨some text, f.terms, []⟩ := by
  unfold read at h
  cases hr : readTerms text with
  | error e => rw [hr] at h; cases h
  | ok ts =>
    rw [hr] at h
    cases Except.ok.inj h
    exact ⟨derives_of_readTerms hr, rfl⟩

/-- A filter that was read holds the terms of a run, and no raw SQL. -/
theorem exists_chain_of_read {text : Text} {f : Filter} (h : read text = .ok f) :
    ∃ p : Chain Clause, f = ⟨some text, p.terms, []⟩ := by
  obtain ⟨hts, hf⟩ := derives_of_read h
  obtain ⟨p, hp⟩ := exists_chain_of_derives hts
  exact ⟨p, hp ▸ hf⟩

/-- The clauses of a filter that was read are made of tokens. -/
theorem legible_of_mem_clauses {text : Text} {f : Filter} (h : read text = .ok f) {c : Clause}
    (hc : c ∈ f.clauses) : c.Legible := by
  obtain ⟨s, -, hs⟩ := (derives_of_read h).1.exists_read (Term.mem_filterMap_asClause.mp hc)
  exact Clause.legible_of_read hs

end Filter
end FilterLang
