import FilterLang.Proofs.Chain

/-!
The form of the terms of every filter that was read: clauses and connectives in turn, whatever the
parentheses are; one operand more than connectives within each pair of parentheses and outside of
all; a connective in every pair; and nothing but closing parentheses behind a closing one.
-/
namespace FilterLang

namespace Term

def isMarker : Term → Bool
  | openParen | closeParen => true
  | _ => false

def startsOperand : Term → Bool
  | clause _ | openParen => true
  | _ => false

def isConnective : Term → Bool
  | connective _ => true
  | _ => false

/-- Clauses with one connective between any two of them. -/
def Alternates : List Term → Prop
  | [clause _] => True
  | clause _ :: connective _ :: ts => Alternates ts
  | _ => False

/-- How many parentheses are open behind the terms if `d` are open before them. There is no answer
if one is closed that was not opened. -/
def depthBehind : ℕ → List Term → Option ℕ
  | d, [] => some d
  | d, openParen :: ts => depthBehind (d + 1) ts
  | 0, closeParen :: _ => none
  | d + 1, closeParen :: ts => depthBehind d ts
  | d, _ :: ts => depthBehind d ts

def Balanced (ts : List Term) : Prop := depthBehind 0 ts = some 0

/-- The terms that stand in no inner parentheses, `d` of which are open at the start. A group among
them is represented by its opening parenthesis. -/
def surface : ℕ → List Term → List Term
  | _, [] => []
  | 0, openParen :: ts => openParen :: surface 1 ts
  | d + 1, openParen :: ts => surface (d + 2) ts
  | d, closeParen :: ts => surface (d - 1) ts
  | 0, t :: ts => t :: surface 0 ts
  | d + 1, _ :: ts => surface (d + 1) ts

/-- The terms between two parentheses that belong together. -/
structure IsGroup (inner ts : List Term) : Prop where
  balanced : Balanced inner
  delimited : ∃ before behind, ts = before ++ openParen :: (inner ++ closeParen :: behind)

/-- One operand more than connectives, groups being single operands. -/
def HasSurplus (ts : List Term) : Prop :=
  (surface 0 ts).countP startsOperand = (surface 0 ts).countP isConnective + 1

structure WellFormed (ts : List Term) : Prop where
  alternates : Alternates (ts.filter (!isMarker ·))
  balanced : Balanced ts
  surplus : HasSurplus ts
  surplus_group : ∀ inner, IsGroup inner ts → HasSurplus inner
  connective_group : ∀ inner, IsGroup inner ts → ∃ k, connective k ∈ surface 0 inner
  closed_behind : ∀ before t behind, ts = before ++ closeParen :: t :: behind → t = closeParen

theorem depthBehind_append (d : ℕ) (ts us : List Term) :
    depthBehind d (ts ++ us) = (depthBehind d ts).bind (depthBehind · us) := by
  fun_induction depthBehind d ts <;> simp_all [depthBehind]

private theorem depthBehind_add {d e : ℕ} {ts : List Term} (h : depthBehind d ts = some e) (n : ℕ) :
    depthBehind (d + n) ts = some (e + n) := by
  induction ts generalizing d with
  | nil =>
    cases h
    rfl
  | cons t ts ih =>
    cases t with
    | clause c => exact ih h
    | connective k => exact ih h
    | openParen =>
      rw [depthBehind, Nat.add_right_comm]
      exact ih h
    | closeParen =>
      cases d with
      | zero => cases h
      | succ d =>
        rw [Nat.add_right_comm, depthBehind]
        exact ih h

end Term

namespace Chain
open Term

theorem alternates_terms (p : Chain Clause) : Alternates (p.terms.filter (!isMarker ·)) := by
  induction p with
  | single c => trivial
  | link c k r ih => exact ih
  | group c k r ih => simpa [terms, isMarker, Alternates] using ih

theorem depthBehind_terms (p : Chain Clause) (d : ℕ) : depthBehind d p.terms = some d := by
  induction p generalizing d with
  | single c => rfl
  | link c k r ih => exact ih d
  | group c k r ih =>
    have hinside : depthBehind (d + 1) (.clause c :: .connective k :: r.terms) = some (d + 1) :=
      ih (d + 1)
    change depthBehind (d + 1) (_ ++ [closeParen]) = some d
    rw [depthBehind_append, hinside]
    rfl

theorem balanced_terms (p : Chain Clause) : Balanced p.terms := p.depthBehind_terms 0

private theorem surface_terms_append (p : Chain Clause) (d : ℕ) (ts : List Term) :
    surface (d + 1) (p.terms ++ ts) = surface (d + 1) ts := by
  induction p generalizing d ts with
  | single c => rfl
  | link c k r ih => exact ih d ts
  | group c k r ih =>
    change surface (d + 2) (r.terms ++ [closeParen] ++ ts) = surface (d + 1) ts
    rw [List.append_assoc, ih]
    rfl

private theorem surface_group (c : Clause) (k : Connective) (r : Chain Clause) :
    surface 0 (group c k r).terms = [openParen] := by
  change openParen :: surface 1 (r.terms ++ [closeParen]) = [openParen]
  rw [surface_terms_append]
  rfl

private theorem hasSurplus_terms (p : Chain Clause) : HasSurplus p.terms := by
  unfold HasSurplus
  induction p with
  | single c => rfl
  | link c k r ih =>
    change List.countP _ (.clause c :: .connective k :: surface 0 r.terms) =
      List.countP _ (.clause c :: .connective k :: surface 0 r.terms) + 1
    simp [List.countP_cons, startsOperand, isConnective, ih]
  | group c k r ih =>
    rw [surface_group]
    rfl

private theorem exists_terms_eq_append {c : Clause} {k : Connective} {r : Chain Clause}
    {before rest : List Term} {t : Term} (ht : t.isMarker = true)
    (h : (link c k r).terms = before ++ t :: rest) : ∃ b, r.terms = b ++ t :: rest := by
  rcases List.cons_eq_append_iff.mp h with ⟨-, he⟩ | ⟨b, -, hb⟩
  · obtain ⟨rfl, -⟩ := List.cons.inj he
    cases ht
  · rcases List.cons_eq_append_iff.mp hb with ⟨-, he⟩ | ⟨b, -, hr⟩
    · obtain ⟨rfl, -⟩ := List.cons.inj he
      cases ht
    · exact ⟨b, hr⟩

private theorem concat_eq_append_cons {α : Type} {xs before rest : List α} {a x : α}
    (h : xs ++ [a] = before ++ x :: rest) :
    (a = x ∧ xs = before ∧ rest = []) ∨ ∃ init, xs = before ++ x :: init ∧ rest = init ++ [a] := by
  rcases List.eq_nil_or_concat' rest with rfl | ⟨init, last, rfl⟩
  · obtain ⟨rfl, he⟩ := List.append_inj' h rfl
    exact .inl ⟨(List.cons.inj he).1, rfl, rfl⟩
  · rw [← List.cons_append, ← List.append_assoc] at h
    obtain ⟨rfl, he⟩ := List.append_inj' h rfl
    exact .inr ⟨init, rfl, by rw [he]⟩

private theorem eq_closeParen_of_terms {p : Chain Clause} {before behind : List Term} {t : Term}
    (h : p.terms = before ++ closeParen :: t :: behind) : t = closeParen := by
  induction p generalizing before behind with
  | single c =>
    have hlength := congrArg List.length h
    simp [terms] at hlength
    omega
  | link c k r ih =>
    obtain ⟨b, hb⟩ := exists_terms_eq_append rfl h
    exact ih hb
  | group c k r ih =>
    rcases List.cons_eq_append_iff.mp h with ⟨-, he⟩ | ⟨b, -, hb⟩
    · cases he
    · obtain ⟨-, -, he⟩ | ⟨init, hrun, hinit⟩ := concat_eq_append_cons hb
      · cases he
      · rcases List.cons_eq_append_iff.mp hinit with ⟨-, he⟩ | ⟨init, rfl, -⟩
        · exact (List.cons.inj he).1.symm
        · obtain ⟨b, hb⟩ := exists_terms_eq_append rfl hrun
          exact ih hb

/-- What stands between two parentheses that belong together is a run of two or more operands. -/
theorem exists_link_of_isGroup {p : Chain Clause} {inner : List Term} (h : IsGroup inner p.terms) :
    ∃ c k r, inner = (link c k r).terms := by
  obtain ⟨hinner, before, behind, h⟩ := h
  induction p generalizing before behind with
  | single c =>
    have hlength := congrArg List.length h
    simp [terms] at hlength
    omega
  | link c k r ih =>
    obtain ⟨b, hb⟩ := exists_terms_eq_append rfl h
    exact ih b behind hb
  | group c k r ih =>
    have hrun : Balanced (.clause c :: .connective k :: r.terms) := (link c k r).balanced_terms
    unfold Term.Balanced at hinner hrun
    rcases List.cons_eq_append_iff.mp h with ⟨-, he⟩ | ⟨b, -, hb⟩
    · obtain ⟨-, hall, -⟩ | ⟨init, hearly, -⟩ := concat_eq_append_cons (List.cons.inj he).2.symm
      · exact ⟨c, k, r, hall.symm⟩
      · -- The run would close a parenthesis that it has not opened.
        rw [hearly, depthBehind_append, hinner] at hrun
        cases hrun
    · obtain ⟨he, -, -⟩ | ⟨init, hlate, hinit⟩ := concat_eq_append_cons hb
      · cases he
      · obtain ⟨-, rfl, -⟩ | ⟨init, rfl, -⟩ := concat_eq_append_cons hinit.symm
        · -- The run would leave a parenthesis open.
          rw [hlate, depthBehind_append] at hrun
          obtain ⟨d, -, hd⟩ := Option.bind_eq_some_iff.mp hrun
          have hopen := depthBehind_add hinner (d + 1)
          rw [Nat.zero_add] at hopen
          rw [depthBehind, hopen] at hd
          cases hd
        · obtain ⟨b, hb⟩ := exists_terms_eq_append rfl hlate
          exact ih b init hb

theorem wellFormed_terms (p : Chain Clause) : WellFormed p.terms where
  alternates := p.alternates_terms
  balanced := p.balanced_terms
  surplus := p.hasSurplus_terms
  surplus_group inner h := by
    obtain ⟨c, k, r, rfl⟩ := exists_link_of_isGroup h
    exact hasSurplus_terms _
  connective_group inner h := by
    obtain ⟨c, k, r, rfl⟩ := exists_link_of_isGroup h
    exact ⟨k, List.mem_cons_of_mem _ List.mem_cons_self⟩
  closed_behind _ _ _ h := eq_closeParen_of_terms h

end Chain

namespace Filter

/-- The texts that are read on the way to the terms of a text: the text itself, and what is left and
right of each split. -/
inductive Visits : Text → Text → Prop
  | self (text : Text) : Visits text text
  | left {text s : Text} {p : Split} (hp : Split.find? (body text).1 = some p)
    (h : Visits p.left s) : Visits text s
  | right {text s : Text} {p : Split} (hp : Split.find? (body text).1 = some p)
    (h : Visits p.right s) : Visits text s

private theorem exists_derives_of_visits {text s : Text} {ts : List Term} (hv : Visits text s)
    (h : Derives text ts) : ∃ us, Derives s us := by
  induction hv generalizing ts with
  | self text => exact ⟨ts, h⟩
  | left hp _ ih =>
    obtain ⟨_, _, hl, -, -⟩ := h.exists_halves hp
    exact ih hl
  | right hp _ ih =>
    obtain ⟨_, _, -, hr, -⟩ := h.exists_halves hp
    exact ih hr

/-- A filter that was read holds a run of clauses in which only the last operand can be a group, and
the left side of every split on the way is a single clause. -/
theorem wellFormed_of_read {text : Text} {f : Filter} (h : read text = .ok f) :
    (∃ p : Chain Clause, f.terms = p.terms) ∧ Term.WellFormed f.terms ∧
    ∀ s p, Visits text s → Split.find? (body s).1 = some p →
      ∃ c, readTerms p.left = .ok [.clause c] := by
  obtain ⟨hts, -⟩ := derives_of_read h
  obtain ⟨p, hp⟩ := exists_chain_of_derives hts
  refine ⟨⟨p, hp.symm⟩, hp ▸ p.wellFormed_terms, ?_⟩
  intro s q hv hq
  obtain ⟨us, hus⟩ := exists_derives_of_visits hv hts
  obtain ⟨c, _, hl, -, -⟩ := hus.exists_halves hq
  exact ⟨c, hl.readTerms_eq⟩

theorem wellFormed_nestedGroups :
    ∃ f, read "a eq '1' or (b eq '2' and (c eq '3' or d eq '4'))".toList = .ok f ∧
      f.terms.length = 11 ∧ Term.WellFormed f.terms := by
  let text := "a eq '1' or (b eq '2' and (c eq '3' or d eq '4'))".toList
  let p : Chain Clause := .link ⟨['a'], .eq, .text ['1']⟩ .or
    (.group ⟨['b'], .eq, .text ['2']⟩ .and
      (.group ⟨['c'], .eq, .text ['3']⟩ .or (.single ⟨['d'], .eq, .text ['4']⟩)))
  have hread : read text = .ok ⟨some text, p.terms, []⟩ := eq_ok_of_toOption (by decide +kernel)
  exact ⟨_, hread, rfl, (wellFormed_of_read hread).2.1⟩

end Filter
end FilterLang
