import FilterLang.Proofs.Nesting
import FilterLang.Proofs.Separation

/-!
Terms whose parentheses match, as a tree. Every balanced sequence of terms is that of one tree, and
of no other.
-/
namespace FilterLang

/-- Terms with matching parentheses, from the first to the last. A group holds such terms itself. -/
inductive Nest where
  | done
  | clause (c : Clause) (rest : Nest)
  | connective (k : Connective) (rest : Nest)
  | group (inside rest : Nest)
  deriving DecidableEq, Repr

namespace Nest
open Term

def terms : Nest → List Term
  | done => []
  | clause c rest => .clause c :: rest.terms
  | connective k rest => .connective k :: rest.terms
  | group inside rest => openParen :: (inside.terms ++ closeParen :: rest.terms)

def append : Nest → Nest → Nest
  | done, m => m
  | clause c rest, m => clause c (rest.append m)
  | connective k rest, m => connective k (rest.append m)
  | group inside rest, m => group inside (rest.append m)

def groups : Nest → List Nest
  | done => []
  | clause _ rest | connective _ rest => rest.groups
  | group inside rest => inside :: rest.groups

@[simp] theorem terms_append (n m : Nest) : (n.append m).terms = n.terms ++ m.terms := by
  induction n <;> simp_all [append, terms]

@[simp] theorem groups_append (n m : Nest) : (n.append m).groups = n.groups ++ m.groups := by
  induction n <;> simp_all [append, groups]

theorem depthBehind_terms (n : Nest) (d : ℕ) : depthBehind d n.terms = some d := by
  induction n generalizing d with
  | done => rfl
  | clause c rest ih => exact ih d
  | connective k rest ih => exact ih d
  | group inside rest ihi ihr =>
    rw [terms, depthBehind, depthBehind_append, ihi]
    exact ihr d

/-- Terms that close `d` parentheses more than they open are trees with these parentheses between
them. -/
theorem exists_terms_of_depthBehind {d : ℕ} {ts : List Term} (h : depthBehind d ts = some 0) :
    ∃ (n : Nest) (ns : List Nest), ns.length = d ∧
      ts = n.terms ++ ns.flatMap fun m => closeParen :: m.terms := by
  induction ts generalizing d with
  | nil =>
    obtain rfl : d = 0 := Option.some.inj h
    exact ⟨done, [], rfl, rfl⟩
  | cons t ts ih =>
    cases t with
    | clause c =>
      obtain ⟨n, ns, hns, rfl⟩ := ih h
      exact ⟨clause c n, ns, hns, rfl⟩
    | connective k =>
      obtain ⟨n, ns, hns, rfl⟩ := ih h
      exact ⟨connective k n, ns, hns, rfl⟩
    | openParen =>
      obtain ⟨inside, ns, hns, rfl⟩ := ih h
      obtain ⟨rest, ns, rfl⟩ := List.exists_cons_of_length_eq_add_one hns
      exact ⟨group inside rest, ns, Nat.succ.inj hns, by simp [terms]⟩
    | closeParen =>
      cases d with
      | zero => cases h
      | succ d =>
        obtain ⟨n, ns, hns, rfl⟩ := ih h
        exact ⟨done, n :: ns, congrArg Nat.succ hns, rfl⟩

theorem balanced_iff {ts : List Term} : Balanced ts ↔ ∃ n : Nest, n.terms = ts := by
  constructor
  · intro h
    obtain ⟨n, ns, hns, rfl⟩ := exists_terms_of_depthBehind h
    obtain rfl := List.eq_nil_of_length_eq_zero hns
    exact ⟨n, (List.append_nil _).symm⟩
  · rintro ⟨n, rfl⟩
    exact n.depthBehind_terms 0

/-- The terms of a tree determine the tree, whatever parentheses are closed behind them. -/
theorem separates_terms :
    Separates terms (fun _ => True) (fun ts => ∀ t ∈ ts.head?, t = closeParen) := by
  intro n m r s _ _ hr hs h
  have hstop {t : Term} {u v : List Term} (hu : ∀ t ∈ u.head?, t = closeParen)
      (he : u = t :: v) : t = closeParen := hu t (by simp [he])
  have hclose (u : List Term) : ∀ t ∈ (closeParen :: u).head?, t = closeParen := by
    intro t ht
    exact (Option.some.inj ht).symm
  induction n generalizing m r s with
  | done =>
    cases m with
    | done => exact ⟨rfl, h⟩
    | clause c m => cases hstop hr h
    | connective k m => cases hstop hr h
    | group inside m => cases hstop hr h
  | clause c n ih =>
    cases m with
    | done => cases hstop hs h.symm
    | clause d m =>
      obtain ⟨hc, htail⟩ := List.cons.inj h
      obtain ⟨rfl, hrest⟩ := ih hr hs htail
      exact ⟨by rw [Term.clause.inj hc], hrest⟩
    | connective k m => cases h
    | group inside m => cases h
  | connective k n ih =>
    cases m with
    | done => cases hstop hs h.symm
    | clause d m => cases h
    | connective j m =>
      obtain ⟨hk, htail⟩ := List.cons.inj h
      obtain ⟨rfl, hrest⟩ := ih hr hs htail
      exact ⟨by rw [Term.connective.inj hk], hrest⟩
    | group inside m => cases h
  | group inside n ihi ihn =>
    cases m with
    | done => cases hstop hs h.symm
    | clause d m => cases h
    | connective j m => cases h
    | group inside' m =>
      simp only [terms, List.cons_append, List.append_assoc, List.cons.injEq, true_and] at h
      obtain ⟨rfl, htail⟩ := ihi (hclose _) (hclose _) h
      obtain ⟨rfl, hrest⟩ := ihn hr hs (List.cons.inj htail).2
      exact ⟨rfl, hrest⟩

theorem terms_injective : Function.Injective terms := by
  intro n m h
  refine (separates_terms trivial trivial ?_ ?_ (congrArg (· ++ []) h)).1
  · nofun
  · nofun

/-- What stands between two parentheses that belong together and are in no others is an outermost
group. -/
theorem exists_mem_groups {n : Nest} {before inner behind : List Term}
    (h : n.terms = before ++ openParen :: (inner ++ closeParen :: behind))
    (hbefore : Balanced before) (hinner : Balanced inner) :
    ∃ g ∈ n.groups, g.terms = inner := by
  obtain ⟨b, rfl⟩ := balanced_iff.mp hbefore
  obtain ⟨g, rfl⟩ := balanced_iff.mp hinner
  have hbehind : Balanced behind := by
    have hn := n.depthBehind_terms 0
    rw [h, depthBehind_append, b.depthBehind_terms, Option.bind_some, depthBehind,
      depthBehind_append, g.depthBehind_terms] at hn
    exact hn
  obtain ⟨r, rfl⟩ := balanced_iff.mp hbehind
  have hsame : n = b.append (group g r) := terms_injective (by rw [h, terms_append, terms])
  exact ⟨g, by simp [hsame, groups], rfl⟩

end Nest

namespace Chain

def nest : Chain Clause → Nest
  | single c => .clause c .done
  | link c k r => .clause c (.connective k r.nest)
  | group c k r => .group (.clause c (.connective k r.nest)) .done

@[simp] theorem terms_nest (p : Chain Clause) : p.nest.terms = p.terms := by
  induction p <;> simp_all [nest, Nest.terms, terms]

end Chain
end FilterLang
