import FilterLang.Document
import FilterLang.Proofs.Nest
import FilterLang.Workbench

/-!
Filters under any edits. Their parentheses match, and an outermost pair holds what reading leaves in
one, so the levels of a document are all closed in time. An edit that makes no new filter adds to the
end of the one in its slot, and nothing else changes.
-/
namespace FilterLang

namespace Term

private theorem count_of_depthBehind {d e : ℕ} {ts : List Term} (h : depthBehind d ts = some e) :
    d + ts.count openParen = e + ts.count closeParen := by
  induction ts generalizing d with
  | nil =>
    obtain rfl : d = e := Option.some.inj h
    rfl
  | cons t ts ih =>
    cases t with
    | clause c => simpa using ih h
    | connective k => simpa using ih h
    | openParen =>
      have := ih h
      simp only [List.count_cons_self, List.count_cons_of_ne (by decide : openParen ≠ closeParen)]
      omega
    | closeParen =>
      cases d with
      | zero => cases h
      | succ d =>
        have := ih h
        simp only [List.count_cons_self, List.count_cons_of_ne (by decide : closeParen ≠ openParen)]
        omega

private theorem Balanced.count_eq {ts : List Term} (h : Balanced ts) :
    ts.count closeParen = ts.count openParen := by
  have := count_of_depthBehind h
  omega

private theorem Balanced.exists_depth {before behind : List Term}
    (h : Balanced (before ++ behind)) :
    ∃ d, depthBehind 0 before = some d ∧ depthBehind d behind = some 0 := by
  rw [Balanced, depthBehind_append] at h
  exact Option.bind_eq_some_iff.mp h

private theorem Balanced.count_le_of_isPrefix {before ts : List Term} (h : Balanced ts)
    (hb : before <+: ts) : before.count closeParen ≤ before.count openParen := by
  obtain ⟨behind, rfl⟩ := hb
  obtain ⟨d, hd, -⟩ := h.exists_depth
  have := count_of_depthBehind hd
  omega

/-- Terms with matching parentheses, the outermost of which hold runs with a connective. -/
def Composed (ts : List Term) : Prop :=
  ∃ n : Nest, n.terms = ts ∧ ∀ g ∈ n.groups, ∃ c k r, g.terms = (Chain.link c k r).terms

theorem Composed.append {ts us : List Term} (ht : Composed ts) (hu : Composed us) :
    Composed (ts ++ us) := by
  obtain ⟨n, rfl, hn⟩ := ht
  obtain ⟨m, rfl, hm⟩ := hu
  refine ⟨n.append m, n.terms_append m, fun g hg => ?_⟩
  rw [Nest.groups_append] at hg
  exact (List.mem_append.mp hg).elim (hn g) (hm g)

theorem composed_nil : Composed [] := ⟨.done, rfl, nofun⟩

private theorem composed_clause (c : Clause) : Composed [.clause c] := ⟨.clause c .done, rfl, nofun⟩

private theorem composed_connective (k : Connective) : Composed [.connective k] :=
  ⟨.connective k .done, rfl, nofun⟩

private theorem composed_terms (p : Chain Clause) : Composed p.terms := by
  refine ⟨p.nest, p.terms_nest, ?_⟩
  induction p with
  | single c => nofun
  | link c k r ih => exact ih
  | group c k r _ =>
    intro g hg
    obtain rfl := List.mem_singleton.mp hg
    exact ⟨c, k, r, (Chain.link c k r).terms_nest⟩

theorem Composed.balanced {ts : List Term} (h : Composed ts) : Balanced ts := by
  obtain ⟨n, hn, -⟩ := h
  exact Nest.balanced_iff.mpr ⟨n, hn⟩

private theorem Composed.exists_link {before inner behind : List Term}
    (h : Composed (before ++ openParen :: (inner ++ closeParen :: behind)))
    (hbefore : Balanced before) (hinner : Balanced inner) :
    ∃ c k r, inner = (Chain.link c k r).terms := by
  obtain ⟨n, hn, hgroups⟩ := h
  obtain ⟨g, hg, rfl⟩ := Nest.exists_mem_groups hn hbefore hinner
  exact hgroups g hg

end Term

namespace Levels

/-- There are as many outer levels as parentheses are open. -/
theorem length_outer_foldl_step (levels : Levels) {e : ℕ} {ts : List Term}
    (h : Term.depthBehind levels.outer.length ts = some e) :
    (ts.foldl step levels).outer.length = e := by
  induction ts generalizing levels with
  | nil => exact Option.some.inj h
  | cons t ts ih =>
    cases t with
    | clause c => exact ih _ h
    | connective k => exact ih _ h
    | openParen => exact ih _ h
    | closeParen =>
      obtain ⟨inmost, outer⟩ := levels
      cases outer with
      | nil => cases h
      | cons around outer => exact ih _ h

end Levels

namespace Filter

structure Extends (f g : Filter) : Prop where
  terms : f.terms <+: g.terms
  source : g.source = f.source
  suffix : f.suffix <+: g.suffix

theorem extends_extend (f : Filter) (ts : List Term) : f.Extends (f.extend ts) :=
  ⟨List.prefix_append _ _, rfl, List.prefix_rfl⟩

private theorem exists_of_addText {f g : Filter} {text : Text} (h : f.addText text = .ok g) :
    ∃ p : Chain Clause, g = f.extend p.terms := by
  unfold addText at h
  cases hts : readTerms text with
  | error e => rw [hts] at h; cases h
  | ok ts =>
    rw [hts] at h
    obtain ⟨p, rfl⟩ := exists_chain_of_derives (derives_of_readTerms hts)
    exact ⟨p, (Except.ok.inj h).symm⟩

end Filter

def Edit.replaces : Edit → Bool
  | read _ | clear | copy _ => true
  | _ => false

def Edit.isSuffix : Edit → Bool
  | addSuffix _ => true
  | _ => false

namespace Workbench

/-- The filters after edits of slots, one after another. A refused edit is passed over. -/
def run (w : Workbench) (edits : List (Text × Edit)) : Workbench :=
  edits.foldl (fun w e => (w.edit e.1 e.2).2) w

@[simp] theorem set_self (w : Workbench) (slot : Text) (f : Filter) : w.set slot f slot = f :=
  if_pos rfl

private theorem set_of_ne (w : Workbench) {slot s : Text} (f : Filter) (hs : s ≠ slot) :
    w.set slot f s = w s :=
  if_neg hs

private theorem edit_of_ok {w : Workbench} {slot : Text} {e : Edit} {f : Filter}
    (h : w.edited slot e = .ok f) : w.edit slot e = (.ok (), w.set slot f) := by
  rw [edit, h]

private theorem edit_of_error {w : Workbench} {slot : Text} {e : Edit} {err : FilterError}
    (h : w.edited slot e = .error err) : w.edit slot e = (.error err, w) := by
  rw [edit, h]

private theorem composed_edited {w : Workbench} {slot : Text} {e : Edit} {f : Filter}
    (hw : ∀ s, Term.Composed (w s).terms) (h : w.edited slot e = .ok f) :
    Term.Composed f.terms := by
  cases e with
  | read text =>
    obtain ⟨p, rfl⟩ := Filter.exists_chain_of_read h
    exact Term.composed_terms p
  | clear =>
    cases h
    exact Term.composed_nil
  | copy source =>
    cases h
    exact hw source
  | addConnective k =>
    cases h
    exact (hw slot).append (Term.composed_connective k)
  | addText text =>
    obtain ⟨p, rfl⟩ := Filter.exists_of_addText h
    exact (hw slot).append (Term.composed_terms p)
  | addClause c =>
    cases h
    exact (hw slot).append (Term.composed_clause c)
  | merge source =>
    cases h
    exact (hw slot).append (hw source)
  | addSuffix text =>
    cases h
    exact hw slot

theorem composed_edit {w : Workbench} (hw : ∀ s, Term.Composed (w s).terms) (slot : Text)
    (e : Edit) (s : Text) : Term.Composed ((w.edit slot e).2 s).terms := by
  cases h : w.edited slot e with
  | error err =>
    rw [edit_of_error h]
    exact hw s
  | ok f =>
    rw [edit_of_ok h]
    by_cases hs : s = slot
    · subst hs
      simpa using composed_edited hw h
    · simpa [set_of_ne w f hs] using hw s

theorem composed_run {w : Workbench} (hw : ∀ s, Term.Composed (w s).terms)
    (edits : List (Text × Edit)) (s : Text) : Term.Composed (w.run edits s).terms := by
  induction edits generalizing w with
  | nil => exact hw s
  | cons e edits ih => exact ih (composed_edit hw e.1 e.2)

private theorem extends_edited {w : Workbench} {slot : Text} {e : Edit} {f : Filter}
    (he : e.replaces = false) (h : w.edited slot e = .ok f) :
    (w slot).Extends f ∧ (e.isSuffix = false → f.suffix = (w slot).suffix) := by
  cases e with
  | read text => cases he
  | clear => cases he
  | copy source => cases he
  | addConnective k =>
    cases h
    exact ⟨Filter.extends_extend _ _, fun _ => rfl⟩
  | addText text =>
    obtain ⟨p, rfl⟩ := Filter.exists_of_addText h
    exact ⟨Filter.extends_extend _ _, fun _ => rfl⟩
  | addClause c =>
    cases h
    exact ⟨Filter.extends_extend _ _, fun _ => rfl⟩
  | merge source =>
    cases h
    exact ⟨Filter.extends_extend _ _, fun _ => rfl⟩
  | addSuffix text =>
    cases h
    exact ⟨⟨List.prefix_rfl, rfl, List.prefix_append _ _⟩, nofun⟩

/-- What one edit leaves as it was. -/
theorem edit_keeps (w : Workbench) (slot : Text) (e : Edit) :
    (e.replaces = false → (w slot).Extends ((w.edit slot e).2 slot) ∧
      (e.isSuffix = false → ((w.edit slot e).2 slot).suffix = (w slot).suffix)) ∧
    (∀ other, other ≠ slot → (w.edit slot e).2 other = w other) ∧
    (∀ err, (w.edit slot e).1 = .error err → (w.edit slot e).2 = w) := by
  cases h : w.edited slot e with
  | error err =>
    rw [edit_of_error h]
    exact ⟨fun _ => ⟨⟨List.prefix_rfl, rfl, List.prefix_rfl⟩, fun _ => rfl⟩, fun _ _ => rfl,
      fun _ _ => rfl⟩
  | ok f =>
    rw [edit_of_ok h]
    refine ⟨fun he => ?_, fun other => set_of_ne w f, nofun⟩
    simpa using extends_edited he h

/-- However filters are read, put together from others and extended, their parentheses match, every
outermost pair holds a run with a connective, and every level of the document that a parenthesis
closes was opened, none being left open at the end. A further edit that makes no new filter extends
the one in its slot, its raw SQL only if the edit is about that; the other filters stay as they are,
and all of them if the edit is refused. -/
theorem run_keeps_groups (edits : List (Text × Edit)) :
    let w := Workbench.empty.run edits
    (∀ slot,
      ((w slot).terms.count .closeParen = (w slot).terms.count .openParen ∧
        ∀ before, before <+: (w slot).terms →
          before.count .closeParen ≤ before.count .openParen) ∧
      (∀ before inner behind,
        (w slot).terms = before ++ .openParen :: (inner ++ .closeParen :: behind) →
        Term.Balanced before → Term.Balanced inner →
        ∃ c k r, inner = (Chain.link c k r).terms) ∧
      (∀ before behind, (w slot).terms = before ++ .closeParen :: behind →
        (before.foldl Levels.step .start).outer ≠ []) ∧
      ((w slot).terms.foldl Levels.step .start).outer = []) ∧
    ∀ slot e, let v := (w.edit slot e).2
      (e.replaces = false → (w slot).Extends (v slot) ∧
        (e.isSuffix = false → (v slot).suffix = (w slot).suffix)) ∧
      (∀ other, other ≠ slot → v other = w other) ∧
      (∀ err, (w.edit slot e).1 = .error err → v = w) := by
  intro w
  refine ⟨fun slot => ?_, w.edit_keeps⟩
  have hcomposed : Term.Composed (w slot).terms :=
    composed_run (fun _ => Term.composed_nil) edits slot
  have hbalanced := hcomposed.balanced
  refine ⟨⟨hbalanced.count_eq, fun before => hbalanced.count_le_of_isPrefix⟩, ?_, ?_, ?_⟩
  · intro before inner behind h hbefore hinner
    exact (h ▸ hcomposed).exists_link hbefore hinner
  · intro before behind h hnil
    rw [h] at hbalanced
    obtain ⟨d, hd, hclose⟩ := hbalanced.exists_depth
    have hlength := Levels.length_outer_foldl_step .start hd
    rw [hnil] at hlength
    obtain rfl : 0 = d := hlength
    cases hclose
  · exact List.eq_nil_of_length_eq_zero (Levels.length_outer_foldl_step .start hbalanced)

end Workbench
end FilterLang
