import FilterLang.Proofs.Chain
import FilterLang.Proofs.Separation
import FilterLang.Sql

/-!
A condition determines the terms it was written from. A literal and a name in quotes end at the one
quote that is neither doubled nor behind a backslash, a number and a name without quotes at the next
blank or parenthesis, and the first character of an operand shows its kind.
-/
namespace FilterLang
open Text

/-- Whether a name shows where it ends without quotes around it. -/
def Text.IsBare (s : Text) : Prop := ∀ c ∈ s, isBlank c = false ∧ c ≠ '(' ∧ c ≠ ')'

instance (s : Text) : Decidable s.IsBare :=
  List.decidableBAll (fun c => isBlank c = false ∧ c ≠ '(' ∧ c ≠ ')') s

private theorem Text.IsPlainWord.isBare {w : Text} (h : IsPlainWord w) : w.IsBare := fun c hc =>
  ⟨h.not_blank c hc, h.not_paren c hc⟩

def Clause.names (c : Clause) : List Text := c.field :: c.operand.asField.toList

namespace Sql

def EndsPiece (r : Text) : Prop := ∀ c ∈ r.head?, c = ' ' ∨ c = ')'

def EndsRun (r : Text) : Prop := ∀ c ∈ r.head?, c = ')'

private theorem endsPiece_space (r : Text) : EndsPiece (' ' :: r) := by
  intro c hc
  obtain rfl : ' ' = c := Option.some.inj hc
  exact .inl rfl

private theorem EndsRun.endsPiece {r : Text} (h : EndsRun r) : EndsPiece r :=
  fun c hc => .inr (h c hc)

private theorem EndsPiece.head_ne {r : Text} (h : EndsPiece r) {d : Char} (hs : d ≠ ' ')
    (hp : d ≠ ')') : ∀ c ∈ r.head?, c ≠ d := by
  rintro c hc rfl
  exact (h c hc).elim hs hp

private theorem separates_bare : Separates (fun s : Text => s) IsBare EndsPiece := by
  intro a b r s ha hb hr hs h
  refine separates_id (fun c => isBlank c = true ∨ c = '(' ∨ c = ')') ?_ ?_ ?_ ?_ h
  · exact fun c hc => by simp [ha c hc]
  · exact fun c hc => by simp [hb c hc]
  · exact fun c hc => (hr c hc).imp (fun he => by rw [he]; rfl) .inr
  · exact fun c hc => (hs c hc).imp (fun he => by rw [he]; rfl) .inr

end Sql

namespace Dialect

private theorem separates_enclosed (q : Char) {code : Char → Text} {ends : Text → Prop}
    (hcode : Separates code (fun _ => True) (fun _ => True))
    (hends : ∀ c t r, ends r → code c ++ t ≠ q :: r) :
    Separates (fun s : Text => q :: s.flatMap code ++ [q]) (fun _ => True) ends := by
  intro a b r s _ _ hr hs h
  have hinside : Separates (List.flatMap code) (fun a => ∀ c ∈ a, True)
      (fun t => ∃ r, ends r ∧ t = q :: r) :=
    separates_flatMap hcode fun c t _ ⟨r, hr, he⟩ => hends c t r hr he
  simp only [List.cons_append, List.append_assoc, List.cons.injEq, true_and, List.nil_append] at h
  obtain ⟨rfl, htail⟩ :=
    hinside (fun _ _ => trivial) (fun _ _ => trivial) ⟨r, hr, rfl⟩ ⟨s, hs, rfl⟩ h
  exact ⟨rfl, (List.cons.inj htail).2⟩

private theorem separates_doubled (q : Char) :
    Separates (fun s : Text => q :: s.flatMap (fun c => if c = q then [c, c] else [c]) ++ [q])
      (fun _ => True) (fun r => ∀ c ∈ r.head?, c ≠ q) := by
  apply separates_enclosed
  · intro a b r s _ _ _ _ h
    by_cases ha : a = q <;> by_cases hb : b = q <;> simp_all
  · intro c t r hr h
    by_cases hc : c = q
    · obtain rfl : q :: t = r := by simpa [hc] using h
      exact hr q rfl rfl
    · simp [hc] at h

theorem separates_literal (d : Dialect) :
    Separates d.literal (fun _ => True) (fun r => ∀ c ∈ r.head?, c ≠ '\'') := by
  cases d with
  | ansi =>
    have hchar : ansi.literalChar = fun c => if c = '\'' then [c, c] else [c] := by
      funext c
      by_cases hc : c = '\'' <;> simp [literalChar, hc]
    have h := separates_doubled '\''
    rw [← hchar] at h
    exact h
  | mysql =>
    apply separates_enclosed
    · intro a b r s _ _ _ _ h
      by_cases ha : a = '\'' ∨ a = '\\' <;> by_cases hb : b = '\'' ∨ b = '\\'
      · simpa [literalChar, ha, hb] using h
      · obtain ⟨rfl, -⟩ : '\\' = b ∧ a :: r = s := by simpa [literalChar, ha, hb] using h
        exact absurd (.inr rfl) hb
      · obtain ⟨rfl, -⟩ : a = '\\' ∧ r = b :: s := by simpa [literalChar, ha, hb] using h
        exact absurd (.inr rfl) ha
      · simpa [literalChar, ha, hb] using h
    · intro c t r _ h
      by_cases hc : c = '\'' ∨ c = '\\'
      · simp [literalChar, hc] at h
      · obtain ⟨rfl, -⟩ : c = '\'' ∧ t = r := by simpa [literalChar, hc] using h
        exact hc (.inl rfl)

theorem separates_quotePart (d : Dialect) :
    Separates d.quotePart (fun _ => True) (fun r => ∀ c ∈ r.head?, c ≠ d.nameQuote) :=
  separates_doubled d.nameQuote

/-- A name of several quoted parts goes on where a point stands behind a part. -/
theorem separates_quoteParts (d : Dialect) :
    Separates (fun parts : List Text => List.intercalate ['.'] (parts.map d.quotePart)) (· ≠ [])
      Sql.EndsPiece := by
  intro ps qs r s hp hq hr hs h
  dsimp only at h
  have hpoint (t : Text) : ∀ c ∈ ('.' :: t : Text).head?, c ≠ d.nameQuote := by
    intro c hc
    obtain rfl : '.' = c := Option.some.inj hc
    cases d <;> decide
  have hquote {t : Text} (ht : Sql.EndsPiece t) : ∀ c ∈ t.head?, c ≠ d.nameQuote := by
    cases d <;> exact ht.head_ne (by decide) (by decide)
  have hstop {t u : Text} (ht : Sql.EndsPiece t) : t ≠ '.' :: u := by
    rintro rfl
    exact ht.head_ne (d := '.') (by decide) (by decide) '.' rfl rfl
  induction ps generalizing qs with
  | nil => exact absurd rfl hp
  | cons p ps ih =>
    obtain ⟨q, qs, rfl⟩ := List.exists_cons_of_ne_nil hq
    cases ps with
    | nil =>
      cases qs with
      | nil =>
        simp only [List.map_cons, List.map_nil, List.intercalate_singleton] at h
        obtain ⟨rfl, hrest⟩ := d.separates_quotePart trivial trivial (hquote hr) (hquote hs) h
        exact ⟨rfl, hrest⟩
      | cons q' qs =>
        simp only [List.map_cons, List.map_nil, List.intercalate_singleton,
          List.intercalate_cons_cons, List.append_assoc, List.cons_append, List.nil_append] at h
        exact absurd (d.separates_quotePart trivial trivial (hquote hr) (hpoint _) h).2 (hstop hr)
    | cons p' ps =>
      cases qs with
      | nil =>
        simp only [List.map_cons, List.map_nil, List.intercalate_singleton,
          List.intercalate_cons_cons, List.append_assoc, List.cons_append, List.nil_append] at h
        exact absurd (d.separates_quotePart trivial trivial (hpoint _) (hquote hs) h).2.symm
          (hstop hs)
      | cons q' qs =>
        simp only [List.map_cons, List.intercalate_cons_cons, List.append_assoc, List.cons_append,
          List.nil_append] at h
        obtain ⟨rfl, htail⟩ := d.separates_quotePart trivial trivial (hpoint _) (hpoint _) h
        obtain ⟨he, hrest⟩ := ih (List.cons_ne_nil _ _) (List.cons_ne_nil _ _)
          (List.cons.inj htail).2
        exact ⟨congrArg _ he, hrest⟩

end Dialect

namespace SqlStyle

/-- Whether a name can be told from what stands behind it: it is quoted, or needs no quotes. -/
def ShowsName (style : SqlStyle) (name : Text) : Prop := style.quotesNames = true ∨ name.IsBare

theorem separates_fieldName (style : SqlStyle) :
    Separates style.fieldName style.ShowsName Sql.EndsPiece := by
  intro a b r s ha hb hr hs h
  unfold fieldName at h
  cases hq : style.quotesNames with
  | true =>
    rw [hq, if_pos rfl, if_pos rfl] at h
    obtain ⟨he, hrest⟩ := style.dialect.separates_quoteParts (List.splitOn_ne_nil '.' a)
      (List.splitOn_ne_nil '.' b) hr hs h
    have hjoin := congrArg (List.intercalate ['.']) he
    rw [List.intercalate_splitOn, List.intercalate_splitOn] at hjoin
    exact ⟨hjoin, hrest⟩
  | false =>
    rw [hq, if_neg Bool.false_ne_true, if_neg Bool.false_ne_true] at h
    have hbare {n : Text} (hn : style.ShowsName n) : n.IsBare := by
      simpa [ShowsName, hq] using hn
    exact Sql.separates_bare (hbare ha) (hbare hb) hr hs h

private theorem exists_fieldName_eq {style : SqlStyle} (hq : style.quotesNames = true)
    (name : Text) : ∃ t, style.fieldName name = style.dialect.nameQuote :: t := by
  obtain ⟨p, ps, hps⟩ := List.exists_cons_of_ne_nil (List.splitOn_ne_nil '.' name)
  rw [fieldName, if_pos hq, hps]
  cases ps <;> simp [Dialect.quotePart]

end SqlStyle

/-- Whether an operand is one that was read and can be told from what stands behind it. -/
structure Operand.Shown (style : SqlStyle) (o : Operand) : Prop where
  legible : o.Legible
  name : ∀ n ∈ o.asField, style.ShowsName n

structure Clause.Shown (style : SqlStyle) (c : Clause) : Prop where
  legible : c.Legible
  names : ∀ n ∈ c.names, style.ShowsName n

namespace Operand
variable {style : SqlStyle}

private theorem Shown.head_ne_quote {o : Operand} (h : o.Shown style) (ht : ∀ s, o ≠ .text s)
    (r : Text) : (o.toSql style ++ r).head? ≠ some '\'' := by
  have hword {w : Text} (hw : IsWord w) : (w ++ r).head? ≠ some '\'' := by
    rw [List.head?_append_of_ne_nil _ hw.ne_nil]
    intro hc
    have := hw.not_quote _ hc
    cases this
  cases o with
  | text s => exact absurd rfl (ht s)
  | number w => exact hword (isPlainWord_of_readFinite? h.legible).toIsWord
  | field n =>
    cases hq : style.quotesNames with
    | true =>
      obtain ⟨t, ht⟩ := SqlStyle.exists_fieldName_eq hq n
      rw [toSql, ht]
      cases style.dialect <;> simp [Dialect.nameQuote]
    | false =>
      rw [toSql, SqlStyle.fieldName, hq]
      exact hword h.legible.1

private theorem Shown.number_ne_field {w n : Text} (hw : (number w).Shown style)
    (hn : (field n).Shown style) {r s : Text} (hr : Sql.EndsPiece r) (hs : Sql.EndsPiece s) :
    (number w).toSql style ++ r ≠ (field n).toSql style ++ s := by
  intro h
  have hfinite : (Binary64.readFinite? w).isSome = true := hw.legible
  have hplain := isPlainWord_of_readFinite? hfinite
  cases hq : style.quotesNames with
  | true =>
    obtain ⟨t, ht⟩ := SqlStyle.exists_fieldName_eq hq n
    obtain ⟨c, w', rfl⟩ := List.exists_cons_of_ne_nil hplain.ne_nil
    have hc := (Binary64.isNumeral_of_readFinite? hfinite).2 c List.mem_cons_self
    rw [toSql, toSql, ht] at h
    obtain ⟨rfl, -⟩ := List.cons.inj h
    cases hd : style.dialect <;> rw [hd] at hc <;> exact absurd hc (by decide)
  | false =>
    have hbare : n.IsBare := by simpa [SqlStyle.ShowsName, hq] using hn.name n rfl
    rw [toSql, toSql, SqlStyle.fieldName, hq] at h
    obtain ⟨rfl, -⟩ := Sql.separates_bare hplain.isBare hbare hr hs h
    rw [hn.legible.2] at hfinite
    cases hfinite

theorem separates_toSql (style : SqlStyle) :
    Separates (toSql style) (Shown style) Sql.EndsPiece := by
  intro a b r s ha hb hr hs h
  have htext {o : Operand} (ho : o.Shown style) (hne : ∀ u, o ≠ .text u) {u t v : Text} :
      (text u).toSql style ++ t ≠ o.toSql style ++ v := fun he =>
    ho.head_ne_quote hne v (congrArg List.head? he).symm
  cases a with
  | text u =>
    cases b with
    | text v =>
      have hquote {t : Text} (ht : Sql.EndsPiece t) : ∀ c ∈ t.head?, c ≠ '\'' :=
        ht.head_ne (by decide) (by decide)
      obtain ⟨rfl, hrest⟩ :=
        style.dialect.separates_literal trivial trivial (hquote hr) (hquote hs) h
      exact ⟨rfl, hrest⟩
    | number w => exact absurd h (htext hb nofun)
    | field n => exact absurd h (htext hb nofun)
  | number w =>
    cases b with
    | text v => exact absurd h.symm (htext ha nofun)
    | number x =>
      obtain ⟨rfl, hrest⟩ := Sql.separates_bare (isPlainWord_of_readFinite? ha.legible).isBare
        (isPlainWord_of_readFinite? hb.legible).isBare hr hs h
      exact ⟨rfl, hrest⟩
    | field n => exact absurd h (ha.number_ne_field hb hr hs)
  | field m =>
    cases b with
    | text v => exact absurd h.symm (htext ha nofun)
    | number w => exact absurd h.symm (hb.number_ne_field ha hs hr)
    | field n =>
      obtain ⟨rfl, hrest⟩ := style.separates_fieldName (ha.name m rfl) (hb.name n rfl) hr hs h
      exact ⟨rfl, hrest⟩

end Operand

private theorem Operator.separates_sqlSymbol :
    Separates (fun op : Operator => op.sqlSymbol ++ [' ']) (fun _ => True) (fun _ => True) := by
  intro a b r s _ _ _ _ h
  cases a <;> cases b <;> simp_all [sqlSymbol]

namespace Clause
variable {style : SqlStyle}

private theorem Shown.operand {c : Clause} (h : c.Shown style) : c.operand.Shown style where
  legible := h.legible.operand
  name n hn := h.names n (List.mem_cons_of_mem _ (Option.mem_toList.mpr hn))

theorem separates_toSql (style : SqlStyle) : Separates (toSql style) (Shown style) Sql.EndsPiece := by
  rintro ⟨f, op, o⟩ ⟨g, op', o'⟩ r s hc hd hr hs h
  simp only [toSql, List.append_assoc, List.cons_append] at h
  obtain ⟨rfl, hsymbol⟩ := style.separates_fieldName (hc.names f List.mem_cons_self)
    (hd.names g List.mem_cons_self) (Sql.endsPiece_space _) (Sql.endsPiece_space _) h
  have hop : op.sqlSymbol ++ [' '] ++ (o.toSql style ++ r) =
      op'.sqlSymbol ++ [' '] ++ (o'.toSql style ++ s) := by
    simpa using hsymbol
  obtain ⟨rfl, hoperand⟩ := Operator.separates_sqlSymbol trivial trivial trivial trivial hop
  obtain ⟨rfl, hrest⟩ := Operand.separates_toSql style hc.operand hd.operand hr hs hoperand
  exact ⟨rfl, hrest⟩

private theorem Shown.toSql_ne_openParen {c : Clause} (h : c.Shown style) (r t : Text) :
    c.toSql style ++ r ≠ '(' :: t := by
  intro he
  cases hq : style.quotesNames with
  | true =>
    obtain ⟨u, hu⟩ := SqlStyle.exists_fieldName_eq hq c.field
    rw [toSql, hu] at he
    have hquote := (List.cons.inj he).1
    cases hd : style.dialect <;> rw [hd] at hquote <;> exact absurd hquote (by decide)
  | false =>
    have hbare : c.field.IsBare := by
      simpa [SqlStyle.ShowsName, hq] using h.names _ List.mem_cons_self
    obtain ⟨d, f, hf⟩ := List.exists_cons_of_ne_nil h.legible.isTight_field.ne_nil
    rw [toSql, SqlStyle.fieldName, hq, hf] at he
    exact (hbare d (by simp [hf])).2.1 (List.cons.inj he).1

end Clause

theorem Connective.separates_toSql (style : SqlStyle) :
    Separates (fun k : Connective => Term.toSql style (.connective k)) (fun _ => True)
      (fun _ => True) := by
  intro j k r s _ _ _ _ h
  cases j <;> cases k <;> simp_all [Term.toSql]

namespace Chain

def toSql (style : SqlStyle) (p : Chain Clause) : Text := p.terms.flatMap (Term.toSql style)

variable {style : SqlStyle}

private theorem toSql_single (c : Clause) : (single c).toSql style = c.toSql style := by
  simp [toSql, terms, Term.toSql]

private theorem toSql_link (c : Clause) (k : Connective) (p : Chain Clause) :
    (link c k p).toSql style =
      c.toSql style ++ (Term.toSql style (.connective k) ++ p.toSql style) := by
  simp [toSql, terms, Term.toSql]

private theorem toSql_group (c : Clause) (k : Connective) (p : Chain Clause) :
    (group c k p).toSql style =
      '(' :: (c.toSql style ++ (Term.toSql style (.connective k) ++ (p.toSql style ++ [')']))) := by
  simp [toSql, terms, Term.toSql]

private theorem endsPiece_connective (k : Connective) (r : Text) :
    Sql.EndsPiece (Term.toSql style (.connective k) ++ r) := by
  cases k <;> exact Sql.endsPiece_space _

private theorem not_endsRun_connective (k : Connective) (r : Text) :
    ¬ Sql.EndsRun (Term.toSql style (.connective k) ++ r) := by
  intro h
  cases k <;> exact absurd (h ' ' rfl) (by decide)

/-- The condition of a run determines the run, whatever it stands in. -/
theorem separates_toSql (style : SqlStyle) :
    Separates (toSql style) (fun p => ∀ c ∈ p.atoms, c.Shown style) Sql.EndsRun := by
  intro p q r s hp hq hr hs h
  induction p generalizing q r s with
  | single c =>
    have hc := hp c List.mem_cons_self
    cases q with
    | single d =>
      rw [toSql_single, toSql_single] at h
      obtain ⟨rfl, hrest⟩ := Clause.separates_toSql style hc (hq d List.mem_cons_self)
        hr.endsPiece hs.endsPiece h
      exact ⟨rfl, hrest⟩
    | link d k q =>
      rw [toSql_single, toSql_link, List.append_assoc, List.append_assoc] at h
      obtain ⟨-, hrest⟩ := Clause.separates_toSql style hc (hq d List.mem_cons_self)
        hr.endsPiece (endsPiece_connective k _) h
      exact absurd (hrest ▸ hr) (not_endsRun_connective k _)
    | group d k q =>
      rw [toSql_single, toSql_group] at h
      exact absurd h (hc.toSql_ne_openParen _ _)
  | link c k p ih =>
    have hc := hp c List.mem_cons_self
    cases q with
    | single d =>
      rw [toSql_single, toSql_link, List.append_assoc, List.append_assoc] at h
      obtain ⟨-, hrest⟩ := Clause.separates_toSql style hc (hq d List.mem_cons_self)
        (endsPiece_connective k _) hs.endsPiece h
      exact absurd (hrest ▸ hs) (not_endsRun_connective k _)
    | link d j q =>
      rw [toSql_link, toSql_link] at h
      simp only [List.append_assoc] at h
      obtain ⟨rfl, hk⟩ := Clause.separates_toSql style hc (hq d List.mem_cons_self)
        (endsPiece_connective k _) (endsPiece_connective j _) h
      obtain ⟨rfl, htail⟩ :=
        Connective.separates_toSql style trivial trivial trivial trivial hk
      obtain ⟨rfl, hrest⟩ := ih (fun a ha => hp a (List.mem_cons_of_mem _ ha))
        (fun a ha => hq a (List.mem_cons_of_mem _ ha)) hr hs htail
      exact ⟨rfl, hrest⟩
    | group d j q =>
      rw [toSql_link, toSql_group, List.append_assoc] at h
      exact absurd h (hc.toSql_ne_openParen _ _)
  | group c k p ih =>
    cases q with
    | single d =>
      rw [toSql_single, toSql_group] at h
      exact absurd h.symm ((hq d List.mem_cons_self).toSql_ne_openParen _ _)
    | link d j q =>
      rw [toSql_link, toSql_group, List.append_assoc] at h
      exact absurd h.symm ((hq d List.mem_cons_self).toSql_ne_openParen _ _)
    | group d j q =>
      rw [toSql_group, toSql_group] at h
      simp only [List.cons_append, List.append_assoc, List.cons.injEq, true_and] at h
      have hclose (t : Text) : Sql.EndsRun (')' :: t) := fun c hc => (Option.some.inj hc).symm
      obtain ⟨rfl, hk⟩ := Clause.separates_toSql style (hp c List.mem_cons_self)
        (hq d List.mem_cons_self) (endsPiece_connective k _) (endsPiece_connective j _) h
      obtain ⟨rfl, htail⟩ :=
        Connective.separates_toSql style trivial trivial trivial trivial hk
      obtain ⟨rfl, hrest⟩ := ih (fun a ha => hp a (List.mem_cons_of_mem _ ha))
        (fun a ha => hq a (List.mem_cons_of_mem _ ha)) (hclose _) (hclose _) htail
      exact ⟨rfl, (List.cons.inj hrest).2⟩

end Chain

namespace Filter

/-- Filters that were read, and show all their names, have one condition just when they have the same
terms. -/
theorem toSql_eq_iff {style : SqlStyle} {s t : Text} {f g : Filter} (hf : read s = .ok f)
    (hg : read t = .ok g) (hfn : ∀ c ∈ f.clauses, ∀ n ∈ c.names, style.ShowsName n)
    (hgn : ∀ c ∈ g.clauses, ∀ n ∈ c.names, style.ShowsName n) :
    f.toSql style = g.toSql style ↔ f.terms = g.terms := by
  have hfc (c : Clause) (hc : c ∈ f.clauses) : c.Shown style :=
    ⟨legible_of_mem_clauses hf hc, hfn c hc⟩
  have hgc (c : Clause) (hc : c ∈ g.clauses) : c.Shown style :=
    ⟨legible_of_mem_clauses hg hc, hgn c hc⟩
  obtain ⟨p, rfl⟩ := exists_chain_of_read hf
  obtain ⟨q, rfl⟩ := exists_chain_of_read hg
  rw [clauses_eq rfl] at hfc hgc
  have hend : Sql.EndsRun [] := nofun
  constructor
  · intro h
    obtain ⟨rfl, -⟩ := Chain.separates_toSql style hfc hgc hend hend h
    rfl
  · intro h
    exact congrArg (fun ts => ts.flatMap (Term.toSql style) ++ []) h

/-- With names in quotes, no two filters with different terms have the same condition, whatever
their texts and names hold; and neither have they without, if no name holds a blank or a
parenthesis. -/
theorem terms_eq_iff_toSql_eq (d : Dialect) {s t : Text} {f g : Filter} (hf : read s = .ok f)
    (hg : read t = .ok g) :
    (f.toSql ⟨d, true⟩ = g.toSql ⟨d, true⟩ ↔ f.terms = g.terms) ∧
    ((∀ c ∈ f.clauses, ∀ n ∈ c.names, n.IsBare) → (∀ c ∈ g.clauses, ∀ n ∈ c.names, n.IsBare) →
      (f.toSql ⟨d, false⟩ = g.toSql ⟨d, false⟩ ↔ f.terms = g.terms)) := by
  constructor
  · exact toSql_eq_iff hf hg (fun _ _ _ _ => .inl rfl) (fun _ _ _ _ => .inl rfl)
  · intro hfn hgn
    exact toSql_eq_iff hf hg (fun c hc n hn => .inr (hfn c hc n hn))
      (fun c hc n hn => .inr (hgn c hc n hn))

/-- A literal that is written like the end of a clause and another one. -/
theorem toSql_ne_of_forgedLiteral :
    let p : Chain Clause := .single ⟨['a'], .eq, .text "1' OR b = '2".toList⟩
    let q : Chain Clause := .link ⟨['a'], .eq, .text ['1']⟩ .or (.single ⟨['b'], .eq, .text ['2']⟩)
    ∃ f g, read "a eq \"1' OR b = '2\"".toList = .ok f ∧ f.terms = p.terms ∧
      read "a eq '1' or b eq '2'".toList = .ok g ∧ g.terms = q.terms ∧
      f.toSql ⟨.mysql, true⟩ ≠ g.toSql ⟨.mysql, true⟩ ∧
      f.toSql ⟨.mysql, false⟩ ≠ g.toSql ⟨.mysql, false⟩ := by
  intro p q
  have hf : read "a eq \"1' OR b = '2\"".toList =
      .ok ⟨some "a eq \"1' OR b = '2\"".toList, p.terms, []⟩ :=
    eq_ok_of_toOption (by decide +kernel)
  have hg : read "a eq '1' or b eq '2'".toList =
      .ok ⟨some "a eq '1' or b eq '2'".toList, q.terms, []⟩ :=
    eq_ok_of_toOption (by decide +kernel)
  have hne : p.terms ≠ q.terms := by decide
  obtain ⟨hquoted, hplain⟩ := terms_eq_iff_toSql_eq .mysql hf hg
  exact ⟨_, _, hf, rfl, hg, rfl, fun h => hne (hquoted.mp h),
    fun h => hne ((hplain (by decide) (by decide)).mp h)⟩

end Filter
end FilterLang
