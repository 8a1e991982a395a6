import FilterLang.Proofs.Chain
import FilterLang.Proofs.ConnectiveScan
import FilterLang.Proofs.ParenScan

/-!
Reading the text of a filter again. Its terms come back if no text operand holds a connective;
otherwise the text is refused for the quote that the first such connective leaves open.
-/
namespace FilterLang
open Text

namespace Chain

def display : Chain Clause → Text
  | single c => c.display
  | link c k r => c.display ++ ' ' :: k.keyword ++ ' ' :: r.display
  | group c k r => '(' :: (c.display ++ ' ' :: k.keyword ++ ' ' :: r.display) ++ [')']

private theorem displayAfter_terms (p : Chain Clause) (ts : List Term) :
    Term.displayAfter false (p.terms ++ ts) = p.display ++ Term.displayAfter true ts := by
  induction p generalizing ts with
  | single c => simp [terms, display, Term.displayAfter, Term.display, Term.endsOperand]
  | link c k r ih =>
    simp [terms, display, Term.displayAfter, Term.display, Term.endsOperand, ih]
  | group c k r ih =>
    simp [terms, display, Term.displayAfter, Term.display, Term.endsOperand, ih]

end Chain

theorem Filter.display_eq {f : Filter} {p : Chain Clause} (h : f.terms = p.terms) :
    f.display = p.display := by
  have hp := p.displayAfter_terms []
  rw [List.append_nil] at hp
  rw [display, h, hp, Term.displayAfter, List.append_nil]

namespace Clause

/-- Whether the text of a clause has no part in the structure of a filter. -/
structure StandsAlone (c : Clause) : Prop extends Admissible c where
  operand_whole : c.operand.holdsConnective = false
  not_parens : insideParens? c.display = none

/-- Whether no parenthesis in the text of a clause can be taken for one around it. The parentheses in
a text operand never are. -/
structure ParenFree (c : Clause) : Prop where
  field : IsWord c.field
  field_parens : ∀ d ∈ c.field, d ≠ '(' ∧ d ≠ ')'
  operand : (∃ s, c.operand = .text s) ∨
    IsWord c.operand.display ∧ ∀ d ∈ c.operand.display, d ≠ '(' ∧ d ≠ ')'

theorem Printable.parenFree {c : Clause} (h : c.Printable) : c.ParenFree where
  field := h.field.toIsWord
  field_parens := h.field.not_paren
  operand := h.operand.text_or_word.imp_right fun hw => ⟨hw.toIsWord, hw.not_paren⟩

theorem ParenFree.head?_display {c : Clause} (h : c.ParenFree) (rest : Text) :
    ∀ d ∈ (c.display ++ rest).head?, d ≠ '(' := by
  intro d hd
  rw [display_eq, List.append_assoc, head?_front_append h.field.ne_nil] at hd
  exact (h.field_parens d (List.mem_of_mem_head? hd)).1

theorem ParenFree.insideParens?_display {c : Clause} (h : c.ParenFree) :
    insideParens? c.display = none := by
  have hhead := h.head?_display []
  rw [List.append_nil] at hhead
  exact insideParens?_of_head hhead

theorem Printable.standsAlone {c : Clause} (h : c.Printable)
    (hk : c.operand.holdsConnective = false) : c.StandsAlone where
  toAdmissible := h.admissible
  operand_whole := hk
  not_parens := h.parenFree.insideParens?_display

private theorem Legible.behind_front {c : Clause} (h : c.Legible) :
    (Scan.plain true).behind c.front = .plain true := by
  obtain ⟨t, ht, hfield⟩ := h.field
  have hspace : Scan.next ' ' (.plain false) = .plain true := rfl
  have hclosed : (Scan.plain true).behind c.field = .plain false := by
    apply behind_spells ht
    rintro content rfl
    cases hfield
  have hop := behind_word c.operator.isPlainWord_keyword.toIsWord true
  simp [front, hclosed, hspace, hop]

private theorem Legible.insideParens?_cut {c : Clause} (h : c.Legible) {s t : Text}
    (ht : t <+: escape s) : insideParens? (c.front ++ '"' :: t) = none := by
  -- A parenthesis within an open literal closes nothing.
  obtain ⟨content, hopen⟩ := Lexeme.exists_spells_cut ht
  rw [Option.eq_none_iff_forall_ne_some]
  intro r hr
  have hplain := isPlain_of_insideParens? hr
  rw [Scan.behind_append, h.behind_front, isPlain_behind_open hopen] at hplain
  cases hplain

private theorem ParenFree.passes_display {c : Clause} (h : c.ParenFree) (tokenStart : Bool) :
    Passes c.display (.plain tokenStart) (.plain false) := by
  have hword := c.operator.isPlainWord_keyword
  have hfield := (passes_word h.field h.field_parens tokenStart).append (passes_space false)
  have hop := (passes_word hword.toIsWord hword.not_paren true).append (passes_space false)
  have hoperand : Passes c.operand.display (.plain true) (.plain false) := by
    rcases h.operand with ⟨s, ho⟩ | ⟨hw, hp⟩
    · rw [ho]
      exact passes_quote s
    · exact passes_word hw hp true
  have hall := (hfield.append hop).append hoperand
  simpa [display, displayParts] using hall

end Clause

namespace Chain

def Printable (p : Chain Clause) : Prop := ∀ c ∈ p.atoms, c.Printable

instance (p : Chain Clause) : Decidable p.Printable :=
  inferInstanceAs (Decidable (∀ c ∈ p.atoms, c.Printable))

theorem isTight_display {p : Chain Clause} (h : ∀ c ∈ p.atoms, c.Legible) :
    IsTight p.display := by
  induction p with
  | single c => exact (h c (by simp [atoms])).isTight_display
  | link c k r ih =>
    obtain ⟨hc, hr⟩ := List.forall_mem_cons.mp h
    have hlink := hc.isTight_display.append (ih hr) (' ' :: k.keyword ++ [' '])
    simpa [display] using hlink
  | group c k r ih => exact isTight_enclosed rfl rfl _

private theorem Printable.isTight_display {p : Chain Clause} (h : p.Printable) :
    IsTight p.display :=
  Chain.isTight_display fun c hc => (h c hc).legible

theorem passes_display {p : Chain Clause} (h : ∀ c ∈ p.atoms, c.ParenFree) (tokenStart : Bool) :
    Passes p.display (.plain tokenStart) (.plain false) := by
  induction p generalizing tokenStart with
  | single c => exact (h c (by simp [atoms])).passes_display tokenStart
  | link c k r ih =>
    obtain ⟨hc, hr⟩ := List.forall_mem_cons.mp h
    have hfront := (hc.passes_display tokenStart).append (passes_connective k false)
    have hlink := hfront.append (ih hr true)
    simpa [display] using hlink
  | group c k r ih =>
    obtain ⟨hc, hr⟩ := List.forall_mem_cons.mp h
    have hfront := (hc.passes_display false).append (passes_connective k false)
    have hgroup := (hfront.append (ih hr true)).group tokenStart
    simpa [display] using hgroup

end Chain

namespace Filter

private theorem body_group {s : Text} {tokenStart : Bool} (hs : IsTight s)
    (h : Passes s (.plain false) (.plain tokenStart)) : body ('(' :: s ++ [')']) = (s, true) := by
  have htrim : trim ('(' :: s ++ [')']) = '(' :: s ++ [')'] :=
    (isTight_enclosed rfl rfl s).trim_eq
  unfold body
  dsimp only
  rw [htrim, h.insideParens?]
  dsimp only
  rw [hs.trim_eq]

theorem readTerms_display_clause {c : Clause} (h : c.StandsAlone) :
    readTerms c.display = .ok [.clause c] := by
  have htight := h.isTight_display
  have hbody : body c.display = (c.display, false) := body_of_trim htight.trim_eq h.not_parens
  have hskip : Split.Skips c.display [] := h.skips_display h.operand_whole nofun
  have hnone : Split.find? c.display = none := by simpa [Split.Skips, Split.find?] using hskip
  rw [readTerms_of_find?_none (by rw [hbody]; exact hnone), hbody, h.read_display]
  · rfl
  · rw [hbody]
    exact htight.ne_nil

private theorem exists_readTerms_cut {c : Clause} (h : c.Legible) {s : Text}
    (hs : Split.find? (c.front ++ '"' :: escape s) = none) :
    ∃ clause, readTerms (c.front ++ '"' :: escape s) = .error (.unterminatedQuote clause) := by
  obtain ⟨t, ht, htrim⟩ := Clause.exists_trim_front h.isTight_field (escape s)
  have hbody := body_of_trim htrim (h.insideParens?_cut ht)
  have hnone := Split.find?_eq_none_of_isInfix (body_isInfix (c.front ++ '"' :: escape s)) hs
  obtain ⟨clause, hread⟩ := h.exists_read_cut ht
  refine ⟨clause, ?_⟩
  rw [readTerms_of_find?_none hnone (by simp [hbody]), hbody, hread]
  rfl

/-- A connective in the first text operand leaves its quote open, whatever follows. -/
theorem exists_readTerms_error {c : Clause} {text rest : Text} (h : c.Admissible)
    (hk : c.operand.holdsConnective = true) (hb : (body text).1 = c.display ++ rest) :
    ∃ clause, readTerms text = .error (.unterminatedQuote clause) := by
  obtain ⟨s, ho, q, hq⟩ : ∃ s, c.operand = .text s ∧ ∃ q, Split.find? s = some q := by
    cases ho : c.operand with
    | text s =>
      rw [ho, Operand.holdsConnective_text, Option.isSome_iff_exists] at hk
      exact ⟨s, rfl, hk⟩
    | number w => rw [ho] at hk; cases hk
    | field w => rw [ho] at hk; cases hk
  have hfind := h.find?_display ho hq rest
  obtain ⟨clause, hleft⟩ := exists_readTerms_cut h.toLegible (Split.find?_left hfind)
  rw [← hb] at hfind
  refine ⟨clause, ?_⟩
  rw [readTerms_of_find?_some hfind, hleft]
  rfl

theorem readTerms_of_body {c : Clause} {k : Connective} {text rest : Text} {parens : Bool}
    (h : c.StandsAlone) (hne : ∀ k : Connective, c.operand ≠ .field k.keyword)
    (hb : body text = (c.display ++ (' ' :: k.keyword ++ ' ' :: rest), parens)) :
    readTerms text =
      (readTerms rest).map fun ts => grouped parens (.clause c :: .connective k :: ts) := by
  have hskip : Split.Skips c.display (' ' :: k.keyword ++ ' ' :: rest) := by
    apply h.skips_display h.operand_whole
    intro d hd
    exact .inr ⟨(Option.some.inj hd).symm, hne⟩
  have hfind := hskip.find?_connective
  have hfst : (body text).1 = c.display ++ (' ' :: k.keyword ++ ' ' :: rest) := by rw [hb]
  rw [← hfst] at hfind
  rw [readTerms_of_find?_some hfind, hb]
  simp only [readTerms_display_clause h]
  cases readTerms rest <;> rfl

private theorem body_display {c : Clause} (h : c.Printable) (rest : Text)
    (hs : IsTight (c.display ++ rest)) : body (c.display ++ rest) = (c.display ++ rest, false) :=
  body_of_trim hs.trim_eq (insideParens?_of_head (h.parenFree.head?_display rest))

private theorem body_display_link {c : Clause} {k : Connective} {r : Chain Clause}
    (h : (Chain.link c k r).Printable) :
    body (Chain.link c k r).display =
      (c.display ++ (' ' :: k.keyword ++ ' ' :: r.display), false) := by
  have hc : c.Printable := h c List.mem_cons_self
  have hs := h.isTight_display
  rw [Chain.display, List.append_assoc] at hs ⊢
  exact body_display hc _ hs

private theorem body_display_group {c : Clause} {k : Connective} {r : Chain Clause}
    (h : (Chain.group c k r).Printable) :
    body (Chain.group c k r).display =
      (c.display ++ (' ' :: k.keyword ++ ' ' :: r.display), true) := by
  have hlink : (Chain.link c k r).Printable := h
  rw [← List.append_assoc]
  have hpass := Chain.passes_display (p := Chain.link c k r) (fun d hd => (h d hd).parenFree) false
  exact body_group hlink.isTight_display hpass

/-- Whether a text is read as some terms, or refused for an open quote if one of the clauses holds a
connective in its text operand. -/
def Reads (text : Text) (cs : List Clause) (ts : List Term) : Prop :=
  (cs.any (·.operand.holdsConnective) = false → readTerms text = .ok ts) ∧
  (cs.any (·.operand.holdsConnective) = true →
    ∃ clause, readTerms text = .error (.unterminatedQuote clause))

private theorem reads_clause {c : Clause} (h : c.Printable) : Reads c.display [c] [.clause c] := by
  have hb : (body c.display).1 = c.display ++ [] := by
    have hdisplay := body_display h [] (by simpa using h.legible.isTight_display)
    simpa using congrArg Prod.fst hdisplay
  unfold Reads
  rw [List.any_cons, List.any_nil, Bool.or_false]
  constructor
  · intro hk
    exact readTerms_display_clause (h.standsAlone hk)
  · intro hk
    exact exists_readTerms_error h.admissible hk hb

private theorem Reads.cons {c : Clause} {k : Connective} {text rest : Text} {parens : Bool}
    {cs : List Clause} {ts : List Term} (h : c.Printable)
    (hb : body text = (c.display ++ (' ' :: k.keyword ++ ' ' :: rest), parens))
    (hr : Reads rest cs ts) :
    Reads text (c :: cs) (grouped parens (.clause c :: .connective k :: ts)) := by
  unfold Reads
  rw [List.any_cons]
  cases hk : c.operand.holdsConnective with
  | true => exact ⟨nofun, fun _ => exists_readTerms_error h.admissible hk (congrArg Prod.fst hb)⟩
  | false =>
    rw [Bool.false_or, readTerms_of_body (h.standsAlone hk) h.ne_connective hb]
    constructor
    · intro hcs
      rw [hr.1 hcs]
      rfl
    · intro hcs
      obtain ⟨clause, he⟩ := hr.2 hcs
      rw [he]
      exact ⟨clause, rfl⟩

private theorem reads_display {p : Chain Clause} (h : p.Printable) :
    Reads p.display p.atoms p.terms := by
  induction p with
  | single c => exact reads_clause (List.forall_mem_singleton.mp h)
  | link c k r ih =>
    obtain ⟨hc, hr⟩ := List.forall_mem_cons.mp h
    exact (ih hr).cons hc (body_display_link h)
  | group c k r ih =>
    obtain ⟨hc, hr⟩ := List.forall_mem_cons.mp h
    exact (ih hr).cons hc (body_display_group h)

/-- The text of a filter is read as the same terms, or refused if a text operand contains a
connective between spaces. It is never read as other terms. -/
theorem read_display_of_printable {f : Filter} {p : Chain Clause} (hf : f.terms = p.terms)
    (h : p.Printable) :
    (f.clauses.any (·.operand.holdsConnective) = false →
      read f.display = .ok ⟨some f.display, f.terms, []⟩) ∧
    (f.clauses.any (·.operand.holdsConnective) = true →
      ∃ clause, read f.display = .error (.unterminatedQuote clause)) := by
  obtain ⟨hok, herror⟩ := reads_display h
  rw [clauses_eq hf, hf, display_eq hf, read]
  constructor
  · intro hk
    rw [hok hk]
    rfl
  · intro hk
    obtain ⟨clause, he⟩ := herror hk
    rw [he]
    exact ⟨clause, rfl⟩

/-- A text operand may hold quotes and parentheses, but no connective. -/
theorem read_display_of_texts :
    let p : Chain Clause := .link ⟨['a'], .eq, .text "(\"\\)".toList⟩ .or
      (.group ⟨['b'], .gt, .number ['1']⟩ .and (.single ⟨['c'], .ne, .field ['d']⟩))
    let q : Chain Clause := .single ⟨['a'], .eq, .text "x and y".toList⟩
    let f : Filter := ⟨none, p.terms, []⟩
    let g : Filter := ⟨none, q.terms, []⟩
    read f.display = .ok ⟨some f.display, p.terms, []⟩ ∧
      ∃ clause, read g.display = .error (.unterminatedQuote clause) := by
  intro p q f g
  have hp : p.Printable := by decide +kernel
  have hq : q.Printable := by decide +kernel
  exact ⟨(read_display_of_printable rfl hp).1 (by decide +kernel),
    (read_display_of_printable rfl hq).2 (by decide +kernel)⟩

end Filter
end FilterLang
