import FilterLang.Proofs.Chain
import FilterLang.Proofs.LdapParsing
import FilterLang.Proofs.LdapReading

/-!
What a search filter is read as. Literals come back as values, octet by octet; a name without quotes
goes into the filter as it stands, so that asterisks in it ask for substrings or for presence where
equality is asked for, and are refused elsewhere.
-/
namespace FilterLang
open Ldap

namespace Operand

def ldapPieces : Operand → List Text
  | text s => [escape s]
  | number s => [s]
  | field name => name.splitOn '*'

def ldapValues : Operand → List (List UInt8)
  | text s | number s => [s.utf8]
  | field name => (name.splitOn '*').map Text.utf8

/-- Whether a search filter can hold the operand: a name has no character that should be escaped,
asterisks apart. -/
def FitsLdap : Operand → Prop
  | text _ => True
  | number s => ∀ c ∈ s, isNormal c = true
  | field name => ∀ c ∈ name, isNormal c = true ∨ c = '*'

private theorem fitsLdap_of_legible {o : Operand} (h : o.Legible)
    (hname : ∀ n ∈ o.asField, ∀ c ∈ n, c ∉ ['(', ')', '\\', '\x00']) : o.FitsLdap := by
  cases o with
  | text s => trivial
  | number s =>
    have hescaped : ∀ c ∈ escaped, Decimal.isNumeral c = false := by decide
    intro c hc
    have hnumeral := (Binary64.isNumeral_of_readFinite? h).2 c hc
    by_contra hnormal
    rw [hescaped c (by simpa [isNormal] using hnormal)] at hnumeral
    cases hnumeral
  | field name =>
    intro c hc
    have hescaped := hname name rfl c hc
    by_cases hstar : c = '*'
    · exact .inr hstar
    · left
      simpa [isNormal, escaped, hstar] using hescaped

private theorem ldapPieces_ne_nil (o : Operand) : o.ldapPieces ≠ [] := by
  cases o with
  | text s => exact List.cons_ne_nil _ _
  | number s => exact List.cons_ne_nil _ _
  | field name => exact List.splitOn_ne_nil _ _

private theorem toLdap_eq_intercalate (o : Operand) :
    o.toLdap = List.intercalate ['*'] o.ldapPieces := by
  cases o with
  | text s => exact List.intercalate_singleton.symm
  | number s => exact List.intercalate_singleton.symm
  | field name => exact (List.intercalate_splitOn '*').symm

private theorem FitsLdap.map_readValue? {o : Operand} (h : o.FitsLdap) :
    o.ldapPieces.map readValue? = o.ldapValues.map some := by
  cases o with
  | text s => exact congrArg (fun v => [v]) (readValue?_escape s)
  | number s => exact congrArg (fun v => [v]) (readValue?_of_isNormal h)
  | field name =>
    have hread : ∀ t ∈ name.splitOn '*', readValue? t = some (Text.utf8 t) := by
      intro t ht
      apply readValue?_of_isNormal
      intro c hc
      obtain ⟨hmem, hstar⟩ := Text.mem_of_mem_splitOn ht hc
      exact (h c hmem).resolve_right hstar
    simpa [ldapPieces, ldapValues] using hread

private theorem FitsLdap.readValue?_toLdap {o : Operand} (h : o.FitsLdap) (v : List UInt8) :
    readValue? o.toLdap = some v ↔ (∀ n ∈ o.asField, '*' ∉ n) ∧ v = o.raw.utf8 := by
  cases o with
  | text s => simp [toLdap, asField, raw, readValue?_escape, eq_comm]
  | number s => simp [toLdap, asField, raw, readValue?_of_isNormal h, eq_comm]
  | field name =>
    by_cases hstar : '*' ∈ name
    · constructor
      · intro hv
        exact absurd rfl (not_mem_of_readValue? hv _ hstar).2.2
      · rintro ⟨hno, -⟩
        exact absurd hstar (hno name rfl)
    · have hnormal : ∀ c ∈ name, isNormal c = true := fun c hc =>
        (h c hc).resolve_right fun he => hstar (he ▸ hc)
      simp [toLdap, asField, raw, readValue?_of_isNormal hnormal, hstar, eq_comm]

private theorem exists_ldapValues_eq (o : Operand) :
    ∃ ss, o.ldapValues = ss.map Text.utf8 ∧ o.raw = List.intercalate ['*'] ss := by
  cases o with
  | text s => exact ⟨[s], rfl, List.intercalate_singleton.symm⟩
  | number s => exact ⟨[s], rfl, List.intercalate_singleton.symm⟩
  | field name => exact ⟨name.splitOn '*', rfl, (List.intercalate_splitOn '*').symm⟩

theorem raw_eq_of_ldapValues_eq {o p : Operand} (h : o.ldapValues = p.ldapValues) :
    o.raw = p.raw := by
  obtain ⟨ss, ho, hs⟩ := o.exists_ldapValues_eq
  obtain ⟨ts, hp, ht⟩ := p.exists_ldapValues_eq
  have hmap : ss.map Text.utf8 = ts.map Text.utf8 := ho.symm.trans (h.trans hp)
  rw [hs, ht, List.map_injective_iff.mpr Text.utf8_injective hmap]

end Operand

/-- The operator of the clause whose search filter it is. -/
def Ldap.Search.operator : Search → Operator
  | .not _ => .ne
  | .comparison _ .greaterOrEqual _ => .ge
  | .comparison _ .lessOrEqual _ => .le
  | .combination _ (.comparison _ .greaterOrEqual _ :: _) => .gt
  | .combination _ _ => .lt
  | _ => .eq

namespace Clause

structure FitsLdap (c : Clause) : Prop where
  field : ∀ x ∈ c.field, x ∉ reserved
  operand : c.operand.FitsLdap

def search (c : Clause) : Search :=
  let equality := Search.equality c.field c.operand.ldapValues
  let comparison sign := Search.comparison c.field sign c.operand.raw.utf8
  match c.operator with
  | .eq => equality
  | .ne => .not equality
  | .ge => comparison .greaterOrEqual
  | .le => comparison .lessOrEqual
  | .gt => .combination .and [comparison .greaterOrEqual, .not equality]
  | .lt => .combination .and [comparison .lessOrEqual, .not equality]

/-- Whether a clause has a search filter: its field is an attribute, and it asks for an order only
of a value without bare asterisks. -/
def Searchable (c : Clause) : Prop :=
  isAttribute c.field = true ∧
    (c.operator ≠ .eq → c.operator ≠ .ne → ∀ n ∈ c.operand.asField, '*' ∉ n)

instance (c : Clause) : Decidable c.Searchable :=
  inferInstanceAs (Decidable (isAttribute c.field = true ∧
    (c.operator ≠ .eq → c.operator ≠ .ne → ∀ n ∈ c.operand.asField, '*' ∉ n)))

variable {c : Clause}

private theorem item_eq (name sign value : Text) :
    item name sign value = '(' :: (name ++ (sign ++ value)) ++ [')'] := by
  simp [item]

private theorem FitsLdap.itemText (h : c.FitsLdap) (sign : Sign) :
    ItemText (c.field ++ (sign.text ++ c.operand.toLdap)) := by
  refine itemText_of_name h.field (sign.endsAttribute _) ?_
  refine List.forall_mem_append.mpr ⟨sign.not_paren, ?_⟩
  rw [Operand.toLdap_eq_intercalate]
  exact not_paren_intercalate h.operand.map_readValue?

private theorem FitsLdap.shows_equality (h : c.FitsLdap) :
    Shows (item c.field ['='] c.operand.toLdap) (isAttribute c.field = true)
      (.equality c.field c.operand.ldapValues) := by
  rw [item_eq]
  have hitem := item_equality_iff h.field h.operand.map_readValue? c.operand.ldapPieces_ne_nil
  rw [← Operand.toLdap_eq_intercalate] at hitem
  exact shows_item (h.itemText .equal) hitem

private theorem FitsLdap.shows_comparison (h : c.FitsLdap) (sign : Sign) (hsign : sign ≠ .equal) :
    Shows (item c.field sign.text c.operand.toLdap)
      (isAttribute c.field = true ∧ ∀ n ∈ c.operand.asField, '*' ∉ n)
      (.comparison c.field sign c.operand.raw.utf8) := by
  rw [item_eq]
  refine shows_item (h.itemText sign) fun u => ?_
  rw [item_comparison_iff h.field hsign]
  simp only [h.operand.readValue?_toLdap]
  constructor
  · rintro ⟨hname, v, ⟨hstar, rfl⟩, rfl⟩
    exact ⟨⟨hname, hstar⟩, rfl⟩
  · rintro ⟨⟨hname, hstar⟩, rfl⟩
    exact ⟨hname, _, ⟨hstar, rfl⟩, rfl⟩

theorem FitsLdap.shows_toLdap (h : c.FitsLdap) : Shows c.toLdap c.Searchable c.search := by
  have heq := h.shows_equality
  obtain ⟨field, op, operand⟩ := c
  cases op with
  | eq => exact heq.congr (by simp [Searchable])
  | ne => exact heq.negation.congr (by simp [Searchable])
  | ge => exact (h.shows_comparison .greaterOrEqual nofun).congr (by simp [Searchable])
  | le => exact (h.shows_comparison .lessOrEqual nofun).congr (by simp [Searchable])
  | gt =>
    have hge := h.shows_comparison .greaterOrEqual nofun
    exact ((hge.cons heq.negation.all).combination (by simp) .and).congr (by simp [Searchable]; tauto)
  | lt =>
    have hge := h.shows_comparison .lessOrEqual nofun
    exact ((hge.cons heq.negation.all).combination (by simp) .and).congr (by simp [Searchable]; tauto)

private theorem showsAll_flatMap {cs : List Clause} (h : ∀ c ∈ cs, c.FitsLdap) :
    ShowsAll (cs.flatMap toLdap) (∀ c ∈ cs, c.Searchable) (cs.map search) := by
  induction cs with
  | nil => simpa using showsAll_nil
  | cons c cs ih =>
    obtain ⟨hc, hcs⟩ := List.forall_mem_cons.mp h
    have hall := hc.shows_toLdap.cons (ih hcs)
    rwa [← List.forall_mem_cons (p := Searchable)] at hall

private theorem operator_search (c : Clause) : c.search.operator = c.operator := by
  obtain ⟨name, op, o⟩ := c
  cases op with
  | eq =>
    simp only [search, Search.equality]
    split <;> rfl
  | ne | gt | ge | lt | le => rfl

private theorem of_equality_eq {n m : Text} {vs ws : List (List UInt8)}
    (h : Search.equality n vs = .equality m ws) : n = m ∧ vs = ws := by
  unfold Search.equality at h
  split at h <;> split at h <;> simp_all

/-- Clauses with one search filter have the same field and operator, and operands of the same text:
equal values come from equal literals. -/
theorem parts_eq_of_search_eq {c d : Clause} (h : c.search = d.search) :
    c.field = d.field ∧ c.operator = d.operator ∧ c.operand.raw = d.operand.raw := by
  have hop : c.operator = d.operator := by
    rw [← c.operator_search, h, d.operator_search]
  obtain ⟨name, op, o⟩ := c
  obtain ⟨name', op', p⟩ := d
  subst hop
  have hequality (he : Search.equality name o.ldapValues = .equality name' p.ldapValues) :
      name = name' ∧ o.raw = p.raw :=
    (of_equality_eq he).imp_right Operand.raw_eq_of_ldapValues_eq
  have hcomparison {sign : Sign}
      (hc : Search.comparison name sign o.raw.utf8 = .comparison name' sign p.raw.utf8) :
      name = name' ∧ o.raw = p.raw := by
    obtain ⟨hname, -, hvalue⟩ := Search.comparison.inj hc
    exact ⟨hname, Text.utf8_injective hvalue⟩
  have hparts : name = name' ∧ o.raw = p.raw := by
    cases op with
    | eq => exact hequality h
    | ne => exact hequality (Search.not.inj h)
    | ge | le => exact hcomparison h
    | gt | lt => exact hcomparison (List.cons.inj (Search.combination.inj h).2).1
  exact ⟨hparts.1, rfl, hparts.2⟩

end Clause
namespace Filter
variable {f : Filter}

/-- The search filter of a whole filter: that of its only clause, or all of them under the first
connective. -/
def search (f : Filter) : Search :=
  match f.connectives, f.clauses with
  | [], [c] => c.search
  | ks, cs => .combination (ks.head?.getD .and) (cs.map Clause.search)

private theorem toLdap_of_connectives {k : Connective} {ks : List Connective}
    (hk : f.connectives = k :: ks) (hmixed : ¬ (.and ∈ f.connectives ∧ .or ∈ f.connectives)) :
    f.toLdap = .ok (combine k (f.clauses.flatMap Clause.toLdap)) := by
  cases hsole : f.soleConnective with
  | error e => exact absurd ((soleConnective_eq_error_iff f e).mp hsole).2 hmixed
  | ok k? =>
    cases k? with
    | none =>
      rw [connectives_of_soleConnective_none hsole] at hk
      cases hk
    | some j =>
      obtain rfl : k = j := eq_of_soleConnective hsole k (hk ▸ List.mem_cons_self)
      rw [toLdap, hsole]
      rfl

theorem shows_toLdap {p : Chain Clause} (h : f.terms = p.terms)
    (hmixed : ¬ (.and ∈ f.connectives ∧ .or ∈ f.connectives))
    (hfits : ∀ c ∈ f.clauses, c.FitsLdap) :
    ∃ s, f.toLdap = .ok s ∧ Shows s (∀ c ∈ f.clauses, c.Searchable) f.search := by
  have hclauses := clauses_eq h
  cases hk : f.connectives with
  | nil =>
    obtain ⟨c, hc⟩ : ∃ c, f.clauses = [c] := by
      rw [connectives_eq h] at hk
      rw [hclauses]
      cases p with
      | single c => exact ⟨c, rfl⟩
      | link c k r => cases hk
      | group c k r => cases hk
    refine ⟨c.toLdap, by simp [toLdap, soleConnective, hk, hc, Except.map], ?_⟩
    have hshows := (hfits c (by simp [hc])).shows_toLdap
    simpa [search, hk, hc] using hshows
  | cons k ks =>
    refine ⟨_, toLdap_of_connectives hk hmixed, ?_⟩
    have hne : f.clauses.map Clause.search ≠ [] := by
      rw [hclauses]
      cases p <;> simp [Chain.atoms]
    have hshows := (Clause.showsAll_flatMap hfits).combination hne k
    simpa [search, hk] using hshows

private theorem exists_shows_of_read {text : Text} (h : read text = .ok f)
    (hmixed : ¬ (.and ∈ f.connectives ∧ .or ∈ f.connectives))
    (hfield : ∀ c ∈ f.clauses, ∀ x ∈ c.field, x ∉ reserved)
    (hname : ∀ c ∈ f.clauses, ∀ n ∈ c.operand.asField, ∀ x ∈ n, x ∉ ['(', ')', '\\', '\x00']) :
    ∃ s, f.toLdap = .ok s ∧ Shows s (∀ c ∈ f.clauses, c.Searchable) f.search := by
  obtain ⟨p, hp⟩ := exists_chain_of_read h
  have hfits : ∀ c ∈ f.clauses, c.FitsLdap := fun c hc =>
    ⟨hfield c hc,
      Operand.fitsLdap_of_legible (legible_of_mem_clauses h hc).operand (hname c hc)⟩
  exact shows_toLdap (congrArg Filter.terms hp) hmixed hfits

/-- Whatever its literals hold, a filter without both connectives is written as a search filter just
when its fields are attributes and no order is asked of a name with asterisks, and then it is read
as the filters of its clauses under the one connective and as nothing else. -/
theorem writes_toLdap_iff {text : Text} (h : read text = .ok f)
    (hmixed : ¬ (.and ∈ f.connectives ∧ .or ∈ f.connectives))
    (hfield : ∀ c ∈ f.clauses, ∀ x ∈ c.field, x ∉ reserved)
    (hname : ∀ c ∈ f.clauses, ∀ n ∈ c.operand.asField, ∀ x ∈ n, x ∉ ['(', ')', '\\', '\x00']) :
    ∃ s, f.toLdap = .ok s ∧
      ∀ u, Writes s u ↔ (∀ c ∈ f.clauses, c.Searchable) ∧ u = f.search := by
  obtain ⟨s, hs, hshows⟩ := exists_shows_of_read h hmixed hfield hname
  exact ⟨s, hs, hshows.iff⟩

theorem writes_toLdap_of_escapes :
    ∃ f, read "cn eq 'a*(b' and n gt 5 and x ne b*".toList = .ok f ∧
      f.toLdap = .ok "(&(cn=a\\2a\\28b)(&(n>=5)(!(n=5)))(!(x=b*)))".toList ∧
      ∀ u, Writes "(&(cn=a\\2a\\28b)(&(n>=5)(!(n=5)))(!(x=b*)))".toList u ↔
        u = .combination .and
          [.comparison ['c', 'n'] .equal (Text.utf8 "a*(b".toList),
            .combination .and [.comparison ['n'] .greaterOrEqual (Text.utf8 ['5']),
              .not (.comparison ['n'] .equal (Text.utf8 ['5']))],
            .not (.substrings ['x'] [Text.utf8 ['b'], []])] := by
  let text := "cn eq 'a*(b' and n gt 5 and x ne b*".toList
  let p : Chain Clause := .link ⟨['c', 'n'], .eq, .text "a*(b".toList⟩ .and
    (.link ⟨['n'], .gt, .number ['5']⟩ .and (.single ⟨['x'], .ne, .field ['b', '*']⟩))
  have hread : read text = .ok ⟨some text, p.terms, []⟩ := eq_ok_of_toOption (by decide +kernel)
  obtain ⟨s, hs, hiff⟩ := writes_toLdap_iff hread (by decide) (by decide) (by decide)
  have hldap : toLdap ⟨some text, p.terms, []⟩ =
      .ok "(&(cn=a\\2a\\28b)(&(n>=5)(!(n=5)))(!(x=b*)))".toList :=
    eq_ok_of_toOption (by decide +kernel)
  obtain rfl := Except.ok.inj (hs.symm.trans hldap)
  have hsearchable : ∀ c ∈ (⟨some text, p.terms, []⟩ : Filter).clauses, c.Searchable := by
    decide +kernel
  refine ⟨_, hread, hldap, fun u => ?_⟩
  rw [hiff, and_iff_right hsearchable]
  rfl

/-- A bare asterisk in a comparison of order, and a field that starts with a hyphen, go into the
search filter as they stand, and make it none. -/
theorem exists_not_writes_toLdap :
    (∃ f s, read "a ge *".toList = .ok f ∧ ¬ (.and ∈ f.connectives ∧ .or ∈ f.connectives) ∧
      (∀ c ∈ f.clauses, ∀ x ∈ c.field, x.isAlphanum = true ∨ x ∈ ['-', '.', ';']) ∧
      (∀ c ∈ f.clauses, ∀ n ∈ c.operand.asField, ∀ x ∈ n, x ∉ ['(', ')', '\\', '\x00']) ∧
      f.toLdap = .ok s ∧ ∀ u, ¬ Writes s u) ∧
    ∃ f s, read "-a eq '1'".toList = .ok f ∧ ¬ (.and ∈ f.connectives ∧ .or ∈ f.connectives) ∧
      (∀ c ∈ f.clauses, ∀ x ∈ c.field, x.isAlphanum = true ∨ x ∈ ['-', '.', ';']) ∧
      (∀ c ∈ f.clauses, ∀ n ∈ c.operand.asField, ∀ x ∈ n, x ∉ ['(', ')', '\\', '\x00']) ∧
      f.toLdap = .ok s ∧ ∀ u, ¬ Writes s u := by
  constructor
  · have hread : read "a ge *".toList = .ok ⟨some "a ge *".toList,
        [.clause ⟨['a'], .ge, .field ['*']⟩], []⟩ := eq_ok_of_toOption (by decide +kernel)
    obtain ⟨s, hs, hshows⟩ := exists_shows_of_read hread (by decide) (by decide) (by decide)
    exact ⟨_, s, hread, by decide, by decide, by decide, hs, hshows.not_writes (by decide +kernel)⟩
  · have hread : read "-a eq '1'".toList = .ok ⟨some "-a eq '1'".toList,
        [.clause ⟨['-', 'a'], .eq, .text ['1']⟩], []⟩ := eq_ok_of_toOption (by decide +kernel)
    obtain ⟨s, hs, hshows⟩ := exists_shows_of_read hread (by decide) (by decide) (by decide)
    exact ⟨_, s, hread, by decide, by decide, by decide, hs, hshows.not_writes (by decide +kernel)⟩

end Filter
end FilterLang
