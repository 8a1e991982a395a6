import FilterLang.Proofs.LdapGrammar

/-!
How search filters are told apart. An attribute ends at the sign behind it and an item at the next
parenthesis, so a text that starts with a search filter shows which one it is, up to whether there is
one at all.
-/
namespace FilterLang
namespace Ldap

/-- The text of an item: it is closed by the next parenthesis, and starts no other filter. -/
structure ItemText (i : Text) : Prop where
  not_paren : ∀ c ∈ i, c ≠ '(' ∧ c ≠ ')'
  head : ∃ c ∈ i.head?, c ≠ '!' ∧ ∀ k, c ≠ combinator k

private theorem ne_of_not_reserved {c d : Char} (hc : c ∉ reserved) (hd : d ∈ reserved) :
    c ≠ d := by
  rintro rfl
  exact hc hd

private theorem not_paren_of_not_reserved {a : Text} (h : ∀ c ∈ a, c ∉ reserved) :
    ∀ c ∈ a, c ≠ '(' ∧ c ≠ ')' := fun c hc =>
  ⟨ne_of_not_reserved (h c hc) (by decide), ne_of_not_reserved (h c hc) (by decide)⟩

theorem itemText_of_name {a t : Text} (ha : ∀ c ∈ a, c ∉ reserved) (ht : EndsAttribute t)
    (hparen : ∀ c ∈ t, c ≠ '(' ∧ c ≠ ')') : ItemText (a ++ t) := by
  refine ⟨List.forall_mem_append.mpr ⟨not_paren_of_not_reserved ha, hparen⟩, ?_⟩
  cases a with
  | nil =>
    have hends : ∀ c ∈ ['=', '~', '<', '>', ':'], c ≠ '!' ∧ c ≠ '&' ∧ c ≠ '|' := by decide
    obtain ⟨c, hc, hd⟩ := ht
    obtain ⟨hnot, hand, hor⟩ := hends c hd
    exact ⟨c, hc, hnot, fun k => by cases k <;> assumption⟩
  | cons c a =>
    have hc := ha c List.mem_cons_self
    refine ⟨c, rfl, ne_of_not_reserved hc (by decide), fun k => ?_⟩
    cases k <;> exact ne_of_not_reserved hc (by decide)

theorem Sign.endsAttribute (sign : Sign) (s : Text) : EndsAttribute (sign.text ++ s) := by
  cases sign <;> exact ⟨_, rfl, by decide⟩

private theorem separates_name :
    Separates (fun a : Text => a) (fun a => ∀ c ∈ a, c ∉ reserved) EndsAttribute := by
  have hmem : ∀ c ∈ ['=', '~', '<', '>', ':'], c ∈ reserved := by decide
  intro a b r s ha hb hr hs h
  have hends {t : Text} (ht : EndsAttribute t) : ∀ c ∈ t.head?, c ∈ reserved := by
    obtain ⟨d, hd, hmemd⟩ := ht
    intro c hc
    obtain rfl : d = c := Option.mem_unique hd hc
    exact hmem d hmemd
  exact separates_id (· ∈ reserved) ha hb (hends hr) (hends hs) h

theorem Sign.not_paren (sign : Sign) : ∀ c ∈ sign.text, c ≠ '(' ∧ c ≠ ')' := by
  cases sign <;> decide

private theorem Sign.text_append_inj {sign sign' : Sign} {s t : Text}
    (h : sign.text ++ s = sign'.text ++ t) : sign = sign' ∧ s = t := by
  cases sign <;> cases sign' <;> simp_all [text]

private theorem exists_eq_colon_cons {dn rule : Text}
    (hdn : dn ∈ ["", ":dn", ":DN", ":Dn", ":dN"].map String.toList)
    (hrule : rule = [] ∨ ∃ oid, rule = ':' :: oid ∧ isObjectId oid = true) (s : Text) :
    ∃ t, dn ++ (rule ++ ':' :: '=' :: s) = ':' :: t := by
  have hentry : ∀ t ∈ ["", ":dn", ":DN", ":Dn", ":dN"].map String.toList,
      t = [] ∨ t.head? = some ':' := by decide
  rcases hentry dn hdn with rfl | hhead
  · rcases hrule with rfl | ⟨oid, rfl, -⟩
    · exact ⟨_, rfl⟩
    · exact ⟨_, rfl⟩
  · obtain ⟨t, rfl⟩ := List.head?_eq_some_iff.mp hhead
    exact ⟨_, rfl⟩

private theorem Item.exists_name {i : Text} {u : Search} (h : Item i u) :
    ∃ a t, i = a ++ t ∧ (∀ c ∈ a, c ∉ reserved) ∧ EndsAttribute t ∧
      ∀ c ∈ t, c ≠ '(' ∧ c ≠ ')' := by
  cases h with
  | @simple a s v sign ha hv =>
    refine ⟨a, _, rfl, not_reserved_of_isAttribute ha, sign.endsAttribute s, ?_⟩
    exact List.forall_mem_append.mpr ⟨sign.not_paren, not_paren_of_readValue? hv⟩
  | @present a ha =>
    exact ⟨a, _, rfl, not_reserved_of_isAttribute ha, ⟨_, rfl, by decide⟩, by decide⟩
  | @substrings a ss vs ha hs _ _ =>
    refine ⟨a, _, rfl, not_reserved_of_isAttribute ha, ⟨_, rfl, by decide⟩, ?_⟩
    exact List.forall_mem_cons.mpr ⟨by decide, not_paren_intercalate hs⟩
  | @extensible a dn rule s v ha hdn hrule _ hv =>
    have hentry : ∀ c ∈ dn, c ≠ '(' ∧ c ≠ ')' := by
      revert dn
      decide
    have hid : ∀ c ∈ rule, c ≠ '(' ∧ c ≠ ')' := by
      rcases hrule with rfl | ⟨oid, rfl, hoid⟩
      · nofun
      · have hparen := not_paren_of_not_reserved (not_reserved_of_isObjectId hoid)
        exact List.forall_mem_cons.mpr ⟨by decide, hparen⟩
    obtain ⟨t, ht⟩ := exists_eq_colon_cons hdn hrule s
    refine ⟨a, _, rfl, not_reserved_of_nil_or ha, ⟨':', by rw [ht]; rfl, by decide⟩, ?_⟩
    simp only [List.forall_mem_append, List.forall_mem_cons]
    exact ⟨hentry, hid, by decide, by decide, not_paren_of_readValue? hv⟩

theorem Item.itemText {i : Text} {u : Search} (h : Item i u) : ItemText i := by
  obtain ⟨a, t, rfl, ha, ht, hparen⟩ := h.exists_name
  exact itemText_of_name ha ht hparen

/-- The items that an attribute and a comparison can write. -/
theorem item_iff {name value : Text} {sign : Sign} {u : Search} (hn : ∀ c ∈ name, c ∉ reserved) :
    Item (name ++ (sign.text ++ value)) u ↔ isAttribute name = true ∧
      ((∃ v, readValue? value = some v ∧ u = .comparison name sign v) ∨
        sign = .equal ∧ value = ['*'] ∧ u = .present name ∨
        sign = .equal ∧ ∃ ss vs, ss.map readValue? = vs.map some ∧ 2 ≤ ss.length ∧
          ss ≠ [[], []] ∧ value = List.intercalate ['*'] ss ∧ u = .substrings name vs) := by
  have hsign := sign.endsAttribute value
  constructor
  · intro h
    generalize hi : name ++ (sign.text ++ value) = i at h
    cases h with
    | @simple a s v sign' ha hv =>
      obtain ⟨rfl, hrest⟩ := separates_name hn (not_reserved_of_isAttribute ha) hsign
        (sign'.endsAttribute s) hi
      obtain ⟨rfl, rfl⟩ := Sign.text_append_inj hrest
      exact ⟨ha, .inl ⟨v, hv, rfl⟩⟩
    | @present a ha =>
      obtain ⟨rfl, hrest⟩ := separates_name hn (not_reserved_of_isAttribute ha) hsign
        ⟨_, rfl, by decide⟩ hi
      have hstar : sign.text ++ value = Sign.equal.text ++ ['*'] := hrest
      obtain ⟨rfl, rfl⟩ := Sign.text_append_inj hstar
      exact ⟨ha, .inr (.inl ⟨rfl, rfl, rfl⟩)⟩
    | @substrings a ss vs ha hs hlen hstar =>
      obtain ⟨rfl, hrest⟩ := separates_name hn (not_reserved_of_isAttribute ha) hsign
        ⟨_, rfl, by decide⟩ hi
      have hequal : sign.text ++ value = Sign.equal.text ++ List.intercalate ['*'] ss := hrest
      obtain ⟨rfl, rfl⟩ := Sign.text_append_inj hequal
      exact ⟨ha, .inr (.inr ⟨rfl, ss, vs, hs, hlen, hstar, rfl, rfl⟩)⟩
    | @extensible a dn rule s v ha hdn hrule _ hv =>
      obtain ⟨t, ht⟩ := exists_eq_colon_cons hdn hrule s
      rw [ht] at hi
      obtain ⟨-, hrest⟩ := separates_name hn (not_reserved_of_nil_or ha) hsign
        ⟨':', rfl, by decide⟩ hi
      cases sign <;> cases hrest
  · rintro ⟨hname, ⟨v, hv, rfl⟩ | ⟨rfl, rfl, rfl⟩ | ⟨rfl, ss, vs, hs, hlen, hstar, rfl, rfl⟩⟩
    · exact .simple sign hname hv
    · exact .present hname
    · exact .substrings hname hs hlen hstar

def Search.equality (name : Text) : List (List UInt8) → Search
  | [v] => .comparison name .equal v
  | [[], []] => .present name
  | vs => .substrings name vs

private theorem mem_intercalate_of_two_le {ss : List Text} (h : 2 ≤ ss.length) :
    '*' ∈ List.intercalate ['*'] ss := by
  match ss, h with
  | s :: s' :: ss, _ => simp [List.intercalate_cons_cons]

private theorem map_some_injective {vs ws : List (List UInt8)} (h : vs.map some = ws.map some) :
    vs = ws :=
  List.map_injective_iff.mpr (fun _ _ => Option.some.inj) h

private theorem eq_of_intercalate_eq {ss ts : List Text} (hs : ∀ s ∈ ss, '*' ∉ s)
    (ht : ∀ t ∈ ts, '*' ∉ t) (hss : ss ≠ []) (hts : ts ≠ [])
    (h : List.intercalate ['*'] ss = List.intercalate ['*'] ts) :
    ss = ts := by
  have hsplit := congrArg (List.splitOn '*') h
  rwa [List.splitOn_intercalate '*' hs hss, List.splitOn_intercalate '*' ht hts] at hsplit

private theorem Search.equality_of_two_le {name : Text} {vs : List (List UInt8)} (h : 2 ≤ vs.length)
    (hne : vs ≠ [[], []]) : equality name vs = .substrings name vs := by
  unfold equality
  split
  · simp at h
  · exact absurd rfl hne
  · rfl

private theorem item_value_iff {name s : Text} {v : List UInt8} (hn : ∀ c ∈ name, c ∉ reserved)
    (hv : readValue? s = some v) (u : Search) :
    Item (name ++ (Sign.equal.text ++ s)) u ↔
      isAttribute name = true ∧ u = .comparison name .equal v := by
  rw [item_iff hn]
  refine and_congr_right fun _ => ⟨?_, ?_⟩
  · rintro (⟨w, hw, rfl⟩ | ⟨-, rfl, -⟩ | ⟨-, ts, ws, -, ht, -, rfl, -⟩)
    · obtain rfl := Option.some.inj (hv.symm.trans hw)
      rfl
    · cases hv
    · exact absurd rfl (not_mem_of_readValue? hv _ (mem_intercalate_of_two_le ht)).2.2
  · rintro rfl
    exact .inl ⟨v, hv, rfl⟩

private theorem item_pieces_iff {name : Text} (hn : ∀ c ∈ name, c ∉ reserved) {ss : List Text}
    {vs : List (List UInt8)} (hs : ss.map readValue? = vs.map some) (htwo : 2 ≤ ss.length)
    (u : Search) :
    Item (name ++ (Sign.equal.text ++ List.intercalate ['*'] ss)) u ↔ isAttribute name = true ∧
      (ss = [[], []] ∧ u = .present name ∨ ss ≠ [[], []] ∧ u = .substrings name vs) := by
  have hne : ss ≠ [] := List.ne_nil_of_length_pos (by omega)
  have hstars := not_mem_of_map_readValue? hs
  rw [item_iff hn]
  refine and_congr_right fun _ => ⟨?_, ?_⟩
  · rintro (⟨v, hv, -⟩ | ⟨-, h, rfl⟩ | ⟨-, ts, ws, hts, ht, hstar, h, rfl⟩)
    · exact absurd rfl (not_mem_of_readValue? hv _ (mem_intercalate_of_two_le htwo)).2.2
    · have hstar : ss = [[], []] :=
        eq_of_intercalate_eq hstars (by decide) hne (by decide) h
      exact .inl ⟨hstar, rfl⟩
    · obtain rfl := eq_of_intercalate_eq hstars (not_mem_of_map_readValue? hts) hne
        (List.ne_nil_of_length_pos (by omega)) h
      obtain rfl := map_some_injective (hs.symm.trans hts)
      exact .inr ⟨hstar, rfl⟩
  · rintro (⟨rfl, rfl⟩ | ⟨hstar, rfl⟩)
    · exact .inr (.inl ⟨rfl, rfl, rfl⟩)
    · exact .inr (.inr ⟨rfl, ss, vs, hs, htwo, hstar, rfl, rfl⟩)

/-- A value with asterisks is read piece by piece. -/
theorem item_equality_iff {name : Text} (hn : ∀ c ∈ name, c ∉ reserved) {ss : List Text}
    {vs : List (List UInt8)} (hs : ss.map readValue? = vs.map some) (hne : ss ≠ []) (u : Search) :
    Item (name ++ (Sign.equal.text ++ List.intercalate ['*'] ss)) u ↔
      isAttribute name = true ∧ u = .equality name vs := by
  have hlength : ss.length = vs.length := by simpa using congrArg List.length hs
  by_cases htwo : 2 ≤ ss.length
  · rw [item_pieces_iff hn hs htwo]
    by_cases hstar : ss = [[], []]
    · subst hstar
      obtain rfl : vs = [[], []] := map_some_injective hs.symm
      simp [Search.equality]
    · have hvs : vs ≠ [[], []] := by
        rintro rfl
        obtain ⟨s, ts, rfl, hhead, hts⟩ := List.map_eq_cons_iff.mp hs
        obtain ⟨t, rfl, ht⟩ := List.map_eq_singleton_iff.mp hts
        exact hstar (by rw [eq_nil_of_readValue?_nil hhead, eq_nil_of_readValue?_nil ht])
      rw [Search.equality_of_two_le (hlength ▸ htwo) hvs]
      simp [hstar]
  · have hpos := List.length_pos_iff.mpr hne
    obtain ⟨s, rfl⟩ : ∃ s, ss = [s] := List.length_eq_one_iff.mp (by omega)
    obtain ⟨v, rfl⟩ : ∃ v, vs = [v] := List.length_eq_one_iff.mp hlength.symm
    rw [List.intercalate_singleton]
    exact item_value_iff hn (List.cons.inj hs).1 u

theorem item_comparison_iff {name value : Text} {sign : Sign} (hn : ∀ c ∈ name, c ∉ reserved)
    (hsign : sign ≠ .equal) (u : Search) :
    Item (name ++ (sign.text ++ value)) u ↔
      isAttribute name = true ∧ ∃ v, readValue? value = some v ∧ u = .comparison name sign v := by
  rw [item_iff hn]
  simp [hsign]

/-- Whether a text starts a search filter just under a condition, and then is the whole of it. -/
structure Shows (w : Text) (ok : Prop) (u : Search) : Prop where
  opens : ∃ t, w = '(' :: t
  written : ok → Writes w u
  unique : ∀ {s t r v}, Writes s v → s ++ t = w ++ r → ok ∧ s = w ∧ v = u

structure ShowsAll (w : Text) (ok : Prop) (us : List Search) : Prop where
  written : ok → WritesAll w us
  unique : ∀ {s t r vs}, WritesAll s vs → s ++ ')' :: t = w ++ ')' :: r → ok ∧ s = w ∧ vs = us

theorem Shows.iff {w : Text} {ok : Prop} {u : Search} (h : Shows w ok u) (v : Search) :
    Writes w v ↔ ok ∧ v = u := by
  constructor
  · intro hw
    obtain ⟨hok, -, hv⟩ := h.unique (t := []) hw rfl
    exact ⟨hok, hv⟩
  · rintro ⟨hok, rfl⟩
    exact h.written hok

theorem Shows.not_writes {w : Text} {ok : Prop} {u : Search} (h : Shows w ok u) (hno : ¬ ok)
    (v : Search) : ¬ Writes w v := fun hw => hno ((h.iff v).mp hw).1

theorem Shows.congr {w : Text} {ok ok' : Prop} {u : Search} (h : Shows w ok u) (hok : ok ↔ ok') :
    Shows w ok' u := by
  rwa [← hok]

/-- Items are told apart from whatever stands behind the parenthesis that closes them. -/
theorem separates_item :
    Separates (fun i : Text => i) ItemText (fun t => ∃ r, t = ')' :: r) := by
  intro i j t r hi hj ht hr h
  have hparen {i : Text} (hi : ItemText i) : ∀ c ∈ i, ¬ c = ')' := fun c hc =>
    (hi.not_paren c hc).2
  have hends {t : Text} (ht : ∃ r, t = ')' :: r) : ∀ c ∈ t.head?, c = ')' := by
    obtain ⟨r, rfl⟩ := ht
    intro c hc
    exact (Option.some.inj hc).symm
  exact separates_id (· = ')') (hparen hi) (hparen hj) (hends ht) (hends hr) h

private theorem ItemText.exists_cons {i : Text} (h : ItemText i) :
    ∃ c t, i = c :: t ∧ c ≠ '!' ∧ ∀ k, c ≠ combinator k := by
  obtain ⟨c, hc, hne⟩ := h.head
  obtain ⟨t, rfl⟩ := List.head?_eq_some_iff.mp hc
  exact ⟨c, t, rfl, hne⟩

theorem shows_item {i : Text} {ok : Prop} {u : Search} (hi : ItemText i)
    (h : ∀ v, Item i v ↔ ok ∧ v = u) : Shows ('(' :: i ++ [')']) ok u := by
  refine ⟨⟨_, rfl⟩, fun hok => .item ((h u).mpr ⟨hok, rfl⟩), fun {s t r v} hw he => ?_⟩
  obtain ⟨c, i', hc, hnot, hcombinator⟩ := hi.exists_cons
  cases hw with
  | @item j v hj =>
    simp only [List.cons_append, List.append_assoc, List.cons.injEq, true_and, List.nil_append]
      at he
    obtain ⟨rfl, -⟩ := separates_item hj.itemText hi ⟨_, rfl⟩ ⟨_, rfl⟩ he
    obtain ⟨hok, rfl⟩ := (h v).mp hj
    exact ⟨hok, rfl, rfl⟩
  | not hs =>
    rw [hc] at he
    exact absurd (List.cons.inj (List.cons.inj he).2).1.symm hnot
  | combination k hs _ =>
    rw [hc] at he
    exact absurd (List.cons.inj (List.cons.inj he).2).1.symm (hcombinator k)

private theorem combinator_ne_not (k : Connective) : combinator k ≠ '!' := by
  cases k <;> decide

private theorem combinator_injective {j k : Connective} (h : combinator j = combinator k) :
    j = k := by
  cases j <;> cases k <;> simp_all [combinator]

theorem Shows.negation {w : Text} {ok : Prop} {u : Search} (h : Shows w ok u) :
    Shows (negation w) ok (.not u) := by
  refine ⟨⟨_, rfl⟩, fun hok => .not (h.written hok), fun {s t r v} hw he => ?_⟩
  rw [Ldap.negation] at he ⊢
  cases hw with
  | item hi =>
    obtain ⟨c, i', rfl, hnot, -⟩ := hi.itemText.exists_cons
    exact absurd (List.cons.inj (List.cons.inj he).2).1 hnot
  | not hs =>
    simp only [List.cons_append, List.append_assoc, List.cons.injEq, true_and, List.nil_append]
      at he
    obtain ⟨hok, rfl, rfl⟩ := h.unique hs he
    exact ⟨hok, rfl, rfl⟩
  | combination k hs _ => exact absurd (List.cons.inj (List.cons.inj he).2).1 (combinator_ne_not k)

private theorem Writes.exists_cons {s : Text} {u : Search} (h : Writes s u) :
    ∃ t, s = '(' :: t := by
  cases h <;> exact ⟨_, rfl⟩

theorem showsAll_nil : ShowsAll [] True [] := by
  refine ⟨fun _ => .nil, fun {s t r vs} hw he => ?_⟩
  cases hw with
  | nil => exact ⟨trivial, rfl, rfl⟩
  | cons h hs =>
    obtain ⟨s', rfl⟩ := h.exists_cons
    cases he

theorem Shows.cons {w ws : Text} {ok oks : Prop} {u : Search} {us : List Search}
    (h : Shows w ok u) (hs : ShowsAll ws oks us) : ShowsAll (w ++ ws) (ok ∧ oks) (u :: us) := by
  refine ⟨fun hok => .cons (h.written hok.1) (hs.written hok.2), fun {s t r vs} hws he => ?_⟩
  cases hws with
  | nil =>
    obtain ⟨w', rfl⟩ := h.opens
    cases he
  | cons hhead htail =>
    rw [List.append_assoc, List.append_assoc] at he
    obtain ⟨hok, rfl, rfl⟩ := h.unique hhead he
    obtain ⟨hoks, rfl, rfl⟩ := hs.unique htail (List.append_cancel_left he)
    exact ⟨⟨hok, hoks⟩, rfl, rfl⟩

theorem Shows.all {w : Text} {ok : Prop} {u : Search} (h : Shows w ok u) : ShowsAll w ok [u] := by
  have hall := h.cons showsAll_nil
  rwa [List.append_nil, and_true] at hall

theorem ShowsAll.combination {w : Text} {ok : Prop} {us : List Search} (h : ShowsAll w ok us)
    (hne : us ≠ []) (k : Connective) : Shows (combine k w) ok (.combination k us) := by
  have hcombine : combine k w = '(' :: combinator k :: w ++ [')'] := by
    cases k <;> rfl
  rw [hcombine]
  refine ⟨⟨_, rfl⟩, fun hok => .combination k (h.written hok) hne, fun {s t r v} hw he => ?_⟩
  cases hw with
  | item hi =>
    obtain ⟨c, i', rfl, -, hcombinator⟩ := hi.itemText.exists_cons
    exact absurd (List.cons.inj (List.cons.inj he).2).1 (hcombinator k)
  | not hs => exact absurd (List.cons.inj (List.cons.inj he).2).1.symm (combinator_ne_not k)
  | combination j hs _ =>
    simp only [List.cons_append, List.append_assoc, List.cons.injEq, true_and, List.nil_append]
      at he
    obtain ⟨hk, he⟩ := he
    obtain rfl := combinator_injective hk
    obtain ⟨hok, rfl, rfl⟩ := h.unique hs he
    exact ⟨hok, rfl, rfl⟩

end Ldap
end FilterLang
