import FilterLang.Ldap
import FilterLang.Proofs.Separation

/-!
The string form of search filters, after RFC 4515: which texts are search filters, and of which
trees. A value is a sequence of octets; its characters stand for their own, and a backslash with two
hexadecimal digits stands for any one.
-/
namespace FilterLang

/-- Only the characters of the text are tried, not all that there are. -/
instance Text.decidableForallMem (s : Text) (p : Char → Prop) [DecidablePred p] :
    Decidable (∀ c ∈ s, p c) :=
  List.decidableBAll p s

def Text.utf8 (s : Text) : List UInt8 := s.flatMap String.utf8EncodeChar

/-- A text can be had back from its octets. -/
theorem Text.utf8_injective : Function.Injective Text.utf8 := by
  intro s t h
  have hbytes : List.utf8Encode s = List.utf8Encode t := congrArg List.toByteArray h
  have hdecode := congrArg ByteArray.utf8Decode? hbytes
  rw [List.utf8Decode?_utf8Encode, List.utf8Decode?_utf8Encode] at hdecode
  simpa using hdecode

private theorem Text.mem_of_mem_intercalate {c d : Char} {ss : List Text}
    (h : c ∈ List.intercalate [d] ss) : c = d ∨ ∃ s ∈ ss, c ∈ s := by
  induction ss with
  | nil => cases h
  | cons s ss ih =>
    cases ss with
    | nil => exact .inr ⟨s, by simp, by simpa using h⟩
    | cons s' ss =>
      rw [List.intercalate_cons_cons, List.append_assoc] at h
      rcases List.mem_append.mp h with hs | h
      · exact .inr ⟨s, List.mem_cons_self, hs⟩
      rcases List.mem_cons.mp h with rfl | h
      · exact .inl rfl
      rcases ih h with rfl | ⟨t, ht, hc⟩
      · exact .inl rfl
      · exact .inr ⟨t, List.mem_cons_of_mem _ ht, hc⟩

private theorem Text.mem_splitOn_of_mem {c : Char} {s : Text} (d : Char) (h : c ∈ s) :
    c = d ∨ ∃ t ∈ s.splitOn d, c ∈ t := by
  have hsplit : List.intercalate [d] (s.splitOn d) = s := List.intercalate_splitOn d
  rw [← hsplit] at h
  exact Text.mem_of_mem_intercalate h

theorem Text.mem_of_mem_splitOn {c d : Char} {s t : Text} (ht : t ∈ s.splitOn d) (hc : c ∈ t) :
    c ∈ s ∧ c ≠ d := by
  induction s generalizing t with
  | nil =>
    rw [List.splitOn_nil, List.mem_singleton] at ht
    subst ht
    cases hc
  | cons x s ih =>
    rw [List.splitOn_cons_eq_if_modifyHead] at ht
    by_cases hx : x = d
    · rw [if_pos (by simpa using hx)] at ht
      rcases List.mem_cons.mp ht with rfl | ht
      · cases hc
      · exact (ih ht hc).imp_left (List.mem_cons_of_mem x)
    · rw [if_neg (by simpa using hx)] at ht
      obtain ⟨p, ps, hps⟩ := List.exists_cons_of_ne_nil (List.splitOn_ne_nil d s)
      rw [hps] at ht ih
      rcases List.mem_cons.mp ht with rfl | ht
      · rcases List.mem_cons.mp hc with rfl | hc
        · exact ⟨List.mem_cons_self, hx⟩
        · exact (ih List.mem_cons_self hc).imp_left (List.mem_cons_of_mem x)
      · exact (ih (List.mem_cons_of_mem p ht) hc).imp_left (List.mem_cons_of_mem x)

namespace Ldap

inductive Sign where
  | equal
  | approx
  | greaterOrEqual
  | lessOrEqual
  deriving DecidableEq, Repr

def Sign.text : Sign → Text
  | equal => "=".toList
  | approx => "~=".toList
  | greaterOrEqual => ">=".toList
  | lessOrEqual => "<=".toList

/-- A search filter. Of the substrings of a value, the first and the last stand at its ends, and are
empty if nothing is asked of them. An extensible match may lack its attribute or its rule. -/
inductive Search where
  | combination (k : Connective) (filters : List Search)
  | not (filter : Search)
  | comparison (name : Text) (sign : Sign) (value : List UInt8)
  | present (name : Text)
  | substrings (name : Text) (pieces : List (List UInt8))
  | extensible (name : Text) (ofEntry : Bool) (rule : Text) (value : List UInt8)
  deriving Repr

def isKeyChar (c : Char) : Bool := c.isAlphanum || c = '-'

/-- A short name: a letter, then letters, digits and hyphens. -/
def isKeyString : Text → Bool
  | [] => false
  | c :: s => c.isAlpha && s.all isKeyChar

/-- A whole number without leading zeros. -/
def isNumber : Text → Bool
  | [] => false
  | [c] => c.isDigit
  | c :: s => c.isDigit && c ≠ '0' && s.all Char.isDigit

/-- An object identifier: a short name, or several numbers with points between them. -/
def isObjectId (s : Text) : Bool :=
  let arcs := s.splitOn '.'
  isKeyString s || (2 ≤ arcs.length && arcs.all isNumber)

/-- An attribute description: an object identifier and perhaps options, each behind a semicolon. -/
def isAttribute (s : Text) : Bool :=
  match s.splitOn ';' with
  | [] => false
  | type :: options => isObjectId type && options.all fun o => !o.isEmpty && o.all isKeyChar

def escaped : Text := ['(', ')', '*', '\\', '\x00']

def isNormal (c : Char) : Bool := c ∉ escaped

/-- The octets that are written as a value, if it is one. -/
def readValue? : Text → Option (List UInt8)
  | [] => some []
  | '\\' :: a :: b :: s => do
    let high ← Text.hexValue? a
    let low ← Text.hexValue? b
    let rest ← readValue? s
    return UInt8.ofNat (16 * high + low) :: rest
  | c :: s => if isNormal c then (readValue? s).map (String.utf8EncodeChar c ++ ·) else none

/-- What stands in the parentheses of a filter without components. An asterisk alone asks for the
presence of the attribute and nothing else. -/
inductive Item : Text → Search → Prop where
  | simple {a s : Text} {v : List UInt8} (sign : Sign) (ha : isAttribute a = true)
      (hv : readValue? s = some v) : Item (a ++ (sign.text ++ s)) (.comparison a sign v)
  | present {a : Text} (ha : isAttribute a = true) : Item (a ++ "=*".toList) (.present a)
  | substrings {a : Text} {ss : List Text} {vs : List (List UInt8)} (ha : isAttribute a = true)
      (hs : ss.map readValue? = vs.map some) (hlen : 2 ≤ ss.length) (hstar : ss ≠ [[], []]) :
      Item (a ++ '=' :: List.intercalate ['*'] ss) (.substrings a vs)
  | extensible {a dn rule s : Text} {v : List UInt8} (ha : a = [] ∨ isAttribute a = true)
      (hdn : dn ∈ ["", ":dn", ":DN", ":Dn", ":dN"].map String.toList)
      (hrule : rule = [] ∨ ∃ oid, rule = ':' :: oid ∧ isObjectId oid = true)
      (hone : a ≠ [] ∨ rule ≠ []) (hv : readValue? s = some v) :
      Item (a ++ (dn ++ (rule ++ ':' :: '=' :: s))) (.extensible a (dn ≠ []) (rule.drop 1) v)

def combinator : Connective → Char
  | .and => '&'
  | .or => '|'

mutual

/-- Whether a text is a search filter, and of which tree. -/
inductive Writes : Text → Search → Prop where
  | item {s : Text} {u : Search} (h : Item s u) : Writes ('(' :: s ++ [')']) u
  | not {s : Text} {u : Search} (h : Writes s u) : Writes ('(' :: '!' :: s ++ [')']) (.not u)
  | combination (k : Connective) {s : Text} {us : List Search} (h : WritesAll s us)
      (hne : us ≠ []) : Writes ('(' :: combinator k :: s ++ [')']) (.combination k us)

inductive WritesAll : Text → List Search → Prop where
  | nil : WritesAll [] []
  | cons {s t : Text} {u : Search} {us : List Search} (h : Writes s u) (hs : WritesAll t us) :
      WritesAll (s ++ t) (u :: us)

end

def reserved : Text := ['(', ')', '&', '|', '!', '=', '~', '<', '>', ':']

def EndsAttribute (t : Text) : Prop := ∃ c ∈ t.head?, c ∈ ['=', '~', '<', '>', ':']

/-! No name holds a reserved character. -/

private theorem not_reserved_of_isKeyChar {c : Char} (h : isKeyChar c = true) : c ∉ reserved := by
  have hreserved : ∀ d ∈ reserved, isKeyChar d = false := by decide
  intro hc
  rw [hreserved c hc] at h
  cases h

private theorem not_reserved_of_isDigit {c : Char} (h : c.isDigit = true) : c ∉ reserved :=
  not_reserved_of_isKeyChar (by simp [isKeyChar, Char.isAlphanum, h])

private theorem not_reserved_of_isNumber {s : Text} (h : isNumber s = true) :
    ∀ c ∈ s, c ∉ reserved := by
  have hdigits : ∀ c ∈ s, c.isDigit = true := by
    unfold isNumber at h
    split at h <;> simp_all
  exact fun c hc => not_reserved_of_isDigit (hdigits c hc)

theorem not_reserved_of_isObjectId {s : Text} (h : isObjectId s = true) :
    ∀ c ∈ s, c ∉ reserved := by
  intro c hc
  rcases Bool.or_eq_true_iff.mp h with hkey | harcs
  · cases s with
    | nil => cases hc
    | cons d s =>
      obtain ⟨hd, hs⟩ : d.isAlpha = true ∧ ∀ x ∈ s, isKeyChar x = true := by
        simpa [isKeyString] using hkey
      rcases List.mem_cons.mp hc with rfl | hc
      · exact not_reserved_of_isKeyChar (by simp [isKeyChar, Char.isAlphanum, hd])
      · exact not_reserved_of_isKeyChar (hs c hc)
  · obtain ⟨-, harcs⟩ : 2 ≤ (s.splitOn '.').length ∧ ∀ t ∈ s.splitOn '.', isNumber t = true := by
      simpa using harcs
    rcases Text.mem_splitOn_of_mem '.' hc with rfl | ⟨t, ht, hc⟩
    · decide
    · exact not_reserved_of_isNumber (harcs t ht) c hc

theorem not_reserved_of_isAttribute {s : Text} (h : isAttribute s = true) :
    ∀ c ∈ s, c ∉ reserved := by
  intro c hc
  rcases Text.mem_splitOn_of_mem ';' hc with rfl | ⟨t, ht, hc⟩
  · decide
  unfold isAttribute at h
  cases hs : s.splitOn ';' with
  | nil =>
    rw [hs] at ht
    cases ht
  | cons type options =>
    rw [hs] at h ht
    obtain ⟨htype, hoptions⟩ : isObjectId type = true ∧
        ∀ o ∈ options, o ≠ [] ∧ ∀ x ∈ o, isKeyChar x = true := by
      simpa using h
    rcases List.mem_cons.mp ht with rfl | ht
    · exact not_reserved_of_isObjectId htype c hc
    · exact not_reserved_of_isKeyChar ((hoptions t ht).2 c hc)

theorem not_reserved_of_nil_or {s : Text} (h : s = [] ∨ isAttribute s = true) :
    ∀ c ∈ s, c ∉ reserved := by
  rcases h with rfl | h
  · nofun
  · exact not_reserved_of_isAttribute h

/-! Values. -/

private theorem readValue?_escape_pair {a b : Char} {x y : ℕ} (ha : Text.hexValue? a = some x)
    (hb : Text.hexValue? b = some y) (s : Text) :
    readValue? ('\\' :: a :: b :: s) = (readValue? s).map (UInt8.ofNat (16 * x + y) :: ·) := by
  rw [readValue?, ha, hb]
  cases readValue? s <;> rfl

private theorem readValue?_cons_of_isNormal {c : Char} (hc : isNormal c = true) (s : Text) :
    readValue? (c :: s) = (readValue? s).map (String.utf8EncodeChar c ++ ·) := by
  have hne : c ≠ '\\' := by
    rintro rfl
    cases hc
  rw [readValue?, if_pos hc]
  exact fun _ _ _ h => absurd h hne

/-- A value without characters to escape stands for its own octets. -/
theorem readValue?_of_isNormal {s : Text} (h : ∀ c ∈ s, isNormal c = true) :
    readValue? s = some s.utf8 := by
  induction s with
  | nil => rfl
  | cons c s ih =>
    obtain ⟨hc, hs⟩ := List.forall_mem_cons.mp h
    rw [readValue?_cons_of_isNormal hc, ih hs]
    rfl

private theorem readValue?_escapeChar_append (c : Char) (s : Text) :
    readValue? (escapeChar c ++ s) = (readValue? s).map (String.utf8EncodeChar c ++ ·) := by
  by_cases hc : isNormal c = true
  · have hescape : escapeChar c = [c] := by
      simp only [isNormal, escaped, List.mem_cons, not_or, decide_eq_true_eq] at hc
      simp [escapeChar, hc]
    rw [hescape, List.singleton_append, readValue?_cons_of_isNormal hc]
  · have hmem : c ∈ escaped := by
      simpa [isNormal] using hc
    simp only [escaped, List.mem_cons, List.not_mem_nil, or_false] at hmem
    rcases hmem with rfl | rfl | rfl | rfl | rfl
    · exact readValue?_escape_pair (a := '2') (b := '8') rfl rfl s
    · exact readValue?_escape_pair (a := '2') (b := '9') rfl rfl s
    · exact readValue?_escape_pair (a := '2') (b := 'a') rfl rfl s
    · exact readValue?_escape_pair (a := '5') (b := 'c') rfl rfl s
    · exact readValue?_escape_pair (a := '0') (b := '0') rfl rfl s

/-- Every text can be a value: escaped, it stands for its own octets. -/
theorem readValue?_escape (s : Text) : readValue? (escape s) = some s.utf8 := by
  induction s with
  | nil => rfl
  | cons c s ih =>
    change readValue? (escapeChar c ++ escape s) = _
    rw [readValue?_escapeChar_append, ih]
    rfl

/-- A value holds no parenthesis and no bare asterisk. -/
theorem not_mem_of_readValue? {s : Text} {v : List UInt8} (h : readValue? s = some v) :
    ∀ c ∈ s, c ≠ '(' ∧ c ≠ ')' ∧ c ≠ '*' := by
  have hhex {c : Char} {x : ℕ} (hc : Text.hexValue? c = some x) : c ≠ '(' ∧ c ≠ ')' ∧ c ≠ '*' := by
    refine ⟨?_, ?_, ?_⟩ <;> rintro rfl <;> cases hc
  fun_induction readValue? s generalizing v with
  | case1 => nofun
  | case2 a b s ih =>
    obtain ⟨x, ha, y, hb, w, hw, -⟩ : ∃ x, Text.hexValue? a = some x ∧
        ∃ y, Text.hexValue? b = some y ∧ ∃ w, readValue? s = some w ∧
          UInt8.ofNat (16 * x + y) :: w = v := by
      simpa [Option.bind_eq_some_iff] using h
    simp only [List.forall_mem_cons]
    exact ⟨by decide, hhex ha, hhex hb, ih hw⟩
  | case3 c s _ hc ih =>
    obtain ⟨w, hw, -⟩ := Option.map_eq_some_iff.mp h
    refine List.forall_mem_cons.mpr ⟨?_, ih hw⟩
    refine ⟨?_, ?_, ?_⟩ <;> rintro rfl <;> cases hc
  | case4 c s _ hc => cases h

theorem eq_nil_of_readValue?_nil {s : Text} (h : readValue? s = some []) : s = [] := by
  fun_cases readValue? s with
  | case1 => rfl
  | case2 a b s => simp [readValue?, Option.bind_eq_some_iff] at h
  | case3 c s _ hc =>
    obtain ⟨w, -, hw⟩ := Option.map_eq_some_iff.mp (readValue?_cons_of_isNormal hc s ▸ h)
    have hlength := congrArg List.length (List.append_eq_nil_iff.mp hw).1
    rw [String.length_utf8EncodeChar] at hlength
    exact absurd hlength (Nat.ne_of_gt c.utf8Size_pos)
  | case4 c s _ hc =>
    rw [readValue?, if_neg hc] at h
    · cases h
    · assumption

theorem not_paren_of_readValue? {s : Text} {v : List UInt8} (h : readValue? s = some v) :
    ∀ c ∈ s, c ≠ '(' ∧ c ≠ ')' := fun c hc =>
  ⟨(not_mem_of_readValue? h c hc).1, (not_mem_of_readValue? h c hc).2.1⟩

private theorem exists_readValue?_eq {ss : List Text} {vs : List (List UInt8)}
    (h : ss.map readValue? = vs.map some) {s : Text} (hs : s ∈ ss) :
    ∃ v, readValue? s = some v := by
  have hmem : readValue? s ∈ vs.map some := h ▸ List.mem_map_of_mem hs
  obtain ⟨v, -, hv⟩ := List.mem_map.mp hmem
  exact ⟨v, hv.symm⟩

theorem not_paren_intercalate {ss : List Text} {vs : List (List UInt8)}
    (h : ss.map readValue? = vs.map some) :
    ∀ c ∈ List.intercalate ['*'] ss, c ≠ '(' ∧ c ≠ ')' := by
  intro c hc
  rcases Text.mem_of_mem_intercalate hc with rfl | ⟨s, hs, hc⟩
  · decide
  · obtain ⟨v, hv⟩ := exists_readValue?_eq h hs
    exact not_paren_of_readValue? hv c hc

theorem not_mem_of_map_readValue? {ss : List Text} {vs : List (List UInt8)}
    (h : ss.map readValue? = vs.map some) : ∀ s ∈ ss, '*' ∉ s := by
  intro s hs hmem
  obtain ⟨v, hv⟩ := exists_readValue?_eq h hs
  exact (not_mem_of_readValue? hv _ hmem).2.2 rfl

end Ldap
end FilterLang
