import FilterLang.Filter.Read
import FilterLang.Proofs.Lexing

/-!
Text that a scan for a closing parenthesis passes over: words, literals whatever they hold, and
groups of such text. The scan is as deep behind it as before it. Where quotes leave it does not
depend on the depth.
-/
namespace FilterLang.Text

def Scan.behind (scan : Scan) (s : Text) : Scan := s.foldl (fun scan c => scan.next c) scan

@[simp] theorem Scan.behind_nil (scan : Scan) : scan.behind [] = scan := rfl

@[simp] theorem Scan.behind_cons (scan : Scan) (c : Char) (s : Text) :
    scan.behind (c :: s) = (scan.next c).behind s := rfl

@[simp] theorem Scan.behind_append (scan : Scan) (s t : Text) :
    scan.behind (s ++ t) = (scan.behind s).behind t := List.foldl_append

@[simp] theorem Scan.next_of_not_quote {c : Char} (h : isQuote c = false) (tokenStart : Bool) :
    Scan.next c (.plain tokenStart) = .plain (isBlank c) := by
  simp [Scan.next, h]

/-- Inside a word no quote opens a literal. -/
theorem behind_of_not_blank {s : Text} (h : ∀ c ∈ s, isBlank c = false) :
    (Scan.plain false).behind s = .plain false := by
  induction s with
  | nil => rfl
  | cons c s ih =>
    obtain ⟨hc, hs⟩ := List.forall_mem_cons.mp h
    have hnext : Scan.next c (.plain false) = .plain false := by simp [Scan.next, hc]
    rw [Scan.behind_cons, hnext, ih hs]

theorem behind_word {w : Text} (hw : IsWord w) (tokenStart : Bool) :
    (Scan.plain tokenStart).behind w = .plain false := by
  cases w with
  | nil => exact absurd rfl hw.ne_nil
  | cons c w =>
    obtain ⟨hc, hblank⟩ := List.forall_mem_cons.mp hw.not_blank
    rw [Scan.behind_cons, Scan.next_of_not_quote (hw.not_quote c rfl), hc,
      behind_of_not_blank hblank]

theorem behind_blanks {s : Text} (h : ∀ c ∈ s, isBlank c = true) (tokenStart : Bool) :
    (Scan.plain tokenStart).behind s = .plain (tokenStart || !s.isEmpty) := by
  induction s generalizing tokenStart with
  | nil => simp
  | cons c s ih =>
    obtain ⟨hc, hs⟩ := List.forall_mem_cons.mp h
    have hq : isQuote c = false := by
      by_contra hq
      rw [(of_isQuote (by simpa using hq)).1] at hc
      cases hc
    rw [Scan.behind_cons, Scan.next_of_not_quote hq, hc, ih hs]
    simp

private theorem behind_literal {q : Char} (hq : isQuote q = true) (s : Text) :
    (Scan.quoted q false).behind (readLiteral q s).raw = .plain false ∧
        (readLiteral q s).closed = true ∨
      ((Scan.quoted q false).behind (readLiteral q s).raw).isPlain = false ∧
        (readLiteral q s).closed = false := by
  fun_induction readLiteral q s with
  | case1 => exact .inr ⟨rfl, rfl⟩
  | case2 s =>
    refine .inl ⟨?_, rfl⟩
    simp [Scan.next, (of_isQuote hq).2]
  | case3 => exact .inr ⟨rfl, rfl⟩
  | case4 e s t hne ih => exact ih
  | case5 c s hne hc t ih =>
    have hnext : Scan.next c (.quoted q false) = .quoted q false := by simp [Scan.next, hne, hc]
    dsimp only
    rw [Scan.behind_cons, hnext]
    exact ih

theorem behind_spells {raw : Text} {t : Token} (ht : Lexeme.Spells raw t)
    (h : ∀ content, t ≠ .quoted content false) : (Scan.plain true).behind raw = .plain false := by
  cases ht with
  | word hw => exact behind_word hw true
  | @literal q body content closed hq hbody =>
    have hopen : Scan.next q (.plain true) = .quoted q false := by simp [Scan.next, hq]
    have hlit := behind_literal hq body
    rw [hbody] at hlit
    rw [Scan.behind_cons, hopen]
    rcases hlit with ⟨hs, -⟩ | ⟨-, hclosed⟩
    · exact hs
    · dsimp only at hclosed
      exact absurd (hclosed ▸ rfl) (h content)

theorem isPlain_behind_open {raw content : Text}
    (ht : Lexeme.Spells raw (.quoted content false)) :
    ((Scan.plain true).behind raw).isPlain = false := by
  cases ht with
  | @literal q body content closed hq hbody =>
    have hopen : Scan.next q (.plain true) = .quoted q false := by simp [Scan.next, hq]
    have hlit := behind_literal hq body
    rw [hbody] at hlit
    rw [Scan.behind_cons, hopen]
    rcases hlit with ⟨-, hclosed⟩ | ⟨hs, -⟩
    · cases hclosed
    · exact hs

private theorem isPlain_of_upToClosing {scan : Scan} {depth : Nat} {s r : Text}
    (h : upToClosing scan depth s = some r) : (scan.behind s).isPlain = true := by
  induction s generalizing scan depth r with
  | nil => simp [upToClosing] at h
  | cons c s ih =>
    unfold upToClosing at h
    split at h
    · next hc =>
      obtain ⟨hscan, hc⟩ := Bool.and_eq_true_iff.mp hc
      obtain rfl := of_decide_eq_true hc
      split at h
      · split at h
        · next hs =>
          rw [List.isEmpty_iff.mp hs]
          cases scan with
          | plain tokenStart => simp [Scan.isPlain, Scan.next, isQuote]
          | quoted q escaped => cases hscan
        · cases h
      · obtain ⟨t, ht, -⟩ := Option.map_eq_some_iff.mp h
        rw [Scan.behind_cons]
        exact ih ht
    · obtain ⟨t, ht, -⟩ := Option.map_eq_some_iff.mp h
      rw [Scan.behind_cons]
      exact ih ht

theorem isPlain_of_insideParens? {s r : Text} (h : insideParens? s = some r) :
    ((Scan.plain true).behind s).isPlain = true := by
  unfold insideParens? at h
  split at h
  · rw [Scan.behind_cons]
    exact isPlain_of_upToClosing h
  · cases h

theorem insideParens?_of_head {s : Text} (h : ∀ c ∈ s.head?, c ≠ '(') : insideParens? s = none := by
  unfold insideParens?
  split
  · exact absurd rfl (h '(' rfl)
  · rfl

/-- Every parenthesis that is open has its own closing one. -/
theorem count_of_upToClosing {scan : Scan} {depth : Nat} {s r : Text}
    (h : upToClosing scan depth s = some r) : depth < s.count ')' := by
  induction s generalizing scan depth r with
  | nil => simp [upToClosing] at h
  | cons c s ih =>
    unfold upToClosing at h
    split at h
    · next hc =>
      obtain ⟨-, hc⟩ := Bool.and_eq_true_iff.mp hc
      obtain rfl := of_decide_eq_true hc
      rw [List.count_cons_self]
      split at h
      · omega
      · obtain ⟨t, ht, -⟩ := Option.map_eq_some_iff.mp h
        have := ih ht
        omega
    · obtain ⟨t, ht, -⟩ := Option.map_eq_some_iff.mp h
      have hlt := ih ht
      have hle := List.count_le_count_cons (a := ')') (b := c) (l := s)
      split at hlt <;> omega

/-- Whether a scan in one state passes over a text, and is in the other state behind it. -/
def Passes (s : Text) (before after : Scan) : Prop :=
  ∀ depth rest,
    upToClosing before depth (s ++ rest) = (upToClosing after depth rest).map (s ++ ·)

theorem Passes.append {s t : Text} {before between after : Scan} (hs : Passes s before between)
    (ht : Passes t between after) : Passes (s ++ t) before after := by
  intro depth rest
  rw [List.append_assoc, hs, ht, Option.map_map]
  simp [Function.comp_def]

theorem passes_nil (scan : Scan) : Passes [] scan scan := by
  intro depth rest
  simp

theorem passes_singleton {c : Char} {scan : Scan} (h : scan.isPlain = true → c ≠ '(' ∧ c ≠ ')') :
    Passes [c] scan (scan.next c) := by
  intro depth rest
  rw [List.singleton_append, upToClosing.eq_def]
  cases hp : scan.isPlain with
  | false => simp
  | true => simp [h hp]

/-- Within a literal parentheses are passed over, too. -/
theorem passes_quoted (c q : Char) (escaped : Bool) :
    Passes [c] (.quoted q escaped) (Scan.next c (.quoted q escaped)) :=
  passes_singleton fun h => absurd h Bool.false_ne_true

theorem Passes.cons {c : Char} {s : Text} {before after : Scan}
    (h : before.isPlain = true → c ≠ '(' ∧ c ≠ ')') (hs : Passes s (before.next c) after) :
    Passes (c :: s) before after :=
  (passes_singleton h).append hs

/-- Text without parentheses is passed over, whatever its quotes. -/
theorem passes_behind {s : Text} (h : ∀ c ∈ s, c ≠ '(' ∧ c ≠ ')') (scan : Scan) :
    Passes s scan (scan.behind s) := by
  induction s generalizing scan with
  | nil => exact passes_nil scan
  | cons c s ih =>
    obtain ⟨hc, hs⟩ := List.forall_mem_cons.mp h
    exact .cons (fun _ => hc) (ih hs _)

theorem passes_word {w : Text} (hw : IsWord w) (hp : ∀ c ∈ w, c ≠ '(' ∧ c ≠ ')')
    (tokenStart : Bool) : Passes w (.plain tokenStart) (.plain false) :=
  behind_word hw tokenStart ▸ passes_behind hp _

theorem passes_blanks {s : Text} (h : ∀ c ∈ s, isBlank c = true) (tokenStart : Bool) :
    Passes s (.plain tokenStart) (.plain (tokenStart || !s.isEmpty)) := by
  have hparen : ∀ c ∈ s, c ≠ '(' ∧ c ≠ ')' := by
    refine fun c hc => ⟨?_, ?_⟩ <;> rintro rfl <;> cases h _ hc
  exact behind_blanks h tokenStart ▸ passes_behind hparen _

theorem passes_space (tokenStart : Bool) : Passes [' '] (.plain tokenStart) (.plain true) := by
  have hnext : Scan.next ' ' (.plain tokenStart) = .plain true := by cases tokenStart <;> rfl
  exact hnext ▸ passes_singleton fun _ => by decide

theorem passes_connective (k : Connective) (tokenStart : Bool) :
    Passes (' ' :: k.keyword ++ [' ']) (.plain tokenStart) (.plain true) := by
  have hparen : ∀ c ∈ k.keyword, c ≠ '(' ∧ c ≠ ')' := by
    cases k <;> simp [Connective.keyword]
  have hword := passes_word k.isWord_keyword hparen true
  exact ((passes_space tokenStart).append hword).append (passes_space false)

private theorem passes_escape (s : Text) :
    Passes (escape s) (.quoted '"' false) (.quoted '"' false) := by
  induction s with
  | nil => exact passes_nil _
  | cons c s ih =>
    rw [escape_cons]
    refine .append ?_ ih
    by_cases hc : c = '"' ∨ c = '\\'
    · rw [if_pos hc]
      exact (passes_quoted '\\' '"' false).append (passes_quoted c '"' true)
    · have hnext : Scan.next c (.quoted '"' false) = .quoted '"' false := by
        simp [Scan.next, not_or.mp hc]
      have hone := passes_quoted c '"' false
      rw [hnext] at hone
      rwa [if_neg hc]

theorem passes_quote (s : Text) : Passes (quote s) (.plain true) (.plain false) :=
  .append (.cons (fun _ => by decide) (passes_escape s)) (passes_quoted '"' '"' false)

theorem Passes.group {s : Text} {tokenStart : Bool}
    (h : Passes s (.plain false) (.plain tokenStart)) (before : Bool) :
    Passes ('(' :: s ++ [')']) (.plain before) (.plain false) := by
  intro depth rest
  have hopen : Scan.next '(' (.plain before) = .plain false := by cases before <;> rfl
  have hclose : Scan.next ')' (.plain tokenStart) = .plain false := by cases tokenStart <;> rfl
  have hshape : '(' :: s ++ [')'] ++ rest = '(' :: (s ++ ')' :: rest) := by simp
  have hs := h (depth + 1) (')' :: rest)
  rw [upToClosing.eq_def (.plain tokenStart)] at hs
  rw [hshape, upToClosing.eq_def]
  simp [Scan.isPlain, hopen, hclose, hs, Function.comp_def]

theorem Passes.insideParens? {s : Text} {tokenStart : Bool}
    (h : Passes s (.plain false) (.plain tokenStart)) :
    insideParens? ('(' :: s ++ [')']) = some s := by
  have hs := h 0 [')']
  rw [upToClosing.eq_def (.plain tokenStart)] at hs
  change upToClosing (.plain false) 0 (s ++ [')']) = some s
  simpa [Scan.isPlain] using hs

/-- The first parenthesis is not closed by the last one if it is closed before. -/
theorem Passes.insideParens?_append {s rest : Text} {tokenStart : Bool}
    (h : Passes s (.plain false) (.plain tokenStart)) (hr : rest ≠ []) :
    Text.insideParens? ('(' :: s ++ [')'] ++ rest) = none := by
  have hs := h 0 (')' :: rest)
  rw [upToClosing.eq_def (.plain tokenStart)] at hs
  have hshape : '(' :: s ++ [')'] ++ rest = '(' :: (s ++ ')' :: rest) := by simp
  rw [hshape]
  change upToClosing (.plain false) 0 (s ++ ')' :: rest) = none
  simpa [Scan.isPlain, hr] using hs

end FilterLang.Text
