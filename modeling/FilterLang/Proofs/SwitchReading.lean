import FilterLang.CommandLine.Arguments
import Mathlib.Data.List.Basic

/-!
A switch in front of all other arguments. Where the switch for JSON is not given yet, a command line
with it in front is read as the same command, with this switch set and no other one changed.
-/
namespace FilterLang.Arguments

namespace Level

def withJson (l : Level) : Level := { l with flags := l.flags ++ [.json] }

@[simp] theorem withJson_scope (l : Level) : l.withJson.scope = l.scope := rfl

@[simp] theorem long?_withJson (l : Level) (name : Text) :
    l.withJson.long? name = l.long? name := rfl

@[simp] theorem short?_withJson (l : Level) (c : Char) : l.withJson.short? c = l.short? c := rfl

private theorem contains_withJson (l : Level) {f : Flag} (h : f ≠ .json) :
    l.withJson.flags.contains f = l.flags.contains f := by
  simp [withJson, h]

@[simp] theorem complete_withJson (l : Level) : l.withJson.complete = l.complete := by
  rw [complete, complete, contains_withJson l (by decide), contains_withJson l (by decide)]
  rfl

variable {l l' : Level} {f : Flag} {value : Text}

-- Switches are only added to a level, so the one that is missing after a step is missing before it.
-- The steps are therefore followed from the last one back.

private theorem addFlag_withJson (h : l.addFlag f = .ok l') (hjson : .json ∉ l'.flags) :
    l.withJson.addFlag f = .ok l'.withJson ∧ .json ∉ l.flags := by
  unfold addFlag at h ⊢
  split at h
  · cases h
  · next hversion =>
    split at h
    · cases h
    · next hnew =>
      cases h
      have hf : f ≠ .json := (List.ne_of_not_mem_cons hjson).symm
      rw [if_neg hversion, contains_withJson l hf, if_neg hnew]
      exact ⟨rfl, List.not_mem_of_not_mem_cons hjson⟩

private theorem addValue_withJson (h : l.addValue f value = .ok l') (hjson : .json ∉ l'.flags) :
    l.withJson.addValue f value = .ok l'.withJson ∧ .json ∉ l.flags := by
  unfold addValue at h ⊢
  split at h
  · cases h
  · next hnew =>
    cases h
    have hf : f ≠ .json := (List.ne_of_not_mem_cons hjson).symm
    rw [contains_withJson l hf, if_neg hnew]
    exact ⟨rfl, List.not_mem_of_not_mem_cons hjson⟩

private theorem addPosition_withJson (h : l.addPosition value = .ok l') (hjson : .json ∉ l'.flags) :
    l.withJson.addPosition value = .ok l'.withJson ∧ .json ∉ l.flags := by
  unfold addPosition at h ⊢
  split at h
  · cases h
  · next hroom =>
    cases h
    exact ⟨if_neg hroom, hjson⟩

end Level

namespace Taken

def level : Taken → Level
  | done l | needs _ l => l

def withJson : Taken → Taken
  | done l => .done l.withJson
  | needs f l => .needs f l.withJson

end Taken

variable {l l' : Level} {t : Taken}

private theorem map_done_withJson {x y : Except Stop Level} (h : x.map .done = .ok t)
    (hstep : ∀ l', x = .ok l' → .json ∉ l'.flags → y = .ok l'.withJson ∧ .json ∉ l.flags)
    (hjson : .json ∉ t.level.flags) : y.map .done = .ok t.withJson ∧ .json ∉ l.flags := by
  cases x with
  | error e => cases h
  | ok l' =>
    cases h
    obtain ⟨rfl, hl⟩ := hstep l' rfl hjson
    exact ⟨rfl, hl⟩

private theorem bind_withJson {α β : Type} {x y : Except Stop α} {next : α → Except Stop β}
    {level : α → Level} {mark : α → α} {r r' : β} (h : x.bind next = .ok r)
    (hnext : ∀ m, next m = .ok r → next (mark m) = .ok r' ∧ .json ∉ (level m).flags)
    (hstep : ∀ m, x = .ok m → .json ∉ (level m).flags → y = .ok (mark m) ∧ .json ∉ l.flags) :
    y.bind next = .ok r' ∧ .json ∉ l.flags := by
  cases x with
  | error e => cases h
  | ok m =>
    obtain ⟨hrest, hm⟩ := hnext m h
    obtain ⟨rfl, hl⟩ := hstep m rfl hm
    exact ⟨hrest, hl⟩

private theorem takeLong_withJson {body : Text} (h : takeLong l body = .ok t)
    (hjson : .json ∉ t.level.flags) :
    takeLong l.withJson body = .ok t.withJson ∧ .json ∉ l.flags := by
  unfold takeLong at h ⊢
  dsimp only at h ⊢
  rw [Level.long?_withJson]
  cases hlong : l.long? (body.takeWhile (· ≠ '=')) with
  | none => simp only [hlong, reduceCtorEq] at h
  | some f =>
    cases hrest : body.drop (body.takeWhile (· ≠ '=')).length with
    | nil =>
      simp only [hlong, hrest] at h ⊢
      split at h
      · next hvalue =>
        cases h
        exact ⟨if_pos hvalue, hjson⟩
      · next hvalue =>
        rw [if_neg hvalue]
        exact map_done_withJson h (fun _ => Level.addFlag_withJson) hjson
    | cons c value =>
      simp only [hlong, hrest] at h ⊢
      split at h
      · next hvalue =>
        rw [if_pos hvalue]
        exact map_done_withJson h (fun _ => Level.addValue_withJson) hjson
      · cases h

private theorem takeShort_withJson {cs : Text} (h : takeShort l cs = .ok t)
    (hjson : .json ∉ t.level.flags) :
    takeShort l.withJson cs = .ok t.withJson ∧ .json ∉ l.flags := by
  induction cs generalizing l with
  | nil =>
    cases h
    exact ⟨rfl, hjson⟩
  | cons c cs ih =>
    unfold takeShort at h ⊢
    rw [Level.short?_withJson]
    cases hshort : l.short? c with
    | none => simp only [hshort, reduceCtorEq] at h
    | some f =>
      simp only [hshort] at h ⊢
      split at h
      · next hvalue =>
        rw [if_pos hvalue]
        split at h
        · cases h
          exact ⟨rfl, hjson⟩
        · exact map_done_withJson h (fun _ => Level.addValue_withJson) hjson
        · exact map_done_withJson h (fun _ => Level.addValue_withJson) hjson
      · next hvalue =>
        rw [if_neg hvalue]
        exact bind_withJson h (fun _ hrest => ih hrest) (fun _ => Level.addFlag_withJson)

private theorem takePositions_withJson {args : List Text} (h : takePositions l args = .ok l')
    (hjson : .json ∉ l'.flags) :
    takePositions l.withJson args = .ok l'.withJson ∧ .json ∉ l.flags := by
  induction args generalizing l with
  | nil =>
    cases h
    exact ⟨rfl, hjson⟩
  | cons a args ih =>
    exact bind_withJson h (fun _ hrest => ih hrest) (fun _ => Level.addPosition_withJson)

private theorem takeOne_withJson {a : Text} (h : takeOne l a = .ok t)
    (hjson : .json ∉ t.level.flags) : takeOne l.withJson a = .ok t.withJson ∧ .json ∉ l.flags := by
  unfold takeOne at h ⊢
  split at h
  · exact takeLong_withJson h hjson
  · exact takeShort_withJson h hjson
  · exact map_done_withJson h (fun _ => Level.addPosition_withJson) hjson

/-- A level is read from the arguments as before, with the switch for JSON added to it. -/
theorem readLevel_withJson {pending : Option Flag} {args : List Text}
    {sub : Option (Scope × List Text)} (h : readLevel l pending args = .ok (l', sub))
    (hjson : .json ∉ l'.flags) :
    readLevel l.withJson pending args = .ok (l'.withJson, sub) ∧ .json ∉ l.flags := by
  induction args generalizing l pending with
  | nil =>
    cases pending with
    | some f => cases h
    | none =>
      cases h
      exact ⟨rfl, hjson⟩
  | cons a rest ih =>
    cases pending with
    | some f =>
      unfold readLevel at h ⊢
      dsimp only at h ⊢
      split at h
      · cases h
      · next hvalue =>
        rw [if_neg hvalue]
        exact bind_withJson h (fun _ hrest => ih hrest) (fun _ => Level.addValue_withJson)
    | none =>
      unfold readLevel at h ⊢
      dsimp only [Level.withJson_scope] at h ⊢
      split at h
      · cases h
        exact ⟨rfl, hjson⟩
      · split at h
        · next hend =>
          rw [if_pos hend]
          cases hpos : takePositions l rest with
          | error e =>
            rw [hpos] at h
            cases h
          | ok m =>
            rw [hpos] at h
            cases h
            obtain ⟨hpos', hl⟩ := takePositions_withJson hpos hjson
            rw [hpos']
            exact ⟨rfl, hl⟩
        · next hend =>
          rw [if_neg hend]
          refine bind_withJson h (fun t hrest => ?_) (fun _ => takeOne_withJson)
          cases t with
          | done m => exact ih hrest
          | needs f m => exact ih hrest

@[simp] theorem command?_withJson (l : Level) : command? l.withJson = command? l := by
  have hquotes : l.withJson.flags.contains .quotesNames = l.flags.contains .quotesNames :=
    l.contains_withJson (by decide)
  unfold command?
  rw [hquotes]
  rfl

private theorem switches_withJson (l : Level) (inner : List Level) :
    switches (l.withJson :: inner) = { switches (l :: inner) with json := true } := by
  have hjson : l.withJson.flags.contains .json = true := by simp [Level.withJson]
  have hverbose := l.contains_withJson (f := .verbose) (by decide)
  have hquiet := l.contains_withJson (f := .quiet) (by decide)
  have hcolor := l.contains_withJson (f := .noColor) (by decide)
  simp only [switches, List.any_cons, hjson, hverbose, hquiet, hcolor, Bool.true_or]

def readInner (fuel : ℕ) : Option (Scope × List Text) → Except Stop (List Level)
  | none => .ok []
  | some (s, rest) => readLevels fuel s rest

private theorem readLevels_succ (fuel : ℕ) (s : Scope) (args : List Text) :
    readLevels (fuel + 1) s args =
      (readLevel (.start s) none args).bind fun r => (readInner fuel r.2).bind fun inner =>
        if r.1.complete then .ok (r.1 :: inner) else .error .rejected := by
  rw [readLevels]
  cases readLevel (.start s) none args with
  | error e => rfl
  | ok r =>
    obtain ⟨l, _ | ⟨s, rest⟩⟩ := r <;> rfl

private theorem readLevels_eq_ok_iff {fuel : ℕ} {s : Scope} {args : List Text} {ls : List Level} :
    readLevels (fuel + 1) s args = .ok ls ↔
      ∃ l sub inner, readLevel (.start s) none args = .ok (l, sub) ∧
        readInner fuel sub = .ok inner ∧ l.complete = true ∧ l :: inner = ls := by
  rw [readLevels_succ]
  constructor
  · intro h
    cases hl : readLevel (.start s) none args with
    | error e =>
      rw [hl] at h
      cases h
    | ok r =>
      cases hinner : readInner fuel r.2 with
      | error e =>
        simp only [hl, Except.bind, hinner, reduceCtorEq] at h
      | ok inner =>
        simp only [hl, Except.bind, hinner] at h
        split at h
        · next hcomplete =>
          cases h
          exact ⟨r.1, r.2, inner, rfl, hinner, hcomplete, rfl⟩
        · cases h
  · rintro ⟨l, sub, inner, hl, hinner, hcomplete, rfl⟩
    simp only [hl, Except.bind, hinner, if_pos hcomplete]

/-- With the switch for JSON in front, a command line asks for the same command. -/
theorem read?_json_cons {args : List Text} {s : Switches} {c : Command}
    (h : read? args = some (.run s c)) (hjson : s.json = false) :
    read? ("--json".toList :: args) = some (.run { s with json := true } c) := by
  have hstart : readLevel (.start .main) none ("--json".toList :: args) =
      readLevel (Level.start .main).withJson none args := rfl
  unfold read? at h ⊢
  split at h
  · cases h
  · cases h
  · next ls hread =>
    obtain ⟨c', hcommand, hrun⟩ := Option.map_eq_some_iff.mp h
    cases hrun
    obtain ⟨l, sub, inner, hl, hinner, hcomplete, rfl⟩ := readLevels_eq_ok_iff.mp hread
    have hnone : .json ∉ l.flags := by
      intro hmem
      have hgiven : (switches (l :: inner)).json = true := by
        simp [switches, hmem]
      rw [hgiven] at hjson
      cases hjson
    obtain ⟨hl', -⟩ := readLevel_withJson hl hnone
    have hread' : readLevels 3 .main ("--json".toList :: args) = .ok (l.withJson :: inner) :=
      readLevels_eq_ok_iff.mpr ⟨l.withJson, sub, inner, hstart.trans hl', hinner,
        l.complete_withJson.trans hcomplete, rfl⟩
    have hcommand' : (l.withJson :: inner).getLast?.bind command? = some c := by
      cases inner with
      | nil => simpa using hcommand
      | cons m inner => simpa using hcommand
    simp only [hread', hcommand', switches_withJson, Option.map_some]

end FilterLang.Arguments
