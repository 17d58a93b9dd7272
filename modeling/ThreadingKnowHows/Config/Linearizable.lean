import ThreadingKnowHows.Config.Model
import ThreadingKnowHows.Framework.SharedCommit

/-!
# The configuration map is linearizable

However the threads call `set` and `get`, and although readers run side by side
and copy in many steps, the operations take effect one after the other, and a
`get` returns what the last `set` of the key before it has stored
(`config_linearizable`).
-/

namespace TKH.Config

open ReadWrite (Mode)

variable {τ K : Type} [DecidableEq τ] [DecidableEq K]

/-- The map as an object: a key that has not been set has the empty string. -/
def map (K : Type) [DecidableEq K] : Object (K → List Char) (Op K) Ret where
  start _ := []
  apply q
    | .set k v => some (none, Function.update q k v)
    | .get k => some (some (q k), q)

def mode : Pc K → Mode
  | .insert _ _ | .assign _ _ | .unlock _ _ => .exclusive
  | .find _ | .copy _ _ | .unlockShared _ _ => .shared
  | _ => .out

/-- What a thread that holds the mutex knows of the map. -/
def pre : Pc K → Map K → Prop
  | .assign k _, kv => kv k ≠ none
  | .copy k copied, kv => ∃ v, kv k = some v ∧ copied <+: v
  | _, _ => True

def phase : Pc K → Phase (Op K) Ret
  | .out => .idle
  | .lock k v | .insert k v | .assign k v => .pending (.set k v)
  | .unlock k v => .done (.set k v) none
  | .lockShared k | .find k | .copy k _ => .pending (.get k)
  | .unlockShared k r => .done (.get k) (some r)
  | .returned op r => .done op r

def content (kv : Map K) (k : K) : List Char := (kv k).getD []

/-- What a copy has left, if it is the prefix of a string. -/
theorem prefix_next {α : Type} {xs ys : List α} (h : xs <+: ys) :
    (∃ y, ys[xs.length]? = some y ∧ xs ++ [y] <+: ys) ∨ (ys[xs.length]? = none ∧ xs = ys) := by
  obtain ⟨zs, rfl⟩ := h
  cases zs with
  | nil => exact .inr ⟨by simp, by simp⟩
  | cons z zs => exact .inl ⟨z, by simp, ⟨zs, by simp⟩⟩

omit [DecidableEq τ] in
theorem annotation : ReadWrite.Annotation (config τ K) mode (fun _ => True) pre where
  entry _ := rfl
  code t l := by
    cases l with
    | out => exact ⟨rfl, fun k hk => by cases k <;> first | rfl | cases hk⟩
    | lock k v => exact ⟨rfl, rfl⟩
    | insert k v | assign k v => exact ⟨rfl, fun _ => rfl⟩
    | unlock k v => exact ⟨rfl, rfl⟩
    | lockShared k => exact ⟨rfl, rfl⟩
    | find k | copy k copied => exact ⟨nofun, fun d => by dsimp only; split <;> rfl⟩
    | unlockShared k r => exact ⟨rfl, rfl⟩
    | returned op r => exact ⟨rfl, fun k hk => by cases k <;> first | rfl | cases hk⟩
  init := trivial
  asserts t l := by
    cases l with
    | out | unlockShared k r | returned op r => trivial
    | lock k v | unlock k v | lockShared k | assign k v => exact fun _ _ => trivial
    | insert k v =>
      intro kv _
      dsimp only [pre]
      split <;> simp_all
    | find k =>
      intro kv _ _
      cases hk : kv k with
      | none => simp [hk, pre]
      | some v => simp [hk, pre]
    | copy k copied =>
      rintro kv - ⟨v, hk, hpre⟩
      rcases prefix_next hpre with ⟨c, hc, hpre'⟩ | ⟨hc, -⟩
      · simp only [hk, Option.getD_some, hc]
        exact ⟨v, hk, hpre'⟩
      · simp only [hk, Option.getD_some, hc]
        trivial

omit [DecidableEq τ] in
theorem committing : ReadWrite.Committing (config τ K) mode (fun _ => True) pre (map K) content phase where
  toAnnotation := annotation
  obj_init := rfl
  idle _ := rfl
  commits t l := by
    cases l with
    | out => exact fun k hk => .inl (by cases k <;> first | exact ⟨_, rfl, rfl⟩ | cases hk)
    | lock k v | unlock k v | lockShared k | unlockShared k r => exact rfl
    | insert k v =>
      refine fun kv _ => .inl ⟨?_, rfl, rfl⟩
      -- an element that has just been created reads as one that is missing
      funext i
      dsimp only [content]
      split
      · by_cases hi : i = k
        · subst hi; simp_all
        · rw [Function.update_of_ne hi]
      · rfl
    | assign k v =>
      refine fun kv _ => .inr ⟨.set k v, none, rfl, rfl, ?_, rfl⟩
      have hc : content (Function.update kv k (some v)) = Function.update (content kv) k v := by
        funext i
        by_cases hi : i = k
        · subst hi; simp [content]
        · simp [content, Function.update_of_ne hi]
      rw [hc]
      rfl
    | find k =>
      intro kv _
      cases hk : kv k with
      | some v => exact .inl (by simp [hk, phase])
      | none => exact .inr ⟨.get k, some [], by simp [hk, phase, map, content]⟩
    | copy k copied =>
      rintro kv ⟨v, hk, hpre⟩
      rcases prefix_next hpre with ⟨c, hc, -⟩ | ⟨hc, rfl⟩
      · exact .inl (by simp [hk, hc, phase])
      · exact .inr ⟨.get k, some copied, by simp [hk, phase, map, content]⟩
    | returned op r => exact fun k hk => .inr (by cases k <;> first | exact ⟨op, r, rfl, rfl⟩ | cases hk)

/-! ## The history -/

/-- What the last `set` of `k` has stored. -/
def lastSet (k : K) (h : List (Op K × Ret)) : List Char :=
  h.foldl (fun v x => match x.1 with
    | .set k' v' => if k' = k then v' else v
    | .get _ => v) []

omit [DecidableEq τ] in
theorem runs_lastSet {q q' : K → List Char} {h h₀ : List (Op K × Ret)} (hr : (map K).Runs q h q') {k : K}
    (hq : q k = lastSet k h₀) : q' k = lastSet k (h₀ ++ h) := by
  induction h generalizing q h₀ with
  | nil =>
    cases hr
    rw [List.append_nil, hq]
  | cons x h ih =>
    obtain ⟨op, r⟩ := x
    obtain ⟨q₁, ha, hr⟩ := hr
    rw [← List.singleton_append, ← List.append_assoc]
    refine ih hr ?_
    cases op with
    | get k' =>
      cases ha
      simpa [lastSet] using hq
    | set k' v =>
      cases ha
      by_cases hk : k' = k
      · subst hk; simp [lastSet]
      · rw [Function.update_of_ne (Ne.symm hk), hq]
        simp [lastSet, hk]

/-- In every run the operations take effect one after the other, each between its
call and its return, and a `get` returns what the last `set` of its key before it
has stored. No thread is ever stuck inside an operation. -/
theorem config_linearizable :
    Linearizes (config τ K).system (fun _ _ => True) (map K) (ReadWrite.absState content phase) ReadWrite.Act.outer ∧
    ∀ {s}, (config τ K).system.Reach s →
      (∀ t op r, s.pc t = .returned op r → (s.log.filter fun x => x.1 = t).getLast? = some (t, op, r)) ∧
      (∀ h₁ k r h₂, s.log.map Prod.snd = h₁ ++ (.get k, r) :: h₂ → r = some (lastSet k h₁)) ∧
      ((∀ t, (config τ K).system.next s (.exec t) = none) → (s.m.shared = ∅ ∧ s.m.exclusive = none) ∧
        ∀ t, s.pc t = .out ∨ ∃ op r, s.pc t = .returned op r) := by
  refine ⟨committing.linearizes, fun {s} hs => ⟨fun t op r ht => ?_, fun h₁ k r h₂ hh => ?_, fun hq => ?_⟩⟩
  · exact atomic_last (committing.linearizes.reach hs) (by simp [ReadWrite.absState, ht, phase])
  · have hr := committing.linearizes.runs hs
    rw [show (ReadWrite.absState content phase s).hist.map Prod.snd = _ from hh] at hr
    obtain ⟨q, hr₁, q', ha, -⟩ := Object.runs_append.mp hr
    have hq : q k = lastSet k ([] ++ h₁) := runs_lastSet hr₁ rfl
    cases ha
    rw [hq, List.nil_append]
  · obtain ⟨hfree, hrest⟩ := annotation.toDiscipline.rests hs hq
    refine ⟨hfree, fun t => ?_⟩
    have hc : code (s.pc t) = .halt ∨ ∃ ok, code (s.pc t) = .ext ok := hrest t
    cases hl : s.pc t <;> rw [hl] at hc <;> simp [code] at hc ⊢

end TKH.Config
