import Mathlib.Logic.Function.Basic
import ThreadingKnowHows.Framework.System

/-!
# Linearizability

An `Object` is sequential: what an operation returns and the state it leaves,
if it can be done. `atomic O` is that object shared by threads: each call
takes effect at one instant (`commit`) between its call and its return, and
`hist` records the commits in their order. A concurrent object is linearizable
(`Linearizes`) if an abstraction function turns each of its steps into a step
of the atomic object, its calls and returns into calls and returns, and every
other step into a commit or nothing. Then its history is a run of the
sequential object (`Linearizes.runs`).
-/

namespace TKH

variable {Q Op Ret τ σ α : Type*}

/-- A sequential object. -/
structure Object (Q Op Ret : Type*) where
  start : Q
  /-- What `op` returns and leaves, if it can be done. -/
  apply : Q → Op → Option (Ret × Q)

/-- From `q` the operations of the history return what it says and leave `q'`. -/
def Object.Runs (O : Object Q Op Ret) : Q → List (Op × Ret) → Q → Prop
  | q, [], q' => q = q'
  | q, (op, r) :: h, q' => ∃ q₁, O.apply q op = some (r, q₁) ∧ O.Runs q₁ h q'

theorem Object.runs_append {O : Object Q Op Ret} {q q' : Q} {h h' : List (Op × Ret)} :
    O.Runs q (h ++ h') q' ↔ ∃ q₁, O.Runs q h q₁ ∧ O.Runs q₁ h' q' := by
  induction h generalizing q with
  | nil => simp [Runs]
  | cons x h ih =>
    simp only [List.cons_append, Runs, ih]
    constructor
    · rintro ⟨q₁, ha, q₂, hr, hr'⟩; exact ⟨q₂, ⟨q₁, ha, hr⟩, hr'⟩
    · rintro ⟨q₂, ⟨q₁, ha, hr⟩, hr'⟩; exact ⟨q₁, ha, q₂, hr, hr'⟩

theorem Object.Runs.concat {O : Object Q Op Ret} {q q₁ q' : Q} {h : List (Op × Ret)} {op : Op} {r : Ret}
    (hr : O.Runs q h q₁) (ha : O.apply q₁ op = some (r, q')) : O.Runs q (h ++ [(op, r)]) q' :=
  Object.runs_append.mpr ⟨q₁, hr, q', ha, rfl⟩

/-- The invariant rule: what each operation preserves holds after the history. -/
theorem Object.Runs.inv {O : Object Q Op Ret} {I : Q → Prop}
    (hI : ∀ {q op r q'}, I q → O.apply q op = some (r, q') → I q') {q q' : Q} {h : List (Op × Ret)}
    (hr : O.Runs q h q') (hq : I q) : I q' := by
  induction h generalizing q with
  | nil => cases hr; exact hq
  | cons x h ih =>
    obtain ⟨q₁, ha, hr⟩ := hr
    exact ih hr (hI hq ha)

/-- Where a thread is in a call: outside, before its effect, after it. -/
inductive Phase (Op Ret : Type*)
  | idle
  | pending (op : Op)
  | done (op : Op) (r : Ret)

/-- A sequential object shared by threads. -/
structure Shared (Q τ Op Ret : Type*) where
  obj : Q
  phase : τ → Phase Op Ret
  hist : List (τ × Op × Ret)

inductive Event (τ Op : Type*)
  | call (t : τ) (op : Op)
  | commit (t : τ)
  | ret (t : τ)

/-- Calls and returns are visible from outside, commits are not. -/
def Event.visible : Event τ Op → Bool
  | .commit _ => false
  | _ => true

variable [DecidableEq τ]

/-- The atomic object: an operation takes effect in one step of its caller. -/
def atomic (O : Object Q Op Ret) : System (Shared Q τ Op Ret) (Event τ Op) where
  start := { obj := O.start, phase := fun _ => .idle, hist := [] }
  next s
    | .call t op => match s.phase t with
      | .idle => some { s with phase := Function.update s.phase t (.pending op) }
      | _ => none
    | .commit t => match s.phase t with
      | .pending op => (O.apply s.obj op).map fun (r, q) =>
          { obj := q, phase := Function.update s.phase t (.done op r), hist := s.hist ++ [(t, op, r)] }
      | _ => none
    | .ret t => match s.phase t with
      | .done _ _ => some { s with phase := Function.update s.phase t .idle }
      | _ => none

theorem atomic_call_next {O : Object Q Op Ret} {s : Shared Q τ Op Ret} {t : τ} {op : Op}
    (h : s.phase t = .idle) :
    (atomic O).next s (.call t op) = some { s with phase := Function.update s.phase t (.pending op) } := by
  simp [atomic, h]

theorem atomic_commit_next {O : Object Q Op Ret} {s : Shared Q τ Op Ret} {t : τ} {op : Op} {r : Ret} {q : Q}
    (h : s.phase t = .pending op) (ha : O.apply s.obj op = some (r, q)) :
    (atomic O).next s (.commit t) =
      some ⟨q, Function.update s.phase t (.done op r), s.hist ++ [(t, op, r)]⟩ := by
  simp [atomic, h, ha]

theorem atomic_ret_next {O : Object Q Op Ret} {s : Shared Q τ Op Ret} {t : τ} {op : Op} {r : Ret}
    (h : s.phase t = .done op r) :
    (atomic O).next s (.ret t) = some { s with phase := Function.update s.phase t .idle } := by
  simp [atomic, h]

theorem atomic_commit {O : Object Q Op Ret} {s s' : Shared Q τ Op Ret} {t : τ}
    (h : (atomic O).next s (.commit t) = some s') :
    ∃ op r q, s.phase t = .pending op ∧ O.apply s.obj op = some (r, q) ∧
      s' = ⟨q, Function.update s.phase t (.done op r), s.hist ++ [(t, op, r)]⟩ := by
  simp only [atomic] at h
  split at h
  · rename_i op hp
    obtain ⟨⟨r, q⟩, hq, rfl⟩ := Option.map_eq_some_iff.mp h
    exact ⟨op, r, q, hp, hq, rfl⟩
  · cases h

/-- `abs` shows `S`, as long as its steps satisfy `ok`, as the atomic object:
its `visible` actions are the calls and returns. -/
structure Linearizes (S : System σ α) (ok : σ → α → Prop) (O : Object Q Op Ret)
    (abs : σ → Shared Q τ Op Ret) (visible : α → Bool) : Prop where
  start : abs S.start = (atomic O).start
  step : ∀ {s a s'}, S.ReachBy ok s → ok s a → S.next s a = some s' →
    (visible a = false ∧ abs s' = abs s) ∨
      ∃ e : Event τ Op, e.visible = visible a ∧ (atomic O).next (abs s) e = some (abs s')

/-- What the atomic object has committed is a run of the sequential object. -/
theorem atomic_runs {O : Object Q Op Ret} {s : Shared Q τ Op Ret} (h : (atomic O).Reach s) :
    O.Runs O.start (s.hist.map Prod.snd) s.obj := by
  refine h.inv (I := fun s => O.Runs O.start (s.hist.map Prod.snd) s.obj)
    (show O.Runs O.start [] O.start from rfl) ?_
  intro s a s' _ _ ha ih
  cases a with
  | call t op =>
    simp only [atomic] at ha
    split at ha <;> cases ha
    exact ih
  | commit t =>
    obtain ⟨op, r, q, -, hq, rfl⟩ := atomic_commit ha
    rw [List.map_append]
    exact ih.concat hq
  | ret t =>
    simp only [atomic] at ha
    split at ha <;> cases ha
    exact ih

/-- The last commit of a thread past its effect is that of its call. -/
theorem atomic_last {O : Object Q Op Ret} {s : Shared Q τ Op Ret} (h : (atomic O).Reach s) {t : τ}
    {op : Op} {r : Ret} (hd : s.phase t = .done op r) :
    (s.hist.filter fun x => x.1 = t).getLast? = some (t, op, r) := by
  revert t op r
  refine h.inv (I := fun s => ∀ {t op r}, s.phase t = .done op r →
    (s.hist.filter fun x => x.1 = t).getLast? = some (t, op, r)) (fun hd => by cases hd) ?_
  intro s a s' _ _ ha ih t op r hd
  have hother : ∀ {u x}, Function.update s.phase u x t = .done op r → u ≠ t →
      (s.hist.filter fun x => x.1 = t).getLast? = some (t, op, r) := fun hd hu =>
    ih (by rwa [Function.update_of_ne (Ne.symm hu)] at hd)
  cases a with
  | call u op' =>
    simp only [atomic] at ha
    split at ha <;> cases ha
    exact hother hd (by rintro rfl; simp at hd)
  | commit u =>
    obtain ⟨op', r', q, -, -, rfl⟩ := atomic_commit ha
    by_cases hu : u = t
    · subst hu
      simp only [Function.update_self, Phase.done.injEq] at hd
      obtain ⟨rfl, rfl⟩ := hd
      simp
    · have := hother hd hu
      simpa [List.filter_append, hu] using this
  | ret u =>
    simp only [atomic] at ha
    split at ha <;> cases ha
    exact hother hd (by rintro rfl; simp at hd)

/-- A linearizable object reaches what the atomic object reaches. -/
theorem Linearizes.reach {S : System σ α} {ok : σ → α → Prop} {O : Object Q Op Ret}
    {abs : σ → Shared Q τ Op Ret} {visible : α → Bool} (h : Linearizes S ok O abs visible) {s : σ}
    (hs : S.ReachBy ok s) : (atomic O).Reach (abs s) := by
  have hp := hs.map (atomic O) abs fun h₁ hok ha =>
    (h.step h₁ hok ha).imp And.right fun ⟨e, _, he⟩ => ⟨e, he⟩
  rwa [h.start] at hp

/-- The history of a linearizable object is a run of the sequential object,
up to its current state. -/
theorem Linearizes.runs {S : System σ α} {ok : σ → α → Prop} {O : Object Q Op Ret}
    {abs : σ → Shared Q τ Op Ret} {visible : α → Bool} (h : Linearizes S ok O abs visible) {s : σ}
    (hs : S.ReachBy ok s) : O.Runs O.start ((abs s).hist.map Prod.snd) (abs s).obj :=
  atomic_runs (h.reach hs)

end TKH
