import ThreadingKnowHows.Framework.Object
import ThreadingKnowHows.Framework.ReadWrite

/-!
# Linearizability of a program with a shared mutex

When every operation of a program takes effect in one access to the shared data
(`Cmd.Commits`), which it logs, the program is linearizable
(`Committing.linearizes`). Operations that only look at the data may take effect
side by side.
-/

namespace TKH.ReadWrite

variable {τ D L Q Op Ret : Type*}

/-- The command at `l` is an operation taking effect, or none. -/
def Cmd.Commits (pre : L → D → Prop) (O : Object Q Op Ret) (obj : D → Q) (phase : L → Phase Op Ret) (l : L) :
    Cmd D L (Op × Ret) → Prop
  | .lock k | .unlock k | .lockShared k | .unlockShared k => phase k = phase l
  | .read f => ∀ d, pre l d → ((f d).2 = none ∧ phase (f d).1 = phase l) ∨
      ∃ op r, phase l = .pending op ∧ phase (f d).1 = .done op r ∧ O.apply (obj d) op = some (r, obj d) ∧
        (f d).2 = some (op, r)
  | .write f => ∀ d, pre l d → (obj (f d).1 = obj d ∧ (f d).2.2 = none ∧ phase (f d).2.1 = phase l) ∨
      ∃ op r, phase l = .pending op ∧ phase (f d).2.1 = .done op r ∧ O.apply (obj d) op = some (r, obj (f d).1) ∧
        (f d).2.2 = some (op, r)
  | .ext ok => ∀ k, ok k = true →
      (∃ op, phase l = .idle ∧ phase k = .pending op) ∨ ∃ op r, phase l = .done op r ∧ phase k = .idle
  | .halt => True

/-- Calls and returns. -/
def Act.outer : Act τ L → Bool
  | .ext _ _ => true
  | .exec _ => false

/-- The program as the shared object. -/
def absState (obj : D → Q) (phase : L → Phase Op Ret) (s : State τ D L (Op × Ret)) : Shared Q τ Op Ret :=
  ⟨obj s.data, fun t => phase (s.pc t), s.log⟩

variable [DecidableEq τ]

structure Committing (P : Program τ D L (Op × Ret)) (mode : L → Mode) (inv : D → Prop) (pre : L → D → Prop)
    (O : Object Q Op Ret) (obj : D → Q) (phase : L → Phase Op Ret) : Prop extends Annotation P mode inv pre where
  obj_init : obj P.init = O.start
  idle : ∀ t, phase (P.entry t) = .idle
  commits : ∀ t l, (P.code t l).Commits pre O obj phase l

variable {P : Program τ D L (Op × Ret)} {mode : L → Mode} {inv : D → Prop} {pre : L → D → Prop} {O : Object Q Op Ret}
  {obj : D → Q} {phase : L → Phase Op Ret} {s s' : State τ D L (Op × Ret)}

omit [DecidableEq τ] in
theorem Committing.commits_at (h : Committing P mode inv pre O obj phase) {t : τ} {l : L} {c : Cmd D L (Op × Ret)}
    (hc : P.code t l = c) : c.Commits pre O obj phase l := by
  rw [← hc]
  exact h.commits t l

/-- A thread that moves on: only its own phase may change. -/
theorem absState_move {t : τ} {k : L} {m : SharedMutex τ} {d : D} {log : List (τ × Op × Ret)} :
    absState obj phase (State.mk m d (Function.update s.pc t k) log) =
      ⟨obj d, Function.update (absState obj phase s).phase t (phase k), log⟩ := by
  simp only [absState, Shared.mk.injEq, true_and, and_true]
  funext u
  by_cases hu : u = t
  · subst hu; simp
  · simp [Function.update_of_ne hu]

/-- A step that changes neither the object nor a phase. -/
theorem absState_stutter {t : τ} {k : L} {m : SharedMutex τ} {d : D} (hd : obj d = obj s.data)
    (hk : phase k = phase (s.pc t)) :
    absState obj phase (State.mk m d (Function.update s.pc t k) (s.log ++ entries t none)) = absState obj phase s := by
  rw [absState_move, hd, hk, show phase (s.pc t) = (absState obj phase s).phase t from rfl, Function.update_eq_self]
  simp [absState, entries]

/-- A step that is an operation taking effect. -/
theorem absState_commit {t : τ} {k : L} {m : SharedMutex τ} {d : D} {op : Op} {r : Ret}
    (hl : phase (s.pc t) = .pending op) (hk : phase k = .done op r) (ha : O.apply (obj s.data) op = some (r, obj d)) :
    (atomic O).next (absState obj phase s) (.commit t) =
      some (absState obj phase (State.mk m d (Function.update s.pc t k) (s.log ++ entries t (some (op, r))))) := by
  rw [atomic_commit_next (O := O) hl ha, absState_move, hk]
  rfl

theorem Committing.step (h : Committing P mode inv pre O obj phase) {a : Act τ L} (hs : P.Step s a s')
    (hsound : Sound mode inv pre s) :
    (a.outer = false ∧ absState obj phase s' = absState obj phase s) ∨
      ∃ e : Event τ Op, e.visible = a.outer ∧ (atomic O).next (absState obj phase s) e = some (absState obj phase s') := by
  have hmove : ∀ {t k m}, phase k = phase (s.pc t) →
      absState obj phase { s.goto t k with m := m } = absState obj phase s := fun {t k m} hk => by
    have hlog : s.log ++ entries t none = s.log := List.append_nil _
    have h := absState_stutter (m := m) (show obj s.data = obj s.data from rfl) hk
    rwa [hlog] at h
  cases hs with
  | lock hc | unlock hc | lockShared hc | unlockShared hc => exact .inl ⟨rfl, hmove (h.commits_at hc)⟩
  | @read t f hc =>
    rcases h.commits_at hc s.data (hsound.pre t (h.keeps_at hc).1) with ⟨hlog, hk⟩ | ⟨op, r, hl, hk, ha, hlog⟩
    · refine .inl ⟨rfl, ?_⟩
      rw [hlog]
      exact absState_stutter rfl hk
    · refine .inr ⟨.commit t, rfl, ?_⟩
      rw [hlog]
      exact absState_commit hl hk ha
  | @write t f hc =>
    have hl := (h.keeps_at hc).1
    rcases h.commits_at hc s.data (hsound.pre t (by rw [hl]; exact nofun)) with
      ⟨hd, hlog, hk⟩ | ⟨op, r, hl, hk, ha, hlog⟩
    · refine .inl ⟨rfl, ?_⟩
      rw [hlog]
      exact absState_stutter hd hk
    · refine .inr ⟨.commit t, rfl, ?_⟩
      rw [hlog]
      exact absState_commit hl hk ha
  | @ext t ok k hc hk =>
    have hp : (absState obj phase s).phase t = phase (s.pc t) := rfl
    rcases h.commits_at hc k hk with ⟨op, hl, hk'⟩ | ⟨op, r, hl, hk'⟩
    · refine .inr ⟨.call t op, rfl, ?_⟩
      rw [atomic_call_next (hp.trans hl), State.goto, absState_move, hk']
      rfl
    · refine .inr ⟨.ret t, rfl, ?_⟩
      rw [atomic_ret_next (hp.trans hl), State.goto, absState_move, hk']
      rfl

/-- A program whose operations commit is linearizable. -/
theorem Committing.linearizes (h : Committing P mode inv pre O obj phase) :
    Linearizes P.system (fun _ _ => True) O (absState obj phase) Act.outer where
  start := by
    simp [absState, Program.system, atomic, h.obj_init, h.idle]
  step hr _ ha := h.step (Program.next_iff.mp ha) (h.sound hr)

end TKH.ReadWrite
