import ThreadingKnowHows.Framework.Lock
import ThreadingKnowHows.Framework.Object

/-!
# Linearizability of a program with a mutex

When every operation of a program takes effect in one access to the shared
data (`Cmd.Commits`), which the data records, the program is linearizable
(`Committing.linearizes`). The calls and returns are the steps of the
environment (`Act.outer`).
-/

namespace TKH

variable {τ C D L Q Op Ret : Type*}

/-- The command of `t` at `l` is an operation taking effect, or none. -/
def Cmd.Commits (held : L → Bool) (pre : L → D → Prop) (O : Object Q Op Ret) (obj : D → Q)
    (hist : D → List (τ × Op × Ret)) (phase : L → Phase Op Ret) (t : τ) (l : L) : Cmd τ C D L → Prop
  | .act f => ∀ d, (held l = true → pre l d) →
      (obj (f d).1 = obj d ∧ hist (f d).1 = hist d ∧ phase (f d).2 = phase l) ∨
        ∃ op r, phase l = .pending op ∧ phase (f d).2 = .done op r ∧
          O.apply (obj d) op = some (r, obj (f d).1) ∧ hist (f d).1 = hist d ++ [(t, op, r)]
  | .lock k => phase k = phase l
  | .unlock k => phase k = phase l
  | .wait _ k => phase k = phase l
  | .notifyOne _ k => phase k = phase l
  | .notifyAll _ k => phase k = phase l
  | .join _ k => phase k = phase l
  | .pick ok => ∀ d k, ok d k → phase k = phase l
  | .ext _ ok => ∀ k, ok k →
      (∃ op, phase l = .idle ∧ phase k = .pending op) ∨ ∃ op r, phase l = .done op r ∧ phase k = .idle
  | .halt => True

/-- Steps of the environment. -/
def Act.outer : Act τ L → Bool
  | .ext _ _ => true
  | _ => false

/-- The program as the shared object. -/
def absState (obj : D → Q) (hist : D → List (τ × Op × Ret)) (phase : L → Phase Op Ret)
    (s : State τ C D L) : Shared Q τ Op Ret :=
  ⟨obj s.data, fun t => phase (s.th t).point, hist s.data⟩

structure Committing (P : Program τ C D L) (held : L → Bool) (inv : D → Prop) (pre : L → D → Prop)
    (O : Object Q Op Ret) (obj : D → Q) (hist : D → List (τ × Op × Ret))
    (phase : L → Phase Op Ret) : Prop extends Annotation P held inv pre where
  obj_init : obj P.init = O.start
  hist_init : hist P.init = []
  idle : ∀ t, phase (P.entry t) = .idle
  commits : ∀ t l, (P.code t l).Commits held pre O obj hist phase t l

variable [DecidableEq τ] {P : Program τ C D L} {held : L → Bool} {inv : D → Prop}
  {pre : L → D → Prop} {O : Object Q Op Ret} {obj : D → Q} {hist : D → List (τ × Op × Ret)}
  {phase : L → Phase Op Ret}

omit [DecidableEq τ] in
theorem Committing.commits_at (h : Committing P held inv pre O obj hist phase) {t : τ} {l : L} {c : Cmd τ C D L}
    (hc : P.code t l = c) : c.Commits held pre O obj hist phase t l := by
  rw [← hc]
  exact h.commits t l

/-- A thread that moves on: only its own phase may change. -/
theorem absState_move {s : State τ C D L} {t : τ} {x : Status C L} {o : Option τ} {d : D} :
    absState obj hist phase ⟨o, d, Function.update s.th t x⟩ =
      ⟨obj d, Function.update (absState obj hist phase s).phase t (phase x.point), hist d⟩ := by
  simp only [absState, Shared.mk.injEq, true_and, and_true]
  funext u
  by_cases hu : u = t
  · subst hu; simp
  · simp [Function.update_of_ne hu]

/-- A step that changes neither the data nor a phase is not visible. -/
theorem absState_stutter {s : State τ C D L} {t : τ} {x : Status C L} {o : Option τ}
    (hx : phase x.point = phase (s.th t).point) :
    absState obj hist phase ⟨o, s.data, Function.update s.th t x⟩ = absState obj hist phase s := by
  rw [absState_move, hx, show phase (s.th t).point = (absState obj hist phase s).phase t from rfl,
    Function.update_eq_self]
  rfl

variable [DecidableEq C]

theorem Committing.step (h : Committing P held inv pre O obj hist phase) {s s' : State τ C D L}
    {a : Act τ L} (hs : P.Step s a s') (hsound : Sound held inv pre s) :
    (a.outer = false ∧ absState obj hist phase s' = absState obj hist phase s) ∨
      ∃ e : Event τ Op, e.visible = a.outer ∧
        (atomic O).next (absState obj hist phase s) e = some (absState obj hist phase s') := by
  have hmove : ∀ {s₁ : State τ C D L} {t l k o}, s₁.th t = .run l → phase k = phase l →
      absState obj hist phase ⟨o, s₁.data, Function.update s₁.th t (.run k)⟩ =
        absState obj hist phase s₁ := by
    intro s₁ t l k o hl hk
    exact absState_stutter (by simpa [hl] using hk)
  have hwake : ∀ {u c k}, s.th u = .asleep c k →
      absState obj hist phase { s with th := Function.update s.th u (.woken k) } =
        absState obj hist phase s := by
    intro u c k hk
    exact absState_stutter (by simp [hk])
  cases hs with
  | @act t l f hl hc =>
    have hp : (absState obj hist phase s).phase t = phase l := by simp [absState, hl]
    rcases h.commits_at hc s.data fun hh => hsound.holds t l hl hh with ⟨ho, hh, hk⟩ | ⟨op, r, hl', hk, ho, hh⟩
    · refine .inl ⟨rfl, ?_⟩
      rw [State.goto, absState_move, ho, hh, Status.point_run, hk, ← hp, Function.update_eq_self]
      rfl
    · refine .inr ⟨.commit t, rfl, ?_⟩
      have ho' : O.apply (absState obj hist phase s).obj op = some (r, obj (f s.data).1) := ho
      rw [hl'] at hp
      rw [atomic_commit_next hp ho', State.goto, absState_move, Status.point_run, hk, hh]
      rfl
  | @ext t l us ok k hl hc _ hk =>
    have hp : (absState obj hist phase s).phase t = phase l := by simp [absState, hl]
    rcases h.commits_at hc k hk with ⟨op, hl', hk'⟩ | ⟨op, r, hl', hk'⟩
    · refine .inr ⟨.call t op, rfl, ?_⟩
      rw [hl'] at hp
      rw [atomic_call_next hp, State.goto, absState_move, Status.point_run, hk']
      rfl
    · refine .inr ⟨.ret t, rfl, ?_⟩
      rw [hl'] at hp
      rw [atomic_ret_next hp, State.goto, absState_move, Status.point_run, hk']
      rfl
  | lock hl hc | unlock hl hc | notifyNone hl hc | join hl hc => exact .inl ⟨rfl, hmove hl (h.commits_at hc)⟩
  | wait hl hc => exact .inl ⟨rfl, absState_stutter (by rw [hl]; exact h.commits_at hc)⟩
  | @notifyOne t u l c k k' hl hc hw =>
    have hne : t ≠ u := by rintro rfl; rw [hl] at hw; cases hw
    have hl' : Function.update s.th u (.woken k') t = .run l := by simpa [Function.update_of_ne hne] using hl
    exact .inl ⟨rfl, (hmove hl' (h.commits_at hc)).trans (hwake hw)⟩
  | @notifyAll t l c k hl hc =>
    have hr : absState obj hist phase { s with th := fun u => (s.th u).rouse c } =
        absState obj hist phase s := by simp [absState]
    exact .inl ⟨rfl, (hmove (Status.rouse_eq_run.mpr hl) (h.commits_at hc)).trans hr⟩
  | pick hl hc hk => exact .inl ⟨rfl, hmove hl (h.commits_at hc _ _ hk)⟩
  | @relock t k hk _ =>
    have hp : phase (.run k : Status C L).point = phase (s.th t).point := by simp [hk]
    exact .inl ⟨rfl, absState_stutter hp⟩
  | @spurious t c k hk => exact .inl ⟨rfl, hwake hk⟩

/-- A program whose operations commit is linearizable. -/
theorem Committing.linearizes [Fintype τ] (h : Committing P held inv pre O obj hist phase) :
    Linearizes P.system (fun _ _ => True) O (absState obj hist phase) Act.outer where
  start := by
    simp [absState, Program.system, atomic, h.obj_init, h.hist_init, h.idle]
  step hr _ ha := h.step (P.step_of_next ha) (h.sound hr)

end TKH
