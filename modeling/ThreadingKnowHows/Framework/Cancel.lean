import ThreadingKnowHows.Framework.Flow

/-!
# Deferred cancellation

`cancellable P X` is the program `P` under POSIX cancellation. A thread with a
pending request may be cancelled inside a wait (`Act.die`): like a thread that
is woken it takes the mutex first, then it ends, at the control point
`X.killed`, and it releases nothing. (At other cancellation points the code
itself says where the thread may end.)

As long as no thread is cancelled inside a wait the program runs as before
(`reach_of_unharmed`), and no thread ends with the mutex. One that is
cancelled there does (`owner_of_die`), and nobody can take the mutex again
(`owner_forever`).
-/

namespace TKH

variable {τ C D L : Type*}

/-- Who has been asked to end, and where a cancelled thread ends. -/
structure Cancellation (τ D L : Type*) where
  pending : D → τ → Bool
  killed : τ → L

/-- A step of the program, or the end of a thread inside a wait. -/
inductive CancelAct (τ L : Type*)
  | step (a : Act τ L)
  | die (t : τ)

/-- Steps that are not spurious wakeups, nor at the will of the environment. -/
def CancelAct.inner : CancelAct τ L → Prop
  | step a => a.inner
  | die _ => True

/-- Whose step it is. -/
def CancelAct.thread : CancelAct τ L → τ
  | step a => a.thread
  | die t => t

/-- No thread is cancelled inside a wait. -/
def Unharmed (_ : State τ C D L) : CancelAct τ L → Prop
  | .step _ => True
  | .die _ => False

instance (s : State τ C D L) : ∀ a, Decidable (Unharmed s a)
  | .step _ => isTrue trivial
  | .die _ => isFalse id

variable [DecidableEq τ] [DecidableEq C] [Fintype τ]

/-- `t` is cancelled: it has taken the mutex. -/
def State.die (s : State τ C D L) (X : Cancellation τ D L) (t : τ) : State τ C D L :=
  { s.goto t (X.killed t) with owner := some t }

namespace Program

/-- The program `P`, with its threads interleaved and cancelled. -/
def cancellable (P : Program τ C D L) (X : Cancellation τ D L) : System (State τ C D L) (CancelAct τ L) where
  start := P.system.start
  next s
    | .step a => P.system.next s a
    | .die t => match s.th t with
      | .run _ => none
      | _ => if X.pending s.data t = true ∧ s.owner = none then some (s.die X t) else none

end Program

variable {P : Program τ C D L} {X : Cancellation τ D L} {held : L → Bool} {s s' : State τ C D L} {t : τ}

theorem die_iff : (P.cancellable X).next s (.die t) = some s' ↔
    (∀ l, s.th t ≠ .run l) ∧ X.pending s.data t = true ∧ s.owner = none ∧ s' = s.die X t := by
  simp only [Program.cancellable]
  cases s.th t <;> simp [and_assoc, @eq_comm _ s']

/-! ## Runs without a cancellation inside a wait -/

theorem reach_of_unharmed (h : (P.cancellable X).ReachBy Unharmed s) : P.system.Reach s :=
  h.inv (I := P.system.Reach) .refl fun {_ a _} _ hok ha hi => by
    cases a with
    | step a => exact .step hi trivial ha
    | die t => exact hok.elim

/-- A run of the program. -/
theorem run_steps (s : State τ C D L) (as : List (Act τ L)) :
    (P.cancellable X).run s (as.map .step) = P.system.run s as := by
  induction as generalizing s with
  | nil => rfl
  | cons a as ih =>
    refine congrArg (Option.bind (P.system.next s a)) (funext fun s₁ => ?_)
    exact ih s₁

/-- If requests are never withdrawn, a run to a state without a request is one
of the program. -/
theorem steps_of_run (hX : ∀ {s s' a t}, P.Step s a s' → X.pending s.data t = true → X.pending s'.data t = true)
    {as : List (CancelAct τ L)} (h : (P.cancellable X).run s as = some s') (hn : ∀ t, X.pending s'.data t = false) :
    ∃ as' : List (Act τ L), as = as'.map .step := by
  have hkeep : ∀ {s s' : State τ C D L} {a t}, (P.cancellable X).next s a = some s' → X.pending s.data t = true →
      X.pending s'.data t = true := by
    intro s s' a t ha ht
    cases a with
    | step a => exact hX (Program.step_of_next ha) ht
    | die u => obtain ⟨-, -, -, rfl⟩ := die_iff.mp ha; exact ht
  induction as generalizing s with
  | nil => exact ⟨[], rfl⟩
  | cons a as ih =>
    obtain ⟨s₁, ha, hr⟩ := System.run_cons h
    obtain ⟨as', rfl⟩ := ih hr
    cases a with
    | step a => exact ⟨a :: as', rfl⟩
    | die t =>
      have ht := hkeep ha (die_iff.mp ha).2.1
      have := (System.path_of_run hr).inv (I := fun s => X.pending s.data t = true) ht fun _ _ ha hi => hkeep ha hi
      rw [hn t] at this; cases this

theorem Discipline.owner_alive (h : Discipline P held) (hs : (P.cancellable X).ReachBy Unharmed s)
    (ht : P.halted s t = true) : s.owner ≠ some t :=
  h.not_owner_of_halted (h.locked (reach_of_unharmed hs)) ht

/-- A quiet state is one of the program, in which no thread that waits has a
pending request. -/
theorem Discipline.cancel_quiet (h : Discipline P held) (hs : (P.cancellable X).ReachBy Unharmed s)
    (hq : (P.cancellable X).Quiet CancelAct.inner s) :
    P.Quiet s ∧ ∀ t, (∀ l, s.th t ≠ .run l) → X.pending s.data t = false := by
  have hP : P.Quiet s := fun a ha => hq (.step a) ha
  refine ⟨hP, fun t ht => ?_⟩
  by_contra hp
  have hd := hq (.die t) trivial
  rw [die_iff.mpr ⟨ht, by simpa using hp, (h.quiet (h.locked (reach_of_unharmed hs)) hP).1, rfl⟩] at hd
  cases hd

/-- Without a request nobody is cancelled. -/
theorem cancel_quietOf {ts : τ → Prop} (h : P.QuietOf ts s) (hn : ∀ t, X.pending s.data t = false) :
    (P.cancellable X).Quiet (fun a => a.inner ∧ ts a.thread) s := by
  rintro (a | t) ha
  · exact h a ha
  · refine Option.eq_none_iff_forall_ne_some.mpr fun s' hs => ?_
    have := (die_iff.mp hs).2.1
    rw [hn t] at this; cases this

/-! ## After a cancellation inside a wait -/

/-- With the mutex taken nobody is cancelled inside a wait. -/
theorem cancel_quiet_of_blocked (h : ∀ t, P.blocked s t = true) (ho : s.owner ≠ none) :
    (P.cancellable X).Quiet CancelAct.inner s := by
  rintro (a | t) ha
  · exact quiet_of_blocked h a ha
  · refine Option.eq_none_iff_forall_ne_some.mpr fun s' hs => ?_
    exact ho (die_iff.mp hs).2.2.1

theorem owner_of_die (hX : ∀ t, P.code t (X.killed t) = .halt) (h : (P.cancellable X).next s (.die t) = some s') :
    P.halted s' t = true ∧ s'.owner = some t := by
  obtain ⟨-, -, -, rfl⟩ := die_iff.mp h
  exact ⟨Program.halted_iff.mpr ⟨_, by simp [State.die, State.goto], hX t⟩, rfl⟩

/-- The mutex of a thread that has ended is never released. -/
theorem owner_forever {ok : State τ C D L → CancelAct τ L → Prop} (h : (P.cancellable X).Path ok s s')
    (ht : P.halted s t = true) (ho : s.owner = some t) : P.halted s' t = true ∧ s'.owner = some t := by
  refine h.inv (I := fun s => P.halted s t = true ∧ s.owner = some t) ⟨ht, ho⟩
    fun {s₁ a s₂} _ _ ha ⟨ht, ho⟩ => ?_
  cases a with
  | die u =>
    obtain ⟨-, -, hn, -⟩ := die_iff.mp ha
    rw [ho] at hn; cases hn
  | step a =>
    have hs := Program.step_of_next ha
    refine ⟨hs.halted ht, ?_⟩
    obtain ⟨l, hl, hc⟩ := Program.halted_iff.mp ht
    cases hs with
    | lock _ _ hn | relock _ hn => rw [ho] at hn; cases hn
    | unlock hl' hc' ho' | wait hl' hc' ho' =>
      obtain rfl := Option.some.inj (ho.symm.trans ho')
      cases hl.symm.trans hl'
      cases hc.symm.trans hc'
    | _ => exact ho

end TKH
