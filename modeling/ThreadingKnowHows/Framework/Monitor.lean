import Mathlib.Data.Fintype.Basic
import ThreadingKnowHows.Framework.System

/-!
# Programs with a mutex and condition variables

The threads `τ` of a `Program` share data `D`, a mutex and condition
variables `C`. What thread `t` does at a control point `l` is the command
`code t l`. A thread runs at a control point, is asleep on a condition
variable, or was woken and has to take the mutex again before it runs
(`Status`).

A wait releases the mutex and goes to sleep in one step. `notifyOne` wakes any
one of the sleepers, `notifyAll` all of them; without sleepers neither has an
effect, and none is remembered. A sleeper may also wake for no reason
(`Act.spurious`). `Program.next` is the semantics; `Step` lists its steps
(`step_of_next`, `Step.next`).
-/

namespace TKH

/-- The next command of a thread; the control points in it are where the
thread goes on. -/
inductive Cmd (τ C D L : Type*)
  /-- Take the mutex, once it is free. -/
  | lock (k : L)
  | unlock (k : L)
  /-- Read and write the shared data, and go on where the result says. -/
  | act (f : D → D × L)
  /-- Release the mutex and sleep; take the mutex again when woken. -/
  | wait (c : C) (k : L)
  | notifyOne (c : C) (k : L)
  | notifyAll (c : C) (k : L)
  /-- Go on once the threads `us` have halted. -/
  | join (us : τ → Bool) (k : L)
  /-- Go on at any control point that `ok` allows. -/
  | pick (ok : D → L → Bool)
  /-- As `pick`, but it is for the environment to go on (a call, a return);
  not before the threads `us` have halted. -/
  | ext (us : τ → Bool) (ok : L → Bool)
  | halt

inductive Status (C L : Type*)
  | run (l : L)
  | asleep (c : C) (k : L)
  | woken (k : L)
  deriving DecidableEq

structure State (τ C D L : Type*) where
  owner : Option τ
  data : D
  th : τ → Status C L

structure Program (τ C D L : Type*) where
  code : τ → L → Cmd τ C D L
  entry : τ → L
  init : D

inductive Act (τ L : Type*)
  /-- The next command of `t` (for a `notifyOne`, when nobody sleeps). -/
  | exec (t : τ)
  /-- `t` notifies one sleeper, `w`. -/
  | wake (t w : τ)
  | pick (t : τ) (k : L)
  | ext (t : τ) (k : L)
  /-- `t`, woken, takes the mutex again. -/
  | relock (t : τ)
  | spurious (t : τ)

variable {τ C D L : Type*}

/-! ## Threads -/

namespace Status

/-- Where the thread runs, or goes on once it is awake. -/
def point : Status C L → L
  | run l => l
  | asleep _ k => k
  | woken k => k

@[simp] theorem point_run (l : L) : (run l : Status C L).point = l := rfl
@[simp] theorem point_asleep (c : C) (k : L) : (asleep c k).point = k := rfl
@[simp] theorem point_woken (k : L) : (woken k : Status C L).point = k := rfl

/-- Waking `w` moves no thread. -/
theorem point_wake {τ : Type*} [DecidableEq τ] {th : τ → Status C L} {w : τ} {c : C} {k : L}
    (hw : th w = asleep c k) (u : τ) : (Function.update th w (woken k) u).point = (th u).point := by
  revert u
  exact (Function.forall_update_iff th fun u x => x.point = (th u).point).mpr ⟨by rw [hw]; rfl, fun _ _ => rfl⟩

/-- Waking `w` lets no thread run. -/
theorem wake_eq_run {τ : Type*} [DecidableEq τ] {th : τ → Status C L} {w : τ} {c : C} {k : L}
    (hw : th w = asleep c k) (u : τ) (l : L) : Function.update th w (woken k) u = run l ↔ th u = run l := by
  revert u
  exact (Function.forall_update_iff th fun u x => x = run l ↔ th u = run l).mpr ⟨by simp [hw], fun _ _ => Iff.rfl⟩

variable [DecidableEq C]

def sleepsOn (c : C) : Status C L → Bool
  | asleep c' _ => c' = c
  | _ => false

/-- What `notifyAll c` does to a thread. -/
def rouse (c : C) : Status C L → Status C L
  | asleep c' k => if c' = c then woken k else asleep c' k
  | x => x

theorem sleepsOn_iff {c : C} {x : Status C L} : x.sleepsOn c = true ↔ ∃ k, x = asleep c k := by
  cases x <;> simp [sleepsOn]

@[simp] theorem rouse_run (c : C) (l : L) : (run l : Status C L).rouse c = run l := rfl
@[simp] theorem rouse_woken (c : C) (k : L) : (woken k : Status C L).rouse c = woken k := rfl
@[simp] theorem rouse_self (c : C) (k : L) : (asleep c k).rouse c = woken k := by simp [rouse]

@[simp] theorem point_rouse (c : C) (x : Status C L) : (x.rouse c).point = x.point := by
  cases x <;> simp only [rouse]
  split <;> rfl

theorem rouse_eq_run {c : C} {x : Status C L} {l : L} : x.rouse c = run l ↔ x = run l := by
  cases x <;> simp only [rouse]
  split <;> simp

theorem rouse_eq_asleep {c c' : C} {x : Status C L} {k : L} :
    x.rouse c = asleep c' k ↔ c' ≠ c ∧ x = asleep c' k := by
  cases x <;> simp only [rouse] <;> try split
  all_goals simp_all
  all_goals grind

end Status

/-! ## Steps -/

variable [DecidableEq τ] [DecidableEq C] [Fintype τ]

/-- Thread `t` goes on at `k`. -/
def State.goto (s : State τ C D L) (t : τ) (k : L) : State τ C D L :=
  { s with th := Function.update s.th t (.run k) }

namespace Program

variable (P : Program τ C D L)

/-- Thread `t` has ended. -/
def halted (s : State τ C D L) (t : τ) : Bool :=
  match s.th t with
  | .run l => match P.code t l with
    | .halt => true
    | _ => false
  | _ => false

def next (s : State τ C D L) : Act τ L → Option (State τ C D L)
  | .exec t => match s.th t with
    | .run l => match P.code t l with
      | .lock k => if s.owner = none then some { s.goto t k with owner := some t } else none
      | .unlock k => if s.owner = some t then some { s.goto t k with owner := none } else none
      | .act f => some { s.goto t (f s.data).2 with data := (f s.data).1 }
      | .wait c k =>
        if s.owner = some t then
          some { s with owner := none, th := Function.update s.th t (.asleep c k) }
        else none
      | .notifyOne c k => if ∀ w, (s.th w).sleepsOn c = false then some (s.goto t k) else none
      | .notifyAll c k => some ({ s with th := fun w => (s.th w).rouse c }.goto t k)
      | .join us k => if ∀ u, us u → P.halted s u then some (s.goto t k) else none
      | _ => none
    | _ => none
  | .wake t w => match s.th t, s.th w with
    | .run l, .asleep c k' => match P.code t l with
      | .notifyOne c' k =>
        if c = c' then some ({ s with th := Function.update s.th w (.woken k') }.goto t k) else none
      | _ => none
    | _, _ => none
  | .pick t k => match s.th t with
    | .run l => match P.code t l with
      | .pick ok => if ok s.data k then some (s.goto t k) else none
      | _ => none
    | _ => none
  | .ext t k => match s.th t with
    | .run l => match P.code t l with
      | .ext us ok => if (∀ u, us u → P.halted s u) ∧ ok k then some (s.goto t k) else none
      | _ => none
    | _ => none
  | .relock t => match s.th t with
    | .woken k => if s.owner = none then some { s.goto t k with owner := some t } else none
    | _ => none
  | .spurious t => match s.th t with
    | .asleep _ k => some { s with th := Function.update s.th t (.woken k) }
    | _ => none

/-- The program with its threads interleaved. -/
def system : System (State τ C D L) (Act τ L) where
  start := { owner := none, data := P.init, th := fun t => .run (P.entry t) }
  next := P.next

/-- The steps of `next`. -/
inductive Step (s : State τ C D L) : Act τ L → State τ C D L → Prop
  | lock {t : τ} {l k : L} : s.th t = .run l → P.code t l = .lock k → s.owner = none →
    Step s (.exec t) { s.goto t k with owner := some t }
  | unlock {t : τ} {l k : L} : s.th t = .run l → P.code t l = .unlock k → s.owner = some t →
    Step s (.exec t) { s.goto t k with owner := none }
  | act {t : τ} {l : L} {f : D → D × L} : s.th t = .run l → P.code t l = .act f →
    Step s (.exec t) { s.goto t (f s.data).2 with data := (f s.data).1 }
  | wait {t : τ} {l : L} {c : C} {k : L} : s.th t = .run l → P.code t l = .wait c k →
    s.owner = some t →
    Step s (.exec t) { s with owner := none, th := Function.update s.th t (.asleep c k) }
  | notifyNone {t : τ} {l : L} {c : C} {k : L} : s.th t = .run l → P.code t l = .notifyOne c k →
    (∀ w, (s.th w).sleepsOn c = false) → Step s (.exec t) (s.goto t k)
  | notifyOne {t w : τ} {l : L} {c : C} {k k' : L} : s.th t = .run l →
    P.code t l = .notifyOne c k → s.th w = .asleep c k' →
    Step s (.wake t w) ({ s with th := Function.update s.th w (.woken k') }.goto t k)
  | notifyAll {t : τ} {l : L} {c : C} {k : L} : s.th t = .run l → P.code t l = .notifyAll c k →
    Step s (.exec t) ({ s with th := fun w => (s.th w).rouse c }.goto t k)
  | join {t : τ} {l : L} {us : τ → Bool} {k : L} : s.th t = .run l → P.code t l = .join us k →
    (∀ u, us u → P.halted s u) → Step s (.exec t) (s.goto t k)
  | pick {t : τ} {l : L} {ok : D → L → Bool} {k : L} : s.th t = .run l → P.code t l = .pick ok →
    ok s.data k → Step s (.pick t k) (s.goto t k)
  | ext {t : τ} {l : L} {us : τ → Bool} {ok : L → Bool} {k : L} : s.th t = .run l →
    P.code t l = .ext us ok → (∀ u, us u → P.halted s u) → ok k → Step s (.ext t k) (s.goto t k)
  | relock {t : τ} {k : L} : s.th t = .woken k → s.owner = none →
    Step s (.relock t) { s.goto t k with owner := some t }
  | spurious {t : τ} {c : C} {k : L} : s.th t = .asleep c k →
    Step s (.spurious t) { s with th := Function.update s.th t (.woken k) }

variable {P}

theorem step_of_next {s s' : State τ C D L} {a : Act τ L} (h : P.system.next s a = some s') :
    P.Step s a s' := by
  change P.next s a = some s' at h
  cases a with
  | exec t =>
    simp only [next] at h
    split at h
    · rename_i l hl
      split at h
      case h_1 k hc => split at h <;> cases h; exact .lock hl hc ‹_›
      case h_2 k hc => split at h <;> cases h; exact .unlock hl hc ‹_›
      case h_3 f hc => cases h; exact .act hl hc
      case h_4 c k hc => split at h <;> cases h; exact .wait hl hc ‹_›
      case h_5 c k hc => split at h <;> cases h; exact .notifyNone hl hc ‹_›
      case h_6 c k hc => cases h; exact .notifyAll hl hc
      case h_7 us k hc => split at h <;> cases h; exact .join hl hc ‹_›
      case h_8 => cases h
    · cases h
  | wake t w =>
    simp only [next] at h
    split at h
    · rename_i l c k' hl hw
      split at h
      · rename_i c' k hc
        split at h <;> cases h
        subst c'
        exact .notifyOne hl hc hw
      · cases h
    · cases h
  | pick t k =>
    simp only [next] at h
    split at h
    · split at h
      · split at h <;> cases h; exact .pick ‹_› ‹_› ‹_›
      · cases h
    · cases h
  | ext t k =>
    simp only [next] at h
    split at h
    · split at h
      · split at h <;> cases h
        rename_i hok
        exact .ext ‹_› ‹_› hok.1 hok.2
      · cases h
    · cases h
  | relock t =>
    simp only [next] at h
    split at h
    · split at h <;> cases h; exact .relock ‹_› ‹_›
    · cases h
  | spurious t =>
    simp only [next] at h
    split at h <;> cases h
    exact .spurious ‹_›

theorem Step.next {s s' : State τ C D L} {a : Act τ L} (h : P.Step s a s') :
    P.system.next s a = some s' := by
  change P.next s a = some s'
  cases h with
  | lock hl hc ho => simp [Program.next, hl, hc, ho]
  | unlock hl hc ho => simp [Program.next, hl, hc, ho]
  | act hl hc => simp [Program.next, hl, hc]
  | wait hl hc ho => simp [Program.next, hl, hc, ho]
  | notifyNone hl hc hn => simp [Program.next, hl, hc, hn]
  | notifyOne hl hc hw => simp [Program.next, hl, hc, hw]
  | notifyAll hl hc => simp [Program.next, hl, hc]
  | join hl hc hj => simp only [Program.next, hl, hc]; exact if_pos hj
  | pick hl hc hk => simp [Program.next, hl, hc, hk]
  | ext hl hc hj hk => simp only [Program.next, hl, hc]; exact if_pos ⟨hj, hk⟩
  | relock hk ho => simp [Program.next, hk, ho]
  | spurious hk => simp [Program.next, hk]

omit [Fintype τ] in
/-- Only an `act` changes the data. -/
theorem Step.data {s s' : State τ C D L} {a : Act τ L} (h : P.Step s a s') :
    s'.data = s.data ∨ ∃ t l f, a = .exec t ∧ s.th t = .run l ∧ P.code t l = .act f ∧
      s' = { s.goto t (f s.data).2 with data := (f s.data).1 } := by
  cases h with
  | act hl hc => exact .inr ⟨_, _, _, rfl, hl, hc, rfl⟩
  | _ => exact .inl rfl

/-- A sleeper sleeps in a wait of its code. -/
theorem wait_of_asleep {s : State τ C D L} (h : P.system.Reach s) {t : τ} {c : C} {k : L}
    (ht : s.th t = .asleep c k) : ∃ l, P.code t l = .wait c k := by
  revert t c k
  refine h.inv (I := fun s => ∀ {t c k}, s.th t = .asleep c k → ∃ l, P.code t l = .wait c k)
    (fun ht => by cases ht) ?_
  intro s a s' _ _ ha ih t c k ht
  -- only a wait puts a thread to sleep
  have hmove : ∀ {f : τ → Status C L} {u x}, (∀ {t c k}, f t = .asleep c k → s.th t = .asleep c k) →
      (∀ c k, x ≠ .asleep c k) → Function.update f u x t = .asleep c k → ∃ l, P.code t l = .wait c k := by
    intro f u x hf hx hk
    by_cases hu : t = u
    · subst hu; rw [Function.update_self] at hk; exact absurd hk (hx c k)
    · rw [Function.update_of_ne hu] at hk; exact ih (hf hk)
  have hrun : ∀ {u l}, Function.update s.th u (.run l) t = .asleep c k → ∃ l, P.code t l = .wait c k :=
    hmove id (by simp)
  cases step_of_next ha with
  | @wait u l c' k' hl hc _ =>
    by_cases hu : t = u
    · subst hu
      simp only [Function.update_self, Status.asleep.injEq] at ht
      obtain ⟨rfl, rfl⟩ := ht
      exact ⟨l, hc⟩
    · exact ih (by simpa [Function.update_of_ne hu] using ht)
  | @notifyOne u w l c' k' k'' hl hc hw =>
    refine hmove (fun {t' c k} h' => ?_) (by simp) ht
    by_cases hu : t' = w
    · subst hu; simp at h'
    · simpa [Function.update_of_ne hu] using h'
  | notifyAll => exact hmove (fun h' => (Status.rouse_eq_asleep.mp h').2) (by simp) ht
  | spurious => exact hmove id (by simp) ht
  | lock | unlock | act | notifyNone | join | pick | ext | relock => exact hrun ht

end Program

end TKH
