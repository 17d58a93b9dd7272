import Mathlib.Data.Finset.Erase
import Mathlib.Data.Finset.Insert
import Mathlib.Logic.Function.Basic
import ThreadingKnowHows.Framework.SharedMutex
import ThreadingKnowHows.Framework.System

/-!
# Programs with a shared mutex

Threads that share data `D` and one shared mutex; what thread `t` does at a
control point `l` is the command `code t l`. A command that looks at the data or
changes it may log something.

`mode l` says how a thread at `l` holds the mutex. If each command agrees with it
(`Cmd.Keeps`), it is right in every run (`Discipline.owned`), and a state in which
no thread can go on has a free mutex and only resting threads
(`Discipline.rests`). Then `inv` holds of the data as long as no thread holds the
mutex exclusively, and `pre l` while a thread is at `l` and holds it
(`Annotation.sound`).
-/

namespace TKH.ReadWrite

inductive Cmd (D L E : Type*)
  | lock (k : L)
  | unlock (k : L)
  | lockShared (k : L)
  | unlockShared (k : L)
  | read (f : D → L × Option E)
  | write (f : D → D × L × Option E)
  /-- The environment says where the thread goes on. -/
  | ext (ok : L → Bool)
  | halt

structure Program (τ D L E : Type*) where
  code : τ → L → Cmd D L E
  entry : τ → L
  init : D

structure State (τ D L E : Type*) where
  m : SharedMutex τ
  data : D
  pc : τ → L
  log : List (τ × E)

inductive Act (τ L : Type*)
  | exec (t : τ)
  | ext (t : τ) (k : L)

variable {τ D L E : Type*} [DecidableEq τ]

def State.goto (s : State τ D L E) (t : τ) (k : L) : State τ D L E := { s with pc := Function.update s.pc t k }

/-- What `t` logs. -/
def entries (t : τ) (e : Option E) : List (τ × E) := e.toList.map fun e => (t, e)

namespace Program

variable (P : Program τ D L E)

def next (s : State τ D L E) : Act τ L → Option (State τ D L E)
  | .exec t => match P.code t (s.pc t) with
    | .lock k => (s.m.lock t).map fun m => { s.goto t k with m := m }
    | .unlock k => some { s.goto t k with m := s.m.unlock }
    | .lockShared k => (s.m.lockShared t).map fun m => { s.goto t k with m := m }
    | .unlockShared k => some { s.goto t k with m := s.m.unlockShared t }
    | .read f => some { s.goto t (f s.data).1 with log := s.log ++ entries t (f s.data).2 }
    | .write f => some { s.goto t (f s.data).2.1 with data := (f s.data).1, log := s.log ++ entries t (f s.data).2.2 }
    | _ => none
  | .ext t k => match P.code t (s.pc t) with
    | .ext ok => if ok k then some (s.goto t k) else none
    | _ => none

def system : System (State τ D L E) (Act τ L) where
  start := { m := .free, data := P.init, pc := P.entry, log := [] }
  next := P.next

/-- The steps of `next`. -/
inductive Step (s : State τ D L E) : Act τ L → State τ D L E → Prop
  | lock {t : τ} {k : L} {m : SharedMutex τ} : P.code t (s.pc t) = .lock k → s.m.lock t = some m →
    Step s (.exec t) { s.goto t k with m := m }
  | unlock {t : τ} {k : L} : P.code t (s.pc t) = .unlock k → Step s (.exec t) { s.goto t k with m := s.m.unlock }
  | lockShared {t : τ} {k : L} {m : SharedMutex τ} : P.code t (s.pc t) = .lockShared k → s.m.lockShared t = some m →
    Step s (.exec t) { s.goto t k with m := m }
  | unlockShared {t : τ} {k : L} : P.code t (s.pc t) = .unlockShared k →
    Step s (.exec t) { s.goto t k with m := s.m.unlockShared t }
  | read {t : τ} {f : D → L × Option E} : P.code t (s.pc t) = .read f →
    Step s (.exec t) { s.goto t (f s.data).1 with log := s.log ++ entries t (f s.data).2 }
  | write {t : τ} {f : D → D × L × Option E} : P.code t (s.pc t) = .write f →
    Step s (.exec t) { s.goto t (f s.data).2.1 with data := (f s.data).1, log := s.log ++ entries t (f s.data).2.2 }
  | ext {t : τ} {ok : L → Bool} {k : L} : P.code t (s.pc t) = .ext ok → ok k = true → Step s (.ext t k) (s.goto t k)

variable {P}

theorem next_iff {s s' : State τ D L E} {a : Act τ L} : P.system.next s a = some s' ↔ P.Step s a s' := by
  change P.next s a = some s' ↔ _
  constructor
  · intro h
    cases a with
    | exec t =>
      simp only [next] at h
      split at h
      · obtain ⟨m, hm, rfl⟩ := Option.map_eq_some_iff.mp h
        exact .lock ‹_› hm
      · cases h; exact .unlock ‹_›
      · obtain ⟨m, hm, rfl⟩ := Option.map_eq_some_iff.mp h
        exact .lockShared ‹_› hm
      · cases h; exact .unlockShared ‹_›
      · cases h; exact .read ‹_›
      · cases h; exact .write ‹_›
      · cases h
    | ext t k =>
      simp only [next] at h
      split at h
      · split at h <;> cases h
        exact .ext ‹_› ‹_›
      · cases h
  · intro h
    cases h with
    | lock hc hm | lockShared hc hm => simp [next, hc, hm]
    | unlock hc | unlockShared hc | read hc | write hc => simp [next, hc]
    | ext hc hk => simp [next, hc, hk]

end Program

/-! ## The mutex -/

/-- How a thread holds the mutex. -/
inductive Mode
  | out
  | shared
  | exclusive
  deriving DecidableEq

/-- The command at `l` agrees with `mode`. -/
def Cmd.Keeps (mode : L → Mode) (l : L) : Cmd D L E → Prop
  | .lock k => mode l = .out ∧ mode k = .exclusive
  | .unlock k => mode l = .exclusive ∧ mode k = .out
  | .lockShared k => mode l = .out ∧ mode k = .shared
  | .unlockShared k => mode l = .shared ∧ mode k = .out
  | .read f => mode l ≠ .out ∧ ∀ d, mode (f d).1 = mode l
  | .write f => mode l = .exclusive ∧ ∀ d, mode (f d).2.1 = .exclusive
  | .ext ok => mode l = .out ∧ ∀ k, ok k = true → mode k = .out
  | .halt => mode l = .out

structure Discipline (P : Program τ D L E) (mode : L → Mode) : Prop where
  entry : ∀ t, mode (P.entry t) = .out
  code : ∀ t l, (P.code t l).Keeps mode l

variable {P : Program τ D L E} {mode : L → Mode} {s s' : State τ D L E}

omit [DecidableEq τ] in
theorem Discipline.keeps_at (h : Discipline P mode) {t : τ} {l : L} {c : Cmd D L E} (hc : P.code t l = c) :
    c.Keeps mode l := by
  rw [← hc]
  exact h.code t l

/-- The mutex knows how each thread holds it. -/
def Owned (mode : L → Mode) (s : State τ D L E) : Prop :=
  ∀ t, (t ∈ s.m.shared ↔ mode (s.pc t) = .shared) ∧ (s.m.exclusive = some t ↔ mode (s.pc t) = .exclusive)

/-- A step of `t` that changes only how `t` holds the mutex. -/
theorem Owned.move (h : Owned mode s) {t : τ} {k : L} {m : SharedMutex τ} {d : D} {log : List (τ × E)}
    (hother : ∀ u, u ≠ t → (u ∈ m.shared ↔ u ∈ s.m.shared) ∧ (m.exclusive = some u ↔ s.m.exclusive = some u))
    (ht : (t ∈ m.shared ↔ mode k = .shared) ∧ (m.exclusive = some t ↔ mode k = .exclusive)) :
    Owned mode (State.mk m d (Function.update s.pc t k) log) := by
  refine (Function.forall_update_iff s.pc fun u k => (u ∈ m.shared ↔ mode k = .shared) ∧
    (m.exclusive = some u ↔ mode k = .exclusive)).mpr ⟨ht, fun u hu => ?_⟩
  exact ⟨(hother u hu).1.trans (h u).1, (hother u hu).2.trans (h u).2⟩

/-- A step that does not change how `t` holds the mutex. -/
theorem Owned.goto (h : Owned mode s) {t : τ} {k : L} {d : D} {log : List (τ × E)} (hk : mode k = mode (s.pc t)) :
    Owned mode (State.mk s.m d (Function.update s.pc t k) log) :=
  h.move (fun _ _ => ⟨Iff.rfl, Iff.rfl⟩) (by rw [hk]; exact h t)

theorem Discipline.owned_step (h : Discipline P mode) {a : Act τ L} (hs : P.Step s a s') (hi : Owned mode s) :
    Owned mode s' := by
  cases hs with
  | @lock t k m hc hm =>
    obtain ⟨hex, hsh, hsh', hex'⟩ := SharedMutex.lock_iff.mp hm
    refine hi.move (fun u hu => ?_) ?_
    · simp [hex, hsh, hsh', hex', Ne.symm hu]
    · simp [hsh', hex', (h.keeps_at hc).2]
  | @unlock t k hc =>
    obtain ⟨hl, hk⟩ := h.keeps_at hc
    have hex := (hi t).2.mpr hl
    have hsh : s.m.shared = ∅ := s.m.excludes (by rw [hex]; exact nofun)
    refine hi.move (fun u hu => ?_) ?_
    · simp [SharedMutex.unlock, hex, Ne.symm hu]
    · simp [SharedMutex.unlock, hsh, hk]
  | @lockShared t k m hc hm =>
    obtain ⟨hex, hsh, hex'⟩ := SharedMutex.lockShared_iff.mp hm
    refine hi.move (fun u hu => ?_) ?_
    · simp [hex, hsh, hex', hu]
    · simp [hsh, hex', (h.keeps_at hc).2]
  | @unlockShared t k hc =>
    obtain ⟨hl, hk⟩ := h.keeps_at hc
    have hex : s.m.exclusive ≠ some t := fun he => by
      have := (hi t).2.mp he
      rw [hl] at this
      cases this
    refine hi.move (fun u hu => ?_) ?_
    · simp [SharedMutex.unlockShared, hu]
    · simp [SharedMutex.unlockShared, hk, hex]
  | read hc => exact hi.goto ((h.keeps_at hc).2 _)
  | write hc => exact hi.goto (((h.keeps_at hc).2 _).trans (h.keeps_at hc).1.symm)
  | ext hc hk => exact hi.goto (((h.keeps_at hc).2 _ hk).trans (h.keeps_at hc).1.symm)

theorem Discipline.owned (h : Discipline P mode) (hs : P.system.Reach s) : Owned mode s := by
  refine hs.inv (I := Owned mode) (fun t => ?_) fun _ _ ha hi => h.owned_step (Program.next_iff.mp ha) hi
  simp [Program.system, SharedMutex.free, h.entry t]

omit [DecidableEq τ] in
/-- While a thread holds the mutex exclusively no other thread holds it. -/
theorem Owned.alone (h : Owned mode s) {t u : τ} (ht : mode (s.pc t) = .exclusive) (hu : u ≠ t) :
    mode (s.pc u) = .out := by
  have hex := (h t).2.mpr ht
  have hsh : s.m.shared = ∅ := s.m.excludes (by rw [hex]; exact nofun)
  cases hm : mode (s.pc u) with
  | out => rfl
  | shared =>
    have := (h u).1.mpr hm
    rw [hsh] at this
    exact absurd this (Finset.notMem_empty u)
  | exclusive => exact absurd (Option.some.inj ((((h u).2.mpr hm).symm.trans hex))) hu

/-- If no thread can go on, the mutex is free, and the threads have ended or wait
for the environment. -/
theorem Discipline.rests (h : Discipline P mode) (hs : P.system.Reach s)
    (hq : ∀ t, P.system.next s (.exec t) = none) :
    (s.m.shared = ∅ ∧ s.m.exclusive = none) ∧
      ∀ t, P.code t (s.pc t) = .halt ∨ ∃ ok, P.code t (s.pc t) = .ext ok := by
  have hno : ∀ {t s'}, ¬ P.Step s (.exec t) s' := fun hstep => by
    cases (Program.next_iff.mpr hstep).symm.trans (hq _)
  have hi := h.owned hs
  -- a thread that holds the mutex could go on
  have hout : ∀ t, mode (s.pc t) = .out := fun t => by
    have hk := h.code t (s.pc t)
    cases hc : P.code t (s.pc t) <;> rw [hc] at hk
    case lock | lockShared | ext => exact hk.1
    case halt => exact hk
    case unlock => exact (hno (.unlock hc)).elim
    case unlockShared => exact (hno (.unlockShared hc)).elim
    case read => exact (hno (.read hc)).elim
    case write => exact (hno (.write hc)).elim
  have hsh : s.m.shared = ∅ := by
    refine Finset.eq_empty_iff_forall_notMem.mpr fun t ht => ?_
    have := (hi t).1.mp ht
    rw [hout t] at this
    cases this
  have hex : s.m.exclusive = none := by
    by_contra hne
    obtain ⟨t, ht⟩ := Option.ne_none_iff_exists'.mp hne
    have := (hi t).2.mp ht
    rw [hout t] at this
    cases this
  refine ⟨⟨hsh, hex⟩, fun t => ?_⟩
  cases hc : P.code t (s.pc t) with
  | halt => exact .inl rfl
  | ext ok => exact .inr ⟨ok, rfl⟩
  | lock k =>
    obtain ⟨m, hm⟩ : ∃ m, s.m.lock t = some m := by simp [SharedMutex.lock, hex, hsh]
    exact (hno (.lock hc hm)).elim
  | lockShared k =>
    obtain ⟨m, hm⟩ : ∃ m, s.m.lockShared t = some m := by simp [SharedMutex.lockShared, hex]
    exact (hno (.lockShared hc hm)).elim
  | unlock k => exact (hno (.unlock hc)).elim
  | unlockShared k => exact (hno (.unlockShared hc)).elim
  | read f => exact (hno (.read hc)).elim
  | write f => exact (hno (.write hc)).elim

/-! ## What holds of the data -/

/-- The command at `l` leads from what `inv` and `pre` say there to what they say
at its end. -/
def Cmd.Asserts (mode : L → Mode) (inv : D → Prop) (pre : L → D → Prop) (l : L) : Cmd D L E → Prop
  | .lock k | .lockShared k => ∀ d, inv d → pre k d
  | .unlock _ => ∀ d, pre l d → inv d
  | .read f => ∀ d, (mode l = .shared → inv d) → pre l d → pre (f d).1 d
  | .write f => ∀ d, pre l d → pre (f d).2.1 (f d).1
  | .unlockShared _ | .ext _ | .halt => True

structure Annotation (P : Program τ D L E) (mode : L → Mode) (inv : D → Prop) (pre : L → D → Prop) : Prop
    extends Discipline P mode where
  init : inv P.init
  asserts : ∀ t l, (P.code t l).Asserts mode inv pre l

structure Sound (mode : L → Mode) (inv : D → Prop) (pre : L → D → Prop) (s : State τ D L E) : Prop where
  inv : s.m.exclusive = none → inv s.data
  pre : ∀ t, mode (s.pc t) ≠ .out → pre (s.pc t) s.data

variable {inv : D → Prop} {pre : L → D → Prop}

omit [DecidableEq τ] in
theorem Annotation.asserts_at (h : Annotation P mode inv pre) {t : τ} {l : L} {c : Cmd D L E} (hc : P.code t l = c) :
    c.Asserts mode inv pre l := by
  rw [← hc]
  exact h.asserts t l

/-- What a step of `t` to `k` has to keep. -/
theorem Sound.move (h : Sound mode inv pre s) {t : τ} {k : L} {m : SharedMutex τ} {log : List (τ × E)}
    (hinv : m.exclusive = none → inv s.data) (hk : mode k ≠ .out → pre k s.data) :
    Sound mode inv pre (State.mk m s.data (Function.update s.pc t k) log) where
  inv := hinv
  pre := (Function.forall_update_iff s.pc fun _ k => mode k ≠ .out → pre k s.data).mpr ⟨hk, fun u _ => h.pre u⟩

theorem Annotation.sound_step (h : Annotation P mode inv pre) {a : Act τ L} (hs : P.Step s a s') (ho : Owned mode s)
    (hi : Sound mode inv pre s) : Sound mode inv pre s' := by
  cases hs with
  | lock hc hm =>
    have hex := (SharedMutex.lock_iff.mp hm).1
    refine hi.move (fun _ => hi.inv hex) fun _ => ?_
    exact h.asserts_at hc _ (hi.inv hex)
  | @unlock t k hc =>
    have hl := (h.keeps_at hc).1
    have hinv : inv s.data := h.asserts_at hc _ (hi.pre t (by rw [hl]; exact nofun))
    exact hi.move (fun _ => hinv) fun hk => absurd (h.keeps_at hc).2 hk
  | lockShared hc hm =>
    have hex := (SharedMutex.lockShared_iff.mp hm).1
    refine hi.move (fun _ => hi.inv hex) fun _ => ?_
    exact h.asserts_at hc _ (hi.inv hex)
  | unlockShared hc => exact hi.move hi.inv fun hk => absurd (h.keeps_at hc).2 hk
  | @read t f hc =>
    refine hi.move hi.inv fun _ => h.asserts_at hc _ (fun hl => hi.inv ?_) (hi.pre t (h.keeps_at hc).1)
    by_contra hne
    obtain ⟨u, hu⟩ := Option.ne_none_iff_exists'.mp hne
    have hmem := (ho t).1.mpr hl
    rw [s.m.excludes (by rw [hu]; exact nofun)] at hmem
    exact Finset.notMem_empty t hmem
  | @write t f hc =>
    have hl := (h.keeps_at hc).1
    refine ⟨fun hex => ?_, (Function.forall_update_iff s.pc fun _ k => mode k ≠ .out → pre k (f s.data).1).mpr ⟨fun _ => ?_,
      fun u hu hk => absurd (ho.alone hl hu) hk⟩⟩
    · have := (ho t).2.mpr hl
      rw [show s.m.exclusive = none from hex] at this
      cases this
    · exact h.asserts_at hc _ (hi.pre t (by rw [hl]; exact nofun))
  | @ext t ok k hc hk => exact hi.move hi.inv fun hne => absurd ((h.keeps_at hc).2 k hk) hne

theorem Annotation.sound (h : Annotation P mode inv pre) (hs : P.system.Reach s) : Sound mode inv pre s := by
  refine hs.inv (I := Sound mode inv pre) ⟨fun _ => h.init, fun t ht => ?_⟩ fun hr _ ha hi => ?_
  · exact absurd (h.entry t) ht
  · exact h.sound_step (Program.next_iff.mp ha) (h.owned hr) hi

end TKH.ReadWrite
