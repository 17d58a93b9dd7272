import Mathlib.Data.Finset.Max
import Mathlib.Data.Fintype.Basic
import ThreadingKnowHows.Framework.System
import ThreadingKnowHows.Framework.Total

/-!
# Programs with several mutexes

Threads that share data `D` and the mutexes of `A`; what thread `t` does at a
control point `l` is the command `code t l`. A `tryLock` may fail although the
mutex is free, as the standard allows.

`holds t l a` says that `t` holds `a` at `l`. If each command agrees with it
(`Cmd.Keeps`), it is right in every run (`Discipline.owner_iff`). If also a
thread that blocks on a mutex holds only mutexes of smaller rank, there is no
circular wait: some thread that has not halted can go on
(`Discipline.exists_step`). A thread may hold mutexes of any rank when it tries
one. What a thread knows of the data that its mutexes protect is an `Annotation`,
and what a thread adds to the data is taken from what it has still to add
(`Annotation.conserved`).

`scopedLock` is `std::scoped_lock` of two mutexes: block on one of them, try the
other, and on failure release the first and start over.
-/

namespace TKH.Mutexes

/-- The next command of a thread, and where it goes on. -/
inductive Cmd (A D L : Type*)
  | lock (a : A) (k : L)
  | tryLock (a : A) (yes no : L)
  | unlock (a : A) (k : L)
  | act (f : D → D × L)
  /-- Go on at either of two control points. -/
  | choose (k : Bool → L)
  | halt

structure Program (τ A D L : Type*) where
  code : τ → L → Cmd A D L
  entry : τ → L
  init : D

structure State (τ A D L : Type*) where
  owner : A → Option τ
  data : D
  pc : τ → L

inductive Act (τ : Type*)
  /-- The next command of `t`; a `tryLock` succeeds. -/
  | exec (t : τ)
  /-- The `tryLock` of `t` fails. -/
  | fail (t : τ)
  | choose (t : τ) (which : Bool)

/-- Whose step it is. -/
def Act.thread {τ : Type*} : Act τ → τ
  | exec t | fail t | choose t _ => t

variable {τ A D L : Type*} [DecidableEq τ]

def State.goto (s : State τ A D L) (t : τ) (k : L) : State τ A D L := { s with pc := Function.update s.pc t k }

variable [DecidableEq A]

namespace Program

variable (P : Program τ A D L)

def next (s : State τ A D L) : Act τ → Option (State τ A D L)
  | .exec t => match P.code t (s.pc t) with
    | .lock a k | .tryLock a k _ =>
      if s.owner a = none then some ({ s with owner := Function.update s.owner a (some t) }.goto t k) else none
    | .unlock a k =>
      if s.owner a = some t then some ({ s with owner := Function.update s.owner a none }.goto t k) else none
    | .act f => some ({ s with data := (f s.data).1 }.goto t (f s.data).2)
    | _ => none
  | .fail t => match P.code t (s.pc t) with
    | .tryLock _ _ no => some (s.goto t no)
    | _ => none
  | .choose t which => match P.code t (s.pc t) with
    | .choose k => some (s.goto t (k which))
    | _ => none

def system : System (State τ A D L) (Act τ) where
  start := { owner := fun _ => none, data := P.init, pc := P.entry }
  next := P.next

/-- The steps of `next`. -/
inductive Step (s : State τ A D L) : Act τ → State τ A D L → Prop
  | lock {t : τ} {a : A} {k : L} : P.code t (s.pc t) = .lock a k → s.owner a = none →
    Step s (.exec t) ({ s with owner := Function.update s.owner a (some t) }.goto t k)
  | tryLock {t : τ} {a : A} {yes no : L} : P.code t (s.pc t) = .tryLock a yes no → s.owner a = none →
    Step s (.exec t) ({ s with owner := Function.update s.owner a (some t) }.goto t yes)
  | fail {t : τ} {a : A} {yes no : L} : P.code t (s.pc t) = .tryLock a yes no → Step s (.fail t) (s.goto t no)
  | unlock {t : τ} {a : A} {k : L} : P.code t (s.pc t) = .unlock a k → s.owner a = some t →
    Step s (.exec t) ({ s with owner := Function.update s.owner a none }.goto t k)
  | act {t : τ} {f : D → D × L} : P.code t (s.pc t) = .act f →
    Step s (.exec t) ({ s with data := (f s.data).1 }.goto t (f s.data).2)
  | choose {t : τ} {k : Bool → L} (which : Bool) : P.code t (s.pc t) = .choose k →
    Step s (.choose t which) (s.goto t (k which))

variable {P}

theorem step_of_next {s s' : State τ A D L} {a : Act τ} (h : P.system.next s a = some s') : P.Step s a s' := by
  change P.next s a = some s' at h
  cases a with
  | exec t =>
    simp only [next] at h
    split at h
    · split at h <;> cases h
      exact .lock ‹_› ‹_›
    · split at h <;> cases h
      exact .tryLock ‹_› ‹_›
    · split at h <;> cases h
      exact .unlock ‹_› ‹_›
    · cases h; exact .act ‹_›
    · cases h
  | fail t =>
    simp only [next] at h
    split at h <;> cases h
    exact .fail ‹_›
  | choose t which =>
    simp only [next] at h
    split at h <;> cases h
    exact .choose which ‹_›

theorem Step.next {s s' : State τ A D L} {a : Act τ} (h : P.Step s a s') : P.system.next s a = some s' := by
  change P.next s a = some s'
  cases h with
  | lock hc ho | tryLock hc ho | unlock hc ho => simp [Program.next, hc, ho]
  | fail hc | act hc | choose _ hc => simp [Program.next, hc]

end Program

/-! ## The mutexes -/

/-- The command at `l` agrees with `holds` and, if it blocks, with `rank`. -/
def Cmd.Keeps (holds : L → A → Prop) (rank : A → ℕ) (l : L) : Cmd A D L → Prop
  | .lock a k => (∀ b, holds l b → rank b < rank a) ∧ ∀ b, holds k b ↔ holds l b ∨ b = a
  | .tryLock a yes no => ¬ holds l a ∧ (∀ b, holds yes b ↔ holds l b ∨ b = a) ∧ ∀ b, holds no b ↔ holds l b
  | .unlock a k => holds l a ∧ ∀ b, holds k b ↔ holds l b ∧ b ≠ a
  | .act f => ∀ d b, holds (f d).2 b ↔ holds l b
  | .choose k => ∀ which b, holds (k which) b ↔ holds l b
  | .halt => ∀ b, ¬ holds l b

structure Discipline (P : Program τ A D L) (holds : τ → L → A → Prop) (rank : A → ℕ) : Prop where
  entry : ∀ t a, ¬ holds t (P.entry t) a
  code : ∀ t l, (P.code t l).Keeps (holds t) rank l

variable {P : Program τ A D L} {holds : τ → L → A → Prop} {rank : A → ℕ} {s s' : State τ A D L}

omit [DecidableEq τ] [DecidableEq A] in
theorem Discipline.keeps_at (h : Discipline P holds rank) {t : τ} {l : L} {c : Cmd A D L} (hc : P.code t l = c) :
    c.Keeps (holds t) rank l := by
  rw [← hc]
  exact h.code t l

/-- The owners are the threads that hold the mutexes. -/
def Owned (holds : τ → L → A → Prop) (s : State τ A D L) : Prop := ∀ t a, s.owner a = some t ↔ holds t (s.pc t) a

omit [DecidableEq A] in
/-- A step of `t` that changes the owners only from or to `t`. -/
theorem Owned.move (h : Owned holds s) {t : τ} {k : L} {o : A → Option τ} {d : D}
    (ho : ∀ u a, u ≠ t → (o a = some u ↔ s.owner a = some u)) (ht : ∀ a, o a = some t ↔ holds t k a) :
    Owned holds (State.mk o d (Function.update s.pc t k)) := by
  exact (Function.forall_update_iff s.pc fun u k => ∀ a, o a = some u ↔ holds u k a).mpr
    ⟨ht, fun u hu a => (ho u a hu).trans (h u a)⟩

/-- `t` takes or releases the mutex `a`, which no other thread owns. -/
theorem Owned.set (h : Owned holds s) {t : τ} {a : A} {k : L} {o : Option τ} (ho : ∀ u, u ≠ t → o ≠ some u)
    (hother : ∀ u, u ≠ t → s.owner a ≠ some u) (ha : o = some t ↔ holds t k a)
    (hk : ∀ b, b ≠ a → (holds t k b ↔ holds t (s.pc t) b)) :
    Owned holds ({ s with owner := Function.update s.owner a o }.goto t k) := by
  refine h.move (fun u b hu => ?_) fun b => ?_ <;> dsimp only <;> by_cases hb : b = a
  · subst hb
    rw [Function.update_self]
    exact ⟨fun he => absurd he (ho u hu), fun he => absurd he (hother u hu)⟩
  · rw [Function.update_of_ne hb]
  · subst hb
    rw [Function.update_self]
    exact ha
  · rw [Function.update_of_ne hb, hk b hb]
    exact h t b

theorem Owned.take (h : Owned holds s) {t : τ} {a : A} {k : L} (hfree : s.owner a = none)
    (hk : ∀ b, holds t k b ↔ holds t (s.pc t) b ∨ b = a) :
    Owned holds ({ s with owner := Function.update s.owner a (some t) }.goto t k) :=
  h.set (fun u hu => by simpa using Ne.symm hu) (fun u _ => by simp [hfree]) (by simp [hk]) fun b hb => by simp [hk, hb]

omit [DecidableEq A] in
/-- A step of `t` that takes and releases nothing. -/
theorem Owned.goto (h : Owned holds s) {t : τ} {k : L} {d : D} (hk : ∀ b, holds t k b ↔ holds t (s.pc t) b) :
    Owned holds ({ s with data := d }.goto t k) :=
  h.move (fun _ _ _ => Iff.rfl) fun b => by rw [hk]; exact h t b

theorem Discipline.owned_step (h : Discipline P holds rank) {a : Act τ} (hs : P.Step s a s') (hi : Owned holds s) :
    Owned holds s' := by
  cases hs with
  | lock hc hfree => exact hi.take hfree (h.keeps_at hc).2
  | tryLock hc hfree => exact hi.take hfree (h.keeps_at hc).2.1
  | fail hc => exact hi.goto (h.keeps_at hc).2.2
  | @unlock t a k hc ho =>
    have hk := (h.keeps_at hc).2
    refine hi.set (by simp) (fun u hu => ?_) (by simp [hk]) fun b hb => by simp [hk, hb]
    rw [ho]
    simpa using Ne.symm hu
  | act hc => exact hi.goto (h.keeps_at hc s.data)
  | choose which hc => exact hi.goto (h.keeps_at hc which)

theorem Discipline.owner_iff (h : Discipline P holds rank) (hs : P.system.Reach s) (t : τ) (a : A) :
    s.owner a = some t ↔ holds t (s.pc t) a := by
  revert t a
  refine hs.inv (I := Owned holds) (fun t a => ?_) fun _ _ ha hi => h.owned_step (P.step_of_next ha) hi
  simp [Program.system, h.entry t a]

/-- Two threads do not hold one mutex. -/
theorem Discipline.unique (h : Discipline P holds rank) (hs : P.system.Reach s) {t u : τ} {a : A}
    (ht : holds t (s.pc t) a) (hu : holds u (s.pc u) a) : t = u :=
  Option.some.inj (((h.owner_iff hs t a).mpr ht).symm.trans ((h.owner_iff hs u a).mpr hu))

omit [DecidableEq τ] [DecidableEq A] in
/-- A thread that has halted holds nothing. -/
theorem Discipline.not_holds_of_halt (h : Discipline P holds rank) {t : τ} {l : L} (hc : P.code t l = .halt) (a : A) :
    ¬ holds t l a :=
  h.keeps_at hc a

/-- A thread that cannot go on has halted, or waits for a mutex that is taken. -/
theorem Discipline.stuck (h : Discipline P holds rank) (hs : P.system.Reach s) {t : τ}
    (ht : ∀ a, a.thread = t → P.system.next s a = none) :
    P.code t (s.pc t) = .halt ∨ ∃ a k u, P.code t (s.pc t) = .lock a k ∧ s.owner a = some u := by
  have hno : ∀ {a s'}, P.Step s a s' → a.thread = t → False := fun hstep hat => by
    cases hstep.next.symm.trans (ht _ hat)
  cases hc : P.code t (s.pc t) with
  | halt => exact .inl rfl
  | lock a k =>
    cases ho : s.owner a with
    | none => exact (hno (.lock hc ho) rfl).elim
    | some u => exact .inr ⟨a, k, u, rfl, ho⟩
  | tryLock a yes no => exact (hno (.fail hc) rfl).elim
  | unlock a k => exact (hno (.unlock hc ((h.owner_iff hs t a).mpr (h.keeps_at hc).1)) rfl).elim
  | act f => exact (hno (.act hc) rfl).elim
  | choose k => exact (hno (.choose true hc) rfl).elim

/-- There is no circular wait. -/
theorem Discipline.exists_step [Fintype τ] (h : Discipline P holds rank) (hs : P.system.Reach s)
    (hne : ∃ t, P.code t (s.pc t) ≠ .halt) :
    ∃ t, P.code t (s.pc t) ≠ .halt ∧ ∃ a, a.thread = t ∧ (P.system.next s a).isSome := by
  by_contra hstuck
  push Not at hstuck
  -- a thread that has not halted waits for a mutex that another one holds
  have hwaits : ∀ t, P.code t (s.pc t) ≠ .halt → ∃ a k u, P.code t (s.pc t) = .lock a k ∧ s.owner a = some u :=
    fun t ht => (h.stuck hs fun a hat => by simpa using hstuck t ht a hat).resolve_left ht
  -- of the threads that wait, one that waits for a mutex of the greatest rank
  let wanted : τ → ℕ := fun t => match P.code t (s.pc t) with
    | .lock a _ => rank a
    | _ => 0
  have hwanted : ∀ {t a k}, P.code t (s.pc t) = .lock a k → wanted t = rank a := fun hc => by simp only [wanted, hc]
  classical
  obtain ⟨t₀, ht₀⟩ := hne
  obtain ⟨t, ht, hmax⟩ := Finset.exists_max_image (Finset.univ.filter fun t => P.code t (s.pc t) ≠ .halt) wanted
    ⟨t₀, by simpa using ht₀⟩
  obtain ⟨a, k, u, hc, ho⟩ := hwaits t (by simpa using ht)
  have hu := (h.owner_iff hs u a).mp ho
  have hhalt : P.code u (s.pc u) ≠ .halt := fun he => h.not_holds_of_halt he a hu
  obtain ⟨b, k', v, hcu, -⟩ := hwaits u hhalt
  have hlt : rank a < rank b := (h.keeps_at hcu).1 a hu
  have hle := hmax u (by simpa using hhalt)
  rw [hwanted hc, hwanted hcu] at hle
  exact absurd hlt (Nat.not_lt.mpr hle)

/-! ## Assertions -/

/-- The command at `l` leads from what `I` says there to what it says at its end. -/
def Cmd.Asserts (I : L → D → Prop) (l : L) : Cmd A D L → Prop
  | .lock _ k | .unlock _ k => ∀ d, I l d → I k d
  | .tryLock _ yes no => ∀ d, I l d → I yes d ∧ I no d
  | .act f => ∀ d, I l d → I (f d).2 (f d).1
  | .choose k => ∀ which d, I l d → I (k which) d
  | .halt => True

/-- `I t l` is what `t` knows of the data at `l`. An access by another thread
keeps it, if the two do not hold a mutex in common. -/
structure Annotation (P : Program τ A D L) (holds : τ → L → A → Prop) (rank : A → ℕ) (I : τ → L → D → Prop) : Prop
    extends Discipline P holds rank where
  entries : ∀ t, I t (P.entry t) P.init
  asserts : ∀ t l, (P.code t l).Asserts (I t) l
  stable : ∀ {t u l k f d}, P.code t l = .act f → u ≠ t → (∀ a, holds t l a → ¬ holds u k a) → I t l d → I u k d →
    I u k (f d).1

variable {I : τ → L → D → Prop}

omit [DecidableEq τ] [DecidableEq A] in
theorem Annotation.asserts_at (h : Annotation P holds rank I) {t : τ} {l : L} {c : Cmd A D L} (hc : P.code t l = c) :
    c.Asserts (I t) l := by
  rw [← hc]
  exact h.asserts t l

theorem Annotation.assert_step (h : Annotation P holds rank I) {a : Act τ} (hs : P.Step s a s')
    (hunique : ∀ {t u a}, holds t (s.pc t) a → holds u (s.pc u) a → t = u) (hi : ∀ t, I t (s.pc t) s.data) :
    ∀ t, I t (s'.pc t) s'.data := by
  -- a step of `t` to `k`, that may change the data
  have hmove : ∀ {t k d}, I t k d → (∀ u, u ≠ t → I u (s.pc u) d) → ∀ u, I u (Function.update s.pc t k u) d := by
    intro t k d ht hother
    exact (Function.forall_update_iff s.pc fun u k => I u k d).mpr ⟨ht, hother⟩
  have hrest : ∀ {t : τ} (u : τ), u ≠ t → I u (s.pc u) s.data := fun u _ => hi u
  cases hs with
  | @lock t a k hc | @unlock t a k hc => exact hmove (h.asserts_at hc _ (hi t)) hrest
  | @tryLock t a yes no hc => exact hmove (h.asserts_at hc _ (hi t)).1 hrest
  | @fail t a yes no hc => exact hmove (h.asserts_at hc _ (hi t)).2 hrest
  | @act t f hc =>
    exact hmove (h.asserts_at hc _ (hi t)) fun u hu =>
      h.stable hc hu (fun a ht hu' => hu (hunique hu' ht)) (hi t) (hi u)
  | @choose t k which hc => exact hmove (h.asserts_at hc which _ (hi t)) hrest

/-- What the threads know holds in every run. -/
theorem Annotation.assert (h : Annotation P holds rank I) (hs : P.system.Reach s) (t : τ) : I t (s.pc t) s.data := by
  revert t
  refine hs.inv (I := fun s => ∀ t, I t (s.pc t) s.data) h.entries fun hr _ ha hi => ?_
  exact h.assert_step (P.step_of_next ha) (h.unique hr) hi

/-- What the command at `l` adds to the data, as `g` measures it, `w` has less
at its end. -/
def Cmd.Conserves {M : Type*} [Add M] (g : D → M) (w : L → M) (I : L → D → Prop) (l : L) : Cmd A D L → Prop
  | .lock _ k | .unlock _ k => w k = w l
  | .tryLock _ yes no => w yes = w l ∧ w no = w l
  | .act f => ∀ d, I l d → g (f d).1 + w (f d).2 = g d + w l
  | .choose k => ∀ which, w (k which) = w l
  | .halt => True

theorem Annotation.conserved {M : Type*} [AddCommGroup M] [Fintype τ] (h : Annotation P holds rank I) {g : D → M}
    {w : L → M} (hw : ∀ t l, (P.code t l).Conserves g w (I t) l) (hs : P.system.Reach s) :
    g s.data + total w s.pc = g P.init + total w P.entry := by
  refine hs.inv (I := fun s => g s.data + total w s.pc = g P.init + total w P.entry) rfl fun {s a s'} hr _ ha ih => ?_
  have hwc : ∀ {t c}, P.code t (s.pc t) = c → c.Conserves g w (I t) (s.pc t) := fun hc => hc ▸ hw _ _
  rw [← ih]
  cases P.step_of_next ha with
  | @lock t a k hc | @unlock t a k hc => exact congrArg _ (total_update_eq (hwc hc))
  | @tryLock t a yes no hc => exact congrArg _ (total_update_eq (hwc hc).1)
  | @fail t a yes no hc => exact congrArg _ (total_update_eq (hwc hc).2)
  | @choose t k which hc => exact congrArg _ (total_update_eq (hwc hc which))
  | @act t f hc =>
    have hact := hwc hc _ (h.assert hr t)
    have hupdate := total_update w s.pc t (f s.data).2
    simp only [State.goto]
    refine add_right_cancel (b := w (s.pc t)) ?_
    rw [add_assoc, hupdate, add_comm (total w s.pc), ← add_assoc, hact, add_right_comm]

/-! ## Scoped locks -/

/-- Where a thread is in the constructor and the destructor of a `scoped_lock`.
`first` says whether it has begun with the first of the two mutexes. -/
inductive Scoped
  | begin
  | lock (first : Bool)
  | tryOther (first : Bool)
  | backOff (first : Bool)
  /-- The scope ends. -/
  | leave
  | unlock (first : Bool)
  | unlockOther (first : Bool)
  deriving DecidableEq

/-- One of two mutexes. -/
def side (a b : A) (first : Bool) : A := if first then a else b

/-- A `scoped_lock` of `a` and `b` around the code at `body`, which goes on at
`after`. -/
def scopedLock (a b : A) (wrap : Scoped → L) (body after : L) : Scoped → Cmd A D L
  | .begin => .choose fun first => wrap (.lock first)
  | .lock first => .lock (side a b first) (wrap (.tryOther first))
  | .tryOther first => .tryLock (side a b !first) body (wrap (.backOff first))
  | .backOff first => .unlock (side a b first) (wrap .begin)
  | .leave => .choose fun first => wrap (.unlock first)
  | .unlock first => .unlock (side a b first) (wrap (.unlockOther first))
  | .unlockOther first => .unlock (side a b !first) after

/-- What the thread holds of the two. -/
def Scoped.Holds (a b : A) : Scoped → A → Prop
  | .begin, _ | .lock _, _ => False
  | .tryOther first, x | .backOff first, x => x = side a b first
  | .leave, x | .unlock _, x => x = a ∨ x = b
  | .unlockOther first, x => x = side a b !first

omit [DecidableEq A] in
/-- A scoped lock of two mutexes by a thread that holds none keeps the
discipline, whatever their ranks. -/
theorem scopedLock_keeps {a b : A} (hab : a ≠ b) {holds : L → A → Prop} {wrap : Scoped → L} {body after : L}
    (hwrap : ∀ p x, holds (wrap p) x ↔ p.Holds a b x) (hbody : ∀ x, holds body x ↔ x = a ∨ x = b)
    (hafter : ∀ x, ¬ holds after x) (rank : A → ℕ) (p : Scoped) :
    (scopedLock a b wrap body after p : Cmd A D L).Keeps holds rank (wrap p) := by
  have hba := Ne.symm hab
  cases p with
  | begin | leave => exact fun first x => by rw [hwrap, hwrap]; rfl
  | lock first =>
    refine ⟨fun x hx => ((hwrap _ x).mp hx).elim, fun x => ?_⟩
    rw [hwrap, hwrap]
    simp [Scoped.Holds]
  | tryOther first =>
    refine ⟨?_, fun x => ?_, fun x => ?_⟩
    · rw [hwrap]
      cases first <;> simpa [Scoped.Holds, side]
    · rw [hwrap, hbody]
      cases first <;> simp [Scoped.Holds, side, or_comm]
    · rw [hwrap, hwrap]
      rfl
  | backOff first =>
    refine ⟨(hwrap _ _).mpr rfl, fun x => ?_⟩
    rw [hwrap, hwrap]
    simp [Scoped.Holds]
  | unlock first =>
    refine ⟨(hwrap _ _).mpr (by cases first <;> simp [Scoped.Holds, side]), fun x => ?_⟩
    rw [hwrap, hwrap]
    cases first <;> simp only [Scoped.Holds, side] <;> grind
  | unlockOther first =>
    refine ⟨(hwrap _ _).mpr rfl, fun x => ?_⟩
    rw [hwrap]
    simp [Scoped.Holds, hafter]

/-- Whether it is in the constructor. -/
def Scoped.entering : Scoped → Bool
  | begin | lock _ | tryOther _ | backOff _ => true
  | leave | unlock _ | unlockOther _ => false

omit [DecidableEq A] in
theorem scopedLock_asserts {a b : A} {I : L → D → Prop} {X Y : D → Prop} {wrap : Scoped → L} {body after : L}
    (hwrap : ∀ p d, I (wrap p) d ↔ if p.entering then X d else Y d) (hbody : ∀ d, X d → I body d)
    (hafter : ∀ d, Y d → I after d) (p : Scoped) : (scopedLock a b wrap body after p : Cmd A D L).Asserts I (wrap p) := by
  have hgo : ∀ (p : Scoped) {q : Scoped} {d : D}, p.entering = q.entering → I (wrap p) d → I (wrap q) d :=
    fun p q d he h => by
      rw [hwrap] at h ⊢
      rwa [← he]
  cases p with
  | begin => exact fun first d h => hgo .begin rfl h
  | lock first => exact fun d h => hgo (.lock first) rfl h
  | tryOther first => exact fun d h => ⟨hbody d ((hwrap (.tryOther first) d).mp h), hgo (.tryOther first) rfl h⟩
  | backOff first => exact fun d h => hgo (.backOff first) rfl h
  | leave => exact fun first d h => hgo .leave rfl h
  | unlock first => exact fun d h => hgo (.unlock first) rfl h
  | unlockOther first => exact fun d h => hafter d ((hwrap (.unlockOther first) d).mp h)

omit [DecidableEq A] in
theorem scopedLock_conserves {M : Type*} [Add M] {a b : A} {g : D → M} {w : L → M} {I : L → D → Prop} {x y : M}
    {wrap : Scoped → L} {body after : L} (hwrap : ∀ p, w (wrap p) = if p.entering then x else y) (hbody : w body = x)
    (hafter : w after = y) (p : Scoped) :
    (scopedLock a b wrap body after p : Cmd A D L).Conserves g w I (wrap p) := by
  have hgo : ∀ p q : Scoped, q.entering = p.entering → w (wrap q) = w (wrap p) := fun p q he => by rw [hwrap, hwrap, he]
  cases p with
  | begin => exact fun first => hgo .begin (.lock first) rfl
  | lock first => exact hgo (.lock first) (.tryOther first) rfl
  | tryOther first => exact ⟨hbody.trans (hwrap (.tryOther first)).symm, hgo (.tryOther first) (.backOff first) rfl⟩
  | backOff first => exact hgo (.backOff first) .begin rfl
  | leave => exact fun first => hgo .leave (.unlock first) rfl
  | unlock first => exact hgo (.unlock first) (.unlockOther first) rfl
  | unlockOther first => exact hafter.trans (hwrap (.unlockOther first)).symm

end TKH.Mutexes
