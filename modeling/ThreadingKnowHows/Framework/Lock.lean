import ThreadingKnowHows.Framework.Monitor

/-!
# The mutex discipline and the monitor invariant

`held l` says at which control points a thread holds the mutex. If each
command agrees with it (`Cmd.Holds`), the owner of the mutex is the one thread
that runs at such a point (`Discipline.locked`), and a state in which no
thread can go on has a free mutex and only sleeping and resting threads
(`Discipline.quiet`).

The monitor rule (`Annotation.sound`) then keeps `inv` of the data while the
mutex is free, and `pre l` while a thread holds it at `l`.
-/

namespace TKH

variable {τ C D L : Type*} {P : Program τ C D L} {held : L → Bool}

/-! ## The mutex -/

/-- The command at `l` agrees with `held`. -/
def Cmd.Holds (held : L → Bool) (l : L) : Cmd τ C D L → Prop
  | .lock k => held l = false ∧ held k = true
  | .unlock k => held l = true ∧ held k = false
  | .act f => ∀ d, held (f d).2 = held l
  | .wait _ k => held l = true ∧ held k = true
  | .notifyOne _ k => held k = held l
  | .notifyAll _ k => held k = held l
  | .join _ k => held l = false ∧ held k = false
  | .pick ok => held l = false ∧ ∀ d k, ok d k → held k = false
  | .ext _ ok => held l = false ∧ ∀ k, ok k → held k = false
  | .halt => held l = false

/-- A thread at a command that need not be possible: it has ended, waits for
other threads, or for the environment. -/
def Cmd.Rests : Cmd τ C D L → Prop
  | .join _ _ | .pick _ | .ext _ _ | .halt => True
  | _ => False

theorem Cmd.Rests.not_held {c : Cmd τ C D L} {l : L} (h : c.Rests) (hh : c.Holds held l) : held l = false := by
  cases c with
  | join | pick | ext => exact hh.1
  | halt => exact hh
  | _ => exact h.elim

structure Discipline (P : Program τ C D L) (held : L → Bool) : Prop where
  entry : ∀ t, held (P.entry t) = false
  code : ∀ t l, (P.code t l).Holds held l

theorem Discipline.holds_at (h : Discipline P held) {t : τ} {l : L} {c : Cmd τ C D L} (hc : P.code t l = c) :
    c.Holds held l := by
  rw [← hc]
  exact h.code t l

/-- The owner is the thread that runs where `held` says so, and the threads
that do not run go on there. -/
structure Locked (held : L → Bool) (s : State τ C D L) : Prop where
  owner : ∀ t, s.owner = some t ↔ ∃ l, s.th t = .run l ∧ held l = true
  wakes : ∀ t, (∀ l, s.th t ≠ .run l) → held (s.th t).point = true

theorem Locked.owner_of {s : State τ C D L} (h : Locked held s) {t : τ} {l : L}
    (hl : s.th t = .run l) (hh : held l = true) : s.owner = some t :=
  (h.owner t).mpr ⟨l, hl, hh⟩

/-- Two threads do not hold the mutex. -/
theorem Locked.unique {s : State τ C D L} (h : Locked held s) {t u : τ} {l l' : L}
    (hl : s.th t = .run l) (hl' : s.th u = .run l') (hh : held l = true) (hh' : held l' = true) :
    t = u :=
  Option.some.inj ((h.owner_of hl hh).symm.trans (h.owner_of hl' hh'))

variable [DecidableEq τ]

/-- A step that moves `t` to `x` and may change the owner to or from `t`. -/
theorem Locked.move {s : State τ C D L} (h : Locked held s) {t : τ} {x : Status C L} {o : Option τ}
    {d : D} (ho : ∀ u, u ≠ t → (o = some u ↔ s.owner = some u))
    (hx : o = some t ↔ ∃ l, x = .run l ∧ held l = true)
    (hw : (∀ l, x ≠ .run l) → held x.point = true) :
    Locked held ⟨o, d, Function.update s.th t x⟩ where
  owner := (Function.forall_update_iff s.th fun u x => o = some u ↔ ∃ l, x = .run l ∧ held l = true).mpr
    ⟨hx, fun u hu => (ho u hu).trans (h.owner u)⟩
  wakes := (Function.forall_update_iff s.th fun _ x => (∀ l, x ≠ .run l) → held x.point = true).mpr
    ⟨hw, fun u _ => h.wakes u⟩

/-- A step of `t` that keeps whether it holds the mutex. -/
theorem Locked.goto {s : State τ C D L} (h : Locked held s) {t : τ} {l k : L} {d : D}
    (hl : s.th t = .run l) (hk : held k = held l) : Locked held { s.goto t k with data := d } := by
  refine h.move (fun _ _ => Iff.rfl) ((h.owner t).trans ?_) fun hn => absurd rfl (hn k)
  simp [hl, hk]

omit [DecidableEq τ] in
/-- A step that only wakes threads. -/
theorem Locked.rouse {s : State τ C D L} (h : Locked held s) {f : τ → Status C L}
    (hr : ∀ u l, f u = .run l ↔ s.th u = .run l) (hp : ∀ u, (f u).point = (s.th u).point) :
    Locked held { s with th := f } where
  owner u := by simp only [hr]; exact h.owner u
  wakes u hn := by rw [hp]; exact h.wakes u fun l hl => hn l ((hr u l).mpr hl)

theorem Locked.wakeOne {s : State τ C D L} (h : Locked held s) {w : τ} {c : C} {k : L}
    (hw : s.th w = .asleep c k) : Locked held { s with th := Function.update s.th w (.woken k) } :=
  h.rouse (Status.wake_eq_run hw) (Status.point_wake hw)

variable [DecidableEq C]

theorem Discipline.locked_step (h : Discipline P held) {s s' : State τ C D L} {a : Act τ L}
    (hs : P.Step s a s') (hi : Locked held s) : Locked held s' := by
  cases hs with
  | @lock t l k hl hc ho =>
    have hh := h.holds_at hc
    refine hi.move (fun u hu => ?_) ⟨fun _ => ⟨k, rfl, hh.2⟩, fun _ => rfl⟩ fun hn => absurd rfl (hn k)
    simp [ho, Ne.symm hu]
  | @unlock t l k hl hc ho =>
    have hh := h.holds_at hc
    refine hi.move (fun u hu => ?_) (by simp [hh.2]) fun hn => absurd rfl (hn k)
    simp [ho, Ne.symm hu]
  | @act t l f hl hc => exact hi.goto hl (h.holds_at hc s.data)
  | @wait t l c k hl hc ho =>
    have hh := h.holds_at hc
    refine hi.move (fun u hu => ?_) (by simp) fun _ => hh.2
    simp [ho, Ne.symm hu]
  | @notifyNone t l c k hl hc _ => exact hi.goto hl (h.holds_at hc)
  | @notifyOne t w l c k k' hl hc hw =>
    have hne : t ≠ w := by rintro rfl; rw [hl] at hw; cases hw
    exact (hi.wakeOne hw).goto (by simpa [Function.update_of_ne hne] using hl) (h.holds_at hc)
  | @notifyAll t l c k hl hc =>
    exact (hi.rouse (fun u l => Status.rouse_eq_run) fun u => Status.point_rouse c _).goto
      (Status.rouse_eq_run.mpr hl) (h.holds_at hc)
  | @join t l us k hl hc _ =>
    have hh := h.holds_at hc
    exact hi.goto hl (hh.2.trans hh.1.symm)
  | @pick t l ok k hl hc hk =>
    have hh := h.holds_at hc
    exact hi.goto hl ((hh.2 _ _ hk).trans hh.1.symm)
  | @ext t l us ok k hl hc _ hk =>
    have hh := h.holds_at hc
    exact hi.goto hl ((hh.2 _ hk).trans hh.1.symm)
  | @relock t k hk ho =>
    have hh : held k = true := by
      have := hi.wakes t (by simp [hk])
      rwa [hk] at this
    refine hi.move (fun u hu => ?_) ⟨fun _ => ⟨k, rfl, hh⟩, fun _ => rfl⟩ fun hn => absurd rfl (hn k)
    simp [ho, Ne.symm hu]
  | @spurious t c k hk => exact hi.wakeOne hk

/-! ## The monitor invariant -/

/-- The command at `l` keeps `inv` while the mutex is free, and `pre` at the
control points where it is held. -/
def Cmd.Keeps (held : L → Bool) (inv : D → Prop) (pre : L → D → Prop) (l : L) : Cmd τ C D L → Prop
  | .lock k => ∀ d, inv d → pre k d
  | .unlock _ => ∀ d, pre l d → inv d
  | .act f => ∀ d, (held l = true → pre l d → pre (f d).2 (f d).1) ∧
      (held l = false → (inv d → inv (f d).1) ∧ ∀ l', held l' = true → pre l' d → pre l' (f d).1)
  | .wait _ k => ∀ d, (pre l d → inv d) ∧ (inv d → pre k d)
  | .notifyOne _ k => held l = true → ∀ d, pre l d → pre k d
  | .notifyAll _ k => held l = true → ∀ d, pre l d → pre k d
  | _ => True

structure Annotation (P : Program τ C D L) (held : L → Bool) (inv : D → Prop)
    (pre : L → D → Prop) : Prop extends Discipline P held where
  init : inv P.init
  keeps : ∀ t l, (P.code t l).Keeps held inv pre l

/-- What the annotation says of a state. -/
structure Sound (held : L → Bool) (inv : D → Prop) (pre : L → D → Prop) (s : State τ C D L) : Prop where
  free : s.owner = none → inv s.data
  holds : ∀ t l, s.th t = .run l → held l = true → pre l s.data
  wakes : ∀ t, (∀ l, s.th t ≠ .run l) → ∀ d, inv d → pre (s.th t).point d

variable {inv : D → Prop} {pre : L → D → Prop}

omit [DecidableEq τ] [DecidableEq C] in
theorem Annotation.keeps_at (h : Annotation P held inv pre) {t : τ} {l : L} {c : Cmd τ C D L} (hc : P.code t l = c) :
    c.Keeps held inv pre l := by
  rw [← hc]
  exact h.keeps t l

omit [DecidableEq C] in
/-- A step that moves `t`, which was the only thread that could hold the mutex. -/
theorem Sound.move {s : State τ C D L} (h : Sound held inv pre s) {t : τ} {x : Status C L}
    {o : Option τ} {d : D} (hfree : o = none → inv d) (hx : ∀ l, x = .run l → held l = true → pre l d)
    (hw : (∀ l, x ≠ .run l) → ∀ d, inv d → pre x.point d)
    (hothers : ∀ u l, u ≠ t → s.th u = .run l → held l = true → pre l s.data → pre l d) :
    Sound held inv pre ⟨o, d, Function.update s.th t x⟩ where
  free := hfree
  holds := (Function.forall_update_iff s.th fun _ x => ∀ l, x = .run l → held l = true → pre l d).mpr
    ⟨hx, fun u hu l hl hh => hothers u l hu hl hh (h.holds u l hl hh)⟩
  wakes := (Function.forall_update_iff s.th fun _ x => (∀ l, x ≠ .run l) → ∀ d, inv d → pre x.point d).mpr
    ⟨hw, fun u _ => h.wakes u⟩

omit [DecidableEq τ] [DecidableEq C] in
theorem Sound.rouse {s : State τ C D L} (h : Sound held inv pre s) {f : τ → Status C L}
    (hr : ∀ u l, f u = .run l ↔ s.th u = .run l) (hp : ∀ u, (f u).point = (s.th u).point) :
    Sound held inv pre { s with th := f } where
  free := h.free
  holds u l hl := h.holds u l ((hr u l).mp hl)
  wakes u hn := by rw [hp]; exact h.wakes u fun l hl => hn l ((hr u l).mpr hl)

omit [DecidableEq C] in
/-- A step of `t` that only changes where it runs. -/
theorem Sound.goto {s : State τ C D L} (h : Sound held inv pre s) {t : τ} {k : L}
    (hk : held k = true → pre k s.data) : Sound held inv pre (s.goto t k) := by
  refine h.move h.free (fun l hl hh => ?_) (fun hn => absurd rfl (hn k)) fun _ _ _ _ _ hp => hp
  cases hl; exact hk hh

theorem Annotation.sound_step (h : Annotation P held inv pre) {s s' : State τ C D L} {a : Act τ L}
    (hs : P.Step s a s') (hl : Locked held s) (hi : Sound held inv pre s) :
    Sound held inv pre s' := by
  cases hs with
  | @lock t l k ht hc ho =>
    have hk := h.keeps_at hc
    refine hi.move (fun e => by cases e) (fun l' e _ => ?_) (fun hn => absurd rfl (hn k)) fun _ _ _ _ _ hp => hp
    cases e; exact hk _ (hi.free ho)
  | @unlock t l k ht hc ho =>
    have hk := h.keeps_at hc
    have hh := h.holds_at hc
    refine hi.move (fun _ => hk _ (hi.holds t l ht hh.1)) (fun l' e h' => ?_)
      (fun hn => absurd rfl (hn k)) fun _ _ _ _ _ hp => hp
    cases e; rw [hh.2] at h'; cases h'
  | @act t l f ht hc =>
    have hk := h.keeps_at hc
    have hh := h.holds_at hc
    have hk := hk s.data
    have hh := hh s.data
    cases hl' : held l with
    | true =>
      have hk := hk.1 hl'
      refine hi.move (fun e => ?_) (fun l' e _ => ?_) (fun hn => absurd rfl (hn _)) fun u l' hu hu' h' _ => ?_
      · rw [State.goto, hl.owner_of ht hl'] at e; cases e
      · cases e; exact hk (hi.holds t l ht hl')
      · exact absurd (hl.unique hu' ht h' hl') hu
    | false =>
      have hk := hk.2 hl'
      refine hi.move (fun e => hk.1 (hi.free e)) (fun l' e h' => ?_) (fun hn => absurd rfl (hn _))
        fun u l' _ _ h' hp => hk.2 l' h' hp
      cases e; rw [hh, hl'] at h'; cases h'
  | @wait t l c k ht hc ho =>
    have hk := h.keeps_at hc
    have hh := h.holds_at hc
    exact hi.move (fun _ => (hk _).1 (hi.holds t l ht hh.1)) (fun l' e => by cases e)
      (fun _ d => (hk d).2) fun _ _ _ _ _ hp => hp
  | @notifyNone t l c k ht hc _ =>
    have hk := h.keeps_at hc
    have hh := h.holds_at hc
    exact hi.goto fun h' => hk (hh ▸ h') _ (hi.holds t l ht (hh ▸ h'))
  | @notifyOne t w l c k k' ht hc hw =>
    have hk := h.keeps_at hc
    have hh := h.holds_at hc
    exact Sound.goto (hi.rouse (Status.wake_eq_run hw) (Status.point_wake hw))
      fun h' => hk (hh ▸ h') _ (hi.holds t l ht (hh ▸ h'))
  | @notifyAll t l c k ht hc =>
    have hk := h.keeps_at hc
    have hh := h.holds_at hc
    exact Sound.goto (hi.rouse (fun u l => Status.rouse_eq_run) fun u => Status.point_rouse c _)
      fun h' => hk (hh ▸ h') _ (hi.holds t l ht (hh ▸ h'))
  | @join t l us k ht hc _ =>
    have hh := h.holds_at hc
    exact hi.goto fun h' => by rw [hh.2] at h'; cases h'
  | @pick t l ok k ht hc hok =>
    have hh := h.holds_at hc
    exact hi.goto fun h' => by rw [hh.2 _ _ hok] at h'; cases h'
  | @ext t l us ok k ht hc _ hok =>
    have hh := h.holds_at hc
    exact hi.goto fun h' => by rw [hh.2 _ hok] at h'; cases h'
  | @relock t k ht ho =>
    have hw := hi.wakes t (by simp [ht])
    rw [ht] at hw
    refine hi.move (fun e => by cases e) (fun l' e _ => ?_) (fun hn => absurd rfl (hn k)) fun _ _ _ _ _ hp => hp
    cases e; exact hw _ (hi.free ho)
  | @spurious t c k ht =>
    have hw := hi.wakes t (by simp [ht])
    rw [ht] at hw
    exact hi.move hi.free (fun l' e => by cases e) (fun _ => hw) fun _ _ _ _ _ hp => hp

/-- The command leaves the mutex alone. -/
def Cmd.Lockless : Cmd τ C D L → Prop
  | .lock _ | .unlock _ | .wait _ _ => False
  | _ => True

section Lockless

omit [DecidableEq τ] [DecidableEq C]

variable {c : Cmd τ C D L}

theorem Cmd.Lockless.holds (h : c.Lockless) (l : L) : c.Holds (fun _ => false) l := by
  cases c with
  | lock | unlock | wait => exact h.elim
  | act f => exact fun _ => rfl
  | notifyOne | notifyAll | halt => rfl
  | join us k => exact ⟨rfl, rfl⟩
  | pick ok => exact ⟨rfl, fun _ _ _ => rfl⟩
  | ext us ok => exact ⟨rfl, fun _ _ => rfl⟩

theorem Cmd.Lockless.keeps (h : c.Lockless) (l : L) :
    c.Keeps (fun _ => false) (fun _ => True) (fun _ _ => True) l := by
  cases c with
  | lock | unlock | wait => exact h.elim
  | act f => exact fun _ => ⟨fun hl => (by cases hl), fun _ => ⟨fun _ => trivial, fun _ _ _ => trivial⟩⟩
  | notifyOne | notifyAll => exact fun _ _ _ => trivial
  | join | pick | ext | halt => trivial

/-- A program without critical sections. -/
theorem Annotation.lockless (h : ∀ t l, (P.code t l).Lockless) :
    Annotation P (fun _ => false) (fun _ => True) fun _ _ => True where
  entry _ := rfl
  code t l := (h t l).holds l
  init := trivial
  keeps t l := (h t l).keeps l

end Lockless

/-! ## Runs -/

variable [Fintype τ]

/-- The mutex discipline holds in every run. -/
theorem Discipline.locked (h : Discipline P held) {s : State τ C D L} (hs : P.system.Reach s) :
    Locked held s :=
  hs.inv ⟨fun t => by simp [Program.system, h.entry t], fun t hn => absurd rfl (hn (P.entry t))⟩
    fun _ _ ha hi => h.locked_step (P.step_of_next ha) hi

/-- The monitor rule. -/
theorem Annotation.sound (h : Annotation P held inv pre) {s : State τ C D L} (hs : P.system.Reach s) :
    Sound held inv pre s := by
  refine hs.inv ?_ fun hr _ ha hi => h.sound_step (P.step_of_next ha) (h.locked hr) hi
  refine ⟨fun _ => h.init, fun t l hl hh => ?_, fun t hn => absurd rfl (hn (P.entry t))⟩
  cases hl; rw [h.entry t] at hh; cases hh

/-- An invariant that also holds in the critical sections holds always. -/
theorem Annotation.always (h : Annotation P held inv pre) (hp : ∀ l d, pre l d → inv d)
    {s : State τ C D L} (hs : P.system.Reach s) : inv s.data := by
  have hi := h.sound hs
  cases ho : s.owner with
  | none => exact hi.free ho
  | some t =>
    obtain ⟨l, hl, hh⟩ := ((h.locked hs).owner t).mp ho
    exact hp l _ (hi.holds t l hl hh)

/-! ## Quiet states -/

/-- Whose step it is. -/
def Act.thread : Act τ L → τ
  | .exec t | .wake t _ | .pick t _ | .ext t _ | .relock t | .spurious t => t

/-- Steps of threads inside the program that are not spurious wakeups. -/
def Act.inner : Act τ L → Prop
  | .ext _ _ | .spurious _ => False
  | _ => True

/-- No thread can go on, except by a spurious wakeup or at the will of the
environment. -/
abbrev Program.Quiet (P : Program τ C D L) (s : State τ C D L) : Prop := P.system.Quiet Act.inner s

/-- No thread of `ts` can go on. -/
abbrev Program.QuietOf (P : Program τ C D L) (ts : τ → Prop) (s : State τ C D L) : Prop :=
  P.system.Quiet (fun a => a.inner ∧ ts a.thread) s

theorem Program.Quiet.quietOf {s : State τ C D L} (h : P.Quiet s) (ts : τ → Prop) : P.QuietOf ts s :=
  fun a ha => h a ha.1

theorem not_step_of_quietOf {ts : τ → Prop} {s s' : State τ C D L} (hq : P.QuietOf ts s) {a : Act τ L}
    (h : P.Step s a s') (ha : a.inner) (ht : ts a.thread) : False := by
  have := h.next
  rw [hq a ⟨ha, ht⟩] at this; cases this

theorem not_step_of_quiet {s s' : State τ C D L} (hq : P.Quiet s) {a : Act τ L} (h : P.Step s a s')
    (ha : a.inner) : False :=
  not_step_of_quietOf (hq.quietOf fun _ => True) h ha trivial

/-- `t` cannot go on by itself. -/
def Program.blocked (P : Program τ C D L) (s : State τ C D L) (t : τ) : Bool :=
  match s.th t with
  | .run l => match P.code t l with
    | .halt | .ext _ _ => true
    | .lock _ => s.owner.isSome
    | .join us _ => !decide (∀ u, us u → P.halted s u)
    | _ => false
  | .asleep _ _ => true
  | .woken _ => s.owner.isSome

theorem quietOf_of_blocked {s : State τ C D L} {ts : τ → Prop} (h : ∀ t, ts t → P.blocked s t = true) :
    P.QuietOf ts s := by
  rintro a ⟨ha, ht⟩
  by_contra hn
  obtain ⟨s', hs⟩ := Option.ne_none_iff_exists'.mp hn
  have hb := h _ ht
  cases P.step_of_next hs with
  | ext | spurious => exact ha
  | act hl hc | unlock hl hc | wait hl hc | notifyNone hl hc | notifyOne hl hc | notifyAll hl hc | pick hl hc =>
    simp [Program.blocked, Act.thread, hl, hc] at hb
  | lock hl hc ho => simp [Program.blocked, Act.thread, hl, hc, ho] at hb
  | join hl hc hj =>
    simp only [Program.blocked, Act.thread, hl, hc] at hb
    rw [decide_eq_true hj] at hb
    cases hb
  | relock hk ho => simp [Program.blocked, Act.thread, hk, ho] at hb

theorem quiet_of_blocked {s : State τ C D L} (h : ∀ t, P.blocked s t = true) : P.Quiet s :=
  fun a ha => (quietOf_of_blocked fun t _ => h t : P.QuietOf (fun _ => True) s) a ⟨ha, trivial⟩

/-- A `notifyOne` is always possible. -/
theorem exists_notifyOne_step {s : State τ C D L} {t : τ} {l : L} {c : C} {k : L}
    (hl : s.th t = .run l) (hc : P.code t l = .notifyOne c k) :
    ∃ a s', P.Step s a s' ∧ a.inner ∧ a.thread = t := by
  by_cases hs : ∃ w, (s.th w).sleepsOn c = true
  · obtain ⟨w, hw⟩ := hs
    obtain ⟨k', hk'⟩ := Status.sleepsOn_iff.mp hw
    exact ⟨_, _, .notifyOne hl hc hk', trivial, rfl⟩
  · push Not at hs
    exact ⟨_, _, .notifyNone hl hc fun w => by simpa using hs w, trivial, rfl⟩

/-- A thread that does not rest can go on, if it holds the mutex or the mutex
is free. -/
theorem Discipline.exists_step (h : Discipline P held) {s : State τ C D L} (hi : Locked held s) {t : τ}
    {l : L} (hl : s.th t = .run l) (hr : ¬ (P.code t l).Rests) (ho : s.owner = none ∨ held l = true) :
    ∃ a s', P.Step s a s' ∧ a.inner ∧ a.thread = t := by
  have hh := h.code t l
  cases hc : P.code t l with
  | lock k =>
    rw [hc] at hh
    rcases ho with ho | ho
    · exact ⟨_, _, .lock hl hc ho, trivial, rfl⟩
    · rw [hh.1] at ho; cases ho
  | unlock k => rw [hc] at hh; exact ⟨_, _, .unlock hl hc (hi.owner_of hl hh.1), trivial, rfl⟩
  | act f => exact ⟨_, _, .act hl hc, trivial, rfl⟩
  | wait c k => rw [hc] at hh; exact ⟨_, _, .wait hl hc (hi.owner_of hl hh.1), trivial, rfl⟩
  | notifyOne c k => exact exists_notifyOne_step hl hc
  | notifyAll c k => exact ⟨_, _, .notifyAll hl hc, trivial, rfl⟩
  | join | pick | ext | halt => rw [hc] at hr; exact absurd trivial hr

/-- If the threads `ts` cannot go on, and the others do not hold the mutex,
it is free, and a thread of `ts` sleeps or rests. -/
theorem Discipline.quietOf (h : Discipline P held) {s : State τ C D L} (hi : Locked held s) {ts : τ → Prop}
    (hq : P.QuietOf ts s) (hout : ∀ t l, ¬ ts t → s.th t = .run l → held l = false) :
    s.owner = none ∧ ∀ t, ts t →
      (∃ l, s.th t = .run l ∧ (P.code t l).Rests) ∨ ∃ c k, s.th t = .asleep c k := by
  have hrest : ∀ {t l}, ts t → s.th t = .run l → s.owner = none ∨ held l = true → (P.code t l).Rests := by
    intro t l ht hl ho
    by_contra hr
    obtain ⟨a, s', hs, ha, rfl⟩ := h.exists_step hi hl hr ho
    exact not_step_of_quietOf hq hs ha ht
  have hfree : s.owner = none := by
    cases ho : s.owner with
    | none => rfl
    | some t =>
      -- a thread that holds the mutex does not rest
      obtain ⟨l, hl, hh⟩ := (hi.owner t).mp ho
      have ht : ts t := by
        by_contra ht
        rw [hout t l ht hl] at hh; cases hh
      rw [(hrest ht hl (.inr hh)).not_held (h.code t l)] at hh; cases hh
  refine ⟨hfree, fun t ht => ?_⟩
  cases hp : s.th t with
  | asleep c k => exact .inr ⟨c, k, rfl⟩
  | woken k => exact (not_step_of_quietOf hq (.relock hp hfree) trivial ht).elim
  | run l => exact .inl ⟨l, rfl, hrest ht hp (.inl hfree)⟩

/-- In a quiet state the mutex is free, and a thread sleeps or rests. -/
theorem Discipline.quiet (h : Discipline P held) {s : State τ C D L} (hi : Locked held s)
    (hq : P.Quiet s) :
    s.owner = none ∧ ∀ t, (∃ l, s.th t = .run l ∧ (P.code t l).Rests) ∨ ∃ c k, s.th t = .asleep c k := by
  obtain ⟨hfree, hrest⟩ := h.quietOf hi (hq.quietOf fun _ => True) fun t l ht => absurd trivial ht
  exact ⟨hfree, fun t => hrest t trivial⟩

end TKH
