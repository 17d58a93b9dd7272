import Mathlib.Logic.Function.Basic
import ThreadingKnowHows.Framework.System

/-!
# Programs with a once flag

Threads that share data `D` and one flag, which says whether a routine has been
run; what thread `t` does at a control point `l` is the command `code t l`. The
first thread that gets to a `callOnce` runs the routine, the others wait until it
has been run. A step may use a choice `C` of the environment, and it may be
impossible in some states.

`phase t l` says where `t` stands at `l`: before the calls, inside the routine, or
after a call. If each command agrees with it (`Cmd.Keeps`), the flag is right in every run
(`Discipline.tracked`): one thread at most is inside the routine, and no thread is
after a call before the routine has been run. If the routine never gets stuck, no
thread waits at a `callOnce` for ever (`Discipline.rests`). `Annotation.sound` is
the rule for what the routine makes of the data.
-/

namespace TKH.Once

inductive Flag (τ : Type*)
  | fresh
  | running (t : τ)
  | done
  deriving DecidableEq

inductive Cmd (D L C : Type*)
  /-- Runs the routine, which begins at `r`, or goes on at `k`. -/
  | callOnce (r k : L)
  /-- The routine returns. -/
  | finish (k : L)
  | step (f : C → D → Option (D × L))
  | halt

structure Program (τ D L C : Type*) where
  code : τ → L → Cmd D L C
  entry : τ → L
  init : D

structure State (τ D L : Type*) where
  flag : Flag τ
  data : D
  pc : τ → L

variable {τ D L C : Type*} [DecidableEq τ]

def State.goto (s : State τ D L) (t : τ) (k : L) : State τ D L := { s with pc := Function.update s.pc t k }

namespace Program

variable (P : Program τ D L C)

/-- The thread `t` goes on, with the choice `c`. -/
def next (s : State τ D L) : τ × C → Option (State τ D L)
  | (t, c) => match P.code t (s.pc t) with
    | .callOnce r k => match s.flag with
      | .fresh => some { s.goto t r with flag := .running t }
      | .running _ => none
      | .done => some (s.goto t k)
    | .finish k => some { s.goto t k with flag := .done }
    | .step f => (f c s.data).map fun x => { s.goto t x.2 with data := x.1 }
    | .halt => none

def system : System (State τ D L) (τ × C) where
  start := { flag := .fresh, data := P.init, pc := P.entry }
  next := P.next

/-- The steps of `next`. -/
inductive Step (s : State τ D L) : τ × C → State τ D L → Prop
  | begin {t : τ} {c : C} {r k : L} : P.code t (s.pc t) = .callOnce r k → s.flag = .fresh →
    Step s (t, c) { s.goto t r with flag := .running t }
  | skip {t : τ} {c : C} {r k : L} : P.code t (s.pc t) = .callOnce r k → s.flag = .done → Step s (t, c) (s.goto t k)
  | finish {t : τ} {c : C} {k : L} : P.code t (s.pc t) = .finish k → Step s (t, c) { s.goto t k with flag := .done }
  | step {t : τ} {c : C} {f : C → D → Option (D × L)} {d : D} {k : L} : P.code t (s.pc t) = .step f →
    f c s.data = some (d, k) → Step s (t, c) { s.goto t k with data := d }

variable {P}

theorem next_iff {s s' : State τ D L} {a : τ × C} : P.system.next s a = some s' ↔ P.Step s a s' := by
  change P.next s a = some s' ↔ _
  constructor
  · intro h
    obtain ⟨t, c⟩ := a
    simp only [next] at h
    split at h
    · split at h <;> cases h
      · exact .begin ‹_› ‹_›
      · exact .skip ‹_› ‹_›
    · cases h; exact .finish ‹_›
    · obtain ⟨⟨d, k⟩, hf, rfl⟩ := Option.map_eq_some_iff.mp h
      exact .step ‹_› hf
    · cases h
  · intro h
    cases h with
    | begin hc hf | skip hc hf | step hc hf => simp [next, hc, hf]
    | finish hc => simp [next, hc]

end Program

/-! ## The flag -/

inductive Phase
  | before
  | inside
  | after
  deriving DecidableEq

/-- The command at `l` agrees with `phase`. -/
def Cmd.Keeps (phase : L → Phase) (l : L) : Cmd D L C → Prop
  | .callOnce r k => phase l ≠ .inside ∧ phase r = .inside ∧ phase k = .after
  | .finish k => phase l = .inside ∧ phase k = .after
  | .step f => ∀ c d d' k, f c d = some (d', k) → phase k = phase l
  | .halt => phase l ≠ .inside

structure Discipline (P : Program τ D L C) (phase : τ → L → Phase) : Prop where
  entry : ∀ t, phase t (P.entry t) = .before
  code : ∀ t l, (P.code t l).Keeps (phase t) l

variable {P : Program τ D L C} {phase : τ → L → Phase} {s s' : State τ D L}

omit [DecidableEq τ] in
theorem Discipline.keeps_at (h : Discipline P phase) {t : τ} {l : L} {c : Cmd D L C} (hc : P.code t l = c) :
    c.Keeps (phase t) l := by
  rw [← hc]
  exact h.code t l

/-- The flag knows where each thread is. -/
def Tracked (phase : τ → L → Phase) (s : State τ D L) : Prop :=
  ∀ t, (s.flag = .running t ↔ phase t (s.pc t) = .inside) ∧ (phase t (s.pc t) = .after → s.flag = .done)

theorem Discipline.tracked_step (h : Discipline P phase) {a : τ × C} (hs : P.Step s a s') (hi : Tracked phase s) :
    Tracked phase s' := by
  cases hs with
  | @begin t c r k hc hf =>
    obtain ⟨-, hr, -⟩ := h.keeps_at hc
    refine (Function.forall_update_iff s.pc fun u k => (Flag.running t = .running u ↔ phase u k = .inside) ∧
      (phase u k = .after → Flag.running t = .done)).mpr ⟨?_, fun u hu => ?_⟩
    · simp [hr]
    · -- no other thread is inside or after, as the flag was fresh
      have hin : phase u (s.pc u) ≠ .inside := fun he => by
        have := (hi u).1.mpr he
        rw [hf] at this
        cases this
      have hafter : phase u (s.pc u) ≠ .after := fun he => by
        have := (hi u).2 he
        rw [hf] at this
        cases this
      simp [hin, hafter, Ne.symm hu]
  | @skip t c r k hc hf =>
    obtain ⟨-, -, hk⟩ := h.keeps_at hc
    exact (Function.forall_update_iff s.pc fun u k => (s.flag = .running u ↔ phase u k = .inside) ∧
      (phase u k = .after → s.flag = .done)).mpr ⟨by simp [hk, hf], fun u _ => hi u⟩
  | @finish t c k hc =>
    obtain ⟨hl, hk⟩ := h.keeps_at hc
    refine (Function.forall_update_iff s.pc fun u k => (Flag.done = .running u ↔ phase u k = .inside) ∧
      (phase u k = .after → (Flag.done : Flag τ) = .done)).mpr ⟨by simp [hk], fun u hu => ?_⟩
    have hin : phase u (s.pc u) ≠ .inside := fun he =>
      hu (Flag.running.inj (((hi u).1.mpr he).symm.trans ((hi t).1.mpr hl)))
    simp [hin]
  | @step t c f d k hc hf =>
    have hk := h.keeps_at hc c _ _ _ hf
    exact (Function.forall_update_iff s.pc fun u k => (s.flag = .running u ↔ phase u k = .inside) ∧
      (phase u k = .after → s.flag = .done)).mpr ⟨by rw [hk]; exact hi t, fun u _ => hi u⟩

theorem Discipline.tracked (h : Discipline P phase) (hs : P.system.Reach s) : Tracked phase s := by
  refine hs.inv (I := Tracked phase) (fun t => ?_) fun _ _ ha hi => h.tracked_step (Program.next_iff.mp ha) hi
  simp [Program.system, h.entry t]

/-- If no thread can go on, the routine is not being run, and the threads have
ended or are at steps that are impossible. -/
theorem Discipline.rests [Nonempty C] (h : Discipline P phase) (hs : P.system.Reach s)
    (htotal : ∀ t f, phase t (s.pc t) = .inside → P.code t (s.pc t) = .step f → ∃ c, (f c s.data).isSome = true)
    (hq : ∀ a, P.system.next s a = none) :
    (∀ t, s.flag ≠ .running t) ∧
      ∀ t, P.code t (s.pc t) = .halt ∨ ∃ f, P.code t (s.pc t) = .step f ∧ ∀ c, f c s.data = none := by
  have hno : ∀ {a s'}, ¬ P.Step s a s' := fun hstep => by
    cases (Program.next_iff.mpr hstep).symm.trans (hq _)
  obtain ⟨c₀⟩ := ‹Nonempty C›
  have hrun : ∀ t, s.flag ≠ .running t := fun t hf => by
    have hin := (h.tracked hs t).1.mp hf
    have hk := h.code t (s.pc t)
    cases hc : P.code t (s.pc t) with
    | callOnce r k => rw [hc] at hk; exact hk.1 hin
    | finish k => exact hno (Program.Step.finish (c := c₀) hc)
    | step f =>
      obtain ⟨c, hsome⟩ := htotal t f hin hc
      obtain ⟨⟨d, k⟩, hf⟩ := Option.isSome_iff_exists.mp hsome
      exact hno (.step hc hf)
    | halt => rw [hc] at hk; exact hk hin
  refine ⟨hrun, fun t => ?_⟩
  cases hc : P.code t (s.pc t) with
  | callOnce r k =>
    cases hf : s.flag with
    | fresh => exact (hno (Program.Step.begin (c := c₀) hc hf)).elim
    | running u => exact absurd hf (hrun u)
    | done => exact (hno (Program.Step.skip (c := c₀) hc hf)).elim
  | finish k => exact (hno (Program.Step.finish (c := c₀) hc)).elim
  | step f =>
    refine .inr ⟨f, rfl, fun c => ?_⟩
    cases hf : f c s.data with
    | none => rfl
    | some x => exact (hno (Program.Step.step (d := x.1) (k := x.2) hc hf)).elim
  | halt => exact .inl rfl

/-! ## What holds of the data -/

/-- What holds of the data before the routine is run, at its control points, and
once it has been run. -/
structure Spec (D L : Type*) where
  fresh : D → Prop
  inside : L → D → Prop
  done : D → Prop

variable {I : Spec D L}

/-- The command at `l` keeps what `I` says. -/
def Cmd.Asserts (phase : L → Phase) (I : Spec D L) (l : L) : Cmd D L C → Prop
  | .callOnce r _ => ∀ d, I.fresh d → I.inside r d
  | .finish _ => ∀ d, I.inside l d → I.done d
  | .step f => ∀ c d d' k, f c d = some (d', k) → match phase l with
    | .before => (I.fresh d → I.fresh d') ∧ (∀ r, I.inside r d → I.inside r d') ∧ (I.done d → I.done d')
    | .inside => I.inside l d → I.inside k d'
    | .after => I.done d → I.done d'
  | .halt => True

structure Annotation (P : Program τ D L C) (phase : τ → L → Phase) (I : Spec D L) : Prop extends Discipline P phase where
  init : I.fresh P.init
  asserts : ∀ t l, (P.code t l).Asserts (phase t) I l

def Sound (I : Spec D L) (s : State τ D L) : Prop :=
  match s.flag with
  | .fresh => I.fresh s.data
  | .running t => I.inside (s.pc t) s.data
  | .done => I.done s.data

theorem Annotation.sound_step (h : Annotation P phase I) {a : τ × C} (hs : P.Step s a s') (ht : Tracked phase s)
    (hi : Sound I s) : Sound I s' := by
  have hasserts : ∀ {t c}, P.code t (s.pc t) = c → c.Asserts (phase t) I (s.pc t) := fun {t c} hc => hc ▸ h.asserts t _
  cases hs with
  | begin hc hf =>
    simp only [Sound, hf] at hi
    simpa only [Sound, State.goto, Function.update_self] using hasserts hc _ hi
  | skip hc hf =>
    simp only [Sound, hf] at hi
    simpa only [Sound, State.goto, hf] using hi
  | @finish t c k hc =>
    simp only [Sound, (ht t).1.mpr (h.keeps_at hc).1] at hi
    exact hasserts hc _ hi
  | @step t c f d k hc hf =>
    have hd := hasserts hc c _ _ _ hf
    cases hl : phase t (s.pc t) with
    | before =>
      rw [hl] at hd
      cases hflag : s.flag with
      | fresh =>
        simp only [Sound, hflag] at hi
        simpa only [Sound, State.goto, hflag] using hd.1 hi
      | running u =>
        have hu : u ≠ t := by
          rintro rfl
          rw [(ht u).1.mp hflag] at hl
          cases hl
        simp only [Sound, hflag] at hi
        simpa only [Sound, State.goto, hflag, Function.update_of_ne hu] using hd.2.1 _ hi
      | done =>
        simp only [Sound, hflag] at hi
        simpa only [Sound, State.goto, hflag] using hd.2.2 hi
    | inside =>
      rw [hl] at hd
      have hflag := (ht t).1.mpr hl
      simp only [Sound, hflag] at hi
      simpa only [Sound, State.goto, hflag, Function.update_self] using hd hi
    | after =>
      rw [hl] at hd
      have hflag := (ht t).2 hl
      simp only [Sound, hflag] at hi
      simpa only [Sound, State.goto, hflag] using hd hi

theorem Annotation.sound (h : Annotation P phase I) (hs : P.system.Reach s) : Sound I s := by
  refine hs.inv (I := Sound I) h.init fun hr _ ha hi => ?_
  exact h.sound_step (Program.next_iff.mp ha) (h.tracked hr) hi

end TKH.Once
