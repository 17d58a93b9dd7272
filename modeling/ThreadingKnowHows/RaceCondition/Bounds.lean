import ThreadingKnowHows.Framework.Total
import ThreadingKnowHows.RaceCondition.Model

/-!
# Bounds of a shared counter

However the increments interleave, the counter is at most the number of the
increments that are complete, and from the second increment of a thread on, a
store writes at least 2: what it loaded came after its own first store
(`Lossy`). With a mutex or an atomic increment no increment is lost (`Exact`).
-/

namespace TKH.RaceCondition

/-- The number of increments a thread has completed. -/
def Loc.completed (iters : ℕ) : Loc → ℕ
  | .test i | .lock i | .load i | .add i _ | .store i _ | .fetchAdd i => i
  | .unlock i => i + 1
  | .done => iters

/-- The index is in the range of the loop. -/
def Loc.Within (iters : ℕ) : Loc → Prop
  | .test i => i ≤ iters
  | .lock i | .load i | .add i _ | .store i _ | .unlock i | .fetchAdd i => i < iters
  | .done => True

/-- What a thread has in its register, after `n` increments in all. -/
def Loc.Register (n : ℕ) : Loc → Prop
  | .add i r => r ≤ n ∧ (0 < i → 1 ≤ r)
  | .store i r => r ≤ n + 1 ∧ 1 ≤ r ∧ (0 < i → 2 ≤ r)
  | _ => True

theorem Loc.Register.mono {l : Loc} {n n' : ℕ} (h : l.Register n) (hn : n ≤ n') : l.Register n' := by
  cases l with
  | add i r => exact ⟨h.1.trans hn, h.2⟩
  | store i r => exact ⟨h.1.trans (Nat.add_le_add_right hn 1), h.2⟩
  | _ => trivial

variable {τ : Type*} [Fintype τ] {kind : Kind} {iters : ℕ}

/-- The number of increments that are complete. -/
def State.completed (iters : ℕ) (s : State τ) : ℕ := total (Loc.completed iters) s.th

structure Lossy (iters : ℕ) (s : State τ) : Prop where
  within : ∀ t, (s.th t).Within iters
  register : ∀ t, (s.th t).Register (s.completed iters)
  le : s.c ≤ s.completed iters
  pos : 0 < s.completed iters → 1 ≤ s.c
  last : (∀ t, (s.th t).completed iters = iters) → 0 < s.completed iters → min 2 iters ≤ s.c

variable [DecidableEq τ]

/-- A step that completes no increment and leaves the counter. -/
theorem Lossy.goto {s : State τ} (h : Lossy iters s) {t : τ} {l : Loc} {o : Option τ}
    (hc : l.completed iters = (s.th t).completed iters) (hw : l.Within iters) (hr : l.Register (s.completed iters)) :
    Lossy iters ({ s with owner := o }.goto t l) := by
  have hn : ({ s with owner := o }.goto t l).completed iters = s.completed iters := total_update_eq hc
  refine ⟨?_, ?_, by rw [hn]; exact h.le, by rw [hn]; exact h.pos, fun hall => ?_⟩
  · exact (Function.forall_update_iff s.th fun _ l => l.Within iters).mpr ⟨hw, fun u _ => h.within u⟩
  · rw [hn]
    exact (Function.forall_update_iff s.th fun _ l => l.Register (s.completed iters)).mpr
      ⟨hr, fun u _ => h.register u⟩
  · rw [hn]
    obtain ⟨ht, hu⟩ := (Function.forall_update_iff s.th fun _ l => l.completed iters = iters).mp hall
    refine h.last fun u => ?_
    by_cases hut : u = t
    · subst hut; rw [← hc, ht]
    · exact hu u hut

/-- A step that completes an increment and leaves `r` in the counter. -/
theorem Lossy.write {s : State τ} (h : Lossy iters s) {t : τ} {l : Loc} {i r : ℕ}
    (hi : (s.th t).completed iters = i) (hc : l.completed iters = i + 1) (hw : l.Within iters)
    (hl : ∀ n, l.Register n) (hle : r ≤ s.completed iters + 1) (h1 : 1 ≤ r) (h2 : 0 < i → 2 ≤ r) :
    Lossy iters ({ s with c := r }.goto t l) := by
  have hn : ({ s with c := r }.goto t l).completed iters = s.completed iters + 1 := by
    have := total_update (Loc.completed iters) s.th t l
    simp only [hi, hc] at this
    simp only [State.completed, State.goto]
    omega
  refine ⟨?_, ?_, by rw [hn]; exact hle, fun _ => h1, fun hall _ => ?_⟩
  · exact (Function.forall_update_iff s.th fun _ l => l.Within iters).mpr ⟨hw, fun u _ => h.within u⟩
  · rw [hn]
    exact (Function.forall_update_iff s.th fun _ l => l.Register (s.completed iters + 1)).mpr
      ⟨hl _, fun u _ => (h.register u).mono (Nat.le_succ _)⟩
  · -- the last store of all is the last one of its thread
    have ht : l.completed iters = iters :=
      ((Function.forall_update_iff s.th fun _ l => l.completed iters = iters).mp hall).1
    rcases Nat.eq_zero_or_pos i with rfl | hi0
    · exact (Nat.min_le_right ..).trans (by rw [← ht, hc]; exact h1)
    · exact (Nat.min_le_left ..).trans (h2 hi0)

omit [DecidableEq τ] in
/-- A thread that has completed an increment: the counter is not 0. -/
theorem Lossy.one_le {s : State τ} (h : Lossy iters s) {t : τ} (ht : 0 < (s.th t).completed iters) : 1 ≤ s.c :=
  h.pos (ht.trans_le (single_le_total (Loc.completed iters) s.th t))

theorem Lossy.step {s s' : State τ} {t : τ} (h : Lossy iters s) (ha : (bench kind iters).next s t = some s') :
    Lossy iters s' := by
  have hw := h.within t
  have hr := h.register t
  cases hl : s.th t with
  | done => simp [bench, hl] at ha
  | test i =>
    simp only [bench, hl, Option.some.injEq] at ha
    subst ha
    rw [hl] at hw
    split
    · rename_i hi
      cases kind <;> exact h.goto (by rw [hl]; rfl) hi trivial
    · rename_i hi
      exact h.goto (by rw [hl]; exact Nat.le_antisymm (Nat.not_lt.mp hi) hw) trivial trivial
  | lock i =>
    simp only [bench, hl] at ha
    split at ha <;> cases ha
    rw [hl] at hw
    exact h.goto (by rw [hl]; rfl) hw trivial
  | load i =>
    simp only [bench, hl, Option.some.injEq] at ha
    subst ha
    rw [hl] at hw
    exact h.goto (by rw [hl]; rfl) hw ⟨h.le, fun hi => h.one_le (t := t) (by rw [hl]; exact hi)⟩
  | add i r =>
    simp only [bench, hl, Option.some.injEq] at ha
    subst ha
    rw [hl] at hw hr
    exact h.goto (by rw [hl]; rfl) hw ⟨Nat.succ_le_succ hr.1, Nat.succ_pos r, fun hi => Nat.succ_le_succ (hr.2 hi)⟩
  | store i r =>
    simp only [bench, hl, Option.some.injEq] at ha
    subst ha
    rw [hl] at hw hr
    cases kind with
    | mutex => exact h.write (by rw [hl]; rfl) rfl hw (fun _ => trivial) hr.1 hr.2.1 hr.2.2
    | _ => exact h.write (by rw [hl]; rfl) rfl (Nat.succ_le_of_lt hw) (fun _ => trivial) hr.1 hr.2.1 hr.2.2
  | unlock i =>
    simp only [bench, hl, Option.some.injEq] at ha
    subst ha
    rw [hl] at hw
    exact h.goto (by rw [hl]; rfl) (Nat.succ_le_of_lt hw) trivial
  | fetchAdd i =>
    simp only [bench, hl, Option.some.injEq] at ha
    subst ha
    rw [hl] at hw
    exact h.write (by rw [hl]; rfl) rfl (Nat.succ_le_of_lt hw) (fun _ => trivial) (Nat.succ_le_succ h.le)
      (Nat.succ_pos _) fun hi => Nat.succ_le_succ (h.one_le (t := t) (by rw [hl]; exact hi))

theorem lossy {s : State τ} (hs : (bench kind iters).Reach s) : Lossy iters s := by
  refine hs.inv (I := Lossy iters) ?_ fun _ _ ha ih => ih.step ha
  have h0 : total (Loc.completed iters) (fun _ : τ => .test 0) = 0 := total_eq_zero.mpr fun _ => rfl
  have hpos : ¬ 0 < (bench (τ := τ) kind iters).start.completed iters := by
    show ¬ 0 < total (Loc.completed iters) (fun _ : τ => .test 0)
    rw [h0]
    exact Nat.lt_irrefl 0
  exact ⟨fun _ => Nat.zero_le _, fun _ => trivial, Nat.zero_le _, fun hp => absurd hp hpos, fun _ hp => absurd hp hpos⟩

omit [DecidableEq τ] in
/-- Where a finished program has all its increments. -/
theorem State.Finished.completed {s : State τ} (h : s.Finished) : s.completed iters = Fintype.card τ * iters := by
  have ht : ∀ t, (s.th t).completed iters = iters := fun t => by rw [h t]; rfl
  simp [State.completed, total, ht]

/-! ## Under a mutex, and with atomic increments -/

/-- What a thread between its load and its store has in its register. -/
def Loc.Fresh (c : ℕ) : Loc → Prop
  | .add _ r => r = c
  | .store _ r => r = c + 1
  | _ => True

/-- Between lock and unlock. -/
def Loc.critical : Loc → Bool
  | .load _ | .add _ _ | .store _ _ | .unlock _ => true
  | _ => false

/-- A location of one of the two programs. -/
def Loc.Of (kind : Kind) : Loc → Prop
  | .test _ | .done => True
  | .fetchAdd _ => kind = .atomic
  | _ => kind = .mutex

/-- The program with atomic increments has no critical section. -/
theorem Loc.Of.not_critical {l : Loc} (h : l.Of .atomic) : l.critical = false := by
  cases l with
  | load | add | store | unlock => cases h
  | _ => rfl

/-- No increment is lost. -/
structure Exact (kind : Kind) (iters : ℕ) (s : State τ) : Prop where
  of : ∀ t, (s.th t).Of kind
  value : s.c = s.completed iters
  fresh : ∀ t, (s.th t).Fresh s.c
  owner : ∀ t, (s.th t).critical = true → s.owner = some t

theorem Exact.goto {s : State τ} (h : Exact kind iters s) {t : τ} {l : Loc} {c : ℕ} {o : Option τ} (ho : l.Of kind)
    (hc : c + (s.th t).completed iters = s.c + l.completed iters) (hf : l.Fresh c)
    (hcrit : l.critical = true → o = some t)
    (hu : ∀ u ≠ t, (s.th u).critical = true → c = s.c ∧ o = s.owner) :
    Exact kind iters ({ s with c := c, owner := o }.goto t l) where
  of := (Function.forall_update_iff s.th fun _ l => l.Of kind).mpr ⟨ho, fun u _ => h.of u⟩
  value := by
    have := total_update (Loc.completed iters) s.th t l
    have hv := h.value
    simp only [State.completed, State.goto] at this hv ⊢
    omega
  fresh := (Function.forall_update_iff s.th fun _ l => l.Fresh c).mpr ⟨hf, fun u hut => by
    cases hl : s.th u with
    | add i r =>
      have hfu := h.fresh u
      rw [hl] at hfu
      exact hfu.trans (hu u hut (by rw [hl]; rfl)).1.symm
    | store i r =>
      have hfu := h.fresh u
      rw [hl] at hfu
      exact hfu.trans (congrArg (· + 1) (hu u hut (by rw [hl]; rfl)).1.symm)
    | _ => trivial⟩
  owner := (Function.forall_update_iff s.th fun u l => l.critical = true → o = some u).mpr
    ⟨hcrit, fun u hut hlu => (hu u hut hlu).2.trans (h.owner u hlu)⟩

theorem Exact.step {s s' : State τ} {t : τ} (h : Exact kind iters s) (hw : ∀ t, (s.th t).Within iters)
    (hk : kind ≠ .unsynchronized) (ha : (bench kind iters).next s t = some s') : Exact kind iters s' := by
  -- while `t` is in its critical section no other thread is
  have hex : (s.th t).critical = true → ∀ u ≠ t, (s.th u).critical = true → False := fun ht u hut hu =>
    hut (Option.some.inj ((h.owner u hu).symm.trans (h.owner t ht)))
  have hof := h.of t
  cases hl : s.th t with
  | done => simp [bench, hl] at ha
  | test i =>
    simp only [bench, hl, Option.some.injEq] at ha
    subst ha
    split
    · cases kind with
      | unsynchronized => exact absurd rfl hk
      | mutex | atomic =>
        exact h.goto (c := s.c) (o := s.owner) rfl (by rw [hl]; rfl) trivial nofun fun _ _ _ => ⟨rfl, rfl⟩
    · rename_i hi
      have hi' := hw t
      rw [hl] at hi'
      exact h.goto trivial (by rw [hl, show i = iters from Nat.le_antisymm hi' (Nat.not_lt.mp hi)]; rfl) trivial nofun
        fun _ _ _ => ⟨rfl, rfl⟩
  | lock i =>
    simp only [bench, hl] at ha
    split at ha <;> cases ha
    rename_i ho
    rw [hl] at hof
    refine h.goto hof (by rw [hl]; rfl) trivial (fun _ => rfl) fun u _ hlu => ?_
    rw [h.owner u hlu] at ho
    cases ho
  | load i =>
    simp only [bench, hl, Option.some.injEq] at ha
    subst ha
    rw [hl] at hof
    exact h.goto hof (by rw [hl]; rfl) rfl (fun _ => h.owner t (by rw [hl]; rfl)) fun _ _ _ => ⟨rfl, rfl⟩
  | add i r =>
    simp only [bench, hl, Option.some.injEq] at ha
    subst ha
    have hf := h.fresh t
    rw [hl] at hf hof
    exact h.goto hof (by rw [hl]; rfl) (congrArg (· + 1) hf) (fun _ => h.owner t (by rw [hl]; rfl))
      fun _ _ _ => ⟨rfl, rfl⟩
  | store i r =>
    simp only [bench, hl, Option.some.injEq] at ha
    subst ha
    have hf := h.fresh t
    rw [hl] at hf hof
    cases hof
    refine h.goto (o := s.owner) rfl ?_ trivial (fun _ => h.owner t (by rw [hl]; rfl))
      fun u hut hlu => (hex (by rw [hl]; rfl) u hut hlu).elim
    rw [hl, hf]
    simp only [stored, Loc.completed]
    omega
  | unlock i =>
    simp only [bench, hl, Option.some.injEq] at ha
    subst ha
    exact h.goto trivial (by rw [hl]; rfl) trivial nofun fun u hut hlu => (hex (by rw [hl]; rfl) u hut hlu).elim
  | fetchAdd i =>
    simp only [bench, hl, Option.some.injEq] at ha
    subst ha
    rw [hl] at hof
    cases hof
    refine h.goto (o := s.owner) trivial (by rw [hl]; simp only [Loc.completed]; omega) trivial nofun fun u _ hlu => ?_
    rw [(h.of u).not_critical] at hlu
    cases hlu

theorem exact_of_reach (hk : kind ≠ .unsynchronized) {s : State τ} (hs : (bench kind iters).Reach s) :
    Exact kind iters s := by
  refine hs.inv (I := Exact kind iters) ⟨fun _ => trivial, ?_, fun _ => trivial, nofun⟩ fun hr _ ha ih =>
    ih.step (lossy hr).within hk ha
  exact (total_eq_zero.mpr fun _ => rfl).symm

end TKH.RaceCondition
