import ThreadingKnowHows.Framework.Lock

/-!
# Control flow

A step leaves a thread where it is or follows its code (`Step.leads`), so what
each command preserves holds of where the threads are (`point_of_leads`).

A thread that has halted stays so, and one that has passed a join knows that
the threads it waited for have halted: `joined l u` says that a thread at `l`
has joined `u`, and it is right if it grows only where the code waits for `u`
(`halted_of_joined`).
-/

namespace TKH

variable {τ C D L : Type*}

/-- With the data `d`, the command may lead to `k'`. -/
def Cmd.Leads (d : D) (k' : L) : Cmd τ C D L → Prop
  | .lock k | .unlock k | .wait _ k | .notifyOne _ k | .notifyAll _ k | .join _ k => k' = k
  | .act f => k' = (f d).2
  | .pick ok => ok d k' = true
  | .ext _ ok => ok k' = true
  | .halt => False

/-- The command waits for `u` to halt. -/
def Cmd.awaits (u : τ) : Cmd τ C D L → Bool
  | .join us _ | .ext us _ => us u
  | _ => false

variable [DecidableEq τ] [DecidableEq C] [Fintype τ] {P : Program τ C D L} {held : L → Bool}

omit [DecidableEq τ] [DecidableEq C] [Fintype τ] in
theorem Program.halted_iff {s : State τ C D L} {t : τ} :
    P.halted s t = true ↔ ∃ l, s.th t = .run l ∧ P.code t l = .halt := by
  simp only [Program.halted]
  split
  · split <;> simp_all
  · simp_all

omit [DecidableEq τ] [DecidableEq C] [Fintype τ] in
/-- A halted thread does not hold the mutex. -/
theorem Discipline.not_owner_of_halted (h : Discipline P held) {s : State τ C D L} (hi : Locked held s) {t : τ}
    (ht : P.halted s t = true) : s.owner ≠ some t := by
  intro ho
  obtain ⟨l, hl, hc⟩ := Program.halted_iff.mp ht
  obtain ⟨l', hl', hh⟩ := (hi.owner t).mp ho
  cases hl.symm.trans hl'
  rw [show held l = false from h.holds_at hc] at hh
  cases hh

omit [Fintype τ] in
/-- A step leaves a thread where it is, or follows its code. -/
theorem Program.Step.leads {s s' : State τ C D L} {a : Act τ L} (h : P.Step s a s') (u : τ) :
    ((s'.th u).point = (s.th u).point ∧ ∀ l, s.th u = .run l → s'.th u = .run l) ∨
      ∃ l, s.th u = .run l ∧ (P.code u l).Leads s.data (s'.th u).point ∧
        ∀ v, (P.code u l).awaits v = true → P.halted s v = true := by
  -- a step of `t`, from `l` to `x`, that may have woken others
  have hmove : ∀ {f : τ → Status C L} {t l x}, (∀ u, (f u).point = (s.th u).point ∧
      ∀ l, s.th u = .run l → f u = .run l) → s.th t = .run l → (P.code t l).Leads s.data x.point →
      (∀ v, (P.code t l).awaits v = true → P.halted s v = true) →
      ((Function.update f t x u).point = (s.th u).point ∧ ∀ l, s.th u = .run l → Function.update f t x u = .run l) ∨
        ∃ l, s.th u = .run l ∧ (P.code u l).Leads s.data (Function.update f t x u).point ∧
          ∀ v, (P.code u l).awaits v = true → P.halted s v = true := by
    intro f t l x hf hl hk hj
    by_cases hu : u = t
    · subst hu
      rw [Function.update_self]
      exact .inr ⟨l, hl, hk, hj⟩
    · rw [Function.update_of_ne hu]
      exact .inl (hf u)
  have hself : ∀ u, (s.th u).point = (s.th u).point ∧ ∀ l, s.th u = .run l → s.th u = .run l :=
    fun u => ⟨rfl, fun _ => id⟩
  have hwake : ∀ {w c k}, s.th w = .asleep c k → ∀ u, (Function.update s.th w (.woken k) u).point = (s.th u).point ∧
      ∀ l, s.th u = .run l → Function.update s.th w (.woken k) u = .run l := by
    exact fun hw u => ⟨Status.point_wake hw u, fun l => (Status.wake_eq_run hw u l).mpr⟩
  cases h with
  | lock hl hc | unlock hl hc | act hl hc | wait hl hc | notifyNone hl hc =>
    exact hmove hself hl (by rw [hc]; rfl) (by simp [hc, Cmd.awaits])
  | notifyOne hl hc hw => exact hmove (hwake hw) hl (by rw [hc]; rfl) (by simp [hc, Cmd.awaits])
  | notifyAll hl hc =>
    exact hmove (fun u => ⟨Status.point_rouse _ _, fun l => Status.rouse_eq_run.mpr⟩) hl (by rw [hc]; rfl)
      (by simp [hc, Cmd.awaits])
  | join hl hc hj => exact hmove hself hl (by rw [hc]; rfl) (by rw [hc]; exact hj)
  | pick hl hc hk => exact hmove hself hl (by rw [hc]; exact hk) (by simp [hc, Cmd.awaits])
  | ext hl hc hj hk => exact hmove hself hl (by rw [hc]; exact hk) (by rw [hc]; exact hj)
  | @relock t k hk _ =>
    by_cases hu : u = t
    · subst hu; exact .inl (by simp [State.goto, hk])
    · exact .inl (by simp [State.goto, Function.update_of_ne hu])
  | spurious hk => exact .inl (hwake hk u)

omit [Fintype τ] in
/-- A thread that runs stays where it is, or the step is its own. -/
theorem Program.Step.own {s s' : State τ C D L} {a : Act τ L} (h : P.Step s a s') {t : τ} {l : L}
    (hl : s.th t = .run l) : s'.th t = .run l ∨ a.thread = t := by
  by_cases ht : a.thread = t
  · exact .inr ht
  -- a step of another thread, which may have woken a sleeper
  have hmove : ∀ {g : τ → Status C L} {x}, g t = .run l → Function.update g a.thread x t = .run l :=
    fun hg => by rwa [Function.update_of_ne (Ne.symm ht)]
  refine .inl ?_
  cases h with
  | notifyAll => exact hmove (Status.rouse_eq_run.mpr hl)
  | @notifyOne u w l' c k k' hl' hc hw =>
    have hne : t ≠ w := by
      rintro rfl
      cases hl.symm.trans hw
    exact hmove ((Function.update_of_ne hne _ _).trans hl)
  | _ => exact hmove hl

omit [Fintype τ] in
/-- A thread at an `act` stays there, or executes it. -/
theorem Program.Step.of_act {s s' : State τ C D L} {a : Act τ L} (h : P.Step s a s') {t : τ} {l : L} {f : D → D × L}
    (hl : s.th t = .run l) (hc : P.code t l = .act f) :
    s'.th t = .run l ∨ (a = .exec t ∧ s' = { s.goto t (f s.data).2 with data := (f s.data).1 }) := by
  rcases h.own hl with hstay | rfl
  · exact .inl hstay
  cases h with
  | act hl' hc' =>
    cases hl.symm.trans hl'
    cases hc.symm.trans hc'
    exact .inr ⟨rfl, rfl⟩
  | lock hl' hc' | unlock hl' hc' | wait hl' hc' | notifyNone hl' hc' | notifyOne hl' hc' | notifyAll hl' hc'
  | join hl' hc' | pick hl' hc' | ext hl' hc' =>
    cases hl.symm.trans hl'
    cases hc.symm.trans hc'
  | relock hk | spurious hk => cases hl.symm.trans hk

omit [Fintype τ] in
/-- A thread that waits for the environment stays there, or goes where the
environment says. -/
theorem Program.Step.of_ext {s s' : State τ C D L} {a : Act τ L} (h : P.Step s a s') {t : τ} {l : L}
    {us : τ → Bool} {ok : L → Bool} (hl : s.th t = .run l) (hc : P.code t l = .ext us ok) :
    s'.th t = .run l ∨ ∃ k, a = .ext t k ∧ ok k = true ∧ s' = s.goto t k := by
  rcases h.own hl with hstay | rfl
  · exact .inl hstay
  cases h with
  | ext hl' hc' _ hk =>
    cases hl.symm.trans hl'
    cases hc.symm.trans hc'
    exact .inr ⟨_, rfl, hk, rfl⟩
  | act hl' hc' | lock hl' hc' | unlock hl' hc' | wait hl' hc' | notifyNone hl' hc' | notifyOne hl' hc'
  | notifyAll hl' hc' | join hl' hc' | pick hl' hc' =>
    cases hl.symm.trans hl'
    cases hc.symm.trans hc'
  | relock hk | spurious hk => cases hl.symm.trans hk

/-- What the code preserves holds of where a thread is. -/
theorem point_of_leads {I : τ → L → Prop} (hentry : ∀ t, I t (P.entry t))
    (hcode : ∀ t l d k, (P.code t l).Leads d k → I t l → I t k) {s : State τ C D L} (h : P.system.Reach s) (t : τ) :
    I t (s.th t).point := by
  refine h.inv (I := fun s => I t (s.th t).point) (hentry t) fun _ _ ha ih => ?_
  rcases (Program.step_of_next ha).leads t with ⟨hp, -⟩ | ⟨l, hl, hk, -⟩
  · rwa [hp]
  · exact hcode t l _ _ hk (by rwa [hl] at ih)

omit [Fintype τ] in
theorem Program.Step.halted {s s' : State τ C D L} {a : Act τ L} (h : P.Step s a s') {t : τ}
    (ht : P.halted s t = true) : P.halted s' t = true := by
  obtain ⟨l, hl, hc⟩ := Program.halted_iff.mp ht
  rcases h.leads t with ⟨-, hrun⟩ | ⟨l', hl', hk, -⟩
  · exact Program.halted_iff.mpr ⟨l, hrun l hl, hc⟩
  · cases hl.symm.trans hl'
    rw [hc] at hk
    exact hk.elim

/-- When all threads have halted nothing happens any more. -/
theorem next_of_halted {s : State τ C D L} (h : ∀ t, P.halted s t = true) (a : Act τ L) : P.system.next s a = none := by
  by_contra hn
  obtain ⟨s', hs⟩ := Option.ne_none_iff_exists'.mp hn
  have hrun : ∀ {t l}, s.th t = .run l → P.code t l = .halt := fun {t l} hl => by
    obtain ⟨l', hl', hc⟩ := Program.halted_iff.mp (h t)
    cases hl.symm.trans hl'
    exact hc
  have hruns : ∀ t, ∃ l, s.th t = .run l := fun t => by
    obtain ⟨l, hl, -⟩ := Program.halted_iff.mp (h t)
    exact ⟨l, hl⟩
  cases Program.step_of_next hs with
  | lock hl hc | unlock hl hc | act hl hc | wait hl hc | notifyNone hl hc | notifyOne hl hc | notifyAll hl hc
  | join hl hc | pick hl hc | ext hl hc =>
    rw [hrun hl] at hc; cases hc
  | relock hk | spurious hk =>
    obtain ⟨l, hl⟩ := hruns _
    rw [hk] at hl; cases hl

/-- What a thread has joined, by where it is, has halted. -/
theorem halted_of_joined {joined : L → τ → Prop} (hentry : ∀ t u, ¬joined (P.entry t) u)
    (hcode : ∀ t l d k u, (P.code t l).Leads d k → joined k u → joined l u ∨ (P.code t l).awaits u = true)
    {s : State τ C D L} (h : P.system.Reach s) {t u : τ} (hu : joined (s.th t).point u) : P.halted s u = true := by
  revert t u
  refine h.inv (I := fun s => ∀ {t u}, joined (s.th t).point u → P.halted s u = true)
    (fun hu => absurd hu (hentry _ _)) fun _ _ ha ih t u hu => ?_
  have hs := Program.step_of_next ha
  refine hs.halted ?_
  rcases hs.leads t with ⟨hp, -⟩ | ⟨l, hl, hk, hj⟩
  · rw [hp] at hu; exact ih hu
  · rcases hcode t l _ _ u hk hu with hu | hu
    · exact ih (t := t) (by rwa [hl])
    · exact hj u hu

end TKH
