import ThreadingKnowHows.Framework.Lock
import ThreadingKnowHows.Framework.Total

/-!
# No lost wakeups

A `notifyOne` wakes one of many sleepers, a thread that arrives later may take
what the sleeper was woken for, and the notification may come after the mutex
was released. For a condition variable `c`, a `Signal` gives what the rule
below counts: `need d`, how many sleepers could go on with the data `d`, and
`weight l`, how many of these a thread at `l` accounts for, because it is
about to use one up or has yet to notify. As long as somebody sleeps on `c`,
the threads that are awake account for the whole need (`Awake.count`). A state
that all sleepers must see (`urgent`: closed, stopped) comes with a thread
that will wake them all (`rouses`).

If each command agrees with the signal (`Cmd.Signals`), the invariant `Awake`
holds in every run, and in a quiet state whoever still sleeps on `c` has
nothing to go on with (`Waking.asleep`).
-/

namespace TKH

variable {τ C D L : Type*}

/-- What a condition variable announces. -/
structure Signal (D L : Type*) where
  need : D → ℕ
  weight : L → ℕ
  urgent : D → Prop
  rouses : L → Prop

/-- The weight of a thread: nothing while it sleeps. -/
def Signal.wt (S : Signal D L) : Status C L → ℕ
  | .run l => S.weight l
  | .asleep _ _ => 0
  | .woken k => S.weight k

@[simp] theorem Signal.wt_run (S : Signal D L) (l : L) : S.wt (.run l : Status C L) = S.weight l := rfl
@[simp] theorem Signal.wt_asleep (S : Signal D L) (c : C) (k : L) : S.wt (.asleep c k) = 0 := rfl
@[simp] theorem Signal.wt_woken (S : Signal D L) (k : L) :
    S.wt (.woken k : Status C L) = S.weight k := rfl

/-- Going from `l` to `k` gives up no weight and no duty to rouse. -/
def Signal.Passes (S : Signal D L) (l k : L) : Prop :=
  S.weight l ≤ S.weight k ∧ (S.rouses l → S.rouses k)

/-- The command at `l` agrees with the signal `S` of `c`. -/
def Cmd.Signals [DecidableEq C] (held : L → Bool) (pre : L → D → Prop) (c : C) (S : Signal D L) (l : L) :
    Cmd τ C D L → Prop
  | .lock k => S.Passes l k
  | .unlock k => S.Passes l k
  | .act f => ∀ d, (held l = true → pre l d) →
      (S.urgent d → S.urgent (f d).1) ∧ (S.urgent (f d).1 → S.urgent d ∨ S.rouses (f d).2) ∧
      (S.rouses l → S.rouses (f d).2) ∧
      (S.urgent (f d).1 ∨ S.need (f d).1 = 0 ∨
        S.need (f d).1 + S.weight l ≤ S.need d + S.weight (f d).2)
  | .wait c' k => ¬ S.rouses l ∧
      if c' = c then 1 ≤ S.weight k ∧ ∀ d, pre l d → S.need d = 0 ∧ ¬ S.urgent d else S.weight l = 0
  | .notifyOne c' k => (S.rouses l → S.rouses k) ∧
      S.weight l ≤ S.weight k + if c' = c then 1 else 0
  | .notifyAll c' k => c' ≠ c → S.Passes l k
  | _ => S.weight l = 0 ∧ ¬ S.rouses l

/-- The invariant of a signal (module doc). -/
structure Awake [Fintype τ] (c : C) (S : Signal D L) (s : State τ C D L) : Prop where
  resume : ∀ t k, s.th t = .asleep c k → 1 ≤ S.weight k
  count : (∃ t k, s.th t = .asleep c k) → ¬ S.urgent s.data → S.need s.data ≤ total S.wt s.th
  alarm : (∃ t k, s.th t = .asleep c k) → S.urgent s.data → ∃ t l, s.th t = .run l ∧ S.rouses l

structure Waking [DecidableEq C] (P : Program τ C D L) (held : L → Bool) (inv : D → Prop)
    (pre : L → D → Prop) (c : C) (S : Signal D L) : Prop extends Annotation P held inv pre where
  signals : ∀ t l, (P.code t l).Signals held pre c S l

variable [DecidableEq τ] [DecidableEq C] [Fintype τ] {c : C} {S : Signal D L} {s : State τ C D L}

/-! ## Steps -/

omit [DecidableEq C] [Fintype τ] in
/-- Moving a thread that does not sleep leaves the sleepers. -/
theorem asleep_update {f : τ → Status C L} {t u : τ} {x : Status C L} {k : L}
    (hx : ∀ k, x ≠ .asleep c k) (h : Function.update f t x u = .asleep c k) : f u = .asleep c k := by
  by_cases hu : u = t
  · subst hu; rw [Function.update_self] at h; exact absurd h (hx k)
  · rwa [Function.update_of_ne hu] at h

omit [DecidableEq C] in
/-- A running thread goes on, and the data may change. -/
theorem Awake.goto (h : Awake c S s) {t : τ} {l k : L} {o : Option τ} {d : D} (hl : s.th t = .run l)
    (hu : S.urgent s.data → S.urgent d) (hu' : S.urgent d → S.urgent s.data ∨ S.rouses k)
    (hr : S.rouses l → S.rouses k)
    (hn : S.urgent d ∨ S.need d = 0 ∨ S.need d + S.weight l ≤ S.need s.data + S.weight k) :
    Awake c S ⟨o, d, Function.update s.th t (.run k)⟩ := by
  have hsl : ∀ {u k'}, Function.update s.th t (.run k) u = .asleep c k' → s.th u = .asleep c k' :=
    asleep_update (by simp)
  refine ⟨fun u k' hk => h.resume u k' (hsl hk), fun ⟨u, k', hk⟩ hd => ?_, fun ⟨u, k', hk⟩ hd => ?_⟩
  · have ht := total_update S.wt s.th t (.run k)
    have hc := h.count ⟨u, k', hsl hk⟩ fun hs => hd (hu hs)
    simp only [hl, Signal.wt_run] at ht
    dsimp only at hd ⊢
    rcases hn with hn | hn | hn
    · exact absurd hn hd
    · omega
    · omega
  · rcases hu' hd with hs | hk'
    · obtain ⟨v, l', hl', hr'⟩ := h.alarm ⟨u, k', hsl hk⟩ hs
      by_cases hv : v = t
      · subst hv; cases hl.symm.trans hl'
        exact ⟨v, k, Function.update_self .., hr hr'⟩
      · exact ⟨v, l', by simpa [Function.update_of_ne hv] using hl', hr'⟩
    · exact ⟨t, k, Function.update_self .., hk'⟩

omit [DecidableEq C] in
theorem Awake.passes (h : Awake c S s) {t : τ} {l k : L} {o : Option τ} (hl : s.th t = .run l)
    (hp : S.Passes l k) : Awake c S ⟨o, s.data, Function.update s.th t (.run k)⟩ :=
  h.goto hl id .inl hp.2 (.inr (.inr (Nat.add_le_add_left hp.1 _)))

omit [DecidableEq τ] [DecidableEq C] in
/-- Waking threads: none gets to sleep. -/
theorem Awake.rouse (h : Awake c S s) {f : τ → Status C L}
    (hr : ∀ u l, s.th u = .run l → f u = .run l) (hs : ∀ u k, f u = .asleep c k → s.th u = .asleep c k)
    (hw : ∀ u, S.wt (s.th u) ≤ S.wt (f u)) : Awake c S { s with th := f } where
  resume u k hk := h.resume u k (hs u k hk)
  count := fun ⟨u, k, hk⟩ hd => (h.count ⟨u, k, hs u k hk⟩ hd).trans (total_le hw)
  alarm := fun ⟨u, k, hk⟩ hd => by
    obtain ⟨v, l, hl, hr'⟩ := h.alarm ⟨u, k, hs u k hk⟩ hd
    exact ⟨v, l, hr v l hl, hr'⟩

omit [DecidableEq C] in
theorem Awake.wakeOne (h : Awake c S s) {w : τ} {c' : C} {k : L} (hw : s.th w = .asleep c' k) :
    Awake c S { s with th := Function.update s.th w (.woken k) } := by
  refine h.rouse (fun u l hl => ?_) (fun u k' => asleep_update (by simp)) fun u => ?_
  · rwa [Function.update_of_ne (by rintro rfl; rw [hw] at hl; cases hl)]
  · by_cases hu : u = w
    · subst hu; simp [hw]
    · rw [Function.update_of_ne hu]

omit [DecidableEq C] in
/-- A notified sleeper takes over one unit of the notifier's weight. -/
theorem Awake.notify (h : Awake c S s) {t w : τ} {l k k' : L} (hl : s.th t = .run l)
    (hw : s.th w = .asleep c k') (hr : S.rouses l → S.rouses k) (hn : S.weight l ≤ S.weight k + 1) :
    Awake c S ({ s with th := Function.update s.th w (.woken k') }.goto t k) := by
  have hne : t ≠ w := by rintro rfl; rw [hl] at hw; cases hw
  have hsl : ∀ {u k''}, Function.update (Function.update s.th w (.woken k')) t (.run k) u = .asleep c k'' →
      s.th u = .asleep c k'' := by
    intro u k'' hk
    have hu : u ≠ t := by rintro rfl; simp at hk
    rw [Function.update_of_ne hu] at hk
    exact asleep_update (by simp) hk
  refine ⟨fun u k'' hk => h.resume u k'' (hsl hk), fun _ hd => ?_, fun _ hd => ?_⟩
  · have h₁ := total_update S.wt s.th w (.woken k')
    have h₂ := total_update S.wt (Function.update s.th w (.woken k')) t (.run k)
    rw [Function.update_of_ne hne, hl] at h₂
    have hc := h.count ⟨w, k', hw⟩ hd
    have hk := h.resume w k' hw
    simp only [hw, Signal.wt_run, Signal.wt_woken, Signal.wt_asleep] at h₁ h₂
    simp only [State.goto]
    omega
  · obtain ⟨v, l', hl', hr'⟩ := h.alarm ⟨w, k', hw⟩ hd
    by_cases hv : v = t
    · subst hv; cases hl.symm.trans hl'
      exact ⟨v, k, Function.update_self .., hr hr'⟩
    · have hvw : v ≠ w := by rintro rfl; rw [hw] at hl'; cases hl'
      exact ⟨v, l', by simpa [State.goto, Function.update_of_ne hv, Function.update_of_ne hvw] using hl', hr'⟩

variable {P : Program τ C D L} {held : L → Bool} {inv : D → Prop} {pre : L → D → Prop}

omit [DecidableEq τ] [DecidableEq C] in
theorem Awake.of_no_sleeper {s : State τ C D L} (h : ∀ u k, s.th u ≠ .asleep c k) : Awake c S s :=
  ⟨fun u k hk => absurd hk (h u k), fun ⟨u, k, hk⟩ => absurd hk (h u k),
    fun ⟨u, k, hk⟩ => absurd hk (h u k)⟩

omit [DecidableEq τ] [Fintype τ] in
theorem Waking.signals_at (h : Waking P held inv pre c S) {t : τ} {l : L} {k : Cmd τ C D L} (hc : P.code t l = k) :
    k.Signals held pre c S l := by
  rw [← hc]
  exact h.signals t l

theorem Waking.awake_step (h : Waking P held inv pre c S) {s' : State τ C D L} {a : Act τ L}
    (hs : P.Step s a s') (hsound : Sound held inv pre s) (hi : Awake c S s) : Awake c S s' := by
  cases hs with
  | lock hl hc | unlock hl hc => exact hi.passes hl (h.signals_at hc)
  | @act t l f hl hc =>
    obtain ⟨hu, hu', hr, hn⟩ := h.signals_at hc s.data fun hh => hsound.holds t l hl hh
    exact hi.goto hl hu hu' hr hn
  | @wait t l c' k hl hc _ =>
    have hg := h.signals_at hc; simp only [Cmd.Signals] at hg
    obtain ⟨hr, hg⟩ := hg
    have hh := h.holds_at hc
    have ht := total_update S.wt s.th t (.asleep c' k)
    simp only [hl, Signal.wt_run, Signal.wt_asleep] at ht
    have halarm : ∀ {u k'}, s.th u = .asleep c k' → S.urgent s.data →
        ∃ v l', Function.update s.th t (.asleep c' k) v = .run l' ∧ S.rouses l' := by
      intro u k' hk hd
      obtain ⟨v, l', hl', hr'⟩ := hi.alarm ⟨u, k', hk⟩ hd
      have hv : v ≠ t := by rintro rfl; cases hl.symm.trans hl'; exact hr hr'
      exact ⟨v, l', by simpa [Function.update_of_ne hv] using hl', hr'⟩
    by_cases he : c' = c
    · -- `t` itself falls asleep: it has just seen that there is nothing to go on with
      subst he
      rw [if_pos rfl] at hg
      obtain ⟨hneed, hurg⟩ := hg.2 _ (hsound.holds t l hl hh.1)
      refine ⟨fun u k' hk => ?_, fun _ _ => hneed ▸ Nat.zero_le _, fun _ hd => absurd hd hurg⟩
      by_cases hu : u = t
      · subst hu; simp only [Function.update_self, Status.asleep.injEq] at hk
        exact hk.2 ▸ hg.1
      · exact hi.resume u k' (by simpa [Function.update_of_ne hu] using hk)
    · rw [if_neg he] at hg
      have hsl : ∀ {u k'}, Function.update s.th t (.asleep c' k) u = .asleep c k' → s.th u = .asleep c k' :=
        asleep_update (by simp [he])
      refine ⟨fun u k' hk => hi.resume u k' (hsl hk), fun ⟨u, k', hk⟩ hd => ?_,
        fun ⟨u, k', hk⟩ hd => halarm (hsl hk) hd⟩
      have := hi.count ⟨u, k', hsl hk⟩ hd
      dsimp only
      omega
  | @notifyNone t l c' k hl hc hn =>
    have hg := h.signals_at hc; simp only [Cmd.Signals] at hg
    by_cases he : c' = c
    · subst he
      refine Awake.of_no_sleeper fun u k' hk => ?_
      have := Status.sleepsOn_iff.mpr ⟨k', asleep_update (by simp) hk⟩
      rw [hn u] at this; cases this
    · rw [if_neg he] at hg
      exact hi.passes hl ⟨hg.2, hg.1⟩
  | @notifyOne t w l c' k k' hl hc hw =>
    have hg := h.signals_at hc; simp only [Cmd.Signals] at hg
    by_cases he : c' = c
    · subst he
      rw [if_pos rfl] at hg
      exact hi.notify hl hw hg.1 hg.2
    · rw [if_neg he] at hg
      have hne : t ≠ w := by rintro rfl; rw [hl] at hw; cases hw
      exact (hi.wakeOne hw).passes (by simpa [Function.update_of_ne hne] using hl) ⟨hg.2, hg.1⟩
  | @notifyAll t l c' k hl hc =>
    have hg := h.signals_at hc; simp only [Cmd.Signals] at hg
    by_cases he : c' = c
    · subst he
      refine Awake.of_no_sleeper fun u k' hk => ?_
      have hk' : (s.th u).rouse c' = .asleep c' k' :=
        asleep_update (f := fun w => (s.th w).rouse c') (by simp) hk
      exact (Status.rouse_eq_asleep.mp hk').1 rfl
    · refine Awake.passes (hi.rouse (fun u l' h' => Status.rouse_eq_run.mpr h')
        (fun u k' hk => (Status.rouse_eq_asleep.mp hk).2) fun u => ?_)
        (Status.rouse_eq_run.mpr hl) (hg he)
      cases s.th u with
      | run | woken => exact le_rfl
      | asleep => exact Nat.zero_le _
  | join hl hc | pick hl hc | ext hl hc =>
    -- the command rests: the thread had nothing to pass on
    obtain ⟨hzero, hnone⟩ := h.signals_at hc
    exact hi.passes hl ⟨hzero ▸ Nat.zero_le _, fun hr => absurd hr hnone⟩
  | @relock t k hk _ =>
    have ht := total_update S.wt s.th t (.run k)
    simp only [hk, Signal.wt_run, Signal.wt_woken] at ht
    have hsl : ∀ {u k'}, Function.update s.th t (.run k) u = .asleep c k' → s.th u = .asleep c k' :=
      asleep_update (by simp)
    refine ⟨fun u k' h' => hi.resume u k' (hsl h'), fun ⟨u, k', h'⟩ hd => ?_, fun ⟨u, k', h'⟩ hd => ?_⟩
    · have := hi.count ⟨u, k', hsl h'⟩ hd
      simp only [State.goto]
      omega
    · obtain ⟨v, l', hl', hr'⟩ := hi.alarm ⟨u, k', hsl h'⟩ hd
      have hv : v ≠ t := by rintro rfl; rw [hk] at hl'; cases hl'
      exact ⟨v, l', by simpa [State.goto, Function.update_of_ne hv] using hl', hr'⟩
  | @spurious t c' k hk => exact hi.wakeOne hk

/-! ## Runs -/

theorem Waking.awake (h : Waking P held inv pre c S) (hs : P.system.Reach s) : Awake c S s :=
  hs.inv (Awake.of_no_sleeper fun u k hk => by cases hk) fun hr _ ha hi =>
    h.awake_step (P.step_of_next ha) (h.sound hr) hi

/-- No wakeup is lost: if the threads `ts` cannot go on, and the others owe no
notification, whoever sleeps on `c` has nothing to go on with. -/
theorem Waking.asleepOf (h : Waking P held inv pre c S) (hs : P.system.Reach s) {ts : τ → Prop}
    (hq : P.QuietOf ts s) (hheld : ∀ t l, ¬ ts t → s.th t = .run l → held l = false)
    (hout : ∀ t, ¬ ts t → S.wt (s.th t) = 0 ∧ ∀ l, s.th t = .run l → ¬ S.rouses l) {t : τ} {k : L}
    (ht : s.th t = .asleep c k) : S.need s.data = 0 ∧ ¬ S.urgent s.data := by
  have hi := h.awake hs
  obtain ⟨-, hrest⟩ := h.quietOf (h.locked hs) hq hheld
  have hw : ∀ {u l}, (P.code u l).Rests → S.weight l = 0 ∧ ¬ S.rouses l := by
    intro u l hr
    have hg := h.signals u l
    cases hc : P.code u l <;> rw [hc] at hr hg <;> first | exact hg | exact absurd hr id
  have hidle : ∀ u, S.wt (s.th u) = 0 ∧ ∀ l, s.th u = .run l → ¬ S.rouses l := by
    intro u
    by_cases hu : ts u
    · rcases hrest u hu with ⟨l, hl, hr⟩ | ⟨c', k', hk'⟩
      · rw [hl]
        exact ⟨(hw hr).1, fun l' hl' => by cases hl'; exact (hw hr).2⟩
      · rw [hk']
        exact ⟨rfl, fun l hl => by cases hl⟩
    · exact hout u hu
  have hurg : ¬ S.urgent s.data := fun hd => by
    obtain ⟨u, l, hl, hr⟩ := hi.alarm ⟨t, k, ht⟩ hd
    exact (hidle u).2 l hl hr
  have hzero : total S.wt s.th = 0 := total_eq_zero.mpr fun u => (hidle u).1
  have := hi.count ⟨t, k, ht⟩ hurg
  exact ⟨by omega, hurg⟩

/-- In a quiet state whoever sleeps on `c` has nothing to go on with. -/
theorem Waking.asleep (h : Waking P held inv pre c S) (hs : P.system.Reach s) (hq : P.Quiet s) {t : τ}
    {k : L} (ht : s.th t = .asleep c k) : S.need s.data = 0 ∧ ¬ S.urgent s.data :=
  h.asleepOf hs (hq.quietOf fun _ => True) (fun _ _ hn => absurd trivial hn) (fun _ hn => absurd trivial hn) ht

end TKH
