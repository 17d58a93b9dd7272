import ThreadingKnowHows.BarrierBasic.Model
import ThreadingKnowHows.Framework.Journal
import ThreadingKnowHows.Framework.Total

/-!
# The order of the lines

All threads are in the phase of the last release or in the next one (`At`), and
of the phases released so far only the last may still have to be announced, by
one thread (`speakers`). What has been printed follows from where the threads
are (`History`).
-/

namespace TKH.BarrierBasic

variable {τ : Type} [DecidableEq τ] [Fintype τ] {phases : ℕ} {s s' : State τ} {a : Act τ}

/-- Where a thread may be after `c` releases. -/
def At (phases c : ℕ) : Waiter → Pc → Prop
  | .outside, .reach p => p = c + 1 ∧ p ≤ phases
  | .outside, .wait p => p = c + 1 ∧ p ≤ phases
  | .blocked, .waiting p => p = c + 1 ∧ p ≤ phases
  | .released _, .waiting p => p = c ∧ p ≤ phases
  | .outside, .announce p => p = c ∧ p ≤ phases
  | .outside, .done p => p = c + 1 ∧ c = phases
  | _, _ => False

/-- The phases of which the thread has printed that it reached them. -/
def Pc.reached : Pc → ℕ
  | reach p => p - 1
  | done p => p - 1
  | wait p | waiting p | announce p => p

/-- Whether the thread has to announce a phase. -/
def speaks : Waiter × Pc → ℕ
  | (.released true, _) => 1
  | (_, .announce _) => 1
  | _ => 0

omit [DecidableEq τ] in
/-- The threads that have to. -/
def State.speakers (s : State τ) : ℕ := total speaks fun t => (s.bar.status t, s.pc t)

structure Inv (phases : ℕ) (s : State τ) : Prop where
  at_ : ∀ t, At phases s.bar.cycle (s.bar.status t) (s.pc t)
  speakers_le : s.speakers ≤ 1

theorem at_loop {c : ℕ} (h : c ≤ phases) : At phases c .outside (loop phases (c + 1)) := by
  simp only [loop]
  split
  · exact ⟨rfl, ‹_›⟩
  · exact ⟨rfl, by omega⟩

omit [DecidableEq τ] [Fintype τ] in
theorem speaks_loop (p : ℕ) : speaks (.outside, loop phases p) = 0 := by
  simp only [loop]
  split <;> rfl

omit [DecidableEq τ] [Fintype τ] in
theorem reached_loop (p : ℕ) : (loop phases p).reached = p - 1 := by
  simp only [loop]
  split <;> rfl

theorem At.outside {c : ℕ} {w : Waiter} {k : Pc} (h : At phases c w k) (hk : ∀ p, k ≠ .waiting p) : w = .outside := by
  cases w <;> cases k <;> simp_all [At]

theorem At.blocked {c : ℕ} {k : Pc} (h : At phases c .blocked k) : k = .waiting (c + 1) ∧ c + 1 ≤ phases := by
  cases k with
  | waiting p =>
    obtain ⟨rfl, hle⟩ := h
    exact ⟨rfl, hle⟩
  | reach | wait | announce | done => exact h.elim

omit [DecidableEq τ] in
/-- A thread that is not in `wait` is outside the barrier. -/
theorem Inv.at_outside (h : Inv phases s) {t : τ} {k : Pc} (hpc : s.pc t = k) (hk : ∀ p, k ≠ .waiting p) :
    s.bar.status t = .outside ∧ At phases s.bar.cycle .outside k := by
  subst hpc
  have ht := h.at_ t
  have hst := ht.outside hk
  rw [hst] at ht
  exact ⟨hst, ht⟩

omit [Fintype τ] in
theorem update_pair (s : State τ) (t : τ) (w : Waiter) (k : Pc) :
    (fun u => (Function.update s.bar.status t w u, Function.update s.pc t k u)) =
      Function.update (fun u => (s.bar.status u, s.pc u)) t (w, k) := by
  funext u
  by_cases hu : u = t
  · subst hu; simp only [Function.update_self]
  · simp only [Function.update_of_ne hu]

omit [DecidableEq τ] in
theorem speakers_eq (s : State τ) {w : τ → Waiter} (h : s.bar.status = w) :
    s.speakers = total speaks fun t => (w t, s.pc t) := by
  rw [← h]
  rfl

/-- Before and after a step of `t` alone. -/
theorem speakers_move {t : τ} {w : Waiter} {k : Pc} {bar : Barrier τ}
    (hstatus : bar.status = Function.update s.bar.status t w) :
    ({ s with bar := bar }.goto t k).speakers + speaks (s.bar.status t, s.pc t) = s.speakers + speaks (w, k) := by
  rw [speakers_eq _ hstatus]
  simp only [State.goto, update_pair]
  exact total_update speaks (fun u => (s.bar.status u, s.pc u)) t (w, k)

/-- Before and after a step of `t` that does not use the barrier. -/
theorem speakers_outside {t : τ} {k : Pc} (ht : s.bar.status t = .outside) :
    (s.goto t k).speakers + speaks (.outside, s.pc t) = s.speakers + speaks (.outside, k) := by
  have hstatus : s.bar.status = Function.update s.bar.status t .outside := by rw [← ht, Function.update_eq_self]
  have hmove := speakers_move (k := k) hstatus
  rwa [ht] at hmove

/-- A step of `t` alone. -/
theorem Inv.move (h : Inv phases s) {t : τ} {w : Waiter} {k : Pc} {bar : Barrier τ}
    (hstatus : bar.status = Function.update s.bar.status t w) (hcycle : bar.cycle = s.bar.cycle)
    (hat : At phases s.bar.cycle w k) (hspeaks : speaks (w, k) ≤ speaks (s.bar.status t, s.pc t)) :
    Inv phases ({ s with bar := bar }.goto t k) where
  at_ u := by
    simp only [State.goto, hstatus, hcycle]
    by_cases hu : u = t
    · subst hu; simp only [Function.update_self]; exact hat
    · simp only [Function.update_of_ne hu]; exact h.at_ u
  speakers_le := by
    have hle := h.speakers_le
    have hmove := speakers_move (k := k) hstatus
    omega

/-- A step of `t` that does not use the barrier. -/
theorem Inv.outside (h : Inv phases s) {t : τ} {k : Pc} (ht : s.bar.status t = .outside)
    (hat : At phases s.bar.cycle .outside k) (hspeaks : speaks (.outside, k) = 0) : Inv phases (s.goto t k) := by
  have hstatus : s.bar.status = Function.update s.bar.status t .outside := by rw [← ht, Function.update_eq_self]
  exact h.move hstatus rfl hat (by rw [hspeaks]; exact Nat.zero_le _)

/-- All but `t`, which arrives, are waiting for the next phase. -/
theorem Inv.waiting (h : Inv phases s) {t : τ} {p : ℕ} (hpc : s.pc t = .wait p)
    (hblocked : ∀ u, u ≠ t → s.bar.status u = .blocked) (u : τ) :
    Function.update s.pc t (.waiting p) u = .waiting (s.bar.cycle + 1) ∧ s.bar.cycle + 1 ≤ phases := by
  by_cases hut : u = t
  · subst hut
    obtain ⟨-, rfl, hle⟩ := h.at_outside hpc (by simp)
    exact ⟨Function.update_self .., hle⟩
  · have hu := h.at_ u
    rw [hblocked u hut] at hu
    rw [Function.update_of_ne hut]
    exact hu.blocked

/-- All are released: nobody had to announce a phase, and now `serial` has to. -/
theorem Inv.release (h : Inv phases s) {t serial : τ} {p : ℕ} {bar : Barrier τ} (hpc : s.pc t = .wait p)
    (hblocked : ∀ u, u ≠ t → s.bar.status u = .blocked) (hstatus : bar.status = fun u => .released (u = serial)) :
    s.speakers = 0 ∧ ({ s with bar := bar }.goto t (.waiting p)).speakers = 1 := by
  have hwaiting := h.waiting hpc hblocked
  constructor
  · refine total_eq_zero.mpr fun u => ?_
    by_cases hu : u = t
    · rw [hu, hpc, (h.at_outside hpc (by simp)).1]
      rfl
    · have hw := (hwaiting u).1
      rw [Function.update_of_ne hu] at hw
      rw [hw, hblocked u hu]
      rfl
  · have hspeaks : ∀ u, speaks (.released (u = serial), Function.update s.pc t (.waiting p) u) =
        if u = serial then 1 else 0 := fun u => by
      rw [(hwaiting u).1]
      by_cases hu : u = serial <;> simp [hu, speaks]
    rw [speakers_eq _ hstatus]
    simp only [State.goto]
    rw [total_eq_single (t := serial) fun u hu => by rw [hspeaks, if_neg hu], hspeaks, if_pos rfl]

theorem Step.inv (h : Step phases s a s') (hi : Inv phases s) : Inv phases s' := by
  cases h with
  | @reach t p hpc =>
    obtain ⟨hst, ht⟩ := hi.at_outside hpc (by simp)
    exact hi.outside hst ht rfl
  | @arrive t serial p bar hpc hbar =>
    obtain ⟨hst, ⟨hstatus, hcycle⟩ | ⟨hblocked, hstatus, hcycle⟩⟩ := Barrier.arrive_spec hbar
    · exact hi.move hstatus hcycle (hi.at_outside hpc (by simp)).2 (Nat.zero_le _)
    · refine ⟨fun u => ?_, (hi.release hpc hblocked hstatus).2.le⟩
      obtain ⟨hw, hle⟩ := hi.waiting hpc hblocked u
      simp only [State.goto, hstatus, hcycle, hw]
      exact ⟨rfl, hle⟩
  | @leave t p serial bar hpc hbar =>
    obtain ⟨hst, hstatus, hcycle⟩ := Barrier.leave_spec hbar
    have ht := hi.at_ t
    rw [hpc, hst] at ht
    obtain ⟨rfl, hle⟩ := ht
    cases serial with
    | true => exact hi.move hstatus hcycle ⟨rfl, hle⟩ (by rw [hpc, hst]; exact le_rfl)
    | false => exact hi.move hstatus hcycle (at_loop hle) (by rw [if_neg (by decide), speaks_loop]; exact Nat.zero_le _)
  | @announce t p hpc =>
    obtain ⟨hst, rfl, hle⟩ := hi.at_outside hpc (by simp)
    exact hi.outside hst (at_loop hle) (speaks_loop _)

/-! ## What has been printed -/

def Line.isReached : Line → Option ℕ
  | reached p => some p
  | complete _ => none

def Line.isComplete : Line → Option ℕ
  | reached _ => none
  | complete p => some p

omit [Fintype τ] in
/-- The phases of which `t` has printed that it reached them. -/
def reachedBy (t : τ) (es : List (τ × Line)) : List ℕ := (journal t es).filterMap Line.isReached

omit [DecidableEq τ] [Fintype τ] in
/-- The phases that have been announced. -/
def announcements (es : List (τ × Line)) : List ℕ := es.filterMap fun e => e.2.isComplete

omit [Fintype τ] in
theorem mem_reachedBy {t : τ} {p : ℕ} {es : List (τ × Line)} : p ∈ reachedBy t es ↔ (t, .reached p) ∈ es := by
  simp only [reachedBy, List.mem_filterMap, mem_journal]
  constructor
  · rintro ⟨l, hl, hp⟩
    cases l <;> cases hp
    exact hl
  · exact fun h => ⟨_, h, rfl⟩

omit [DecidableEq τ] [Fintype τ] in
theorem mem_announcements {p : ℕ} {es : List (τ × Line)} : p ∈ announcements es ↔ ∃ e ∈ es, e.2 = .complete p := by
  simp only [announcements, List.mem_filterMap]
  constructor
  · rintro ⟨e, he, hp⟩
    refine ⟨e, he, ?_⟩
    cases hl : e.2 <;> rw [hl] at hp <;> cases hp
    rfl
  · rintro ⟨e, he, hp⟩
    exact ⟨e, he, by rw [hp]; rfl⟩

/-- Each thread has printed its lines once and in order, and the phases that
have been released are announced, but for the one that still has to be. -/
structure Printed (es : List (τ × Line)) (s : State τ) : Prop where
  reached : ∀ t, reachedBy t es = List.range' 1 (s.pc t).reached
  announced : ∃ k, announcements es = List.range' 1 k ∧ k + s.speakers = s.bar.cycle

/-- A step that prints nothing. -/
theorem Printed.quiet {es : List (τ × Line)} (h : Printed es s) (hreached : ∀ t, (s'.pc t).reached = (s.pc t).reached)
    (hcycle : s'.speakers + s.bar.cycle = s.speakers + s'.bar.cycle) : Printed (es ++ []) s' where
  reached t := by rw [List.append_nil, hreached, h.reached]
  announced := by
    obtain ⟨k, hk, hs⟩ := h.announced
    exact ⟨k, by rw [List.append_nil, hk], by omega⟩

omit [Fintype τ] in
/-- A step of `t` that does not change what it has reached. -/
theorem reached_update {t : τ} {k : Pc} (h : k.reached = (s.pc t).reached) (u : τ) :
    (Function.update s.pc t k u).reached = (s.pc u).reached := by
  by_cases hu : u = t
  · subst hu; rw [Function.update_self, h]
  · rw [Function.update_of_ne hu]

theorem Printed.step {es : List (τ × Line)} (h : Printed es s) (hi : Inv phases s) (hs : Step phases s a s') :
    Printed (es ++ lines s a) s' := by
  cases hs with
  | @reach t p hpc =>
    obtain ⟨hst, rfl, -⟩ := hi.at_outside hpc (by simp)
    have hmove := speakers_outside (k := .wait (s.bar.cycle + 1)) hst
    rw [hpc] at hmove
    simp only [lines, hpc]
    refine ⟨fun u => ?_, ?_⟩
    · have hu := h.reached u
      simp only [reachedBy, journal_append, List.filterMap_append] at hu ⊢
      rw [hu]
      by_cases hut : u = t
      · subst hut
        simp [State.goto, hpc, journal, Line.isReached, Pc.reached, List.range'_1_concat, Nat.add_comm]
      · simp [State.goto, journal, Function.update_of_ne hut, Ne.symm hut]
    · obtain ⟨k, hk, hc⟩ := h.announced
      refine ⟨k, ?_, ?_⟩
      · simp [announcements, ← hk, Line.isComplete]
      · simp only [speaks, State.goto, Nat.add_zero] at hmove ⊢
        rw [hmove, hc]
  | @arrive t serial p bar hpc hbar =>
    obtain ⟨hst, ⟨hstatus, hcycle⟩ | ⟨hblocked, hstatus, hcycle⟩⟩ := Barrier.arrive_spec hbar
    · have hmove := speakers_move (k := .waiting p) hstatus
      rw [hpc, hst] at hmove
      refine h.quiet (reached_update (by rw [hpc]; rfl)) ?_
      simp only [State.goto, hcycle] at hmove ⊢
      simpa [speaks] using hmove
    · obtain ⟨hzero, hone⟩ := hi.release hpc hblocked hstatus
      refine h.quiet (reached_update (by rw [hpc]; rfl)) ?_
      rw [hzero, hone]
      simp only [State.goto, hcycle]
      omega
  | @leave t p serial bar hpc hbar =>
    obtain ⟨hst, hstatus, hcycle⟩ := Barrier.leave_spec hbar
    have hmove := speakers_move (k := if serial then .announce p else loop phases (p + 1)) hstatus
    rw [hpc, hst] at hmove
    simp only [lines, hpc]
    refine h.quiet (reached_update ?_) ?_
    · rw [hpc]
      cases serial with
      | true => rfl
      | false => exact reached_loop (p + 1)
    · cases serial with
      | true =>
        simp only [State.goto, hcycle] at hmove ⊢
        simpa [speaks] using hmove
      | false =>
        simp only [Bool.false_eq_true, if_false, speaks_loop] at hmove
        simp only [State.goto, hcycle] at hmove ⊢
        simpa [speaks] using hmove
  | @announce t p hpc =>
    obtain ⟨hst, rfl, -⟩ := hi.at_outside hpc (by simp)
    have hmove := speakers_outside (k := loop phases (s.bar.cycle + 1)) hst
    have hle := hi.speakers_le
    rw [hpc, speaks_loop] at hmove
    simp only [speaks, Nat.add_zero] at hmove
    simp only [lines, hpc]
    refine ⟨fun u => ?_, ?_⟩
    · rw [show (s.goto t (loop phases (s.bar.cycle + 1))).pc u = Function.update s.pc t _ u from rfl,
        reached_update (by rw [hpc, reached_loop]; rfl), ← h.reached]
      by_cases hut : u = t
      · subst hut
        simp [reachedBy, journal, Line.isReached]
      · simp [reachedBy, journal, Ne.symm hut]
    · obtain ⟨k, hk, hc⟩ := h.announced
      -- it is the one phase that is missing
      have hck : s.bar.cycle = k + 1 := by omega
      refine ⟨k + 1, ?_, ?_⟩
      · rw [List.range'_1_concat, ← hk, hck]
        simp [announcements, Line.isComplete, Nat.add_comm]
      · simp only [State.goto] at hmove ⊢
        omega

theorem At.le_reached {c : ℕ} {w : Waiter} {k : Pc} (h : At phases c w k) : c ≤ k.reached ∧ k.reached ≤ phases := by
  cases w <;> cases k <;> simp only [At, Pc.reached] at h ⊢ <;> omega

theorem At.phase {c : ℕ} {w : Waiter} {k : Pc} (h : At phases c w k) : c ≤ k.phase ∧ k.phase ≤ c + 1 := by
  cases w <;> cases k <;> simp only [At, Pc.phase] at h ⊢ <;> omega

/-- A phase is announced after all have reached it, and before the next one is
and before any thread has reached the one after that. -/
structure Ordered (es : List (τ × Line)) : Prop where
  reached : ∀ u p, Precedes (· = (u, .reached p)) (fun e => e.2 = .complete p) es
  announced : ∀ p, 1 ≤ p → Precedes (fun e => e.2 = .complete p) (fun e => e.2 = .complete (p + 1)) es
  ahead : ∀ p, 1 ≤ p → Precedes (fun e => e.2 = .complete p) (fun e => e.2 = .reached (p + 2)) es

theorem Ordered.step {es : List (τ × Line)} (ho : Ordered es) (h : Printed es s) (hi : Inv phases s)
    (hs : Step phases s a s') : Ordered (es ++ lines s a) := by
  obtain ⟨k, hk, hc⟩ := h.announced
  have hle := hi.speakers_le
  have hdone : ∀ {p}, 1 ≤ p → p ≤ k → ∃ e ∈ es, e.2 = .complete p := fun hp hpk => by
    rw [← mem_announcements, hk, List.mem_range'_1]
    omega
  cases hs with
  | @reach t p hpc =>
    obtain ⟨-, ht, -⟩ := hi.at_outside hpc (by simp)
    simp only [lines, hpc]
    refine ⟨fun u q => (ho.reached u q).concat fun he => (by cases he),
      fun q hq => (ho.announced q hq).concat fun he => (by cases he), fun q hq => (ho.ahead q hq).concat fun he => ?_⟩
    cases he
    exact hdone hq (by omega)
  | @announce t p hpc =>
    obtain ⟨hst, ht, -⟩ := hi.at_outside hpc (by simp)
    have hmove := speakers_outside (k := loop phases (p + 1)) hst
    rw [hpc, speaks_loop] at hmove
    simp only [speaks, Nat.add_zero] at hmove
    simp only [lines, hpc]
    refine ⟨fun u q => (ho.reached u q).concat fun he => ?_, fun q hq => (ho.announced q hq).concat fun he => ?_,
      fun q hq => (ho.ahead q hq).concat fun he => (by cases he)⟩
    · cases he
      refine ⟨_, ?_, rfl⟩
      have hu := (hi.at_ u).le_reached
      rw [← mem_reachedBy, h.reached, List.mem_range'_1]
      omega
    · cases he
      exact hdone hq (by omega)
  | arrive =>
    rw [lines, List.append_nil]
    exact ho
  | leave hpc =>
    simp only [lines, hpc, List.append_nil]
    exact ho

variable [Nonempty τ]

theorem inv (h : (workers τ phases).Reach s) : Inv phases s := by
  refine h.inv (I := Inv phases) ⟨fun _ => at_loop (Nat.zero_le _), ?_⟩ fun _ _ ha hi => (step_of_next ha).inv hi
  have hzero : (workers τ phases).start.speakers = 0 := total_eq_zero.mpr fun _ => speaks_loop 1
  rw [hzero]
  exact Nat.zero_le 1

variable {as : List (Act τ)}

theorem printed (hr : (workers τ phases).run (workers τ phases).start as = some s) :
    Printed ((workers τ phases).trace lines (workers τ phases).start as) s ∧
      Ordered ((workers τ phases).trace lines (workers τ phases).start as) := by
  refine System.trace_inv (I := fun es s => Printed es s ∧ Ordered es) hr (System.along_true _ _) ⟨⟨fun _ => ?_, 0, rfl, ?_⟩,
    fun _ _ => precedes_nil, fun _ _ => precedes_nil, fun _ _ => precedes_nil⟩ ?_
  · rw [show (workers τ phases).start.pc _ = loop phases 1 from rfl, reached_loop]
    rfl
  · rw [Nat.zero_add]
    exact total_eq_zero.mpr fun _ => speaks_loop 1
  · rintro es s a s' hp - ha ⟨hes, ho⟩
    have hi := inv hp
    exact ⟨hes.step hi (step_of_next ha), ho.step hes hi (step_of_next ha)⟩

/-- If no thread can take a step all have finished. -/
theorem done_of_quiet (h : (workers τ phases).Reach s) (hq : (workers τ phases).Quiet (fun _ => True) s) (t : τ) :
    s.pc t = .done (phases + 1) := by
  have hi := inv h
  have hstep : ∀ t, (s.bar.status t = .blocked) ∨ s.pc t = .done (s.bar.cycle + 1) ∧ s.bar.cycle = phases := fun t => by
    have ht := hi.at_ t
    have hq₁ : next phases s (.step t) = none := hq (.step t) trivial
    have hq₂ : next phases s (.wait t t) = none := hq (.wait t t) trivial
    cases hpc : s.pc t with
    | reach p | announce p => simp [next, hpc] at hq₁
    | wait p =>
      have hsome := Barrier.arrive_isSome (hi.at_outside hpc (by simp)).1 t
      simp only [next, hpc, Option.map_eq_none_iff] at hq₂
      rw [hq₂] at hsome
      cases hsome
    | waiting p =>
      rw [hpc] at ht
      cases hst : s.bar.status t with
      | outside => rw [hst] at ht; exact ht.elim
      | blocked => exact .inl rfl
      | released serial =>
        have hsome := Barrier.leave_isSome hst
        simp only [next, hpc, Option.map_eq_none_iff] at hq₁
        rw [hq₁] at hsome
        cases hsome
    | done p =>
      obtain ⟨-, rfl, hphases⟩ := hi.at_outside hpc (by simp)
      exact .inr ⟨rfl, hphases⟩
  -- the barrier is not full, so that a thread is done, and nobody is blocked
  obtain ⟨u, hu⟩ := s.bar.not_full
  have hcycle := ((hstep u).resolve_left hu).2
  rcases hstep t with hb | ⟨hd, -⟩
  · have ht := hi.at_ t
    rw [hb] at ht
    have := ht.blocked.2
    omega
  · rw [hd, hcycle]

/-- The phases stay aligned. -/
theorem phases_aligned (hr : (workers τ phases).run (workers τ phases).start as = some s) :
    (∃ k, k ≤ phases ∧ announcements ((workers τ phases).trace lines (workers τ phases).start as) = List.range' 1 k) ∧
    (∀ t, ∃ k, k ≤ phases ∧ reachedBy t ((workers τ phases).trace lines (workers τ phases).start as) = List.range' 1 k) ∧
    Ordered ((workers τ phases).trace lines (workers τ phases).start as) ∧
    (∀ t u, (s.pc t).phase ≤ (s.pc u).phase + 1) ∧
    ((workers τ phases).Quiet (fun _ => True) s → (∀ t, s.pc t = .done (phases + 1)) ∧
      announcements ((workers τ phases).trace lines (workers τ phases).start as) = List.range' 1 phases ∧
      ∀ t, reachedBy t ((workers τ phases).trace lines (workers τ phases).start as) = List.range' 1 phases) := by
  have hreach := System.reach_of_run hr
  have hi := inv hreach
  obtain ⟨hprinted, hordered⟩ := printed hr
  obtain ⟨k, hk, hc⟩ := hprinted.announced
  obtain ⟨u⟩ := ‹Nonempty τ›
  have hu := (hi.at_ u).le_reached
  refine ⟨⟨k, by omega, hk⟩, fun t => ⟨_, (hi.at_ t).le_reached.2, hprinted.reached t⟩, hordered, fun t u => ?_,
    fun hq => ?_⟩
  · have ht := (hi.at_ t).phase
    have hu := (hi.at_ u).phase
    omega
  · have hdone := done_of_quiet hreach hq
    refine ⟨hdone, ?_, fun t => ?_⟩
    · have hzero : s.speakers = 0 := total_eq_zero.mpr fun t => by
        rw [hdone, (hi.at_outside (hdone t) (by simp)).1]
        rfl
      obtain ⟨-, -, hcycle⟩ := hi.at_outside (hdone u) (by simp)
      rw [hk]
      congr 1
      omega
    · rw [hprinted.reached, hdone]
      rfl

/-- Two threads and two phases. In the first, `false` is the last to arrive and
`true` announces it, after `false` has reached the second. -/
def overtaking : List (Act Bool) :=
  [.step true, .wait true true, .step false, .wait false true, .step false, .step false, .step true, .step true,
    .wait false false, .step true, .wait true false, .step true, .step false, .step false]

theorem phases_aligned_overtaking : ∃ s, (workers Bool 2).run (workers Bool 2).start overtaking = some s ∧
    (∀ t, s.pc t = .done 3) ∧
    announcements ((workers Bool 2).trace lines (workers Bool 2).start overtaking) = [1, 2] := by
  have hr : ((workers Bool 2).run (workers Bool 2).start overtaking).any (fun s =>
      decide (∀ t, next 2 s (.step t) = none ∧ ∀ u, next 2 s (.wait t u) = none)) = true := by
    decide
  obtain ⟨s, hs, hp⟩ := System.exists_of_run hr
  have hq := of_decide_eq_true hp
  obtain ⟨-, -, -, -, hquiet⟩ := phases_aligned hs
  obtain ⟨hdone, hannounced, -⟩ := hquiet fun a _ => by
    cases a with
    | step t => exact (hq t).1
    | wait t u => exact (hq t).2 u
  exact ⟨s, hs, hdone, hannounced⟩

end TKH.BarrierBasic
