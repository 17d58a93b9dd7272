import Mathlib.Data.Fintype.BigOperators
import ThreadingKnowHows.FairRWLock.Model
import ThreadingKnowHows.Framework.Trace

/-!
# Bounded overtaking

`writer_pending_` counts the writers that have announced themselves and not
withdrawn. While there is one no reader passes the gate, so that a reader gets
the lock once more at most: if it had passed the gate before.
-/

namespace TKH.FairRWLock

variable {R W : Type} [DecidableEq R] [DecidableEq W] [Fintype W] {s s' : State R W} {t : Thread R W}

namespace WriterPc

/-- The writer is between its `fetch_add` and its `fetch_sub`. -/
def announced : WriterPc → Bool
  | lock | inside => true
  | _ => false

/-- The writer holds the mutex. -/
def holds : WriterPc → Bool
  | inside | unlock => true
  | _ => false

end WriterPc

/-- How many writers are between their `fetch_add` and their `fetch_sub`. -/
def announced (s : State R W) : ℕ := total (fun k => (WriterPc.announced k).toNat) s.writer

structure Inv (s : State R W) : Prop where
  shared : ∀ r, .reader r ∈ s.sm.shared ↔ s.reader r = .inside
  exclusive : ∀ w, s.sm.exclusive = some (.writer w) ↔ (s.writer w).holds = true
  pending : s.writerPending = announced s

omit [DecidableEq R] in
theorem announced_goW {w : W} {k : WriterPc} :
    (announced (s.goW w k) : ℤ) = announced s + (k.announced.toNat : ℤ) - ((s.writer w).announced.toNat : ℤ) := by
  have := total_update (fun k => (WriterPc.announced k).toNat) s.writer w k
  simp only [announced, State.goW]
  omega

omit [DecidableEq W] in
/-- A reader that neither gets nor gives back the mutex. -/
theorem Inv.goR (hi : Inv s) {r : R} {k : ReaderPc} (hr : s.reader r ≠ .inside) (hk : k ≠ .inside) :
    Inv (s.goR r k) where
  shared r' := by
    by_cases hrr : r' = r
    · subst hrr
      simpa [State.goR, hk] using fun hm => hr ((hi.shared r').mp hm)
    · simpa [State.goR, hrr] using hi.shared r'
  exclusive := hi.exclusive
  pending := hi.pending

theorem Inv.acquire (hi : Inv s) {r : R} {m : SharedMutex (Thread R W)} (hm : s.sm.lockShared (.reader r) = some m) :
    Inv { s.goR r .inside with sm := m } := by
  obtain ⟨hfree, hshared, hexclusive⟩ := SharedMutex.lockShared_iff.mp hm
  refine ⟨fun r' => ?_, fun w => ?_, hi.pending⟩
  · by_cases hrr : r' = r
    · subst hrr
      simp [State.goR, hshared]
    · simpa [State.goR, hshared, hrr] using hi.shared r'
  · dsimp only
    rw [hexclusive, ← hfree]
    exact hi.exclusive w

theorem Inv.release (hi : Inv s) {r : R} :
    Inv { s.goR r .outside with sm := s.sm.unlockShared (.reader r) } where
  shared r' := by
    by_cases hrr : r' = r
    · subst hrr
      simp [State.goR, SharedMutex.unlockShared]
    · simpa [State.goR, SharedMutex.unlockShared, hrr] using hi.shared r'
  exclusive := hi.exclusive
  pending := hi.pending

omit [DecidableEq R] in
/-- A writer that neither gets nor gives back the mutex. -/
theorem Inv.goW (hi : Inv s) {w : W} {k : WriterPc} {n : ℤ} (hk : k.holds = (s.writer w).holds)
    (hn : n = s.writerPending + (k.announced.toNat : ℤ) - ((s.writer w).announced.toNat : ℤ)) :
    Inv { s.goW w k with writerPending := n } where
  shared := hi.shared
  exclusive w' := by
    by_cases hww : w' = w
    · subst hww
      simpa [State.goW, hk] using hi.exclusive w'
    · simpa [State.goW, hww] using hi.exclusive w'
  pending := hn.trans (by rw [hi.pending]; exact announced_goW.symm)

theorem Inv.lock (hi : Inv s) {w : W} {m : SharedMutex (Thread R W)} (hw : s.writer w = .lock)
    (hm : s.sm.lock (.writer w) = some m) : Inv { s.goW w .inside with sm := m } := by
  obtain ⟨hfree, hempty, hshared, hexclusive⟩ := SharedMutex.lock_iff.mp hm
  refine ⟨fun r => ?_, fun w' => ?_, ?_⟩
  · dsimp only
    rw [hshared, ← hempty]
    exact hi.shared r
  · by_cases hww : w' = w
    · subst hww
      simp [State.goW, hexclusive, WriterPc.holds]
    · have hnot := (hi.exclusive w').not.mp (by rw [hfree]; simp)
      simpa [State.goW, hexclusive, hww, Ne.symm hww] using hnot
  · refine hi.pending.trans ?_
    have := announced_goW (s := s) (w := w) (k := .inside)
    rw [hw] at this
    simp only [WriterPc.announced, add_sub_cancel_right] at this
    exact this.symm

omit [DecidableEq R] in
theorem Inv.unlock (hi : Inv s) {w : W} (hw : s.writer w = .unlock) :
    Inv { s.goW w .outside with sm := s.sm.unlock } := by
  have hheld : s.sm.exclusive = some (.writer w) := (hi.exclusive w).mpr (by rw [hw]; rfl)
  refine ⟨hi.shared, fun w' => ?_, ?_⟩
  · by_cases hww : w' = w
    · subst hww
      simp [State.goW, SharedMutex.unlock, WriterPc.holds]
    · have hnot := (hi.exclusive w').not.mp (by rw [hheld]; simpa using Ne.symm hww)
      simpa [State.goW, SharedMutex.unlock, hww] using hnot
  · refine hi.pending.trans ?_
    have := announced_goW (s := s) (w := w) (k := .outside)
    rw [hw] at this
    simp only [WriterPc.announced, add_sub_cancel_right] at this
    exact this.symm

theorem Inv.step (hi : Inv s) (h : Step s t s') : Inv s' := by
  cases h with
  | call hr => exact hi.goR (by rw [hr]; simp) (by simp)
  | yield => exact hi
  | pass hr => exact hi.goR (by rw [hr]; simp) (by simp)
  | acquire _ hm => exact hi.acquire hm
  | release => exact hi.release
  | announce hw => exact hi.goW (by rw [hw]; rfl) (by rw [hw]; simp [WriterPc.announced])
  | lock hw hm => exact hi.lock hw hm
  | withdraw hw => exact hi.goW (by rw [hw]; rfl) (by rw [hw]; simp [WriterPc.announced])
  | unlock hw => exact hi.unlock hw

theorem inv (h : (system R W).Reach s) : Inv s := by
  refine h.inv (I := Inv) ⟨fun r => ?_, fun w => ?_, ?_⟩ fun _ _ ha hi => hi.step (step_of_next ha)
  · simp [system, SharedMutex.free]
  · simp [system, SharedMutex.free, WriterPc.holds]
  · simp [system, announced, total, WriterPc.announced]

/-- A writer that holds the mutex excludes all others. -/
theorem excludes (h : (system R W).Reach s) {w : W} (hw : (s.writer w).holds = true) :
    (∀ r, s.reader r ≠ .inside) ∧ ∀ w', (s.writer w').holds = true → w' = w := by
  have hi := inv h
  have hheld := (hi.exclusive w).mpr hw
  refine ⟨fun r hr => ?_, fun w' hw' => ?_⟩
  · have hmem := (hi.shared r).mpr hr
    rw [s.sm.excludes (by rw [hheld]; simp)] at hmem
    simp at hmem
  · have := hheld.symm.trans ((hi.exclusive w').mpr hw')
    simpa using this.symm

theorem pending_le (h : (system R W).Reach s) : s.writerPending ≤ Fintype.card W := by
  have hle : announced s ≤ total (fun _ : WriterPc => 1) s.writer := total_le fun w => by
    cases (s.writer w).announced <;> simp
  have hcard : total (fun _ : WriterPc => 1) s.writer = Fintype.card W := by simp [total]
  rw [(inv h).pending]
  omega

theorem pending_pos (h : (system R W).Reach s) {w : W} (hw : (s.writer w).announced = true) :
    0 < s.writerPending := by
  rw [(inv h).pending]
  have hpos : announced s ≠ 0 := fun hz => by
    have := total_eq_zero.mp hz w
    rw [hw] at this; cases this
  omega

/-! ## While a writer is announced -/

/-- The step is not the `fetch_sub` of `w`. -/
def Keeps (w : W) (s : State R W) (t : Thread R W) : Prop := t = .writer w → s.writer w ≠ .inside

instance (w : W) (s : State R W) (t : Thread R W) : Decidable (Keeps w s t) :=
  inferInstanceAs (Decidable (t = .writer w → s.writer w ≠ .inside))

/-- The reader gets the mutex in this step. -/
def acquires (r : R) (s : State R W) (t : Thread R W) : List Unit :=
  if t = .reader r ∧ s.reader r = .lock then [()] else []

omit [Fintype W] in
theorem announced_step {w : W} (h : Step s t s') (hk : Keeps w s t) (hw : (s.writer w).announced = true) :
    (s'.writer w).announced = true := by
  cases h with
  | call | yield | pass | acquire | release => exact hw
  | @announce w' h' | @lock w' m h' | @withdraw w' h' | @unlock w' h' =>
    by_cases hww : w = w'
    · subst hww
      first
        | (simp [State.goW, WriterPc.announced]; done)
        | exact absurd h' (hk rfl)
        | (rw [h'] at hw; cases hw)
    · simpa [State.goW, hww] using hw

/-- Where a reader is that has not passed the gate. -/
def Behind (s : State R W) (r : R) : Prop := s.reader r = .outside ∨ s.reader r = .gate

omit [Fintype W] in
/-- While a writer is announced no reader passes the gate. -/
theorem behind_step {r : R} (h : Step s t s') (hpos : 0 < s.writerPending) (hr : Behind s r) : Behind s' r := by
  cases h with
  | yield | announce | lock | withdraw | unlock => exact hr
  | pass _ hle => exact absurd hpos hle.not_gt
  | @call r' h' =>
    by_cases hrr : r = r'
    · subst hrr
      exact .inr (by simp [State.goR])
    · simpa [Behind, State.goR, hrr] using hr
  | @acquire r' m h' | @release r' h' =>
    have hrr : r ≠ r' := by
      rintro rfl
      rcases hr with hr | hr <;> cases h'.symm.trans hr
    simpa [Behind, State.goR, hrr] using hr

omit [Fintype W] in
theorem acquires_eq_nil {r : R} (h : t ≠ .reader r ∨ s.reader r ≠ .lock) : acquires r s t = [] :=
  if_neg fun ⟨ht, hl⟩ => h.elim (fun hn => hn ht) fun hn => hn hl

omit [Fintype W] in
/-- A reader that gets the mutex comes back to the gate before it can get it again. -/
theorem acquires_step {r : R} (h : Step s t s') (hpos : 0 < s.writerPending) :
    (acquires r s t).length + (if s'.reader r = .lock then 1 else 0) ≤ if s.reader r = .lock then 1 else 0 := by
  cases h with
  | announce | lock | withdraw | unlock =>
    rw [acquires_eq_nil (.inl (by simp))]
    exact (Nat.zero_add _).le
  | @yield r' h' =>
    have hnot : Thread.reader r' ≠ (.reader r : Thread R W) ∨ s.reader r ≠ .lock := by
      by_cases hrr : r' = r
      · exact .inr (by rw [← hrr, h']; simp)
      · exact .inl (by simpa using hrr)
    rw [acquires_eq_nil hnot]
    exact (Nat.zero_add _).le
  | pass _ hle => exact absurd hpos hle.not_gt
  | @call r' h' | @acquire r' m h' | @release r' h' =>
    by_cases hrr : r = r'
    · subst hrr
      simp [acquires, State.goR, h']
    · simp [acquires, State.goR, hrr, Ne.symm hrr]

/-- What holds along a run in which `w` does not withdraw. -/
structure Waits (w : W) (s : State R W) : Prop where
  reach : (system R W).Reach s
  announced : (s.writer w).announced = true

omit [Fintype W] in
theorem waits_step {w : W} (hs : Waits w s) (hk : Keeps w s t) (ha : (system R W).next s t = some s') : Waits w s' where
  reach := hs.reach.step trivial ha
  announced := announced_step (step_of_next ha) hk hs.announced

/-- The lock excludes, counts its writers, and lets each reader overtake an
announced writer once at most. -/
theorem fair_bounded_overtaking (h : (system R W).Reach s) :
    (∀ w, s.writer w = .inside → (∀ r, s.reader r ≠ .inside) ∧ ∀ w', s.writer w' = .inside → w' = w) ∧
    s.writerPending = (Finset.univ.filter fun w => (s.writer w).announced).card ∧ 0 ≤ s.writerPending ∧
    ∀ w, (s.writer w).announced = true → ∀ {ts s'}, (system R W).run s ts = some s' →
      (system R W).Along (Keeps w) s ts →
        (∀ r, s.reader r = .outside → s'.reader r = .outside ∨ s'.reader r = .gate) ∧
        ∀ r, ((system R W).trace (acquires r) s ts).length ≤ 1 := by
  have hi := inv h
  have hcard : announced s = (Finset.univ.filter fun w => (s.writer w).announced).card := by
    rw [Finset.card_filter]
    refine Finset.sum_congr rfl fun w _ => ?_
    dsimp only
    cases (s.writer w).announced <;> rfl
  refine ⟨fun w hw => ?_, by rw [hi.pending, hcard], by rw [hi.pending]; omega,
    fun w hw ts s' hr hk => ⟨fun r hout => ?_, fun r => ?_⟩⟩
  · obtain ⟨hreaders, hwriters⟩ := excludes h (w := w) (by rw [hw]; rfl)
    exact ⟨hreaders, fun w' hw' => hwriters w' (by rw [hw']; rfl)⟩
  · have hend : Waits w s' ∧ Behind s' r :=
      (System.path_of_along hr hk).inv (I := fun s => Waits w s ∧ Behind s r) ⟨⟨h, hw⟩, .inl hout⟩
        fun _ hk ha ⟨hs, hb⟩ =>
          ⟨waits_step hs hk ha, behind_step (step_of_next ha) (pending_pos hs.reach hs.announced) hb⟩
    exact hend.2
  · have hend : Waits w s' ∧
        ((system R W).trace (acquires r) s ts).length + (if s'.reader r = .lock then 1 else 0) ≤ 1 :=
      System.trace_inv (I := fun l s => Waits w s ∧ l.length + (if s.reader r = .lock then 1 else 0) ≤ 1) hr hk
        ⟨⟨h, hw⟩, by split <;> simp⟩ fun _ hk ha ⟨hs, hle⟩ => by
          have := acquires_step (r := r) (step_of_next ha) (pending_pos hs.reach hs.announced)
          refine ⟨waits_step hs hk ha, ?_⟩
          rw [List.length_append]
          omega
    exact (Nat.le_add_right _ _).trans hend.2

/-- The reader `true` has passed the gate when the writer comes. -/
def beforeWriter : List (Thread Bool Unit) := [.reader true, .reader true, .writer ()]

/-- It gets the lock, gives it back and comes again; the other reader comes too. -/
def behindWriter : List (Thread Bool Unit) := List.replicate 5 (.reader true) ++ List.replicate 2 (.reader false)

theorem fair_bounded_overtaking_late :
    ∃ s s', (system Bool Unit).run (system Bool Unit).start beforeWriter = some s ∧
      (system Bool Unit).run s behindWriter = some s' ∧
      (s'.reader false = .outside ∨ s'.reader false = .gate) ∧
      ((system Bool Unit).trace (acquires true) s behindWriter).length ≤ 1 := by
  have hr : ((system Bool Unit).run (system Bool Unit).start beforeWriter).any (fun s =>
      (s.writer ()).announced = true ∧ s.reader false = .outside ∧
        ((system Bool Unit).run s behindWriter).isSome = true ∧
        (system Bool Unit).Along (Keeps ()) s behindWriter) = true := by decide +kernel
  obtain ⟨s, hs, hp⟩ := System.exists_of_run hr
  obtain ⟨hw, hout, hsome, hk⟩ := of_decide_eq_true hp
  obtain ⟨s', hs'⟩ := Option.isSome_iff_exists.mp hsome
  obtain ⟨-, -, -, hwait⟩ := fair_bounded_overtaking (System.reach_of_run hs)
  obtain ⟨hbehind, honce⟩ := hwait () hw hs' hk
  exact ⟨s, s', hs, hs', hbehind false hout, honce true⟩

end TKH.FairRWLock
