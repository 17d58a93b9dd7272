import Mathlib.Data.Fintype.BigOperators
import Mathlib.Data.Nat.Cast.Basic
import ThreadingKnowHows.Framework.Amortised
import ThreadingKnowHows.RWLock.Model

/-!
# What the readers and writers print

Every run ends, and in its output, in whichever order the threads come, a writer
prints how many times it has been written so far, itself included, and a reader
the same number (`output_correct`).
-/

namespace TKH.RWLock

open ReadWrite (Mode entries)

variable {R W : Type} [DecidableEq R] [DecidableEq W] {reads writes : ℕ}

abbrev State (R W : Type) := ReadWrite.State (R ⊕ W) ℕ Pc Line

def mode : Pc → Mode
  | .read _ | .rdunlock _ => .shared
  | .increment _ | .print _ | .wrunlock _ => .exclusive
  | _ => .out

theorem mode_readerLoop (n i : ℕ) : mode (readerLoop n i) = .out := by
  unfold readerLoop
  split <;> rfl

theorem mode_writerLoop (n i : ℕ) : mode (writerLoop n i) = .out := by
  unfold writerLoop
  split <;> rfl

omit [DecidableEq R] [DecidableEq W] in
theorem discipline : ReadWrite.Discipline (rwlockBasic reads writes R W) mode where
  entry t := by
    cases t
    · exact mode_readerLoop _ _
    · exact mode_writerLoop _ _
  code t l := by
    cases l with
    | rdlock i | wrlock i => exact ⟨rfl, rfl⟩
    | read i | print i => exact ⟨nofun, fun _ => rfl⟩
    | rdunlock i => exact ⟨rfl, mode_readerLoop _ _⟩
    | increment i => exact ⟨rfl, fun _ => rfl⟩
    | wrunlock i => exact ⟨rfl, mode_writerLoop _ _⟩
    | done => exact rfl

/-! ## The output -/

def Line.isWrite : Line → Bool
  | .read _ => false
  | .wrote _ => true

def Line.value : Line → ℕ
  | .read v | .wrote v => v

/-- How many lines say that `shared` was written. -/
def written {τ : Type} (log : List (τ × Line)) : ℕ := log.countP fun x => x.2.isWrite

/-- Each line has the number of the writes up to it. -/
def Correct {τ : Type} (log : List (τ × Line)) : Prop :=
  ∀ h₁ x h₂, log = h₁ ++ x :: h₂ → x.2.value = written (h₁ ++ [x])

theorem Correct.concat {τ : Type} {log : List (τ × Line)} (h : Correct log) {x : τ × Line}
    (hx : x.2.value = written (log ++ [x])) : Correct (log ++ [x]) := by
  intro h₁ y h₂ he
  rcases List.append_eq_append_iff.mp he with ⟨zs, rfl, hz⟩ | ⟨zs, rfl, hz⟩
  · cases zs with
    | nil =>
      cases hz
      simpa using hx
    | cons z zs =>
      have := congrArg List.length hz
      simp at this
  · cases zs with
    | nil =>
      cases hz
      simpa using hx
    | cons z zs =>
      cases hz
      exact h h₁ y zs rfl

/-! ## What is left -/

/-- The writes that a thread has made and not printed. -/
def Pc.unprinted : Pc → ℕ
  | print _ => 1
  | _ => 0

/-- The lines that a thread has still to print. -/
def Pc.lines (reads writes : ℕ) : Pc → ℕ
  | rdlock i | read i => reads - (i + 1) + 1
  | rdunlock i => reads - (i + 1)
  | wrlock i | increment i | print i => writes - (i + 1) + 1
  | wrunlock i => writes - (i + 1)
  | done => 0

/-- The writes that a thread has still to make. -/
def Pc.toWrite (writes : ℕ) : Pc → ℕ
  | wrlock i | increment i => writes - (i + 1) + 1
  | print i | wrunlock i => writes - (i + 1)
  | _ => 0

/-- The steps that a thread has left. -/
def Pc.rank (reads writes : ℕ) : Pc → ℕ
  | rdlock i => 3 * (reads - (i + 1)) + 3
  | read i => 3 * (reads - (i + 1)) + 2
  | rdunlock i => 3 * (reads - (i + 1)) + 1
  | wrlock i => 4 * (writes - (i + 1)) + 4
  | increment i => 4 * (writes - (i + 1)) + 3
  | print i => 4 * (writes - (i + 1)) + 2
  | wrunlock i => 4 * (writes - (i + 1)) + 1
  | done => 0

/-- `k` has as much left as `l`, but for a step that has been made. -/
structure Follows (reads writes : ℕ) (l k : Pc) : Prop where
  rank : k.rank reads writes + 1 = l.rank reads writes
  lines : k.lines reads writes = l.lines reads writes
  toWrite : k.toWrite writes = l.toWrite writes
  unprinted : k.unprinted = l.unprinted

theorem left_readerLoop (reads writes i : ℕ) : (readerLoop reads i).rank reads writes = 3 * (reads - i) ∧
    (readerLoop reads i).lines reads writes = reads - i ∧ (readerLoop reads i).toWrite writes = 0 ∧
    (readerLoop reads i).unprinted = 0 := by
  unfold readerLoop
  split <;> refine ⟨?_, ?_, rfl, rfl⟩ <;> simp only [Pc.rank, Pc.lines] <;> omega

theorem left_writerLoop (reads writes i : ℕ) : (writerLoop writes i).rank reads writes = 4 * (writes - i) ∧
    (writerLoop writes i).lines reads writes = writes - i ∧ (writerLoop writes i).toWrite writes = writes - i ∧
    (writerLoop writes i).unprinted = 0 := by
  unfold writerLoop
  split <;> refine ⟨?_, ?_, ?_, rfl⟩ <;> simp only [Pc.rank, Pc.lines, Pc.toWrite] <;> omega

variable {s s' : State R W} {a : ReadWrite.Act (R ⊕ W) Pc}

/-- The steps of the program. -/
inductive Move (reads writes : ℕ) (s : State R W) (t : R ⊕ W) : State R W → Prop
  | follow {k : Pc} {m : SharedMutex (R ⊕ W)} : Follows reads writes (s.pc t) k →
    Move reads writes s t { s.goto t k with m := m }
  | read {i : ℕ} : s.pc t = .read i →
    Move reads writes s t { s.goto t (.rdunlock i) with log := s.log ++ [(t, .read s.data)] }
  | increment {i : ℕ} : s.pc t = .increment i → Move reads writes s t { s.goto t (.print i) with data := s.data + 1 }
  | print {i : ℕ} : s.pc t = .print i →
    Move reads writes s t { s.goto t (.wrunlock i) with log := s.log ++ [(t, .wrote s.data)] }

theorem move_of_next (h : (rwlockBasic reads writes R W).system.next s a = some s') :
    ∃ t, a = .exec t ∧ Move reads writes s t s' := by
  have hcode : ∀ t l, (rwlockBasic reads writes R W).code t l = code reads writes l := fun _ _ => rfl
  cases ReadWrite.Program.next_iff.mp h with
  | @lock t k m hc =>
    refine ⟨t, rfl, .follow ?_⟩
    rw [hcode] at hc
    cases hl : s.pc t <;> rw [hl] at hc <;> cases hc
    exact ⟨rfl, rfl, rfl, rfl⟩
  | @lockShared t k m hc =>
    refine ⟨t, rfl, .follow ?_⟩
    rw [hcode] at hc
    cases hl : s.pc t <;> rw [hl] at hc <;> cases hc
    exact ⟨rfl, rfl, rfl, rfl⟩
  | @unlock t k hc =>
    refine ⟨t, rfl, .follow ?_⟩
    rw [hcode] at hc
    cases hl : s.pc t <;> rw [hl] at hc <;> cases hc
    rename_i i
    obtain ⟨h₁, h₂, h₃, h₄⟩ := left_writerLoop reads writes (i + 1)
    exact ⟨by rw [h₁]; rfl, h₂, h₃, h₄⟩
  | @unlockShared t k hc =>
    refine ⟨t, rfl, .follow ?_⟩
    rw [hcode] at hc
    cases hl : s.pc t <;> rw [hl] at hc <;> cases hc
    rename_i i
    obtain ⟨h₁, h₂, h₃, h₄⟩ := left_readerLoop reads writes (i + 1)
    exact ⟨by rw [h₁]; rfl, h₂, h₃, h₄⟩
  | @read t f hc =>
    refine ⟨t, rfl, ?_⟩
    rw [hcode] at hc
    cases hl : s.pc t <;> rw [hl] at hc <;> cases hc
    · exact .read hl
    · exact .print hl
  | @write t f hc =>
    refine ⟨t, rfl, ?_⟩
    rw [hcode] at hc
    cases hl : s.pc t <;> rw [hl] at hc <;> cases hc
    rw [show s.log ++ entries t none = s.log from List.append_nil _]
    exact .increment hl
  | @ext t ok k hc =>
    rw [hcode] at hc
    cases hl : s.pc t <;> rw [hl] at hc <;> cases hc

/-! ## Every run -/

variable [Fintype R] [Fintype W]

structure Inv (reads writes : ℕ) (s : State R W) : Prop where
  value : s.data = written s.log + total Pc.unprinted s.pc
  correct : Correct s.log
  toWrite : s.data + total (Pc.toWrite writes) s.pc = writes * Fintype.card W
  lines : ∀ t, (s.log.filter fun x => x.1 = t).length + (s.pc t).lines reads writes =
    Sum.elim (fun _ => reads) (fun _ => writes) t

theorem Inv.start : Inv reads writes (rwlockBasic reads writes R W).system.start where
  value := by
    have h : total Pc.unprinted (rwlockBasic reads writes R W).entry = 0 := total_eq_zero.mpr fun t => by
      cases t
      · exact (left_readerLoop reads writes 0).2.2.2
      · exact (left_writerLoop reads writes 0).2.2.2
    exact h.symm.trans (Nat.zero_add _).symm
  correct h₁ x h₂ he := by
    have := congrArg List.length he
    simp [ReadWrite.Program.system] at this
  toWrite := by
    have hr : ∀ r : R, ((rwlockBasic reads writes R W).entry (.inl r)).toWrite writes = 0 := fun _ =>
      (left_readerLoop reads writes 0).2.2.1
    have hw : ∀ w : W, ((rwlockBasic reads writes R W).entry (.inr w)).toWrite writes = writes := fun _ =>
      (left_writerLoop reads writes 0).2.2.1
    have hinit : (rwlockBasic reads writes R W).init = 0 := rfl
    simp [ReadWrite.Program.system, total, hr, hw, hinit, Nat.mul_comm]
  lines t := by
    cases t
    · exact (Nat.zero_add _).trans (left_readerLoop reads writes 0).2.1
    · exact (Nat.zero_add _).trans (left_writerLoop reads writes 0).2.1

omit [DecidableEq R] [DecidableEq W] [Fintype R] [Fintype W] in
theorem written_concat (log : List ((R ⊕ W) × Line)) (t : R ⊕ W) (e : Line) :
    written (log ++ [(t, e)]) = written log + if e.isWrite then 1 else 0 := by
  simp [written]

omit [Fintype R] [Fintype W] in
/-- A line of `t`. -/
theorem lines_concat {quota : R ⊕ W → ℕ}
    (h : ∀ t, (s.log.filter fun x => x.1 = t).length + (s.pc t).lines reads writes = quota t)
    {t : R ⊕ W} {k : Pc} {e : Line} (hk : k.lines reads writes + 1 = (s.pc t).lines reads writes) (u : R ⊕ W) :
    ((s.log ++ [(t, e)]).filter fun x => x.1 = u).length + (Function.update s.pc t k u).lines reads writes = quota u := by
  have := h u
  rw [List.filter_append, List.length_append]
  by_cases hu : u = t
  · subst hu
    simp only [Function.update_self, decide_true, List.filter_cons_of_pos, List.filter_nil, List.length_singleton]
    omega
  · simpa [Function.update_of_ne hu, Ne.symm hu] using this

omit [Fintype R] [Fintype W] in
theorem unprinted_eq_zero {k : Pc} (h : mode k ≠ .exclusive) : k.unprinted = 0 := by
  cases k <;> first | rfl | exact absurd rfl h

theorem Inv.step (h : Inv reads writes s) (ho : ReadWrite.Owned mode s) {t : R ⊕ W} (hm : Move reads writes s t s') :
    Inv reads writes s' := by
  have hunprinted := fun k => total_update Pc.unprinted s.pc t k
  have htoWrite := fun k => total_update (Pc.toWrite writes) s.pc t k
  have hvalue := h.value
  have hleft := h.toWrite
  cases hm with
  | @follow k m hf =>
    refine ⟨h.value.trans ?_, h.correct, h.toWrite.symm.trans ?_ |>.symm, fun u => ?_⟩
    · exact congrArg _ (total_update_eq hf.unprinted).symm
    · exact congrArg _ (total_update_eq hf.toWrite).symm
    · refine (congrArg _ ?_).trans (h.lines u)
      exact (Function.forall_update_iff s.pc fun u k => k.lines reads writes = (s.pc u).lines reads writes).mpr
        ⟨hf.lines, fun _ _ => rfl⟩ u
  | @read i hl =>
    -- no thread has the mutex exclusively
    have hzero : total Pc.unprinted s.pc = 0 := total_eq_zero.mpr fun u => unprinted_eq_zero fun hu => by
      have hne : t ≠ u := by rintro rfl; rw [hl] at hu; cases hu
      have := ho.alone hu hne
      rw [hl] at this
      cases this
    have h₁ := hunprinted (.rdunlock i)
    have h₂ := htoWrite (.rdunlock i)
    rw [hl] at h₁ h₂
    simp only [Pc.unprinted, Pc.toWrite, Nat.add_zero] at h₁ h₂
    refine ⟨?_, h.correct.concat ?_, ?_, lines_concat h.lines (by rw [hl]; rfl)⟩
    · simp only [ReadWrite.State.goto, written_concat, h₁, Line.isWrite, Bool.false_eq_true, if_false]
      omega
    · simp only [Line.value, written_concat, Line.isWrite, Bool.false_eq_true, if_false]
      omega
    · simp only [ReadWrite.State.goto, h₂]
      omega
  | @increment i hl =>
    have h₁ := hunprinted (.print i)
    have h₂ := htoWrite (.print i)
    rw [hl] at h₁ h₂
    simp only [Pc.unprinted, Pc.toWrite] at h₁ h₂
    refine ⟨?_, h.correct, ?_, fun u => ?_⟩
    · simp only [ReadWrite.State.goto]
      omega
    · simp only [ReadWrite.State.goto]
      omega
    · refine (congrArg _ ?_).trans (h.lines u)
      exact (Function.forall_update_iff s.pc fun u k => k.lines reads writes = (s.pc u).lines reads writes).mpr
        ⟨by rw [hl]; rfl, fun _ _ => rfl⟩ u
  | @print i hl =>
    have hone : total Pc.unprinted s.pc = 1 := by
      rw [total_eq_single (t := t) fun u hu => unprinted_eq_zero ?_, hl]
      · rfl
      · rw [ho.alone (by rw [hl]; rfl) hu]
        exact nofun
    have h₁ := hunprinted (.wrunlock i)
    have h₂ := htoWrite (.wrunlock i)
    rw [hl] at h₁ h₂
    simp only [Pc.unprinted, Pc.toWrite] at h₁ h₂
    refine ⟨?_, h.correct.concat ?_, ?_, lines_concat h.lines (by rw [hl]; rfl)⟩
    · simp only [ReadWrite.State.goto, written_concat, Line.isWrite, if_true]
      omega
    · simp only [Line.value, written_concat, Line.isWrite, if_true]
      omega
    · simp only [ReadWrite.State.goto]
      omega

theorem inv (hs : (rwlockBasic reads writes R W).system.Reach s) : Inv reads writes s := by
  refine hs.inv .start fun hr _ ha hi => ?_
  obtain ⟨t, -, hm⟩ := move_of_next ha
  exact hi.step (discipline.owned hr) hm

theorem rank_step (h : (rwlockBasic reads writes R W).system.next s a = some s') :
    total (Pc.rank reads writes) s'.pc + 1 = total (Pc.rank reads writes) s.pc := by
  obtain ⟨t, -, hm⟩ := move_of_next h
  have hmove : ∀ k, k.rank reads writes + 1 = (s.pc t).rank reads writes →
      total (Pc.rank reads writes) (Function.update s.pc t k) + 1 = total (Pc.rank reads writes) s.pc := fun k hk => by
    have := total_update (Pc.rank reads writes) s.pc t k
    omega
  cases hm with
  | follow hf => exact hmove _ hf.rank
  | read hl | increment hl | print hl => exact hmove _ (by rw [hl]; rfl)

/-- A run has at most three steps for each round of a reader and four for each
round of a writer. In each of its states `shared` is in the range of an `int` and the
output is correct; and if no step is possible, `shared` is the number of the writes,
and each thread has printed a line for each of its rounds. -/
theorem output_correct (hsmall : writes * Fintype.card W < 2 ^ 31) {as : List (ReadWrite.Act (R ⊕ W) Pc)} {s : State R W}
    (h : (rwlockBasic reads writes R W).system.run (rwlockBasic reads writes R W).system.start as = some s) :
    as.length ≤ 3 * reads * Fintype.card R + 4 * writes * Fintype.card W ∧ s.data < 2 ^ 31 ∧ Correct s.log ∧
      ((∀ a, (rwlockBasic reads writes R W).system.next s a = none) → s.data = writes * Fintype.card W ∧
        (∀ r, (s.log.filter fun x => x.1 = .inl r).length = reads) ∧
        ∀ w, (s.log.filter fun x => x.1 = .inr w).length = writes) := by
  have hs := System.reach_of_run h
  have hi := inv hs
  refine ⟨?_, by have := hi.toWrite; omega, hi.correct, fun hq => ?_⟩
  · have hle := System.length_add_le (f := fun s : State R W => total (Pc.rank reads writes) s.pc)
      (fun _ ha => Nat.lt_of_succ_le (rank_step ha).le) h
    have hstart : total (Pc.rank reads writes) (rwlockBasic reads writes R W).system.start.pc =
        3 * reads * Fintype.card R + 4 * writes * Fintype.card W := by
      have hr : ∀ r : R, ((rwlockBasic reads writes R W).entry (.inl r)).rank reads writes = 3 * reads := fun _ =>
        (left_readerLoop reads writes 0).1
      have hw : ∀ w : W, ((rwlockBasic reads writes R W).entry (.inr w)).rank reads writes = 4 * writes := fun _ =>
        (left_writerLoop reads writes 0).1
      simp [ReadWrite.Program.system, total, hr, hw, Nat.mul_comm]
    omega
  · have hdone : ∀ t, s.pc t = .done := fun t => by
      have hc : code reads writes (s.pc t) = .halt ∨ ∃ ok, code reads writes (s.pc t) = .ext ok :=
        (discipline.rests hs fun t => hq _).2 t
      cases hl : s.pc t <;> rw [hl] at hc <;> simp [code] at hc ⊢
    have hlines := fun t => hi.lines t
    simp only [hdone, Pc.lines, Nat.add_zero] at hlines
    have hzero : total (Pc.toWrite writes) s.pc = 0 := total_eq_zero.mpr fun t => by rw [hdone t]; rfl
    exact ⟨by have := hi.toWrite; omega, fun r => hlines (.inl r), fun w => hlines (.inr w)⟩

/-- A reader between the two writes of a writer. -/
theorem output_correct_one : ∃ s, (rwlockBasic 1 2 Unit Unit).system.run (rwlockBasic 1 2 Unit Unit).system.start
      (List.replicate 4 (.exec (.inr ())) ++ List.replicate 3 (.exec (.inl ())) ++ List.replicate 4 (.exec (.inr ()))) =
        some s ∧
    s.log = [(.inr (), .wrote 1), (.inl (), .read 1), (.inr (), .wrote 2)] ∧ Correct s.log := by
  have hr : ((rwlockBasic 1 2 Unit Unit).system.run (rwlockBasic 1 2 Unit Unit).system.start
      (List.replicate 4 (.exec (.inr ())) ++ List.replicate 3 (.exec (.inl ())) ++ List.replicate 4 (.exec (.inr ())))).any
      (fun s => s.log = [(.inr (), .wrote 1), (.inl (), .read 1), (.inr (), .wrote 2)]) = true := by
    decide +kernel
  obtain ⟨s, hs, hp⟩ := System.exists_of_run hr
  exact ⟨s, hs, of_decide_eq_true hp, (output_correct (by decide) hs).2.2.1⟩

end TKH.RWLock
