import Mathlib.Data.Fintype.Basic
import Mathlib.Data.Nat.Cast.Basic
import ThreadingKnowHows.Framework.Amortised
import ThreadingKnowHows.Framework.Shuffle
import ThreadingKnowHows.LatchBarrier.Model

/-!
# The output

In whichever order the workers and the threads come, the output is that of all
workers, then that of `main`, then that of all threads for each phase and after it
that of the completion function, and the lines of different workers or threads
may be shuffled (`Output`). Every run ends with such an output, and each of them is
possible (`output_iff`).
-/

namespace TKH.LatchBarrier

variable {W T : Type} {phases : ℕ}

/-- What is printed in the phase `p`. -/
def block (p : ℕ) (l : List (T × ℕ)) : List (Piece W T) := (l.map fun x => .phase x.1 p x.2) ++ [.complete]

/-- The first `n` phases, with the pieces in the order of `σ`. -/
def blocks (σ : ℕ → List (T × ℕ)) (n : ℕ) : List (Piece W T) :=
  (List.range n).flatMap fun i => block (i + 1) (σ (i + 1))

def Output [DecidableEq W] [DecidableEq T] (phases : ℕ) (out : List (Piece W T)) : Prop :=
  ∃ (l : List (W × ℕ)) (σ : ℕ → List (T × ℕ)), Shuffle readyInsertions l ∧
    (∀ p, 0 < p → p ≤ phases → Shuffle phaseInsertions (σ p)) ∧
    out = (l.map fun x => .ready x.1 x.2) ++ .allReady :: blocks σ phases

theorem blocks_succ (σ : ℕ → List (T × ℕ)) (n : ℕ) :
    (blocks σ (n + 1) : List (Piece W T)) = blocks σ n ++ block (n + 1) (σ (n + 1)) := by
  simp [blocks, List.range_succ]

/-- Only the phases up to `n` matter. -/
theorem blocks_congr {σ σ' : ℕ → List (T × ℕ)} {n : ℕ} (h : ∀ p ≤ n, σ p = σ' p) :
    (blocks σ n : List (Piece W T)) = blocks σ' n := by
  refine List.flatMap_congr fun i hi => ?_
  rw [h (i + 1) (List.mem_range.mp hi)]

/-! ## Where the threads are -/

/-- Where a thread may be in the phase `k`. -/
def At (phases k : ℕ) : ThreadPc → Prop
  | .idle => k = 1
  | .print p _ | .arrive p | .complete p => p = k ∧ k ≤ phases
  | .wait p => (p = k ∨ p + 1 = k) ∧ p ≤ phases
  | .done => k = phases + 1

/-- How many insertions a worker has made. -/
def WorkerPc.printed : WorkerPc → ℕ
  | print k => k
  | _ => readyInsertions

/-- How many insertions a thread has made in the phase `k`. -/
def printed (k : ℕ) : ThreadPc → ℕ
  | .print _ i => i
  | .arrive _ | .complete _ => phaseInsertions
  | .wait p => if p = k then phaseInsertions else 0
  | _ => 0

theorem printed_readied {k : ℕ} (hk : k ≤ readyInsertions) : (readied k).printed = k := by
  unfold readied
  split
  · rfl
  · exact Nat.le_antisymm (Nat.le_of_not_lt ‹_›) hk

theorem readied_ne_done (k : ℕ) : readied k ≠ .done := by
  unfold readied
  split <;> exact nofun

theorem printed_said (k p : ℕ) {i : ℕ} (hi : i ≤ phaseInsertions) : printed k (said p i) = i := by
  unfold said
  split
  · rfl
  · exact Nat.le_antisymm (Nat.le_of_not_lt ‹_›) hi

theorem at_said {k : ℕ} (i : ℕ) (hk : k ≤ phases) : At phases k (said k i) := by
  unfold said
  split <;> exact ⟨rfl, hk⟩

theorem said_ne (p i : ℕ) : (∀ q, said p i ≠ .complete q) ∧ ∀ q, said p i ≠ .wait q := by
  unfold said
  split <;> exact ⟨fun _ => nofun, fun _ => nofun⟩

theorem at_loop {k : ℕ} (hk : k ≤ phases + 1) : At phases k (loop phases k) := by
  unfold loop
  split
  · exact at_said 0 ‹_›
  · change k = phases + 1
    omega

theorem printed_loop (k p : ℕ) : printed k (loop phases p) = 0 := by
  unfold loop
  split
  · exact printed_said k p (Nat.zero_le _)
  · rfl

theorem loop_ne_complete (p q : ℕ) : loop phases p ≠ .complete q := by
  unfold loop
  split
  · exact (said_ne p 0).1 q
  · exact nofun

theorem loop_ne_wait (p q : ℕ) : loop phases p ≠ .wait q := by
  unfold loop
  split
  · exact (said_ne p 0).2 q
  · exact nofun

variable [DecidableEq W] [DecidableEq T] [Fintype W] [Fintype T]

/-- The threads that have arrived for the phase, and wait for its end. -/
def State.waiting (s : State W T) : Finset T := Finset.univ.filter fun t => s.thread t = .wait s.phase

/-- The workers have made the insertions `ws`, and the threads `cur` in the current
phase; `σ` says in which order the threads printed in the phases before. -/
structure Inv (phases : ℕ) (s : State W T) (ws : List (W × ℕ)) (σ : ℕ → List (T × ℕ)) (cur : List (T × ℕ)) : Prop where
  ready : ∀ w, journal w ws = List.range (s.worker w).printed
  latch : s.latch = total (fun pc => if pc = WorkerPc.done then 0 else 1) s.worker
  workers : s.main ≠ .wait → ∀ w, s.worker w = .done
  threads : s.main ≠ .joinThreads → s.main ≠ .returned → ∀ t, s.thread t = .idle
  returned : s.main = .returned → ∀ t, s.thread t = .done
  pos : 0 < s.phase
  at_ : ∀ t, At phases s.phase (s.thread t)
  before : ∀ p, 0 < p → p < s.phase → Shuffle phaseInsertions (σ p)
  prints : ∀ t, journal t cur = List.range (printed s.phase (s.thread t))
  arrived_lt : s.arrived < Fintype.card T
  /-- Either the threads that wait have arrived, or the last one has. -/
  arrived : ((∀ t p, s.thread t ≠ .complete p) ∧ s.arrived = s.waiting.card) ∨
    ∃ t, (∃ p, s.thread t = .complete p) ∧ (∀ u, u ≠ t → s.thread u = .wait s.phase) ∧ s.arrived = 0
  out : s.out = (ws.map fun x => .ready x.1 x.2) ++ (if s.main = .wait ∨ s.main = .allReady then [] else [.allReady]) ++
    (blocks σ (s.phase - 1) ++ cur.map fun x => .phase x.1 s.phase x.2)

theorem Inv.start [Nonempty T] : Inv phases (latchBarrier W T phases).start [] (fun _ => []) [] where
  ready _ := rfl
  latch := by simp [latchBarrier, total, readied_ne_done]
  workers h := absurd rfl h
  threads _ _ _ := rfl
  returned := nofun
  pos := Nat.one_pos
  at_ _ := rfl
  before p h₀ h₁ := by
    change p < 1 at h₁
    omega
  prints _ := rfl
  arrived_lt := Fintype.card_pos
  arrived := .inl ⟨fun _ _ => nofun, by simp [latchBarrier, State.waiting]⟩
  out := by simp [latchBarrier, blocks]

variable {s s' : State W T} {ws : List (W × ℕ)} {σ : ℕ → List (T × ℕ)} {cur : List (T × ℕ)} {a : Act W T}

theorem Inv.started (h : Inv phases s ws σ cur) {t : T} (ht : s.thread t ≠ .idle) (ht' : s.thread t ≠ .done) :
    s.main = .joinThreads := by
  by_contra hm
  exact ht (h.threads hm (fun hr => ht' (h.returned hr t)) t)

/-- Before the threads are created none has printed. -/
theorem Inv.early [Nonempty T] (h : Inv phases s ws σ cur) (h₁ : s.main ≠ .joinThreads) (h₂ : s.main ≠ .returned) :
    cur = [] ∧ s.phase = 1 := by
  refine ⟨eq_nil_of_journal fun t => ?_, ?_⟩
  · rw [h.prints, h.threads h₁ h₂ t]
    rfl
  · have ht := h.at_ (Classical.arbitrary T)
    rw [h.threads h₁ h₂] at ht
    exact ht

/-- While a thread is elsewhere, those that wait are the ones that have arrived. -/
theorem Inv.counting (h : Inv phases s ws σ cur) {t : T} (ht : ∀ p, s.thread t ≠ .complete p)
    (hw : s.thread t ≠ .wait s.phase) :
    (∀ t p, s.thread t ≠ .complete p) ∧ s.arrived = s.waiting.card := by
  refine h.arrived.resolve_right ?_
  rintro ⟨u, ⟨p, hu⟩, hother, -⟩
  refine hw (hother t ?_)
  rintro rfl
  exact ht p hu

/-- The thread `t` moves on within the phase, and prints nothing. -/
theorem Inv.goto (h : Inv phases s ws σ cur) {t : T} {k : ThreadPc} {n : ℕ} (hm : s.main = .joinThreads)
    (hat : At phases s.phase k) (hprints : printed s.phase k = printed s.phase (s.thread t)) (hn : n < Fintype.card T)
    (harr : ((∀ u p, Function.update s.thread t k u ≠ .complete p) ∧
        n = ({ s with thread := Function.update s.thread t k } : State W T).waiting.card) ∨
      ∃ u, (∃ p, Function.update s.thread t k u = .complete p) ∧
        (∀ v, v ≠ u → Function.update s.thread t k v = .wait s.phase) ∧ n = 0) :
    Inv phases { s with thread := Function.update s.thread t k, arrived := n } ws σ cur where
  ready := h.ready
  latch := h.latch
  workers := h.workers
  threads h₁ _ := absurd hm h₁
  returned hr := by cases hm.symm.trans hr
  pos := h.pos
  at_ := (Function.forall_update_iff s.thread fun _ k => At phases s.phase k).mpr ⟨hat, fun u _ => h.at_ u⟩
  before := h.before
  prints := (Function.forall_update_iff s.thread fun u k => journal u cur = List.range (printed s.phase k)).mpr
    ⟨by rw [hprints]; exact h.prints t, fun u _ => h.prints u⟩
  arrived_lt := hn
  arrived := harr
  out := h.out

omit [DecidableEq W] [Fintype W] in
theorem waiting_update {t : T} {k : ThreadPc} (ht : s.thread t ≠ .wait s.phase) (hk : k ≠ .wait s.phase) :
    ({ s with thread := Function.update s.thread t k } : State W T).waiting = s.waiting := by
  refine Finset.filter_congr fun u _ => ?_
  by_cases hu : u = t
  · subst hu
    simp only [Function.update_self, hk, ht]
  · simp only [Function.update_of_ne hu]

/-- A thread that neither arrives nor completes the phase. -/
theorem Inv.pass (h : Inv phases s ws σ cur) {t : T} {k : ThreadPc} (hm : s.main = .joinThreads)
    (hc : ∀ p, s.thread t ≠ .complete p) (hw : s.thread t ≠ .wait s.phase) (hat : At phases s.phase k)
    (hprints : printed s.phase k = printed s.phase (s.thread t)) (hkc : ∀ p, k ≠ .complete p) (hkw : k ≠ .wait s.phase) :
    Inv phases { s with thread := Function.update s.thread t k } ws σ cur := by
  obtain ⟨hnone, hcard⟩ := h.counting hc hw
  refine h.goto hm hat hprints h.arrived_lt (.inl ⟨?_, ?_⟩)
  · exact (Function.forall_update_iff s.thread fun _ k => ∀ p, k ≠ .complete p).mpr ⟨hkc, fun u _ => hnone u⟩
  · rw [waiting_update hw hkw]
    exact hcard

theorem Inv.arrive (h : Inv phases s ws σ cur) {t : T} {p : ℕ} (ht : s.thread t = .arrive p)
    (hlt : s.arrived + 1 < Fintype.card T) :
    Inv phases { s with thread := Function.update s.thread t (.wait p), arrived := s.arrived + 1 } ws σ cur := by
  have hat := h.at_ t
  rw [ht] at hat
  obtain ⟨rfl, hp⟩ := hat
  obtain ⟨hnone, hcard⟩ := h.counting (t := t) (by rw [ht]; exact fun _ => nofun) (by rw [ht]; exact nofun)
  have hm := h.started (t := t) (by rw [ht]; exact nofun) (by rw [ht]; exact nofun)
  refine h.goto hm ⟨.inl rfl, hp⟩ (by rw [ht]; exact if_pos rfl) hlt (.inl ⟨?_, ?_⟩)
  · exact (Function.forall_update_iff s.thread fun _ k => ∀ p, k ≠ .complete p).mpr ⟨fun _ => nofun, fun u _ => hnone u⟩
  · have hins : ({ s with thread := Function.update s.thread t (.wait s.phase) } : State W T).waiting =
        insert t s.waiting := by
      ext u
      by_cases hu : u = t
      · subst hu; simp [State.waiting]
      · simp [State.waiting, hu]
    rw [hins, Finset.card_insert_of_notMem (by simp [State.waiting, ht]), hcard]

/-- When the last thread arrives, all others wait. -/
theorem Inv.arriveLast (h : Inv phases s ws σ cur) {t : T} {p : ℕ} (ht : s.thread t = .arrive p)
    (hle : Fintype.card T ≤ s.arrived + 1) :
    Inv phases { s with thread := Function.update s.thread t (.complete p), arrived := 0 } ws σ cur := by
  have hat := h.at_ t
  rw [ht] at hat
  obtain ⟨rfl, hp⟩ := hat
  obtain ⟨hnone, hcard⟩ := h.counting (t := t) (by rw [ht]; exact fun _ => nofun) (by rw [ht]; exact nofun)
  have hall : s.waiting = Finset.univ.erase t := by
    refine Finset.eq_of_subset_of_card_le (fun u hu => ?_) ?_
    · refine Finset.mem_erase.mpr ⟨?_, Finset.mem_univ u⟩
      rintro rfl
      simp [State.waiting, ht] at hu
    · rw [Finset.card_erase_of_mem (Finset.mem_univ t), Finset.card_univ]
      omega
  have hm := h.started (t := t) (by rw [ht]; exact nofun) (by rw [ht]; exact nofun)
  have hpos : 0 < Fintype.card T := (Nat.zero_le _).trans_lt h.arrived_lt
  refine h.goto hm ⟨rfl, hp⟩ (by rw [ht]; rfl) hpos
    (.inr ⟨t, ⟨_, Function.update_self ..⟩, fun u hu => ?_, rfl⟩)
  have hmem : u ∈ s.waiting := by
    rw [hall]
    exact Finset.mem_erase.mpr ⟨hu, Finset.mem_univ u⟩
  rw [Function.update_of_ne hu]
  exact (Finset.mem_filter.mp hmem).2

theorem Inv.print (h : Inv phases s ws σ cur) {t : T} {p : ℕ} {k : Fin phaseInsertions} (ht : s.thread t = .print p k) :
    Inv phases { s with thread := Function.update s.thread t (said p (k + 1)), out := s.out ++ [.phase t p k] } ws σ
      (cur ++ [(t, k.val)]) := by
  have hat := h.at_ t
  rw [ht] at hat
  obtain ⟨rfl, hp⟩ := hat
  have hm := h.started (t := t) (by rw [ht]; exact nofun) (by rw [ht]; exact nofun)
  obtain ⟨hnone, hcard⟩ := h.counting (t := t) (by rw [ht]; exact fun _ => nofun) (by rw [ht]; exact nofun)
  have hw : ∀ out, ({ s with thread := Function.update s.thread t (said s.phase (k + 1)), out := out } :
      State W T).waiting = s.waiting := fun out =>
    waiting_update (s := s) (k := said s.phase (k + 1)) (by rw [ht]; exact nofun) ((said_ne _ _).2 _)
  exact {
    ready := h.ready
    latch := h.latch
    workers := h.workers
    threads := fun h₁ _ => absurd hm h₁
    returned := fun hr => by cases hm.symm.trans hr
    pos := h.pos
    at_ := (Function.forall_update_iff s.thread fun _ k => At phases s.phase k).mpr ⟨at_said _ hp, fun u _ => h.at_ u⟩
    before := h.before
    prints := by
      refine (Function.forall_update_iff s.thread fun u i =>
        journal u (cur ++ [(t, k.val)]) = List.range (printed s.phase i)).mpr ⟨?_, fun u hu => ?_⟩
      · rw [journal_concat, if_pos rfl, h.prints, ht, printed_said _ _ k.isLt, List.range_succ]
        rfl
      · rw [journal_concat, if_neg hu]
        exact h.prints u
    arrived_lt := h.arrived_lt
    arrived := .inl ⟨(Function.forall_update_iff s.thread fun _ k => ∀ p, k ≠ .complete p).mpr
      ⟨(said_ne _ _).1, fun u _ => hnone u⟩, hcard.trans (by rw [hw])⟩
    out := by
      dsimp only
      rw [h.out]
      simp [List.append_assoc] }

/-- The phase ends. -/
theorem Inv.complete (h : Inv phases s ws σ cur) {t : T} {p : ℕ} (ht : s.thread t = .complete p) :
    Inv phases { s with
      thread := Function.update s.thread t (loop phases (p + 1))
      phase := s.phase + 1
      out := s.out ++ [.complete] } ws (Function.update σ s.phase cur) [] := by
  have hat := h.at_ t
  rw [ht] at hat
  obtain ⟨rfl, hp⟩ := hat
  have hm := h.started (t := t) (by rw [ht]; exact nofun) (by rw [ht]; exact nofun)
  obtain ⟨hother, harr⟩ : (∀ u, u ≠ t → s.thread u = .wait s.phase) ∧ s.arrived = 0 := by
    rcases h.arrived with ⟨hnone, -⟩ | ⟨u, ⟨q, hu⟩, hother, harr⟩
    · exact absurd ht (hnone t _)
    · have he : u = t := by
        by_contra hne
        rw [hother t (Ne.symm hne)] at ht
        cases ht
      subst he
      exact ⟨hother, harr⟩
  have hcur : Shuffle phaseInsertions cur := fun u => (h.prints u).trans <| by
    by_cases hu : u = t
    · subst hu; rw [ht]; rfl
    · rw [hother u hu, printed, if_pos rfl]
  exact {
    ready := h.ready
    latch := h.latch
    workers := h.workers
    threads := fun h₁ _ => absurd hm h₁
    returned := fun hr => by cases hm.symm.trans hr
    pos := Nat.succ_pos _
    at_ := (Function.forall_update_iff s.thread fun _ k => At phases (s.phase + 1) k).mpr
      ⟨at_loop (Nat.succ_le_succ hp), fun u hu => by rw [hother u hu]; exact ⟨.inr rfl, hp⟩⟩
    before := (Function.forall_update_iff σ fun p l => 0 < p → p < s.phase + 1 → Shuffle phaseInsertions l).mpr
      ⟨fun _ _ => hcur, fun p hp h₀ h₁ => h.before p h₀ (lt_of_le_of_ne (Nat.le_of_lt_succ h₁) hp)⟩
    prints := by
      refine (Function.forall_update_iff s.thread fun u k =>
        journal u ([] : List (T × ℕ)) = List.range (printed (s.phase + 1) k)).mpr ⟨?_, fun u hu => ?_⟩
      · rw [printed_loop]
        rfl
      · rw [hother u hu, printed, if_neg (Nat.succ_ne_self _).symm]
        rfl
    arrived_lt := h.arrived_lt
    arrived := by
      refine .inl ⟨?_, ?_⟩
      · exact (Function.forall_update_iff s.thread fun _ k => ∀ p, k ≠ .complete p).mpr
          ⟨fun _ => loop_ne_complete _ _, fun u hu => by rw [hother u hu]; exact fun _ => nofun⟩
      · refine harr.trans (Finset.card_eq_zero.mpr (Finset.filter_eq_empty_iff.mpr fun u _ => ?_)).symm
        dsimp only
        by_cases hu : u = t
        · subst hu; rw [Function.update_self]; exact loop_ne_wait _ _
        · rw [Function.update_of_ne hu, hother u hu]
          exact fun he => absurd (ThreadPc.wait.inj he) (Nat.succ_ne_self _).symm
    out := by
      have hpos := h.pos
      obtain ⟨n, hn⟩ : ∃ n, s.phase = n + 1 := ⟨s.phase - 1, by omega⟩
      have hblocks : (blocks (Function.update σ s.phase cur) n : List (Piece W T)) = blocks σ n :=
        blocks_congr fun p hp => Function.update_of_ne (by omega) _ _
      dsimp only
      rw [h.out]
      simp only [hn, Nat.add_sub_cancel] at hblocks ⊢
      rw [blocks_succ, hblocks, Function.update_self, block]
      simp [List.append_assoc] }

/-- The worker `w` makes an insertion. -/
theorem Inv.print_ready [Nonempty T] (h : Inv phases s ws σ cur) {w : W} {k : Fin readyInsertions}
    (hw : s.worker w = .print k) :
    Inv phases { s with worker := Function.update s.worker w (readied (k + 1)), out := s.out ++ [.ready w k] }
      (ws ++ [(w, k.val)]) σ cur := by
  have hm : s.main = .wait := by
    by_contra hne
    rw [h.workers hne w] at hw
    cases hw
  obtain ⟨rfl, hphase⟩ := h.early (by rw [hm]; exact nofun) (by rw [hm]; exact nofun)
  exact { h with
    ready := by
      refine (Function.forall_update_iff s.worker fun u i =>
        journal u (ws ++ [(w, k.val)]) = List.range i.printed).mpr ⟨?_, fun u hu => ?_⟩
      · rw [journal_concat, if_pos rfl, h.ready, hw, printed_readied k.isLt, List.range_succ]
        rfl
      · rw [journal_concat, if_neg hu]
        exact h.ready u
    latch := h.latch.trans (total_update_eq (by rw [hw, if_neg (readied_ne_done _)]; rfl)).symm
    workers := fun hne => absurd hm hne
    out := by
      dsimp only
      rw [h.out]
      simp [hm, hphase, blocks] }

theorem Inv.countDown (h : Inv phases s ws σ cur) {w : W} (hw : s.worker w = .countDown) :
    Inv phases { s with worker := Function.update s.worker w .done, latch := s.latch - 1 } ws σ cur := by
  have hu := total_update (fun pc => if pc = WorkerPc.done then 0 else 1) s.worker w .done
  rw [hw] at hu
  simp only [reduceCtorEq, if_false, if_true, Nat.add_zero] at hu
  exact { h with
    ready := (Function.forall_update_iff s.worker fun u k => journal u ws = List.range k.printed).mpr
      ⟨(h.ready w).trans (by rw [hw]; rfl), fun u _ => h.ready u⟩
    latch := by
      have := h.latch
      dsimp only
      omega
    workers := fun hne =>
      (Function.forall_update_iff s.worker fun _ k => k = .done).mpr ⟨rfl, fun u _ => h.workers hne u⟩ }

theorem Inv.step [Nonempty T] (h : Inv phases s ws σ cur) (hs : Step phases s a s') :
    ∃ ws' σ' cur', Inv phases s' ws' σ' cur' := by
  cases hs with
  | ready hw => exact ⟨_, _, _, h.print_ready hw⟩
  | countDown hw => exact ⟨_, _, _, h.countDown hw⟩
  | waited hm hl =>
    have hdone : ∀ w, s.worker w = .done := fun w => by
      have hz := total_eq_zero.mp (h.latch.symm.trans hl) w
      by_contra hne
      simp [hne] at hz
    refine ⟨_, _, _, { h with workers := fun _ => hdone, threads := fun _ _ => ?_, returned := nofun, out := ?_ }⟩
    · exact h.threads (by rw [hm]; exact nofun) (by rw [hm]; exact nofun)
    · exact h.out.trans (by simp [hm])
  | allReady hm =>
    obtain ⟨rfl, hphase⟩ := h.early (by rw [hm]; exact nofun) (by rw [hm]; exact nofun)
    refine ⟨_, _, _, { h with workers := fun _ => ?_, threads := fun _ _ => ?_, returned := nofun, out := ?_ }⟩
    · exact h.workers (by rw [hm]; exact nofun)
    · exact h.threads (by rw [hm]; exact nofun) (by rw [hm]; exact nofun)
    · dsimp only
      rw [h.out]
      simp [hm, hphase, blocks]
  | joinWorkers hm hw =>
    exact ⟨_, _, _, { h with
      workers := fun _ => hw
      threads := fun h₁ _ => absurd rfl h₁
      returned := nofun
      out := h.out.trans (by simp [hm]) }⟩
  | joinThreads hm ht =>
    exact ⟨_, _, _, { h with
      workers := fun _ => h.workers (by rw [hm]; exact nofun)
      threads := fun _ h₂ => absurd rfl h₂
      returned := fun _ => ht
      out := h.out.trans (by simp [hm]) }⟩
  | begin ht hm =>
    rename_i t
    have hone := h.at_ t
    rw [ht] at hone
    have hat : At phases s.phase (loop phases 1) := by
      rw [show s.phase = 1 from hone]
      exact at_loop (Nat.le_add_left 1 phases)
    refine ⟨_, _, _, h.pass hm (by rw [ht]; exact fun _ => nofun) (by rw [ht]; exact nofun) hat ?_
      (loop_ne_complete _) (loop_ne_wait _ _)⟩
    rw [ht]
    exact printed_loop _ _
  | print ht => exact ⟨_, _, _, h.print ht⟩
  | arrive ht hlt => exact ⟨_, _, _, h.arrive ht hlt⟩
  | arriveLast ht hle => exact ⟨_, _, _, h.arriveLast ht hle⟩
  | complete ht => exact ⟨_, _, _, h.complete ht⟩
  | leave ht hne =>
    rename_i t p
    have hat := h.at_ t
    rw [ht] at hat
    have hp : p + 1 = s.phase := hat.1.resolve_left (Ne.symm hne)
    have hwait : s.thread t ≠ .wait s.phase := fun he => hne (ThreadPc.wait.inj (ht.symm.trans he)).symm
    have hm := h.started (t := t) (by rw [ht]; exact nofun) (by rw [ht]; exact nofun)
    refine ⟨_, _, _, h.pass hm (by rw [ht]; exact fun _ => nofun) hwait ?_ ?_ (loop_ne_complete _) (loop_ne_wait _ _)⟩
    · rw [hp]
      exact at_loop (by have := hat.2; omega)
    · rw [ht, printed_loop, printed, if_neg (Ne.symm hne)]

theorem inv [Nonempty T] (h : (latchBarrier W T phases).Reach s) : ∃ ws σ cur, Inv phases s ws σ cur :=
  h.inv (I := fun s => ∃ ws σ cur, Inv phases s ws σ cur) ⟨_, _, _, .start⟩
    fun _ _ ha ⟨_, _, _, hi⟩ => hi.step (next_iff.mp ha)

/-! ## The end -/

/-- A state in which no step is possible is the end. -/
theorem Inv.returned_of_quiet [Nonempty T] (h : Inv phases s ws σ cur)
    (hq : ∀ a, (latchBarrier W T phases).next s a = none) : s.main = .returned := by
  have hno : ∀ {a s'}, ¬ Step phases s a s' := fun hs => by
    cases (next_iff.mpr hs).symm.trans (hq _)
  have hworker : ∀ w, s.worker w = .done := fun w => by
    cases hw : s.worker w with
    | print => exact (hno (.ready hw)).elim
    | countDown => exact (hno (.countDown hw)).elim
    | done => rfl
  have hlatch : s.latch = 0 := h.latch.trans (total_eq_zero.mpr fun w => if_pos (hworker w))
  cases hm : s.main with
  | wait => exact (hno (.waited hm hlatch)).elim
  | allReady => exact (hno (.allReady hm)).elim
  | joinWorkers => exact (hno (.joinWorkers hm hworker)).elim
  | returned => rfl
  | joinThreads =>
    -- a thread that is not done waits for the end of the phase
    have hwait : ∀ t, s.thread t = .wait s.phase ∨ s.thread t = .done := fun t => by
      cases ht : s.thread t with
      | idle => exact (hno (.begin ht hm)).elim
      | print p k => exact (hno (.print ht)).elim
      | complete p => exact (hno (.complete ht)).elim
      | arrive p =>
        by_cases hlt : s.arrived + 1 < Fintype.card T
        · exact (hno (.arrive ht hlt)).elim
        · exact (hno (.arriveLast ht (Nat.le_of_not_lt hlt))).elim
      | wait p =>
        by_cases hp : s.phase = p
        · exact .inl (by rw [hp])
        · exact (hno (.leave ht hp)).elim
      | done => exact .inr rfl
    refine (hno (.joinThreads hm fun t => (hwait t).resolve_left fun ht => ?_)).elim
    have hp := (h.at_ t)
    rw [ht] at hp
    -- then all wait, and the last one has not arrived
    have hall : s.waiting = Finset.univ := Finset.filter_true_of_mem fun u _ => (hwait u).resolve_right fun hu => by
      have hd := h.at_ u
      rw [hu] at hd
      have := hp.2
      rw [show s.phase = phases + 1 from hd] at this
      omega
    have hcard := h.arrived.resolve_right fun ⟨u, ⟨p, hu⟩, _⟩ => by
      rcases hwait u with he | he <;> rw [he] at hu <;> cases hu
    rw [hall, Finset.card_univ] at hcard
    exact absurd h.arrived_lt (by omega)

theorem Inv.output [Nonempty T] (h : Inv phases s ws σ cur) (hm : s.main = .returned) : Output phases s.out := by
  have hdone := h.returned hm
  have hphase : s.phase = phases + 1 := by
    have hat := h.at_ (Classical.arbitrary T)
    rw [hdone] at hat
    exact hat
  have hcur : cur = [] := eq_nil_of_journal fun t => by
    rw [h.prints, hdone t]
    rfl
  refine ⟨ws, σ, fun w => (h.ready w).trans ?_, fun p h₀ h₁ => h.before p h₀ (by omega), ?_⟩
  · rw [h.workers (by rw [hm]; exact nofun) w]
    rfl
  · rw [h.out]
    simp [hm, hphase, hcur]

/-- The steps that a worker, `main` and a thread have left. -/
def WorkerPc.rank : WorkerPc → ℕ
  | print k => readyInsertions - k + 1
  | countDown => 1
  | done => 0

def MainPc.rank : MainPc → ℕ
  | wait => 4
  | allReady => 3
  | joinWorkers => 2
  | joinThreads => 1
  | returned => 0

def ThreadPc.rank (phases : ℕ) : ThreadPc → ℕ
  | idle => 7 * phases + 1
  | print p k => 7 * (phases - p) + 2 + (phaseInsertions - k)
  | arrive p => 7 * (phases - p) + 2
  | wait p | complete p => 7 * (phases - p) + 1
  | done => 0

def State.rank (phases : ℕ) (s : State W T) : ℕ :=
  total WorkerPc.rank s.worker + s.main.rank + total (ThreadPc.rank phases) s.thread

theorem rank_readied {k : ℕ} (hk : k ≤ readyInsertions) : (readied k).rank = readyInsertions - k + 1 := by
  unfold readied
  split <;> simp only [WorkerPc.rank]
  omega

theorem rank_said (p : ℕ) {k : ℕ} (hk : k ≤ phaseInsertions) :
    (said p k).rank phases = 7 * (phases - p) + 2 + (phaseInsertions - k) := by
  unfold said
  split <;> simp only [ThreadPc.rank]
  omega

theorem rank_loop {p : ℕ} : (loop phases (p + 1)).rank phases = 7 * (phases - p) := by
  unfold loop
  split
  · rw [rank_said _ (Nat.zero_le _), phaseInsertions]
    omega
  · simp only [ThreadPc.rank]
    omega

theorem Step.rank (h : Step phases s a s') : s'.rank phases + 1 = s.rank phases := by
  have hworker : ∀ w k, k.rank + 1 = (s.worker w).rank →
      total WorkerPc.rank (Function.update s.worker w k) + 1 = total WorkerPc.rank s.worker := fun w k hk => by
    have := total_update WorkerPc.rank s.worker w k
    omega
  have hthread : ∀ t k, k.rank phases + 1 = (s.thread t).rank phases →
      total (ThreadPc.rank phases) (Function.update s.thread t k) + 1 = total (ThreadPc.rank phases) s.thread :=
    fun t k hk => by
      have := total_update (ThreadPc.rank phases) s.thread t k
      omega
  have hgoto : ∀ {t k n q out}, total (ThreadPc.rank phases) (Function.update s.thread t k) + 1 =
      total (ThreadPc.rank phases) s.thread →
      ({ s with thread := Function.update s.thread t k, arrived := n, phase := q, out := out } : State W T).rank phases +
        1 = s.rank phases := fun h => by
    simp only [State.rank]
    omega
  cases h with
  | @ready w k hw =>
    have hk : (readied (k + 1)).rank + 1 = (s.worker w).rank := by
      rw [hw, rank_readied k.isLt, WorkerPc.rank]
      omega
    have := hworker _ _ hk
    simp only [State.rank]
    omega
  | countDown hw =>
    have := hworker _ .done (by rw [hw]; rfl)
    simp only [State.rank]
    omega
  | waited hm _ | allReady hm | joinWorkers hm _ | joinThreads hm _ =>
    simp only [State.rank, hm, MainPc.rank]
    omega
  | begin ht _ => exact hgoto (hthread _ _ (by rw [ht, rank_loop]; rfl))
  | @print t p k ht =>
    refine hgoto (hthread _ _ ?_)
    rw [ht, rank_said p k.isLt, ThreadPc.rank]
    omega
  | arrive ht => exact hgoto (hthread _ (.wait _) (by rw [ht]; rfl))
  | arriveLast ht => exact hgoto (hthread _ (.complete _) (by rw [ht]; rfl))
  | complete ht | leave ht _ => exact hgoto (hthread _ _ (by rw [ht, rank_loop]; rfl))

theorem rank_start : (latchBarrier W T phases).start.rank phases =
    4 * Fintype.card W + 4 + (7 * phases + 1) * Fintype.card T := by
  simp [latchBarrier, State.rank, total, rank_readied, MainPc.rank, ThreadPc.rank, Nat.mul_comm]

end TKH.LatchBarrier
