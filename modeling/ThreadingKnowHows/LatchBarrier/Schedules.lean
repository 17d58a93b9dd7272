import Mathlib.Data.Nat.SuccPred
import ThreadingKnowHows.Framework.Turns
import ThreadingKnowHows.LatchBarrier.Output

/-!
# Every output is possible

For any shuffles of the pieces of the workers, and of the threads in each phase, there
is a run that prints in these orders: in each phase the threads print, then they arrive,
and the last of them completes the phase.
-/

namespace TKH.LatchBarrier

variable {W T : Type} [DecidableEq W] [DecidableEq T] [Fintype W] [Fintype T] {phases : ℕ}

abbrev Leads (phases : ℕ) (s s' : State W T) : Prop := (latchBarrier W T phases).Path (fun _ _ => True) s s'

theorem Step.leads {s s' : State W T} {a : Act W T} (h : Step phases s a s') : Leads phases s s' :=
  .step .refl trivial (next_iff.mpr h)

/-- `main` waits for the workers. -/
def early (n : ℕ) (worker : W → WorkerPc) (out : List (Piece W T)) : State W T where
  latch := n
  worker := worker
  main := .wait
  phase := 1
  arrived := 0
  thread _ := .idle
  out := out

/-- `main` waits for the threads. -/
def late (k n : ℕ) (thread : T → ThreadPc) (out : List (Piece W T)) : State W T where
  latch := 0
  worker _ := .done
  main := .joinThreads
  phase := k
  arrived := n
  thread := thread
  out := out

/-! ## One after the other -/

/-- All workers print, and then they count down. -/
theorem workers_print {l : List (W × ℕ)} (hl : Shuffle readyInsertions l) (n : ℕ) :
    Leads phases (early n (fun _ => readied 0) [])
      (early (T := T) n (fun _ => .countDown) (l.map fun x => .ready x.1 x.2)) :=
  hl.leads (s := early n) (y := readied) (e := .ready) (fun {f out w k} hk hw => by
    rw [readied, dif_pos hk] at hw
    exact Step.leads (.ready (s := early n f out) hw)) []

/-- Each thread of `l` goes from `x` to `y`, where `d` says whether it arrives. -/
theorem each (phases k d : ℕ) (x y : ThreadPc) (out : List (Piece W T))
    (hstep : ∀ {n f t}, f t = x → n + d < Fintype.card T →
      Step phases (late k n f out) (.thread t) (late k (n + d) (Function.update f t y) out))
    {l : List T} (hl : l.Nodup) {n : ℕ} {f : T → ThreadPc} (hf : ∀ t ∈ l, f t = x) (hn : n + d * l.length < Fintype.card T) :
    Leads phases (late k n f out) (late k (n + d * l.length) (fun t => if t ∈ l then y else f t) out) := by
  induction l generalizing n f with
  | nil =>
    simp only [List.not_mem_nil, if_false]
    exact .refl
  | cons t l ih =>
    obtain ⟨ht, hl⟩ := List.nodup_cons.mp hl
    have hlen : n + d * (t :: l).length = n + d + d * l.length := by
      rw [List.length_cons, Nat.mul_succ]
      omega
    rw [hlen] at hn ⊢
    have hrest := ih hl (update_tail (y := y) ht hf) hn
    rw [update_mem] at hrest
    exact (hstep (hf t List.mem_cons_self) (by omega)).leads.trans hrest

/-! ## The phases -/

/-- Each of `T` stands once in `l`. -/
def Enum {T : Type} (l : List T) : Prop := l.Nodup ∧ ∀ t, t ∈ l

omit [DecidableEq T] in
theorem enum_toList : Enum (Finset.univ : Finset T).toList := ⟨Finset.nodup_toList _, by simp⟩

omit [DecidableEq T] in
theorem Enum.length_eq {l : List T} (h : Enum l) : l.length = Fintype.card T := by
  classical
  rw [← List.toFinset_card_of_nodup h.1, ← Finset.card_univ]
  exact congrArg Finset.card (Finset.eq_univ_iff_forall.mpr fun t => List.mem_toFinset.mpr (h.2 t))

variable {k : ℕ} {l : List T}

theorem all_print {l : List (T × ℕ)} (hl : Shuffle phaseInsertions l) (out : List (Piece W T)) :
    Leads phases (late k 0 (fun _ => said k 0) out)
      (late k 0 (fun _ => .arrive k) (out ++ l.map fun x => .phase x.1 k x.2)) :=
  hl.leads (s := late k 0) (y := said k) (e := fun t i => .phase t k i) (fun {f out t i} hi ht => by
    rw [said, dif_pos hi] at ht
    exact Step.leads (.print (s := late k 0 f out) ht)) out

/-- The threads of `l` wait, and the others are at `c`. -/
def waiting (l : List T) (k : ℕ) (c : ThreadPc) (t : T) : ThreadPc := if t ∈ l then .wait k else c

omit [Fintype T] in
theorem update_waiting {last : T} (hl : Enum (l ++ [last])) (c c' : ThreadPc) :
    Function.update (waiting l k c) last c' = waiting l k c' := by
  have hlast : last ∉ l := fun hmem => (List.nodup_append.mp hl.1).2.2 last hmem last (List.mem_singleton_self last) rfl
  funext t
  by_cases ht : t = last
  · subst ht; rw [Function.update_self, waiting, if_neg hlast]
  · have hmem : t ∈ l := (List.mem_append.mp (hl.2 t)).resolve_right (mt List.mem_singleton.mp ht)
    rw [Function.update_of_ne ht, waiting, waiting, if_pos hmem, if_pos hmem]

/-- All threads but the last arrive. -/
theorem front_arrive {last : T} (hl : Enum (l ++ [last])) (out : List (Piece W T)) :
    Leads phases (late k 0 (fun _ => .arrive k) out) (late k l.length (waiting l k (.arrive k)) out) := by
  have hcard := hl.length_eq
  rw [List.length_append, List.length_singleton] at hcard
  have h := each phases k 1 (.arrive k) (.wait k) out (fun ht hlt => .arrive ht hlt) (List.nodup_append.mp hl.1).1
    (n := 0) (f := fun _ => .arrive k) (fun _ _ => rfl) (by omega)
  rw [Nat.one_mul, Nat.zero_add] at h
  exact h

/-- The threads that wait leave. -/
theorem front_leave [Nonempty T] (hl : l.Nodup) (out : List (Piece W T)) :
    Leads phases (late (k + 1) 0 (waiting l k (loop phases (k + 1))) out)
      (late (k + 1) 0 (fun _ => loop phases (k + 1)) out) := by
  have hn : 0 + 0 * l.length < Fintype.card T := by simpa using Fintype.card_pos
  have h := each phases (k + 1) 0 (.wait k) (loop phases (k + 1)) out
    (fun ht _ => .leave ht (Nat.succ_ne_self k)) hl (f := waiting l k (loop phases (k + 1))) (fun t ht => if_pos ht) hn
  have hend : (fun t => if t ∈ l then loop phases (k + 1) else waiting l k (loop phases (k + 1)) t) =
      fun _ => loop phases (k + 1) := by
    funext t
    by_cases ht : t ∈ l <;> simp [waiting, ht]
  rw [Nat.zero_mul, hend] at h
  exact h

/-- All threads go through a phase, and print in the order of `σ`. -/
theorem phase_leads [Nonempty T] {σ : List (T × ℕ)} (hk : k ≤ phases) (hσ : Shuffle phaseInsertions σ)
    (out : List (Piece W T)) : Leads phases (late k 0 (fun _ => loop phases k) out)
      (late (k + 1) 0 (fun _ => loop phases (k + 1)) (out ++ block k σ)) := by
  rw [show loop phases k = said k 0 from if_pos hk]
  refine (all_print hσ out).trans ?_
  -- in whichever order they arrive, there is a last one
  obtain ⟨front, last, hl⟩ : ∃ (front : List T) (last : T), Enum (front ++ [last]) := by
    rcases List.eq_nil_or_concat (Finset.univ : Finset T).toList with hnil | ⟨front, last, hfront⟩
    · exact absurd (enum_toList.2 (Classical.arbitrary T)) (by rw [hnil]; exact List.not_mem_nil)
    · rw [List.concat_eq_append] at hfront
      exact ⟨front, last, hfront ▸ enum_toList⟩
  have hcard := hl.length_eq
  rw [List.length_append, List.length_singleton] at hcard
  refine (front_arrive hl _).trans ?_
  -- the last one arrives, and completes the phase
  have hlast : ∀ c, waiting front k c last = c := fun c => by
    rw [← update_waiting hl c c, Function.update_self]
  have harrive : ∀ out : List (Piece W T), Leads phases (late k front.length (waiting front k (.arrive k)) out)
      (late k 0 (waiting front k (.complete k)) out) := fun out => by
    rw [← update_waiting hl (.arrive k) (.complete k)]
    exact Step.leads (.arriveLast (hlast _) (by dsimp only [late]; omega))
  have hcomplete : ∀ out : List (Piece W T), Leads phases (late k 0 (waiting front k (.complete k)) out)
      (late (k + 1) 0 (waiting front k (loop phases (k + 1))) (out ++ [.complete])) := fun out => by
    rw [← update_waiting hl (.complete k) (loop phases (k + 1))]
    exact Step.leads (.complete (hlast _))
  rw [block, ← List.append_assoc]
  exact (harrive _).trans ((hcomplete _).trans (front_leave (List.nodup_append.mp hl.1).1 _))

theorem phases_lead [Nonempty T] {σ : ℕ → List (T × ℕ)}
    (hσ : ∀ p, 0 < p → p ≤ phases → Shuffle phaseInsertions (σ p)) (out : List (Piece W T)) {n : ℕ}
    (hn : n ≤ phases) : Leads phases (late 1 0 (fun _ => loop phases 1) out)
      (late (n + 1) 0 (fun _ => loop phases (n + 1)) (out ++ blocks σ n)) := by
  induction n with
  | zero =>
    rw [blocks, List.range_zero, List.flatMap_nil, List.append_nil]
    exact .refl
  | succ n ih =>
    rw [blocks_succ, ← List.append_assoc]
    exact (ih (by omega)).trans (phase_leads hn (hσ _ n.succ_pos hn) _)

/-! ## The whole run -/

theorem all_begin [Nonempty T] (out : List (Piece W T)) :
    Leads phases (late 1 0 (fun _ => .idle) out) (late 1 0 (fun _ => loop phases 1) out) := by
  have hl : Enum (Finset.univ : Finset T).toList := enum_toList
  have hn : 0 + 0 * (Finset.univ : Finset T).toList.length < Fintype.card T := by simpa using Fintype.card_pos
  have h := each phases 1 0 .idle (loop phases 1) out (fun ht _ => .begin ht rfl) hl.1 (f := fun _ => .idle)
    (fun _ _ => rfl) hn
  simpa only [hl.2, if_true, Nat.zero_mul] using h

/-- The workers count down one after the other. -/
theorem workers_countDown (out : List (Piece W T)) :
    Leads phases (early (Fintype.card W) (fun _ => .countDown) out) (early 0 (fun _ => .done) out) := by
  have hl : Enum (Finset.univ : Finset W).toList := enum_toList
  have h := System.Path.turns (S := latchBarrier W T phases) (s := fun f n => early n f out) (y := .done)
    (g := fun n _ => n.pred) (fun hw => Step.leads (.countDown hw)) hl.1 (f := fun _ => .countDown) (fun _ _ => rfl)
    (Fintype.card W)
  rw [List.foldl_const, Nat.pred_iterate, hl.length_eq, Nat.sub_self] at h
  simpa only [hl.2, if_true] using h

/-- The workers, in the order of `ws`. -/
theorem workers_lead {ws : List (W × ℕ)} (hws : Shuffle readyInsertions ws) :
    Leads phases (latchBarrier W T phases).start
      (late 1 0 (fun _ => .idle) ((ws.map fun x => .ready x.1 x.2) ++ [.allReady])) := by
  refine (workers_print hws _).trans ((workers_countDown _).trans ?_)
  have h₁ : Step phases (early (T := T) 0 (fun _ => .done) (ws.map fun x => .ready x.1 x.2)) .main _ := .waited rfl rfl
  have h₂ : Step phases { early (T := T) 0 (fun _ => .done) (ws.map fun x => .ready x.1 x.2) with main := .allReady } .main _ :=
    .allReady rfl
  have h₃ : Step phases { early (T := T) 0 (fun _ => .done) ((ws.map fun x => .ready x.1 x.2) ++ [.allReady]) with main := .joinWorkers }
    .main _ := .joinWorkers rfl fun _ => rfl
  exact h₁.leads.trans (h₂.leads.trans h₃.leads)

/-- Every run ends, and what it has printed in the end is in order, up to the pieces of
the lines of several workers or threads. Every such output is possible. -/
theorem output_iff [Nonempty T] (phases : ℕ) :
    (∀ as s, (latchBarrier W T phases).run (latchBarrier W T phases).start as = some s →
      as.length ≤ 4 * Fintype.card W + 4 + (7 * phases + 1) * Fintype.card T) ∧
    ∀ out : List (Piece W T), (∃ s, (latchBarrier W T phases).Reach s ∧ (∀ a, (latchBarrier W T phases).next s a = none) ∧
      s.out = out) ↔ Output phases out := by
  refine ⟨fun as s h => ?_, fun out => ⟨?_, ?_⟩⟩
  · have hle := System.length_add_le (f := State.rank phases)
      (fun _ ha => Nat.lt_of_succ_le (next_iff.mp ha).rank.le) h
    rw [rank_start] at hle
    omega
  · rintro ⟨s, hs, hq, rfl⟩
    obtain ⟨ws, σ, cur, hi⟩ := inv hs
    exact hi.output (hi.returned_of_quiet hq)
  · rintro ⟨ws, σ, hws, hσ, rfl⟩
    have hend : loop phases (phases + 1) = .done := if_neg (by omega)
    have hrun : Leads phases _ _ :=
      ((workers_lead hws).trans (all_begin _)).trans (phases_lead hσ ((ws.map fun x => .ready x.1 x.2) ++ [.allReady]) le_rfl)
    rw [hend, List.append_assoc, List.singleton_append] at hrun
    have hlast : Step phases
        (late (phases + 1) 0 (fun _ : T => .done) ((ws.map fun x => .ready x.1 x.2) ++ .allReady :: blocks σ phases)) .main _ :=
      .joinThreads rfl fun _ => rfl
    refine ⟨_, hrun.trans hlast.leads, fun a => ?_, rfl⟩
    cases a <;> rfl

/-- Two workers, the second of which prints into the line of the first, and two threads
that do the same, and swap their places after the first phase. -/
theorem output_iff_two : ∃ s, (latchBarrier (Fin 2) (Fin 2) 2).Reach s ∧
    (∀ a, (latchBarrier (Fin 2) (Fin 2) 2).next s a = none) ∧
    s.out = [.ready 0 0, .ready 1 0, .ready 1 1, .ready 0 1, .ready 0 2, .ready 1 2, .allReady,
      .phase 0 1 0, .phase 0 1 1, .phase 1 1 0, .phase 0 1 2, .phase 0 1 3, .phase 0 1 4, .phase 1 1 1, .phase 1 1 2,
      .phase 1 1 3, .phase 1 1 4, .complete,
      .phase 1 2 0, .phase 1 2 1, .phase 0 2 0, .phase 1 2 2, .phase 1 2 3, .phase 1 2 4, .phase 0 2 1, .phase 0 2 2,
      .phase 0 2 3, .phase 0 2 4, .complete] := by
  -- the thread `t` prints two pieces, and then the other one prints into its line
  let line : Fin 2 → List (Fin 2 × ℕ) := fun t =>
    [(t, 0), (t, 1), (t + 1, 0), (t, 2), (t, 3), (t, 4), (t + 1, 1), (t + 1, 2), (t + 1, 3), (t + 1, 4)]
  have hline : ∀ t, Shuffle phaseInsertions (line t) := by
    unfold Shuffle
    decide
  refine ((output_iff 2).2 _).mpr
    ⟨[(0, 0), (1, 0), (1, 1), (0, 1), (0, 2), (1, 2)], fun p => line (if p = 1 then 0 else 1), ?_, fun _ _ _ => hline _, rfl⟩
  unfold Shuffle
  decide

end TKH.LatchBarrier
