import Mathlib.Algebra.Order.BigOperators.Group.Multiset
import Mathlib.Tactic.Linarith
import ThreadingKnowHows.OpenMP.Model

/-!
# The reduction

On any schedule, whoever runs which iterations and in whichever order the private
copies are combined, `sum` is `N * (N + 1) / 2` in the end, and `vmax` is `N`; and no
value on the way overflows (`reduction_correct`).
-/

namespace TKH.OpenMP

variable {τ : Type} [Fintype τ] [DecidableEq τ] {N : ℕ}

instance : Std.Commutative SumMax.combine where
  comm a b := by
    simp only [SumMax.combine, SumMax.mk.injEq]
    exact ⟨add_comm _ _, by split <;> split <;> omega⟩

instance : Std.Associative SumMax.combine where
  assoc a b c := by
    simp only [SumMax.combine, SumMax.mk.injEq]
    exact ⟨add_assoc _ _ _, by repeat' split <;> try omega⟩

/-- The iterations of the loop. -/
def upTo (N : ℕ) : Multiset ℕ := (Multiset.range N).map (· + 1)

theorem nodup_upTo (N : ℕ) : (upTo N).Nodup :=
  (Multiset.nodup_range N).map fun _ _ h => Nat.succ.inj h

theorem sum_upTo (N : ℕ) : 2 * (upTo N).sum = N * (N + 1) := by
  induction N with
  | zero => rfl
  | succ N ih =>
    simp only [upTo, Multiset.range_succ, Multiset.map_cons, Multiset.sum_cons] at ih ⊢
    linarith

/-- What a reduction starts with, and the sum of the iterations. -/
theorem sum_fold (b : SumMax) (m : Multiset ℕ) : ((m.map iteration).fold SumMax.combine b).sum = b.sum + m.sum := by
  induction m using Multiset.induction_on with
  | empty => simp
  | cons i m ih =>
    rw [Multiset.map_cons, Multiset.fold_cons_left, SumMax.combine, ih, Multiset.sum_cons]
    simp only [iteration]
    push_cast
    omega

theorem vmax_fold (hN : N < 2 ^ 31) {b : SumMax} (hb : b.vmax = 0) :
    (((upTo N).map iteration).fold SumMax.combine b).vmax = N := by
  induction N with
  | zero => exact hb
  | succ N ih =>
    have hi : ((N + 1 : ℕ) : ℤ).bmod (2 ^ 32) = (N + 1 : ℕ) := Int.bmod_eq_of_le (by omega) (by omega)
    have := ih (by omega)
    simp only [upTo, Multiset.range_succ, Multiset.map_cons, Multiset.fold_cons_left] at this ⊢
    simp only [SumMax.combine, this, iteration, hi]
    split <;> omega

/-- The values of an `int`, and of a `long`. -/
def IsInt (v : ℤ) : Prop := -2 ^ 31 ≤ v ∧ v < 2 ^ 31

def IsLong (v : ℤ) : Prop := -2 ^ 63 ≤ v ∧ v < 2 ^ 63

theorem isInt_fold {b : SumMax} (hb : IsInt b.vmax) (m : Multiset ℕ) :
    IsInt ((m.map iteration).fold SumMax.combine b).vmax := by
  induction m using Multiset.induction_on with
  | empty => exact hb
  | cons i m ih =>
    rw [Multiset.map_cons, Multiset.fold_cons_left]
    simp only [SumMax.combine]
    split
    · exact ih
    · have hle := Int.le_bmod (x := i) (m := 2 ^ 32) (by decide)
      have hlt := Int.bmod_lt (x := i) (m := 2 ^ 32) (by decide)
      simp only [iteration, IsInt]
      omega

theorem isLong_fold (hN : N < 2 ^ 31) {b : SumMax} (hb : b.sum = 0) {m : Multiset ℕ} (hm : m ≤ upTo N) :
    IsLong ((m.map iteration).fold SumMax.combine b).sum := by
  obtain ⟨r, hr⟩ := Multiset.le_iff_exists_add.mp hm
  have hsum := sum_upTo N
  rw [hr, Multiset.sum_add] at hsum
  have hmul : N * (N + 1) ≤ 2 ^ 31 * 2 ^ 31 := Nat.mul_le_mul hN.le hN
  rw [sum_fold, hb, IsLong]
  omega

/-- No sum overflows, and in the end the variables have the values of the loop
in order. -/
theorem reduction_correct [Nonempty τ] (hN : N < 2 ^ 31) {share : τ → List ℕ} {queue : List (List ℕ)}
    (hshare : total (fun is : List ℕ => (is : Multiset ℕ)) share + queue.flatten = upTo N)
    {s : Team.State τ ℕ (Team.Vars τ SumMax)} (hs : (sumMax share queue).system.Reach s) :
    (∀ t, IsLong (s.data.acc t).sum ∧ IsInt (s.data.acc t).vmax) ∧
    IsLong s.data.result.sum ∧ IsInt s.data.result.vmax ∧
    ((∀ a, (sumMax share queue).system.next s a = none) →
      s.data.result.sum = N * (N + 1) / 2 ∧ s.data.result.vmax = N) := by
  have hiter : (sumMax share queue).iterations = upTo N := by
    rw [Team.Loop.iterations_eq]
    exact hshare
  have hnd : (sumMax share queue).iterations.Nodup := hiter ▸ nodup_upTo N
  have he : SumMax.combine { sum := 0, vmax := 0 } { sum := 0, vmax := -2 ^ 31 } = { sum := 0, vmax := 0 } := by decide
  obtain ⟨taken, done, hacc, hcopies, hresult⟩ := Team.reduction_inv he hs hnd
  have hdone : total (fun is : List ℕ => (is : Multiset ℕ)) done ≤ upTo N := hiter ▸ hacc.done_le
  have hone : ∀ t, (done t : Multiset ℕ) ≤ upTo N := fun t =>
    (Finset.single_le_sum (f := fun t => (done t : Multiset ℕ)) (fun _ _ => Multiset.zero_le _)
      (Finset.mem_univ t)).trans hdone
  have hcombined : (total Team.combined fun t => (s.left t, done t)) ≤ upTo N := by
    refine (Finset.sum_le_sum fun t _ => ?_).trans hdone
    dsimp only [Team.combined]
    cases s.left t
    · exact Multiset.zero_le _
    · exact le_rfl
  refine ⟨fun t => ?_, ?_, ?_, fun hq => ?_⟩
  · rw [hcopies t]
    exact ⟨isLong_fold hN rfl (hone t), isInt_fold (by simp [IsInt]) _⟩
  · rw [hresult]
    exact isLong_fold hN rfl hcombined
  · rw [hresult]
    exact isInt_fold (by simp [IsInt]) _
  · have hend : s.data.result = ((upTo N).map iteration).fold SumMax.combine { sum := 0, vmax := 0 } := by
      rw [← hiter]
      exact Team.reduction_final he hs hnd (Team.Loop.ended_of_quiet hq)
    have hsum := sum_upTo N
    rw [hend, sum_fold, vmax_fold hN rfl]
    refine ⟨?_, rfl⟩
    have hcast : (((upTo N).sum : ℕ) : ℤ) = ((N * (N + 1) / 2 : ℕ) : ℤ) := congrArg Nat.cast (by omega)
    rw [zero_add, hcast]
    norm_cast

/-- Two threads that have the even and the odd iterations. -/
theorem reduction_correct_two : ∃ s, (sumMax (fun t => if t then [2, 4] else [1, 3, 5]) []).system.run
      (sumMax (fun t => if t then [2, 4] else [1, 3, 5]) []).system.start
        [.exec false, .exec true, .exec true, .leave true, .exec false, .exec false, .leave false] = some s ∧
    s.data.result.sum = 15 ∧ s.data.result.vmax = 5 := by
  have hr : ((sumMax (fun t => if t then [2, 4] else [1, 3, 5]) []).system.run
      (sumMax (fun t => if t then [2, 4] else [1, 3, 5]) []).system.start
        [.exec false, .exec true, .exec true, .leave true, .exec false, .exec false, .leave false]).any
      (fun s => (∀ t, s.left t = true ∧ s.todo t = []) ∧ s.queue = []) = true := by
    decide +kernel
  obtain ⟨s, hs, hp⟩ := System.exists_of_run hr
  obtain ⟨hleft, hqueue⟩ := of_decide_eq_true hp
  obtain ⟨-, -, -, hend⟩ := reduction_correct (by decide : 5 < 2 ^ 31) (by decide +kernel) (System.reach_of_run hs)
  refine ⟨s, hs, hend fun a => ?_⟩
  cases a <;> simp [Team.Loop.system, hleft, hqueue]

end TKH.OpenMP
