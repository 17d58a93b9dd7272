import Mathlib.Algebra.BigOperators.Pi
import Mathlib.Tactic.Abel
import ThreadingKnowHows.ScopedLock.Model

/-!
# Money is conserved

What a thread has still to do to the balances (`Pc.left`) and the balances
themselves add up to the same at all times (`balances_eq`). A transfer does
nothing to the sum but between its debit and its credit (`Pc.pending`).
-/

namespace TKH.ScopedLock

variable {A : Type} [DecidableEq A]

/-- What a transfer does to the balances. -/
def Transfer.net (x : Transfer A) : A → ℤ := Pi.single x.to_ x.amount - Pi.single x.from_ x.amount

def nets (xs : List (Transfer A)) : A → ℤ := (xs.map Transfer.net).sum

/-- What a thread has still to do to the balances. -/
def Pc.left : Pc A → A → ℤ
  | lock x rest p => if p.entering then x.net + nets rest else nets rest
  | readFrom x rest | writeFrom x rest _ => x.net + nets rest
  | readTo x rest | writeTo x rest _ => Pi.single x.to_ x.amount + nets rest
  | done => 0

/-- What a thread has debited and has not yet credited. -/
def Pc.pending : Pc A → ℤ
  | readTo x _ | writeTo x _ _ => x.amount
  | lock _ _ _ | readFrom _ _ | writeFrom _ _ _ | done => 0

/-- Whether a thread is in a transfer, which it begins with the `scoped_lock`. -/
def Pc.inside : Pc A → Bool
  | lock _ _ .begin | done => false
  | _ => true

theorem left_loop (xs : List (Transfer A)) : (loop xs).left = nets xs := by
  cases xs with
  | nil => rfl
  | cons x xs => simp [loop, Pc.left, nets, Mutexes.Scoped.entering]

theorem net_apply (x : Transfer A) (a : A) :
    x.net a = (if x.to_ = a then x.amount else 0) - (if x.from_ = a then x.amount else 0) := by
  simp [Transfer.net, Pi.single_apply, eq_comm]

/-- A write to a balance adds to it. -/
theorem update_add (b : A → ℤ) (a : A) (v : ℤ) : Function.update b a (b a + v) = b + Pi.single a v := by
  funext c
  by_cases hc : c = a
  · subst hc; simp
  · simp [Function.update_of_ne hc, Pi.single_eq_of_ne hc]

variable {τ : Type} {initial : A → ℤ} {transfers : τ → List (Transfer A)}

/-- Each command of `transfer` keeps the balances and what is left together. -/
theorem transfer_conserves (l : Pc A) : (transfer l).Conserves (fun b => b) Pc.left Knows l := by
  cases l with
  | lock x rest p =>
    refine Mutexes.scopedLock_conserves (x := x.net + nets rest) (y := nets rest) ?_ ?_ (left_loop rest) p
    · exact fun _ => rfl
    · rfl
  | readFrom | readTo => exact fun b _ => rfl
  | writeFrom x rest v =>
    intro b hv
    dsimp only
    rw [show v = b x.from_ from hv, sub_eq_add_neg, update_add]
    simp only [Pc.left, Transfer.net, Pi.single_neg]
    abel
  | writeTo x rest v =>
    intro b hv
    dsimp only
    rw [show v = b x.to_ from hv, update_add, add_assoc]
    rfl
  | done => trivial

variable [DecidableEq τ] [Fintype τ] {s : Mutexes.State τ A (A → ℤ) (Pc A)}

theorem balances_eq (h : (bank initial transfers).system.Reach s) :
    s.data + total Pc.left s.pc = initial + ∑ t, nets (transfers t) := by
  have hc := bank_annotation.conserved (fun _ => transfer_conserves) h
  have hentry : total Pc.left (bank initial transfers).entry = ∑ t, nets (transfers t) :=
    Finset.sum_congr rfl fun t _ => left_loop (transfers t)
  rwa [hentry] at hc

/-! ## Sums -/

variable [Fintype A]

theorem sum_single (a : A) (v : ℤ) : ∑ b, (Pi.single a v : A → ℤ) b = v := by
  simp [Pi.single_apply]

theorem sum_net (x : Transfer A) : ∑ a, x.net a = 0 := by
  simp only [Transfer.net, Pi.sub_apply, Finset.sum_sub_distrib, sum_single, sub_self]

theorem sum_nets (xs : List (Transfer A)) : ∑ a, nets xs a = 0 := by
  induction xs with
  | nil => simp [nets]
  | cons x xs ih =>
    simp only [nets, List.map_cons, List.sum_cons, Pi.add_apply, Finset.sum_add_distrib] at ih ⊢
    rw [sum_net, ih, add_zero]

/-- Of what a thread has still to do the sum is what is pending. -/
theorem sum_left (l : Pc A) : ∑ a, l.left a = l.pending := by
  cases l with
  | lock x rest p =>
    simp only [Pc.left, Pc.pending]
    split
    · simp only [Pi.add_apply, Finset.sum_add_distrib, sum_net, sum_nets, add_zero]
    · exact sum_nets rest
  | readFrom | writeFrom => simp only [Pc.left, Pc.pending, Pi.add_apply, Finset.sum_add_distrib, sum_net, sum_nets, add_zero]
  | readTo | writeTo =>
    simp only [Pc.left, Pc.pending, Pi.add_apply, Finset.sum_add_distrib, sum_single, sum_nets, add_zero]
  | done => simp [Pc.left, Pc.pending]

theorem sum_balances (h : (bank initial transfers).system.Reach s) :
    ∑ a, s.data a = ∑ a, initial a - ∑ t, (s.pc t).pending := by
  have hb := balances_eq h
  have hleft : ∑ a, total Pc.left s.pc a = ∑ t, (s.pc t).pending := by
    simp only [total, Finset.sum_apply]
    rw [Finset.sum_comm]
    exact Finset.sum_congr rfl fun t _ => sum_left _
  have hnets : ∑ a, (∑ t, nets (transfers t)) a = 0 := by
    simp only [Finset.sum_apply]
    rw [Finset.sum_comm]
    exact Finset.sum_eq_zero fun t _ => sum_nets _
  have hsum := congrArg (fun b => ∑ a, b a) hb
  simp only [Pi.add_apply, Finset.sum_add_distrib] at hsum
  rw [hleft, hnets] at hsum
  omega

omit [DecidableEq A] [Fintype A] in
theorem pending_of_not_inside {l : Pc A} (h : l.inside = false) : l.pending = 0 := by
  cases l with
  | lock | readFrom | writeFrom | done => rfl
  | readTo | writeTo => cases h

/-! ## The end -/

/-- What some transfers put into an account, and what they take out. -/
def credited (a : A) (xs : List (Transfer A)) : ℤ := ((xs.filter fun x => x.to_ = a).map Transfer.amount).sum

def debited (a : A) (xs : List (Transfer A)) : ℤ := ((xs.filter fun x => x.from_ = a).map Transfer.amount).sum

omit [Fintype A] in
theorem nets_apply (xs : List (Transfer A)) (a : A) : nets xs a = credited a xs - debited a xs := by
  induction xs with
  | nil => rfl
  | cons x xs ih =>
    simp only [nets, credited, debited, List.map_cons, List.sum_cons, Pi.add_apply, net_apply, List.filter_cons,
      decide_eq_true_eq] at ih ⊢
    rw [ih]
    split <;> split <;> simp <;> omega

omit [Fintype A] in
theorem balances_of_done (h : (bank initial transfers).system.Reach s) (hdone : ∀ t, s.pc t = .done) (a : A) :
    s.data a = initial a + ∑ t, credited a (transfers t) - ∑ t, debited a (transfers t) := by
  have hb := congrFun (balances_eq h) a
  have hleft : total Pc.left s.pc = 0 := Finset.sum_eq_zero fun t _ => by rw [hdone t]; rfl
  rw [hleft, add_zero] at hb
  rw [hb, Pi.add_apply, Finset.sum_apply, add_sub_assoc, ← Finset.sum_sub_distrib]
  exact congrArg _ (Finset.sum_congr rfl fun t _ => nets_apply _ a)

omit [Fintype A] in
theorem halt_iff {l : Pc A} : transfer l = .halt ↔ l = .done := by
  cases l with
  | lock x rest p => cases p <;> simp [transfer, Mutexes.scopedLock]
  | _ => simp [transfer]

/-- Money is conserved, no update is lost, and there is always a thread that can
go on. -/
theorem transfers_conserve (h : (bank initial transfers).system.Reach s) :
    ((∀ t, (s.pc t).inside = false) → ∑ a, s.data a = ∑ a, initial a) ∧
    ∑ a, s.data a = ∑ a, initial a - ∑ t, (s.pc t).pending ∧
    ((∀ t, s.pc t = .done) →
      ∀ a, s.data a = initial a + ∑ t, credited a (transfers t) - ∑ t, debited a (transfers t)) ∧
    ((∃ t, s.pc t ≠ .done) → ∃ t, s.pc t ≠ .done ∧ ∃ x, x.thread = t ∧ ((bank initial transfers).system.next s x).isSome) := by
  have hsum := sum_balances h
  refine ⟨fun hout => ?_, hsum, balances_of_done h, ?_⟩
  · rw [hsum, Finset.sum_eq_zero fun t _ => pending_of_not_inside (hout t), sub_zero]
  · rintro ⟨t, ht⟩
    obtain ⟨u, hu, hx⟩ := bank_discipline.exists_step h ⟨t, fun hc => ht (halt_iff.mp hc)⟩
    exact ⟨u, fun he => hu (halt_iff.mpr he), hx⟩

/-- `false` transfers 10 from the one account to the other, and `true` 5 back. -/
def crossing : Bool → List (Transfer Bool)
  | false => [⟨false, true, 10, by decide⟩]
  | true => [⟨true, false, 5, by decide⟩]

/-- Each has locked one account; `false` backs off and comes second. -/
def crossingRun : List (Mutexes.Act Bool) :=
  [.choose false true, .exec false, .choose true true, .exec true, .fail false, .exec false,
    .exec true, .exec true, .exec true, .exec true, .exec true, .choose true true, .exec true, .exec true,
    .choose false true, .exec false, .exec false, .exec false, .exec false, .exec false, .exec false,
    .choose false false, .exec false, .exec false]

theorem transfers_conserve_crossing :
    ∃ s, (bank (fun _ => 100) crossing).system.run (bank (fun _ => 100) crossing).system.start crossingRun = some s ∧
      s.data false = 95 ∧ s.data true = 105 := by
  have hr : ((bank (fun _ => 100) crossing).system.run (bank (fun _ => 100) crossing).system.start crossingRun).any
      (fun s => decide (∀ t, s.pc t = .done)) = true := by decide
  obtain ⟨s, hs, hp⟩ := System.exists_of_run hr
  obtain ⟨-, -, hdone, -⟩ := transfers_conserve (System.reach_of_run hs)
  have hbalance := hdone (of_decide_eq_true hp)
  exact ⟨s, hs, (hbalance false).trans (by decide), (hbalance true).trans (by decide)⟩

end TKH.ScopedLock
