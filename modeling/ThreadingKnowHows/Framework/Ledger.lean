import Mathlib.Algebra.Group.Basic
import Mathlib.Data.Multiset.Range
import Mathlib.Tactic.Abel
import ThreadingKnowHows.Framework.Lock
import ThreadingKnowHows.Framework.Total

/-!
# Conservation

If each command moves a quantity between the shared data and the thread that
runs it, without making or losing any (`Cmd.Conserves`), the data and the
threads together hold what the data says they should (`Ledger.balanced`). With
multisets this says where every item is.
-/

namespace TKH

variable {τ C D L M : Type*} [AddCancelCommMonoid M]

/-- The command at `l` keeps `φ` of the data, plus what the threads hold
(`w`), equal to `ψ` of the data. -/
def Cmd.Conserves (held : L → Bool) (pre : L → D → Prop) (φ ψ : D → M) (w : L → M) (l : L) :
    Cmd τ C D L → Prop
  | .act f => ∀ d, (held l = true → pre l d) →
      φ (f d).1 + w (f d).2 + ψ d = φ d + w l + ψ (f d).1
  | .lock k => w k = w l
  | .unlock k => w k = w l
  | .wait _ k => w k = w l
  | .notifyOne _ k => w k = w l
  | .notifyAll _ k => w k = w l
  | .join _ k => w k = w l
  | .pick ok => ∀ d k, ok d k → w k = w l
  | .ext _ ok => ∀ k, ok k → w k = w l
  | .halt => True

variable [Fintype τ]

/-- What the data and the threads hold. -/
def holding (φ : D → M) (w : L → M) (s : State τ C D L) : M :=
  φ s.data + total (fun x => w x.point) s.th

structure Ledger (P : Program τ C D L) (held : L → Bool) (inv : D → Prop) (pre : L → D → Prop)
    (φ ψ : D → M) (w : L → M) : Prop extends Annotation P held inv pre where
  opens : φ P.init + total w P.entry = ψ P.init
  conserves : ∀ t l, (P.code t l).Conserves held pre φ ψ w l

variable [DecidableEq τ] {P : Program τ C D L} {held : L → Bool} {inv : D → Prop}
  {pre : L → D → Prop} {φ ψ : D → M} {w : L → M}

omit [DecidableEq τ] in
theorem Ledger.conserves_at (h : Ledger P held inv pre φ ψ w) {t : τ} {l : L} {c : Cmd τ C D L}
    (hc : P.code t l = c) : c.Conserves held pre φ ψ w l := by
  rw [← hc]
  exact h.conserves t l

/-- A thread that moves without changing what it holds. -/
theorem holding_move {s : State τ C D L} {t : τ} {x : Status C L} {o : Option τ}
    (hx : w x.point = w (s.th t).point) :
    holding φ w ⟨o, s.data, Function.update s.th t x⟩ = holding φ w s :=
  congrArg (φ s.data + ·) (total_update_eq (w := fun x : Status C L => w x.point) hx)

variable [DecidableEq C]

theorem Ledger.balanced_step (h : Ledger P held inv pre φ ψ w) {s s' : State τ C D L} {a : Act τ L}
    (hs : P.Step s a s') (hsound : Sound held inv pre s) (hi : holding φ w s = ψ s.data) :
    holding φ w s' = ψ s'.data := by
  have hmove : ∀ {s₁ : State τ C D L} {t l k o}, holding φ w s₁ = ψ s₁.data → s₁.th t = .run l →
      w k = w l → holding φ w ⟨o, s₁.data, Function.update s₁.th t (.run k)⟩ = ψ s₁.data := by
    intro s₁ t l k o h₁ hl hk
    rw [holding_move (by simpa [hl] using hk)]; exact h₁
  have hwake : ∀ {u c k}, s.th u = .asleep c k →
      holding φ w { s with th := Function.update s.th u (.woken k) } = ψ s.data := by
    intro u c k hk
    rw [holding_move (by simp [hk])]; exact hi
  cases hs with
  | @act t l f hl hc =>
    have hg := h.conserves_at hc s.data fun hh => hsound.holds t l hl hh
    have ht := total_update (fun x : Status C L => w x.point) s.th t (.run (f s.data).2)
    simp only [hl, Status.point_run] at ht
    simp only [holding, State.goto] at hi ⊢
    generalize total (fun x : Status C L => w x.point) s.th = T at hi ht
    generalize total (fun x : Status C L => w x.point) (Function.update s.th t (.run (f s.data).2)) = T' at ht ⊢
    refine add_right_cancel (b := w l + ψ s.data) ?_
    calc φ (f s.data).1 + T' + (w l + ψ s.data)
      _ = φ (f s.data).1 + (T' + w l) + ψ s.data := by abel
      _ = (φ (f s.data).1 + w (f s.data).2 + ψ s.data) + T := by rw [ht]; abel
      _ = (φ s.data + T) + w l + ψ (f s.data).1 := by rw [hg]; abel
      _ = ψ (f s.data).1 + (w l + ψ s.data) := by rw [hi]; abel
  | lock hl hc | unlock hl hc | notifyNone hl hc | join hl hc => exact hmove hi hl (h.conserves_at hc)
  | wait hl hc =>
    rw [holding_move (by rw [hl]; exact h.conserves_at hc)]
    exact hi
  | @notifyOne t u l c k k' hl hc hw =>
    have hne : t ≠ u := by rintro rfl; rw [hl] at hw; cases hw
    exact hmove (hwake hw) (by simpa [Function.update_of_ne hne] using hl) (h.conserves_at hc)
  | @notifyAll t l c k hl hc =>
    have hr : holding φ w { s with th := fun u => (s.th u).rouse c } = ψ s.data := by
      rw [← hi]; exact congrArg (φ s.data + ·) (total_congr fun u => by rw [Status.point_rouse])
    exact hmove hr (Status.rouse_eq_run.mpr hl) (h.conserves_at hc)
  | pick hl hc hk => exact hmove hi hl (h.conserves_at hc _ _ hk)
  | ext hl hc _ hk => exact hmove hi hl (h.conserves_at hc _ hk)
  | @relock t k hk _ =>
    have hp : w (.run k : Status C L).point = w (s.th t).point := by simp [hk]
    exact (holding_move hp).trans hi
  | @spurious t c k hk => exact hwake hk

/-- The books balance in every run. -/
theorem Ledger.balanced (h : Ledger P held inv pre φ ψ w) {s : State τ C D L} (hs : P.system.Reach s) :
    φ s.data + total (fun x => w x.point) s.th = ψ s.data :=
  hs.inv (I := fun s => holding φ w s = ψ s.data) h.opens fun hr _ ha hi =>
    h.balanced_step (P.step_of_next ha) (h.sound hr) hi

/-! ## Things that threads hold -/

omit [DecidableEq τ] in
/-- How often `j` is held, if a thread holds at most one thing. -/
theorem count_total {β γ : Type*} [DecidableEq γ] (g : β → Option γ) (f : τ → β) (j : γ) :
    (total (fun x => (g x).elim (0 : Multiset γ) fun j => {j}) f).count j =
      (Finset.univ.filter fun t => g (f t) = some j).card := by
  rw [total, Multiset.count_sum', Finset.card_filter]
  refine Finset.sum_congr rfl fun t _ => ?_
  cases ht : g (f t) <;> simp [Multiset.count_singleton, eq_comm]

/-- Numbered things, of which a thread holds at most one: each is in one place. -/
theorem Ledger.one_place {ids : D → Multiset ℕ} {n : D → ℕ} {g : L → Option ℕ}
    (h : Ledger P held inv pre ids (fun d => Multiset.range (n d)) fun l => (g l).elim 0 fun j => {j})
    {s : State τ C D L} (hs : P.system.Reach s) (j : ℕ) :
    (ids s.data).count j + (Finset.univ.filter fun t => g (s.th t).point = some j).card =
      if j < n s.data then 1 else 0 := by
  have hb := congrArg (Multiset.count j) (h.balanced hs)
  rwa [Multiset.count_add, count_total (fun x : Status C L => g x.point), ← Multiset.coe_range, Multiset.coe_count,
    List.count_range] at hb

end TKH
