import Mathlib.Algebra.BigOperators.Group.List.Basic
import ThreadingKnowHows.ActiveObject.Drain
import ThreadingKnowHows.Framework.Long

/-!
# The balance

What the functions that `Account::deposit` and `Account::withdraw` post do to
`balance_`, which is a `long`: the worker executes them one after another. The
amounts are not checked, so they may be negative, and a sum may overflow. As
long as they do not (`Admissible`), the balance is that of the account with
integers (`Sound.runs`).
-/

namespace TKH.ActiveObject

/-- A call of `deposit` or `withdraw`. -/
inductive Transaction
  | deposit (amount : Long)
  | withdraw (amount : Long)

def Transaction.amount : Transaction → Long
  | deposit amount | withdraw amount => amount

/-- What a call pays in. -/
def Transaction.deposited : Transaction → ℤ
  | deposit amount => amount.val
  | withdraw _ => 0

/-- The posted function, from one balance to the next. -/
def Transaction.job (balance : Long) : Transaction → Option Long
  | deposit amount => balance.add amount
  | withdraw amount => if balance ≥ amount then balance.sub amount else some balance

/-- The way in which a call may change the balance. -/
def Transaction.Moves (b b' : Long) : Transaction → Prop
  | deposit _ => b ≤ b'
  | withdraw _ => b' ≤ b

/-- From `balance` on nothing overflows, the balance is never negative, and it
only moves the right way. -/
def Sound : Long → List Transaction → Prop
  | _, [] => True
  | balance, r :: rs => ∃ b, r.job balance = some b ∧ 0 ≤ b ∧ r.Moves balance b ∧ Sound b rs

/-- From `balance` on no amount is negative, and no deposit takes the balance
above `LONG_MAX`. -/
def Admissible : ℤ → List Transaction → Prop
  | _, [] => True
  | balance, .deposit amount :: rs =>
    0 ≤ amount.val ∧ balance + amount.val ≤ Long.maxValue.val ∧ Admissible (balance + amount.val) rs
  | balance, .withdraw amount :: rs =>
    0 ≤ amount.val ∧ Admissible (if amount.val ≤ balance then balance - amount.val else balance) rs

/-! ## One call -/

variable {b b' amount : Long}

/-- A deposit is sound if it is of no negative amount and fits. -/
theorem deposit_iff (hb : 0 ≤ b) :
    (∃ b', (Transaction.deposit amount).job b = some b' ∧ 0 ≤ b' ∧ (Transaction.deposit amount).Moves b b') ↔
      0 ≤ amount.val ∧ b.val + amount.val ≤ Long.maxValue.val := by
  have hb0 : 0 ≤ b.val := hb
  constructor
  · rintro ⟨b', hjob, -, hmoves⟩
    have hval := Long.add_eq_some.mp hjob
    have hle : b.val ≤ b'.val := hmoves
    have hfits := b'.fits.2
    exact ⟨by omega, by rw [← hval]; exact Int.le_sub_one_of_lt hfits⟩
  · rintro ⟨ha, hmax⟩
    have hfits : FitsLong (b.val + amount.val) := ⟨by omega, Int.lt_of_le_sub_one hmax⟩
    exact ⟨⟨_, hfits⟩, Long.add_eq_some.mpr rfl, by rw [Long.le_iff]; simp only [Long.val_zero]; omega,
      show b.val ≤ b.val + amount.val by omega⟩

/-- A withdrawal is sound if it is of no negative amount: the guard does the rest. -/
theorem withdraw_iff (hb : 0 ≤ b) :
    (∃ b', (Transaction.withdraw amount).job b = some b' ∧ 0 ≤ b' ∧ (Transaction.withdraw amount).Moves b b') ↔
      0 ≤ amount.val := by
  have hb0 : 0 ≤ b.val := hb
  simp only [Transaction.job]
  split
  · rename_i hge
    have hle : amount.val ≤ b.val := hge
    constructor
    · rintro ⟨b', hjob, -, hmoves⟩
      have hval := Long.sub_eq_some.mp hjob
      have hle' : b'.val ≤ b.val := hmoves
      omega
    · intro ha
      have hfits : FitsLong (b.val - amount.val) := by
        have := b.fits
        exact ⟨by omega, by have := this.2; omega⟩
      exact ⟨⟨_, hfits⟩, Long.sub_eq_some.mpr rfl, by rw [Long.le_iff]; simp only [Long.val_zero]; omega,
        show b.val - amount.val ≤ b.val by omega⟩
  · rename_i hlt
    have hlt' : b.val < amount.val := not_le.mp hlt
    exact ⟨fun _ => by omega, fun _ => ⟨b, rfl, hb, le_refl b.val⟩⟩

theorem withdraw_val (h : (Transaction.withdraw amount).job b = some b') :
    b'.val = if amount.val ≤ b.val then b.val - amount.val else b.val := by
  simp only [Transaction.job] at h
  split at h
  · rename_i hge
    rw [if_pos (Long.le_iff.mp hge), Long.sub_eq_some.mp h]
  · rename_i hlt
    cases h
    rw [if_neg (fun hle => hlt (Long.le_iff.mpr hle))]

/-! ## All calls -/

/-- Amounts that are not negative, and deposits of `LONG_MAX` in total: the
calls are admissible, in any order. -/
theorem admissible_of_total {rs : List Transaction} {balance : ℤ} (hamount : ∀ r ∈ rs, 0 ≤ r.amount.val)
    (htotal : balance + (rs.map Transaction.deposited).sum ≤ Long.maxValue.val) : Admissible balance rs := by
  induction rs generalizing balance with
  | nil => trivial
  | cons r rs ih =>
    have hr := hamount r List.mem_cons_self
    have hrs := fun r' h => hamount r' (List.mem_cons_of_mem r h)
    have hsum : 0 ≤ (rs.map Transaction.deposited).sum := List.sum_nonneg fun v hv => by
      obtain ⟨r', hr', rfl⟩ := List.mem_map.mp hv
      cases r' with
      | deposit => exact hrs _ hr'
      | withdraw => exact le_rfl
    rw [List.map_cons, List.sum_cons] at htotal
    cases r with
    | deposit amount =>
      change 0 ≤ amount.val at hr
      change balance + (amount.val + _) ≤ _ at htotal
      exact ⟨hr, by omega, ih hrs (by omega)⟩
    | withdraw amount =>
      change 0 ≤ amount.val at hr
      change balance + (0 + _) ≤ _ at htotal
      refine ⟨hr, ih hrs ?_⟩
      split <;> omega

theorem sound_iff {rs : List Transaction} (hb : 0 ≤ b) : Sound b rs ↔ Admissible b.val rs := by
  induction rs generalizing b with
  | nil => exact Iff.rfl
  | cons r rs ih =>
    cases r with
    | deposit amount =>
      constructor
      · rintro ⟨b', hjob, hpos, hmoves, hrest⟩
        obtain ⟨ha, hmax⟩ := (deposit_iff hb).mp ⟨b', hjob, hpos, hmoves⟩
        rw [ih hpos, Long.add_eq_some.mp hjob] at hrest
        exact ⟨ha, hmax, hrest⟩
      · rintro ⟨ha, hmax, hrest⟩
        obtain ⟨b', hjob, hpos, hmoves⟩ := (deposit_iff hb).mpr ⟨ha, hmax⟩
        refine ⟨b', hjob, hpos, hmoves, (ih hpos).mpr ?_⟩
        rwa [Long.add_eq_some.mp hjob]
    | withdraw amount =>
      constructor
      · rintro ⟨b', hjob, hpos, hmoves, hrest⟩
        have ha := (withdraw_iff hb).mp ⟨b', hjob, hpos, hmoves⟩
        rw [ih hpos, withdraw_val hjob] at hrest
        exact ⟨ha, hrest⟩
      · rintro ⟨ha, hrest⟩
        obtain ⟨b', hjob, hpos, hmoves⟩ := (withdraw_iff hb).mpr ha
        refine ⟨b', hjob, hpos, hmoves, (ih hpos).mpr ?_⟩
        rwa [withdraw_val hjob]

/-- The call, as one of the account with integers. -/
def Transaction.op : Transaction → Op
  | deposit amount => .deposit amount.val
  | withdraw amount => .withdraw amount.val

theorem job_sequential {r : Transaction} (h : r.job b = some b') :
    ∃ ret, sequential.apply b.val r.op = some (ret, b'.val) := by
  cases r with
  | deposit amount =>
    rw [Long.add_eq_some.mp h]
    exact ⟨_, rfl⟩
  | withdraw amount =>
    rw [withdraw_val h]
    simp only [Transaction.op, sequential, ge_iff_le]
    split <;> exact ⟨_, rfl⟩

/-- Without an overflow the account is the one with integers. -/
theorem Sound.runs {rs : List Transaction} (h : Sound b rs) :
    ∃ h b', h.map Prod.fst = rs.map Transaction.op ∧ sequential.Runs b.val h b' := by
  induction rs generalizing b with
  | nil => exact ⟨[], b.val, rfl, rfl⟩
  | cons r rs ih =>
    obtain ⟨b₁, hjob, -, -, hrest⟩ := h
    obtain ⟨ret, hret⟩ := job_sequential hjob
    obtain ⟨h, b', hops, hruns⟩ := ih hrest
    exact ⟨(r.op, ret) :: h, b', by rw [List.map_cons, List.map_cons, hops], b₁.val, hret, hruns⟩

/-- Exactly as long as no amount is negative and no deposit takes the balance
above `LONG_MAX`, it is never negative, moves the right way and does not
overflow. -/
theorem account_sound_iff (rs : List Transaction) : Sound 0 rs ↔ Admissible 0 rs :=
  sound_iff le_rfl

/-- Negative amounts turn a deposit into a withdrawal that is not guarded, and
the other way round; and sums overflow. -/
theorem account_unsound :
    Transaction.job 0 (.deposit ⟨-1, by decide⟩) = some ⟨-1, by decide⟩ ∧
    Transaction.job 0 (.withdraw ⟨-1, by decide⟩) = some ⟨1, by decide⟩ ∧
    Transaction.job Long.maxValue (.deposit ⟨1, by decide⟩) = none ∧
    Transaction.job 0 (.withdraw Long.minValue) = none ∧
    ¬ ∀ rs, Sound 0 rs := by
  refine ⟨by decide, by decide, by decide, by decide, fun h => ?_⟩
  have hdeposit : Admissible 0 [.deposit ⟨-1, by decide⟩] := (sound_iff le_rfl).mp (h _)
  exact absurd hdeposit.1 (by decide)

end TKH.ActiveObject
