import Mathlib.Data.List.Nodup
import Mathlib.Data.Nat.ModEq
import Mathlib.Tactic.Common

/-!
# The choice of a deque

`WorkStealingPool::submit` of `03_patterns/07_work_stealing.cpp` chooses the
deque `rr.fetch_add(1) % int(data_.size())`. The counter `rr` is an `int` that
all pools of the process share, it wraps, and `%` truncates: its result has the
sign of the counter. As an index it becomes a `size_t`.
-/

namespace TKH.WorkStealing.RoundRobin

/-- A pool is known by `data_.size()`, which an `int` can hold. -/
structure Pool where
  size : ℕ
  pos : 1 ≤ size
  fits : size < 2 ^ 31

/-- `submit`, as far as it chooses a deque: `who`, and what is left in `rr`. -/
def submit (pool : Pool) (rr : BitVec 32) : BitVec 32 × BitVec 32 :=
  (rr.srem (BitVec.ofNat 32 pool.size), rr + 1)

/-- Consecutive calls of `submit`, each on a pool of its own choice. -/
def submits : List Pool → BitVec 32 → List (BitVec 32) × BitVec 32
  | [], rr => ([], rr)
  | pool :: pools, rr =>
    let (who, rr) := submit pool rr
    let (whos, rr) := submits pools rr
    (who :: whos, rr)

/-- `data_[who]`, if it is in range. -/
def Pool.deque (pool : Pool) (who : BitVec 32) : Option (Fin pool.size) :=
  let i := (who.signExtend 64).toNat
  if h : i < pool.size then some ⟨i, h⟩ else none

/-! ## The counter -/

/-- A call, and `n` more. -/
theorem add_one_ofNat (rr : BitVec 32) (n : ℕ) : rr + 1 + BitVec.ofNat 32 n = rr + BitVec.ofNat 32 (n + 1) := by
  rw [BitVec.ofNat_add, BitVec.add_assoc]
  exact congrArg (rr + ·) (BitVec.add_comm _ _)

theorem submits_rr (pools : List Pool) (rr : BitVec 32) : (submits pools rr).2 = rr + BitVec.ofNat 32 pools.length := by
  induction pools generalizing rr with
  | nil => simp [submits]
  | cons pool pools ih =>
    simp only [submits, submit, ih, List.length_cons, add_one_ofNat]

/-- The calls of one pool take the values of the counter in order. -/
theorem submits_replicate (pool : Pool) (n : ℕ) (rr : BitVec 32) :
    (submits (List.replicate n pool) rr).1 = (List.range n).map fun i => (submit pool (rr + BitVec.ofNat 32 i)).1 := by
  induction n generalizing rr with
  | zero => rfl
  | succ n ih =>
    simp only [List.replicate_succ, submits, submit, ih, List.range_succ_eq_map, List.map_cons, List.map_map,
      List.cons.injEq]
    refine ⟨by simp, List.map_congr_left fun i _ => ?_⟩
    simp only [Function.comp, Nat.succ_eq_add_one, add_one_ofNat]

/-- The value that `fetch_add` returns after `k` calls. -/
theorem toInt_rr (k : ℕ) : (BitVec.ofNat 32 k).toInt =
    if k % 2 ^ 32 < 2 ^ 31 then ((k % 2 ^ 32 : ℕ) : ℤ) else ((k % 2 ^ 32 : ℕ) : ℤ) - 2 ^ 32 := by
  rw [BitVec.toInt_eq_toNat_cond, BitVec.toNat_ofNat]
  split <;> split <;> omega

/-! ## The index -/

variable (pool : Pool)

theorem who_toInt (rr : BitVec 32) : (submit pool rr).1.toInt = rr.toInt.tmod pool.size := by
  have hsize : (BitVec.ofNat 32 pool.size).toInt = pool.size := by
    have := pool.fits
    rw [toInt_rr, Nat.mod_eq_of_lt (by omega), if_pos this]
  rw [submit, BitVec.toInt_srem, hsize]

theorem who_lt (rr : BitVec 32) : (submit pool rr).1.toInt < pool.size := by
  rw [who_toInt]
  exact Int.tmod_lt_of_pos _ (by exact_mod_cast pool.pos)

/-- A negative `who` is out of range: as a `size_t` it is huge. -/
theorem deque_eq_some {rr : BitVec 32} {d : Fin pool.size} :
    pool.deque (submit pool rr).1 = some d ↔ (submit pool rr).1.toInt = d := by
  have hlt := who_lt pool rr
  have hfits := pool.fits
  have hd := d.isLt
  generalize (submit pool rr).1 = who at hlt ⊢
  have hext : (who.signExtend 64).toInt = who.toInt := BitVec.toInt_signExtend_of_le (by decide)
  rw [BitVec.toInt_eq_toNat_cond] at hext
  have hnat := (who.signExtend 64).isLt
  have hlow := BitVec.le_toInt who
  simp only [Pool.deque]
  split
  · rename_i h
    rw [Option.some.injEq, Fin.ext_iff, if_pos (by omega)] at *
    simp only
    omega
  · rename_i h
    refine ⟨fun hn => (by cases hn), fun he => ?_⟩
    split at hext <;> omega

theorem deque_isSome (rr : BitVec 32) : (pool.deque (submit pool rr).1).isSome = true ↔ 0 ≤ (submit pool rr).1.toInt := by
  rw [Option.isSome_iff_exists]
  constructor
  · rintro ⟨d, hd⟩
    rw [(deque_eq_some pool).mp hd]
    exact Int.natCast_nonneg _
  · intro h
    have hlt := who_lt pool rr
    exact ⟨⟨(submit pool rr).1.toInt.toNat, by omega⟩, (deque_eq_some pool).mpr (Int.toNat_of_nonneg h).symm⟩

/-- A remainder is not negative if the counter is not, or is a multiple of the
size. -/
theorem tmod_nonneg_iff {a : ℤ} {n : ℕ} : 0 ≤ a.tmod n ↔ 0 ≤ a ∨ (n : ℤ) ∣ a := by
  constructor
  · intro h
    by_contra hn
    push Not at hn
    have hneg := Int.tmod_nonneg n (a := -a) (by omega)
    rw [Int.neg_tmod] at hneg
    exact hn.2 (Int.dvd_of_tmod_eq_zero (by omega))
  · rintro (h | h)
    · exact Int.tmod_nonneg _ h
    · rw [Int.tmod_eq_zero_of_dvd h]

/-! ## Consecutive calls -/

theorem toInt_nonneg_iff (k : ℕ) : 0 ≤ (BitVec.ofNat 32 k).toInt ↔ k % 2 ^ 32 < 2 ^ 31 := by
  rw [toInt_rr]
  split <;> omega

theorem toInt_dvd_iff {k n : ℕ} (h : ¬ k % 2 ^ 32 < 2 ^ 31) :
    (n : ℤ) ∣ (BitVec.ofNat 32 k).toInt ↔ n ∣ 2 ^ 32 - k % 2 ^ 32 := by
  have hk : (BitVec.ofNat 32 k).toInt = -((2 ^ 32 - k % 2 ^ 32 : ℕ) : ℤ) := by
    rw [toInt_rr, if_neg h]
    omega
  rw [hk, Int.dvd_neg, Int.natCast_dvd_natCast]

/-- When the index is in range. -/
theorem in_range_iff (k : ℕ) : 0 ≤ (submit pool (BitVec.ofNat 32 k)).1.toInt ↔
    k % 2 ^ 32 < 2 ^ 31 ∨ pool.size ∣ 2 ^ 32 - k % 2 ^ 32 := by
  rw [who_toInt, tmod_nonneg_iff, toInt_nonneg_iff]
  by_cases h : k % 2 ^ 32 < 2 ^ 31
  · exact ⟨fun _ => .inl h, fun _ => .inl h⟩
  · rw [toInt_dvd_iff h]

/-- The `size` calls that begin with the counter at `k` stay below `INT_MAX`,
or reach `INT_MIN` with the last of them, where the size divides it. -/
def Window (k : ℕ) : Prop :=
  pool.size = 1 ∨ k % 2 ^ 32 + pool.size ≤ 2 ^ 31 ∨ (k % 2 ^ 32 + pool.size = 2 ^ 31 + 1 ∧ pool.size ∣ 2 ^ 31)

variable {pool}

/-- In the window the calls go round the deques. -/
theorem Window.deque {k : ℕ} (h : Window pool k) {i : ℕ} (hi : i < pool.size) :
    pool.deque (submit pool (BitVec.ofNat 32 (k + i))).1 =
      some ⟨(k % 2 ^ 32 + i) % pool.size, Nat.mod_lt _ pool.pos⟩ := by
  have hfits := pool.fits
  rw [deque_eq_some, who_toInt, toInt_rr]
  change _ = (((k % 2 ^ 32 + i) % pool.size : ℕ) : ℤ)
  -- up to `INT_MAX` the remainder is that of naturals
  have hround : k % 2 ^ 32 + i < 2 ^ 31 →
      (if (k + i) % 2 ^ 32 < 2 ^ 31 then (((k + i) % 2 ^ 32 : ℕ) : ℤ) else (((k + i) % 2 ^ 32 : ℕ) : ℤ) - 2 ^ 32).tmod
        pool.size = (((k % 2 ^ 32 + i) % pool.size : ℕ) : ℤ) := fun hlt => by
    rw [if_pos (by omega), show (k + i) % 2 ^ 32 = k % 2 ^ 32 + i by omega]
    exact (Int.ofNat_tmod _ _).symm
  rcases h with h1 | hle | ⟨heq, hdvd⟩
  · rw [h1, Nat.mod_one]
    exact Int.tmod_one _
  · exact hround (by omega)
  · by_cases hlast : k % 2 ^ 32 + i < 2 ^ 31
    · exact hround hlast
    · -- the counter has become `INT_MIN`, a multiple of the size
      have hneg : ((pool.size : ℕ) : ℤ) ∣ ((2 ^ 31 : ℕ) : ℤ) - 2 ^ 32 := by
        have := Int.dvd_neg.mpr (Int.natCast_dvd_natCast.mpr hdvd)
        exact this.trans (dvd_of_eq (by decide))
      rw [show (k + i) % 2 ^ 32 = 2 ^ 31 by omega, if_neg (by omega), Int.tmod_eq_zero_of_dvd hneg,
        show k % 2 ^ 32 + i = 2 ^ 31 by omega, Nat.mod_eq_zero_of_dvd hdvd]
      rfl

theorem Window.distinct {k : ℕ} (h : Window pool k) : ∃ ds : List (Fin pool.size),
    (submits (List.replicate pool.size pool) (BitVec.ofNat 32 k)).1.map pool.deque = ds.map some ∧ ds.Nodup := by
  refine ⟨(List.range pool.size).map fun i => ⟨(k % 2 ^ 32 + i) % pool.size, Nat.mod_lt _ pool.pos⟩, ?_, ?_⟩
  · rw [submits_replicate, List.map_map, List.map_map]
    refine List.map_congr_left fun i hi => ?_
    simp only [Function.comp, ← BitVec.ofNat_add]
    exact h.deque (List.mem_range.mp hi)
  · refine List.Nodup.map_on (fun i hi j hj he => ?_) List.nodup_range
    have hmod : k % 2 ^ 32 + i ≡ k % 2 ^ 32 + j [MOD pool.size] := Fin.mk.inj he
    exact hmod.add_left_cancel'.eq_of_lt_of_lt (List.mem_range.mp hi) (List.mem_range.mp hj)

/-- All calls in range: of two consecutive values of the counter that are
negative, one is not a multiple of the size. -/
theorem window_of_in_range {k : ℕ} (h : ∀ i < pool.size, 0 ≤ (submit pool (BitVec.ofNat 32 (k + i))).1.toInt) :
    Window pool k := by
  have hfits := pool.fits
  have hpos := pool.pos
  by_cases h1 : pool.size = 1
  · exact .inl h1
  by_cases hle : k % 2 ^ 32 + pool.size ≤ 2 ^ 31
  · exact .inr (.inl hle)
  -- no size but 1 divides two consecutive numbers
  have hone : ∀ {a b : ℕ}, pool.size ∣ a → pool.size ∣ b → a = b + 1 → False := by
    rintro a b ha hb rfl
    exact h1 (Nat.dvd_one.mp ((Nat.dvd_add_right hb).mp ha))
  have hdvd : ∀ i < pool.size, 2 ^ 31 ≤ (k + i) % 2 ^ 32 → pool.size ∣ 2 ^ 32 - (k + i) % 2 ^ 32 := fun i hi hge =>
    ((in_range_iff pool (k + i)).mp (h i hi)).resolve_left (by omega)
  by_cases hneg : k % 2 ^ 32 < 2 ^ 31
  · have hmin := hdvd (2 ^ 31 - k % 2 ^ 32) (by omega) (by omega)
    rw [show 2 ^ 32 - (k + (2 ^ 31 - k % 2 ^ 32)) % 2 ^ 32 = 2 ^ 31 by omega] at hmin
    refine .inr (.inr ⟨?_, hmin⟩)
    by_contra hne
    have hnext := hdvd (2 ^ 31 - k % 2 ^ 32 + 1) (by omega) (by omega)
    exact hone hmin hnext (by omega)
  · exfalso
    have hfirst := hdvd 0 (by omega) (by omega)
    by_cases hwrap : k % 2 ^ 32 + 1 = 2 ^ 32
    · -- the counter is `-1`
      rw [show 2 ^ 32 - (k + 0) % 2 ^ 32 = 1 by omega] at hfirst
      exact h1 (Nat.dvd_one.mp hfirst)
    · have hnext := hdvd 1 (by omega) (by omega)
      exact hone hfirst hnext (by omega)

theorem window_of_distinct {k : ℕ} (h : ∃ ds : List (Fin pool.size),
    (submits (List.replicate pool.size pool) (BitVec.ofNat 32 k)).1.map pool.deque = ds.map some ∧ ds.Nodup) :
    Window pool k := by
  obtain ⟨ds, hds, -⟩ := h
  refine window_of_in_range fun i hi => ?_
  rw [← deque_isSome]
  have hmem : pool.deque (submit pool (BitVec.ofNat 32 (k + i))).1 ∈ ds.map some := by
    rw [← hds, submits_replicate, List.map_map, List.mem_map]
    exact ⟨i, List.mem_range.mpr hi, by simp only [Function.comp, BitVec.ofNat_add]⟩
  obtain ⟨d, -, hd⟩ := List.mem_map.mp hmem
  rw [← hd]
  rfl

/-- After any calls of `submit` in the process: when the next one picks an
existing deque, and when the next `size` ones pick all deques, one each. -/
theorem submit_picks_iff (earlier : List Pool) (pool : Pool) :
    let rr := (submits earlier 0).2
    let who := (submit pool rr).1
    let k := earlier.length % 2 ^ 32
    ((0 ≤ who.toInt ∧ who.toInt < pool.size ∧ (pool.deque who).isSome = true) ↔
      k < 2 ^ 31 ∨ pool.size ∣ 2 ^ 32 - k) ∧
    ((∃ ds : List (Fin pool.size),
        (submits (List.replicate pool.size pool) rr).1.map pool.deque = ds.map some ∧ ds.Nodup) ↔
      pool.size = 1 ∨ k + pool.size ≤ 2 ^ 31 ∨ (k + pool.size = 2 ^ 31 + 1 ∧ pool.size ∣ 2 ^ 31)) := by
  intro rr who k
  have hrr : rr = BitVec.ofNat 32 earlier.length := by simp [rr, submits_rr]
  refine ⟨?_, ?_⟩
  · simp only [who, deque_isSome, who_lt, true_and, and_self, hrr]
    exact in_range_iff pool earlier.length
  · rw [hrr]
    exact ⟨window_of_distinct, Window.distinct⟩

/-- The pool of `main`, when `rr` has passed `INT_MAX`. -/
theorem submit_out_of_range :
    let pool : Pool := ⟨4, by decide, by decide⟩
    let rr := (submits (List.replicate (2 ^ 31 + 1) pool) 0).2
    (submit pool rr).1.toInt = -3 ∧ pool.deque (submit pool rr).1 = none ∧
      ¬ ∃ ds : List (Fin pool.size),
        (submits (List.replicate pool.size pool) rr).1.map pool.deque = ds.map some ∧ ds.Nodup := by
  intro pool rr
  have hrr : rr = BitVec.ofNat 32 (2 ^ 31 + 1) := by
    rw [show rr = _ from submits_rr _ _, List.length_replicate]
    exact BitVec.zero_add _
  clear_value rr
  subst hrr
  refine ⟨by decide, by decide, fun h => ?_⟩
  rcases window_of_distinct h with h | h | ⟨h, -⟩ <;> revert h <;> decide

end TKH.WorkStealing.RoundRobin
