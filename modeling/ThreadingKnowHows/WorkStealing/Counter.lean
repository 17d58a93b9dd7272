import ThreadingKnowHows.Framework.Layer
import ThreadingKnowHows.WorkStealing.Model
import ThreadingKnowHows.WorkStealing.RoundRobin

/-!
# The pool with the counter that chooses a deque

In `pool` a call of `submit` may push to any deque. Here it pushes to the one that
`rr.fetch_add(1) % int(data_.size())` names (`counted`). `rr` belongs to the process, so
that calls on other pools change it too, at any time, also before this pool is made.
When the index is out of range the behaviour is undefined: anything may follow.

As long as that does not happen (`InRange`), a run of `counted` is a run of `pool`
(`layer`).
-/

namespace TKH.WorkStealing

variable {n : ℕ} {E : Type} [DecidableEq E] [Fintype E]

/-- The deque that `submit` chooses when `fetch_add` returns `rr`, if the index is in
range. A size that is zero, or that an `int` does not hold, has none. -/
def pick (n : ℕ) (rr : BitVec 32) : Option (Fin n) :=
  if h : 1 ≤ n ∧ n < 2 ^ 31 then
    let pool : RoundRobin.Pool := ⟨n, h.1, h.2⟩
    pool.deque (RoundRobin.submit pool rr).1
  else none

structure Counted (n : ℕ) (E : Type) where
  pool : State (Thread n E) Empty (Data n) (Pc n)
  rr : BitVec 32

inductive CountedAct (n : ℕ) (E : Type)
  | step (a : Act (Thread n E) (Pc n))
  /-- A call of `submit` on another pool of the process. -/
  | elsewhere
  /-- The call that begins with `a` chooses no deque. -/
  | undefined (a : Act (Thread n E) (Pc n)) (s : Counted n E)

/-- The deque that is chosen, if a call of `submit` begins. -/
def chosen : Act (Thread n E) (Pc n) → Option (Fin n)
  | .ext _ (.submit _ (.push _ who)) | .pick _ (.submit _ (.push _ who)) => some who
  | _ => none

def countedNext (s : Counted n E) : CountedAct n E → Option (Counted n E)
  | .step a => match chosen a with
    | none => ((pool n E).system.next s.pool a).map fun p => { s with pool := p }
    | some who =>
      if pick n s.rr = some who then ((pool n E).system.next s.pool a).map fun p => { pool := p, rr := s.rr + 1 } else none
  | .elsewhere => some { s with rr := s.rr + 1 }
  | .undefined a s' =>
    if (chosen a).isSome ∧ ((pool n E).system.next s.pool a).isSome ∧ pick n s.rr = none then some s' else none

variable (n E) in
def counted : System (Counted n E) (CountedAct n E) where
  start := { pool := (pool n E).system.start, rr := 0 }
  next := countedNext

/-- If a call of `submit` on this pool begins, the index is in range. -/
def InRange (s : Counted n E) : CountedAct n E → Prop
  | .step a | .undefined a _ => (chosen a).isSome → (pick n s.rr).isSome
  | .elsewhere => True

omit [DecidableEq E] [Fintype E] in
instance (s : Counted n E) : ∀ a, Decidable (InRange s a)
  | .step a | .undefined a _ => inferInstanceAs (Decidable ((chosen a).isSome → (pick n s.rr).isSome))
  | .elsewhere => isTrue trivial

/-! ## The runs are those of the pool -/

variable {s s' : Counted n E} {a : CountedAct n E}

/-- The steps of `countedNext`. -/
inductive CountedStep (s : Counted n E) : CountedAct n E → Counted n E → Prop
  | go {b : Act (Thread n E) (Pc n)} {p : State (Thread n E) Empty (Data n) (Pc n)} :
    chosen b = none → (pool n E).system.next s.pool b = some p → CountedStep s (.step b) { s with pool := p }
  | fetch {b : Act (Thread n E) (Pc n)} {p : State (Thread n E) Empty (Data n) (Pc n)} {who : Fin n} :
    chosen b = some who → pick n s.rr = some who → (pool n E).system.next s.pool b = some p →
    CountedStep s (.step b) { pool := p, rr := s.rr + 1 }
  | elsewhere : CountedStep s .elsewhere { s with rr := s.rr + 1 }
  | undefined {b : Act (Thread n E) (Pc n)} {s' : Counted n E} : (chosen b).isSome = true → pick n s.rr = none →
    CountedStep s (.undefined b s') s'

theorem countedStep_of_next (h : (counted n E).next s a = some s') : CountedStep s a s' := by
  cases a with
  | step b =>
    simp only [counted, countedNext] at h
    split at h
    · obtain ⟨p, hp, rfl⟩ := Option.map_eq_some_iff.mp h
      exact .go ‹_› hp
    · split at h
      · obtain ⟨p, hp, rfl⟩ := Option.map_eq_some_iff.mp h
        exact .fetch ‹_› ‹_› hp
      · cases h
  | elsewhere => cases h; exact .elsewhere
  | undefined b s₁ =>
    simp only [counted, countedNext] at h
    split at h
    · rename_i hb
      cases h
      exact .undefined hb.1 hb.2.2
    · cases h

def CountedAct.base : CountedAct n E → Option (Act (Thread n E) (Pc n))
  | step a => some a
  | _ => none

variable (n E) in
/-- While the choices are in range `counted` lies over `pool`. -/
def layer : Layer (counted n E) (pool n E).system InRange where
  state := Counted.pool
  act := CountedAct.base
  start := rfl
  step {s a s'} hok ha := by
    cases countedStep_of_next ha with
    | go _ hp | fetch _ _ hp => exact .inr ⟨_, rfl, hp⟩
    | elsewhere => exact .inl ⟨rfl, rfl⟩
    | undefined hb hnone =>
      have hsome := hok hb
      rw [hnone] at hsome
      cases hsome

/-- What does not begin a call of `submit` is possible in `counted` if it is in `pool`. -/
theorem counted_next {b : Act (Thread n E) (Pc n)} {p : State (Thread n E) Empty (Data n) (Pc n)} (hb : chosen b = none)
    (h : (pool n E).system.next s.pool b = some p) : (counted n E).next s (.step b) = some { s with pool := p } := by
  simp only [counted, countedNext, hb, h, Option.map_some]

/-! ## How often that goes well -/

/-- Calls on other pools. -/
theorem run_elsewhere (c : Counted n E) (k : ℕ) :
    (counted n E).run c (List.replicate k .elsewhere) = some { c with rr := c.rr + BitVec.ofNat 32 k } := by
  induction k generalizing c with
  | zero =>
    have hzero : c.rr + BitVec.ofNat 32 0 = c.rr := BitVec.add_zero _
    rw [List.replicate_zero, System.run, hzero]
  | succ k ih =>
    rw [← RoundRobin.add_one_ofNat]
    exact ih { c with rr := c.rr + 1 }

omit [DecidableEq E] [Fintype E] in
theorem pick_eq (pool : RoundRobin.Pool) (rr : BitVec 32) :
    pick pool.size rr = pool.deque (RoundRobin.submit pool rr).1 :=
  dif_pos ⟨pool.pos, pool.fits⟩

/-- The choice after `k` calls. -/
theorem pick_isSome_iff (pool : RoundRobin.Pool) (k : ℕ) : (pick pool.size (BitVec.ofNat 32 k)).isSome = true ↔
    k % 2 ^ 32 < 2 ^ 31 ∨ pool.size ∣ 2 ^ 32 - k % 2 ^ 32 := by
  rw [pick_eq, RoundRobin.deque_isSome, RoundRobin.in_range_iff]

/-- A call of `submit`, on whichever pool. -/
def CountedAct.isCall : CountedAct n E → Bool
  | step a | undefined a _ => (chosen a).isSome
  | elsewhere => true

/-- In a run with at most `2 ^ 31` calls all choices are in range. -/
theorem along_inRange (hpos : 1 ≤ n) (hfits : n < 2 ^ 31) {as : List (CountedAct n E)}
    (h : as.countP CountedAct.isCall ≤ 2 ^ 31) : (counted n E).Along InRange (counted n E).start as := by
  suffices H : ∀ {as : List (CountedAct n E)} {s : Counted n E} {k : ℕ}, s.rr = BitVec.ofNat 32 k →
      k + as.countP CountedAct.isCall ≤ 2 ^ 31 → (counted n E).Along InRange s as from
    H (k := 0) rfl (by omega)
  intro as
  induction as with
  | nil => exact fun _ _ => trivial
  | cons a as ih =>
    intro s k hrr hk
    have hpick : a.isCall = true → (pick n s.rr).isSome = true := fun ha => by
      rw [List.countP_cons_of_pos ha] at hk
      rw [hrr]
      exact (pick_isSome_iff ⟨n, hpos, hfits⟩ k).mpr (.inl (by omega))
    have hok : InRange s a := by
      cases a with
      | step b | undefined b s₁ => exact hpick
      | elsewhere => trivial
    refine ⟨hok, fun s₁ ha => ?_⟩
    have hnext : s.rr + 1 = BitVec.ofNat 32 (k + 1) := by
      rw [hrr, BitVec.ofNat_add]
      rfl
    cases countedStep_of_next ha with
    | go hb hp =>
      rw [List.countP_cons_of_neg (by simp [CountedAct.isCall, hb])] at hk
      exact ih hrr hk
    | fetch hb _ hp =>
      rw [List.countP_cons_of_pos (by simp [CountedAct.isCall, hb])] at hk
      exact ih hnext (by omega)
    | elsewhere =>
      rw [List.countP_cons_of_pos rfl] at hk
      exact ih hnext (by omega)
    | undefined hb hnone =>
      have hsome := hok hb
      rw [hnone] at hsome
      cases hsome

end TKH.WorkStealing
