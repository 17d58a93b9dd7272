import Mathlib.Data.Fintype.Defs
import ThreadingKnowHows.Livelock.Model

/-!
# What polite threads may achieve

Every run ends, with the mutexes free, and a thread gets both mutexes at one of
its attempts or never (`result_of_finished`). Which of these happens to which thread is open:
for any two outcomes there is a run in which no `try_lock` fails without need
(`outcome_iff`), the one where neither ever gets both mutexes among them.
-/

namespace TKH.Livelock

variable {attempts : ℕ}

/-! ## Every run ends -/

/-- What `iterations` may be in the end. -/
def Result (attempts : ℕ) (v : ℤ) : Prop := v = -1 ∨ ∃ n < attempts, v = (n : ℤ)

def Pc.Within (attempts : ℕ) : Pc → Prop
  | test n => n ≤ attempts
  | lock n | tryLock n | unlockSecond n | unlockFirst n | release n => n < attempts
  | set v => Result attempts v
  | done => True

/-- What a thread knows at a control point. -/
def Knows (attempts : ℕ) (t : Bool) (k : Pc) (d : Bool → ℤ) : Prop :=
  k.Within attempts ∧ (k = .done → Result attempts (d t))

theorem annotated (attempts : ℕ) : Mutexes.Annotation (polite attempts) Holds (fun _ => 0) (Knows attempts) where
  toDiscipline := discipline attempts
  entries _ := ⟨Nat.zero_le _, nofun⟩
  asserts t l := by
    cases l with
    | test n =>
      rintro d ⟨hn, -⟩
      dsimp only
      split
      · rename_i h; exact ⟨h, nofun⟩
      · exact ⟨.inl rfl, nofun⟩
    | lock n | unlockSecond n => exact fun d h => ⟨h.1, nofun⟩
    | tryLock n => exact fun d h => ⟨⟨h.1, nofun⟩, ⟨h.1, nofun⟩⟩
    | unlockFirst n => exact fun d h => ⟨.inr ⟨n, h.1, rfl⟩, nofun⟩
    | set v => exact fun d h => ⟨trivial, fun _ => by dsimp only; rw [Function.update_self]; exact h.1⟩
    | release n => exact fun d h => ⟨Nat.succ_le_of_lt h.1, nofun⟩
    | done => trivial
  stable := by
    intro t u l k f d hc hu _ _ hk
    cases l <;> cases hc
    · exact hk
    · refine ⟨hk.1, fun hd => ?_⟩
      dsimp only
      rw [Function.update_of_ne hu]
      exact hk.2 hd

/-- The steps that a thread has left at most. -/
def Pc.rank (attempts : ℕ) : Pc → ℕ
  | test n => 2 + 4 * (attempts - n)
  | lock n => 1 + 4 * (attempts - n)
  | tryLock n => 4 * (attempts - n)
  | release n => 4 * (attempts - n) - 1
  | unlockSecond _ => 3
  | unlockFirst _ => 2
  | set _ => 1
  | done => 0

theorem rank_lt {s s' : State} {a : Mutexes.Act Bool} (h : (polite attempts).Step s a s')
    (hi : (s.pc a.thread).Within attempts) :
    ∃ k, s'.pc = Function.update s.pc a.thread k ∧ k.rank attempts < (s.pc a.thread).rank attempts := by
  have hcode : ∀ t l, (polite attempts).code t l = code attempts t l := fun _ _ => rfl
  cases h with
  | @lock t a k hc =>
    refine ⟨k, rfl, ?_⟩
    simp only [Mutexes.Act.thread] at hi ⊢
    rw [hcode] at hc
    cases hpc : s.pc t <;> rw [hpc] at hc hi <;> cases hc
    simp only [Pc.rank]; omega
  | @tryLock t a yes no hc =>
    refine ⟨yes, rfl, ?_⟩
    simp only [Mutexes.Act.thread] at hi ⊢
    rw [hcode] at hc
    cases hpc : s.pc t <;> rw [hpc] at hc hi <;> cases hc
    simp only [Pc.rank, Pc.Within] at hi ⊢; omega
  | @fail t a yes no hc =>
    refine ⟨no, rfl, ?_⟩
    simp only [Mutexes.Act.thread] at hi ⊢
    rw [hcode] at hc
    cases hpc : s.pc t <;> rw [hpc] at hc hi <;> cases hc
    simp only [Pc.rank, Pc.Within] at hi ⊢; omega
  | @unlock t a k hc =>
    refine ⟨k, rfl, ?_⟩
    simp only [Mutexes.Act.thread] at hi ⊢
    rw [hcode] at hc
    cases hpc : s.pc t <;> rw [hpc] at hc hi <;> cases hc <;> simp only [Pc.rank, Pc.Within] at hi ⊢ <;> omega
  | @act t f hc =>
    refine ⟨_, rfl, ?_⟩
    simp only [Mutexes.Act.thread] at hi ⊢
    rw [hcode] at hc
    cases hpc : s.pc t <;> rw [hpc] at hc hi <;> cases hc
    · dsimp only
      split <;> simp only [Pc.rank, Pc.Within] at hi ⊢ <;> omega
    · exact Nat.one_pos
  | @choose t k which hc =>
    rw [hcode] at hc
    cases hpc : s.pc t <;> rw [hpc] at hc <;> cases hc

/-- A run has at most `4 * attempts + 2` steps of each thread. -/
theorem length_le {as : List (Mutexes.Act Bool)} {s : State}
    (h : (polite attempts).system.run (polite attempts).system.start as = some s) :
    as.length ≤ 2 * (4 * attempts + 2) := by
  have hle := System.length_add_le (f := fun s : State => total (Pc.rank attempts) s.pc) (fun {s a s'} hr ha => ?_) h
  · have h0 : total (Pc.rank attempts) (polite attempts).system.start.pc = 2 * (4 * attempts + 2) := by
      simp [total, polite, Mutexes.Program.system, Pc.rank, Nat.add_comm]
    omega
  · obtain ⟨k, hpc, hlt⟩ := rank_lt (Mutexes.Program.step_of_next ha) ((annotated attempts).assert hr a.thread).1
    have := total_update (Pc.rank attempts) s.pc a.thread k
    rw [← hpc] at this
    omega

/-- A state in which no step is possible is the end. -/
theorem finished_of_quiet {s : State} (hs : (polite attempts).system.Reach s)
    (hq : ∀ a, (polite attempts).system.next s a = none) : Finished s := by
  have hend : ∀ t l, (polite attempts).code t l = .halt → l = .done := fun t l h => by
    cases l <;> first | rfl | cases h
  have hdone : ∀ t, s.pc t = .done := fun t => by
    by_contra hne
    obtain ⟨u, -, a, -, ha⟩ := (discipline attempts).exists_step hs ⟨t, fun hc => hne (hend t _ hc)⟩
    rw [hq a] at ha
    cases ha
  refine ⟨hdone, fun a => ?_⟩
  by_contra hne
  obtain ⟨t, ht⟩ := Option.ne_none_iff_exists'.mp hne
  have hh := ((discipline attempts).owner_iff hs t a).mp ht
  rw [hdone t] at hh
  exact hh

theorem result_of_finished {s : State} (hs : (polite attempts).system.Reach s) (hf : Finished s) (t : Bool) :
    Result attempts (s.data t) :=
  ((annotated attempts).assert hs t).2 (hf.1 t)

/-! ## Every outcome is possible -/

/-- `x` for the thread or the mutex `t`, and `y` for the other one. -/
def pair {β : Type} (t : Bool) (x y : β) : Bool → β := fun u => if u = t then x else y

@[simp] theorem pair_self {β : Type} (t : Bool) (x y : β) : pair t x y t = x := if_pos rfl

@[simp] theorem pair_not {β : Type} (t : Bool) (x y : β) : pair t x y (!t) = y := if_neg (Bool.not_ne_self t)

theorem pair_same {β : Type} (t : Bool) (x : β) : pair t x x = fun _ => x := funext fun _ => ite_self x

@[simp] theorem update_pair_self {β : Type} (t : Bool) (x y z : β) : Function.update (pair t x y) t z = pair t z y := by
  funext u
  by_cases hu : u = t <;> simp [pair, hu]

@[simp] theorem update_pair_not {β : Type} (t : Bool) (x y z : β) :
    Function.update (pair t x y) (!t) z = pair t x z := by
  funext u
  cases t <;> cases u <;> rfl

theorem pair_swap {β : Type} (t : Bool) (x y : β) : pair (!t) x y = pair t y x := by
  funext u
  cases t <;> cases u <;> rfl

/-- The thread `t` is at `k` and the other one at `l`; `o` and `o'` own their
mutexes. -/
def at_ (t : Bool) (k l : Pc) (o o' : Option Bool) (d : Bool → ℤ) : State := ⟨pair t o o', d, pair t k l⟩

theorem at_swap (t : Bool) (k l : Pc) (o o' : Option Bool) (d : Bool → ℤ) :
    at_ (!t) k l o o' d = at_ t l k o' o d := by
  simp only [at_, pair_swap]

/-- Steps in which no `try_lock` fails without need. -/
abbrev Leads (attempts : ℕ) (s s' : State) : Prop := (polite attempts).system.Path Genuine s s'

theorem leads_of_run (as : List (Mutexes.Act Bool)) {s s' : State} (h : (polite attempts).system.run s as = some s')
    (hok : (polite attempts).system.Along Genuine s as) : Leads attempts s s' :=
  System.path_of_along h hok

/-- What a thread returns that fails `n` times. -/
def value (attempts n : ℕ) : ℤ := if n < attempts then n else -1

theorem result_iff {v : ℤ} : Result attempts v ↔ ∃ n ≤ attempts, v = value attempts n := by
  constructor
  · rintro (rfl | ⟨n, hn, rfl⟩)
    · exact ⟨attempts, le_rfl, (if_neg (lt_irrefl _)).symm⟩
    · exact ⟨n, hn.le, (if_pos hn).symm⟩
  · rintro ⟨n, -, rfl⟩
    by_cases hn : n < attempts
    · exact .inr ⟨n, hn, if_pos hn⟩
    · exact .inl (if_neg hn)

section

variable {d : Bool → ℤ} {t : Bool} {i j : ℕ} {l : Pc}

/-- Both threads fail an attempt. -/
theorem both_fail (hi : i < attempts) (hj : j < attempts) :
    Leads attempts (at_ t (.test i) (.test j) none none d) (at_ t (.test (i + 1)) (.test (j + 1)) none none d) := by
  refine leads_of_run [.exec t, .exec t, .exec !t, .exec !t, .fail t, .fail !t, .exec t, .exec !t] ?_ ?_
  · simp [System.run, Mutexes.Program.system, Mutexes.Program.next, polite, code, at_, hi, hj, Mutexes.State.goto]
  · simp [System.Along, Genuine, Mutexes.Program.system, Mutexes.Program.next, polite, code, at_, hi, hj,
      Mutexes.State.goto]

/-- `t` takes its own mutex. -/
theorem take (hi : i < attempts) :
    Leads attempts (at_ t (.test i) l none none d) (at_ t (.tryLock i) l (some t) none d) := by
  refine leads_of_run [.exec t, .exec t] ?_ ?_
  · simp [System.run, Mutexes.Program.system, Mutexes.Program.next, polite, code, at_, hi, Mutexes.State.goto]
  · simp [System.Along, Genuine]

/-- While `t` holds its mutex, an attempt of the other thread fails. -/
theorem other_fails (hj : j < attempts) : Leads attempts (at_ t (.tryLock i) (.test j) (some t) none d)
    (at_ t (.tryLock i) (.test (j + 1)) (some t) none d) := by
  refine leads_of_run [.exec !t, .exec !t, .fail !t, .exec !t] ?_ ?_
  · simp [System.run, Mutexes.Program.system, Mutexes.Program.next, polite, code, at_, hj, Mutexes.State.goto]
  · simp [System.Along, Genuine, Mutexes.Program.system, Mutexes.Program.next, polite, code, at_, hj, Mutexes.State.goto]

/-- `t` gets the second mutex. -/
theorem succeeds :
    Leads attempts (at_ t (.tryLock i) l (some t) none d) (at_ t .done l none none (Function.update d t i)) := by
  refine leads_of_run [.exec t, .exec t, .exec t, .exec t] ?_ ?_
  · simp [System.run, Mutexes.Program.system, Mutexes.Program.next, polite, code, at_, Mutexes.State.goto]
  · simp [System.Along, Genuine]

/-- `t` gives up. -/
theorem gives_up (hi : ¬ i < attempts) :
    Leads attempts (at_ t (.test i) l none none d) (at_ t .done l none none (Function.update d t (-1))) := by
  refine leads_of_run [.exec t, .exec t] ?_ ?_
  · simp [System.run, Mutexes.Program.system, Mutexes.Program.next, polite, code, at_, hi, Mutexes.State.goto]
  · simp [System.Along, Genuine]

/-- `t` is not disturbed from its attempt `i` on. -/
theorem ends : Leads attempts (at_ t (.test i) l none none d)
    (at_ t .done l none none (Function.update d t (value attempts i))) := by
  by_cases hi : i < attempts
  · rw [value, if_pos hi]
    exact (take hi).trans succeeds
  · rw [value, if_neg hi]
    exact gives_up hi

theorem both_fail_times (hi : i ≤ attempts) :
    Leads attempts (at_ t (.test 0) (.test 0) none none d) (at_ t (.test i) (.test i) none none d) := by
  induction i with
  | zero => exact .refl
  | succ i ih => exact (ih (by omega)).trans (both_fail hi hi)

theorem other_fails_times (hij : i ≤ j) (hj : j ≤ attempts) :
    Leads attempts (at_ t (.tryLock i) (.test i) (some t) none d) (at_ t (.tryLock i) (.test j) (some t) none d) := by
  induction j, hij using Nat.le_induction with
  | base => exact .refl
  | succ j _ ih => exact (ih (by omega)).trans (other_fails hj)

/-- The thread `t` fails `i` times, and the other one `j` times, at least as
often: both fail `i` times, and then `t` holds its mutex for as long as the
other thread fails. -/
theorem leads (hij : i ≤ j) (hj : j ≤ attempts) : Leads attempts (at_ t (.test 0) (.test 0) none none d)
    (at_ t .done .done none none (pair t (value attempts i) (value attempts j))) := by
  have hlast : Leads attempts (at_ t .done (.test j) none none (Function.update d t (value attempts i)))
      (at_ t .done .done none none (pair t (value attempts i) (value attempts j))) := by
    have hd : pair t (value attempts i) (value attempts j) =
        Function.update (Function.update d t (value attempts i)) (!t) (value attempts j) := by
      funext u
      cases t <;> cases u <;> rfl
    rw [hd, ← at_swap t (.test j), ← at_swap t .done .done]
    exact ends
  refine (both_fail_times (hij.trans hj)).trans (.trans ?_ hlast)
  rcases hij.eq_or_lt with rfl | hlt
  · exact ends
  · have hi : i < attempts := hlt.trans_le hj
    rw [value, if_pos hi]
    exact (take hi).trans ((other_fails_times hij hj).trans succeeds)

end

theorem start_eq (t : Bool) : (polite attempts).system.start = at_ t (.test 0) (.test 0) none none fun _ => 0 := by
  simp [polite, Mutexes.Program.system, at_, pair_same]

/-- The threads end after at most `4 * attempts + 2` steps each, with the mutexes
free and each with one of the results; and they may end with any two of them, also if a
`try_lock` fails only when the mutex is taken. -/
theorem outcome_iff (attempts : ℕ) :
    (∀ as s, (polite attempts).system.run (polite attempts).system.start as = some s →
      as.length ≤ 2 * (4 * attempts + 2) ∧ ((∀ a, (polite attempts).system.next s a = none) → Finished s) ∧
        (Finished s → ∀ t, Result attempts (s.data t))) ∧
    ∀ x y, (∃ s, (polite attempts).system.ReachBy Genuine s ∧ Finished s ∧ s.data false = x ∧ s.data true = y) ↔
      Result attempts x ∧ Result attempts y := by
  refine ⟨fun as s h => ⟨length_le h, finished_of_quiet (System.reach_of_run h), ?_⟩, fun x y => ⟨?_, ?_⟩⟩
  · exact result_of_finished (System.reach_of_run h)
  · rintro ⟨s, hs, hf, rfl, rfl⟩
    exact ⟨result_of_finished hs.reach hf false, result_of_finished hs.reach hf true⟩
  · rintro ⟨hx, hy⟩
    obtain ⟨i, hi, rfl⟩ := result_iff.mp hx
    obtain ⟨j, hj, rfl⟩ := result_iff.mp hy
    have hfin : ∀ t v, Finished (at_ t .done .done none none v) := fun t v =>
      ⟨fun u => by simp [at_, pair_same], fun a => by simp [at_, pair_same]⟩
    rcases le_total i j with h | h
    · refine ⟨_, ?_, hfin false (pair false (value attempts i) (value attempts j)), rfl, rfl⟩
      rw [System.ReachBy, start_eq false]
      exact leads h hj
    · refine ⟨_, ?_, hfin true (pair true (value attempts j) (value attempts i)), rfl, rfl⟩
      rw [System.ReachBy, start_eq true]
      exact leads h hi

end TKH.Livelock
