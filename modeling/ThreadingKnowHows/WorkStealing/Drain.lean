import Mathlib.Algebra.BigOperators.Ring.Finset
import Mathlib.Algebra.Order.Group.Multiset
import Mathlib.Data.BitVec
import Mathlib.Data.Multiset.Range
import ThreadingKnowHows.Framework.Ledger
import ThreadingKnowHows.WorkStealing.Model

/-!
# When the destructor drains the work-stealing pool

The deques, the workers and the tasks that have ended hold each pushed task
once (`pool_tasks`), and `pending_` falls short of the unfinished tasks by the
`submit`s that have pushed and not yet counted (`pool_pending`). A task that
submits is itself unfinished. So when the destructor reads that nothing is
pending the deques are empty, although tasks that are about to count may still
run; they stay empty unless one of these pushes again (`InTime`).
-/

namespace TKH.WorkStealing

variable {n : ℕ} {E : Type}

theorem pool_annotation : Annotation (pool n E) (fun _ => false) (fun _ => True) fun _ _ => True :=
  .lockless fun t l => by
    cases l with
    | submit c p => cases p <;> trivial
    | worker i p =>
      cases p with
      | steal k => simp only [pool, workerLoop]; split <;> trivial
      | _ => trivial
    | destructor p =>
      cases p with
      | join i => simp only [pool, destruct]; split <;> trivial
      | _ => trivial
    | _ => trivial

/-! ## Where the tasks are -/

/-- The task a worker has taken and not ended. -/
def holds : Pc n → Option Task
  | .submit (.task _ t) _ => some t
  | .worker _ (.running t) | .worker _ (.finish t) => some t
  | _ => none

def inHand (l : Pc n) : Multiset ℕ := (holds l).elim 0 fun t => {t.id}

/-- The tasks in the deques. -/
def queued (d : Data n) : Multiset ℕ := total (fun l : List Task => (l.map Task.id : Multiset ℕ)) d.deques

theorem queued_push (d : Data n) (b : Bool) (who : Fin n) : queued (d.push b who) = queued d + {d.pushed} := by
  refine add_right_cancel (b := (((d.deques who).map Task.id : List ℕ) : Multiset ℕ)) ?_
  refine (total_update (fun l : List Task => (l.map Task.id : Multiset ℕ)) d.deques who _).trans ?_
  rw [List.map_append, ← Multiset.coe_add, ← add_assoc, add_right_comm]
  rfl

theorem queued_take {d : Data n} {i : Fin n} {t : Task} {rest : List Task} (h : (d.deques i).Perm (t :: rest)) :
    queued (d.take i t rest) + {t.id} = queued d := by
  refine add_right_cancel (b := ((rest.map Task.id : List ℕ) : Multiset ℕ)) ?_
  rw [add_assoc, Multiset.singleton_add, Multiset.cons_coe, ← List.map_cons,
    ← Multiset.coe_eq_coe.mpr (h.map Task.id)]
  exact total_update (fun l : List Task => (l.map Task.id : Multiset ℕ)) d.deques i rest

/-- A worker takes a task, which it holds unless the task is empty. -/
theorem take_conserves {d : Data n} {i j : Fin n} {t : Task} {rest : List Task} {k : WorkerPc n}
    (h : (d.deques i).Perm (t :: rest)) (hk : holds (.worker j k) = none) :
    queued (d.take i t rest) + d.finished + (d.take i t rest).dropped + inHand (got j t k) =
      queued d + d.finished + d.dropped := by
  rw [← queued_take h]
  cases ht : t.empty
  · have hd : (d.take i t rest).dropped = d.dropped := by simp [Data.take, ht]
    have hw : inHand (got j t k) = {t.id} := by simp [got, ht, inHand, holds]
    rw [hd, hw]
    abel
  · have hd : (d.take i t rest).dropped = d.dropped ++ [t.id] := by simp [Data.take, ht]
    have hw : inHand (got j t k) = 0 := by simp [got, ht, inHand, hk]
    rw [hd, hw, ← Multiset.coe_add, Multiset.coe_singleton]
    abel

theorem pool_tasks [DecidableEq E] [Fintype E] : Ledger (pool n E) (fun _ => false) (fun _ => True)
    (fun _ _ => True) (fun d => queued d + d.finished + d.dropped) (fun d => Multiset.range d.pushed) inHand where
  toAnnotation := pool_annotation
  opens := by
    have hw : total inHand (pool n E).entry = 0 := Finset.sum_eq_zero fun t _ => by cases t <;> rfl
    have hq : queued (pool n E).init = 0 := by simp [queued, total, pool]
    rw [hw, hq]; rfl
  conserves t l := by
    cases l with
    | out => exact fun k hk => by rcases callStep_iff.mp hk with ⟨b, who, rfl⟩ | rfl <;> rfl
    | gone => trivial
    | submit c p =>
      cases p with
      | push b who =>
        intro d _
        have hw : inHand (.submit c .count) = inHand (.submit c (.push b who)) := by cases c <;> rfl
        simp only [hw, queued_push]
        simp only [Data.push, Multiset.range_succ, ← Multiset.singleton_add]
        abel
      | count => exact fun d _ => by cases c <;> rfl
    | worker i p =>
      cases p with
      | test | idle | idleStop => intro d _; dsimp only; split <;> rfl
      | popLocal =>
        intro d _
        dsimp only
        split
        · rfl
        · rename_i t ht
          refine congrArg (· + Multiset.range d.pushed) ((take_conserves ?_ rfl).trans (add_zero _).symm)
          obtain ⟨rest, hrest⟩ := List.getLast?_eq_some_iff.mp ht
          rw [hrest, List.dropLast_concat]
          exact List.perm_append_singleton t rest
      | steal k =>
        simp only [pool, workerLoop]
        split
        · exact fun d k hk => by rcases victim_iff.mp hk with ⟨v, -, rfl⟩ | rfl <;> rfl
        · exact fun d _ => rfl
      | stealFrom k v =>
        intro d _
        dsimp only
        split
        · rfl
        · rename_i t rest ht
          refine congrArg (· + Multiset.range d.pushed) ((take_conserves ?_ rfl).trans (add_zero _).symm)
          rw [ht]
      | running t => exact fun d k hk => by rcases taskStep_iff.mp hk with ⟨b, who, rfl⟩ | rfl <;> rfl
      | finish t =>
        intro d _
        simp only [inHand, holds, Option.elim, ← Multiset.coe_add, Multiset.coe_singleton]
        simp only [queued]
        abel
      | returned => trivial
    | destructor p =>
      cases p with
      | idle => exact fun k hk => by rw [of_decide_eq_true hk]; rfl
      | poll => intro d _; dsimp only; split <;> rfl
      | store => exact fun d _ => rfl
      | join i => simp only [pool, destruct]; split <;> [rfl; exact fun d _ => rfl]
      | returned => trivial

/-! ## The count of pending tasks -/

/-- A `submit` that has pushed and has yet to count. -/
def counting : Pc n → ℕ
  | .submit _ .count => 1
  | _ => 0

theorem pool_pending [DecidableEq E] [Fintype E] : Ledger (pool n E) (fun _ => false) (fun _ => True)
    (fun _ _ => True) (fun d => d.pending + (d.finished.length : BitVec 32)) (fun d => (d.pushed : BitVec 32))
    (fun l => (counting l : BitVec 32)) where
  toAnnotation := pool_annotation
  opens := by
    have hw : total (fun l => (counting l : BitVec 32)) (pool n E).entry = 0 :=
      Finset.sum_eq_zero fun t _ => by cases t <;> rfl
    rw [hw]; rfl
  conserves t l := by
    cases l with
    | out => exact fun k hk => by rcases callStep_iff.mp hk with ⟨b, who, rfl⟩ | rfl <;> rfl
    | gone => trivial
    | submit c p =>
      cases p with
      | push b who =>
        intro d _
        simp only [Data.push, counting, Nat.cast_add, Nat.cast_one, Nat.cast_zero]
        abel
      | count =>
        intro d _
        have hw : counting c.back = 0 := by cases c <;> rfl
        simp only [hw]
        simp only [counting, Nat.cast_one, Nat.cast_zero]
        abel
    | worker i p =>
      cases p with
      | test | idle | idleStop => intro d _; dsimp only; split <;> rfl
      | popLocal =>
        intro d _
        dsimp only
        split
        · rfl
        · simp only [got]; split <;> rfl
      | steal k =>
        simp only [pool, workerLoop]
        split
        · exact fun d k hk => by rcases victim_iff.mp hk with ⟨v, -, rfl⟩ | rfl <;> rfl
        · exact fun d _ => rfl
      | stealFrom k v =>
        intro d _
        dsimp only
        split
        · rfl
        · simp only [got]; split <;> rfl
      | running t => exact fun d k hk => by rcases taskStep_iff.mp hk with ⟨b, who, rfl⟩ | rfl <;> rfl
      | finish t =>
        intro d _
        simp only [counting, List.length_append, List.length_singleton, Nat.cast_add, Nat.cast_one, Nat.cast_zero]
        abel
      | returned => trivial
    | destructor p =>
      cases p with
      | idle => exact fun k hk => by rw [of_decide_eq_true hk]; rfl
      | poll => intro d _; dsimp only; split <;> rfl
      | store => exact fun d _ => rfl
      | join i => simp only [pool, destruct]; split <;> [rfl; exact fun d _ => rfl]
      | returned => trivial

variable [DecidableEq E] [Fintype E] {s s' : State (Thread n E) Empty (Data n) (Pc n)} {a : Act (Thread n E) (Pc n)}

/-- Each pushed task is in a deque, held by a worker, dropped or ended. -/
theorem pushed_eq (h : (pool n E).system.Reach s) :
    (queued s.data).card + total (fun x => (inHand x.point).card) s.th + s.data.dropped.length +
      s.data.finished.length = s.data.pushed := by
  have hb := congrArg Multiset.card (pool_tasks.balanced h)
  have hh : (total (fun x : Status Empty (Pc n) => inHand x.point) s.th).card =
      total (fun x => (inHand x.point).card) s.th := Multiset.card_sum _ _
  simp only [Multiset.card_add, Multiset.coe_card, Multiset.card_range, hh] at hb
  omega

/-- What `pending_` counts, if no more tasks are counted late than are unfinished. -/
theorem pending_eq (h : (pool n E).system.Reach s) {m : ℕ}
    (hm : s.data.pushed = m + s.data.finished.length + total (fun x => counting x.point) s.th) :
    s.data.pending = BitVec.ofNat 32 m := by
  have hb := pool_pending.balanced h
  have hh : total (fun x : Status Empty (Pc n) => (counting x.point : BitVec 32)) s.th =
      ((total (fun x => counting x.point) s.th : ℕ) : BitVec 32) := (Nat.cast_sum _ _).symm
  rw [hh, hm, Nat.cast_add, Nat.cast_add] at hb
  exact add_right_cancel (add_right_cancel hb)

/-! ## Where the threads are -/

/-- The thread that a control point belongs to. -/
def home : Thread n E → Pc n → Prop
  | .worker i, .worker j _ | .worker i, .submit (.task j _) _ => i = j
  | .external _, .out | .external _, .gone | .external _, .submit .external _ => True
  | .destructor, .destructor _ => True
  | _, _ => False

/-- The threads that the destructor has joined, or that have ended before. -/
def joined : Pc n → Thread n E → Prop
  | .destructor .idle, _ => False
  | .destructor _, .external _ => True
  | .destructor (.join i), .worker k => k < i
  | .destructor .returned, .worker _ => True
  | _, _ => False

omit [DecidableEq E] [Fintype E] in
theorem home_of_leads {t : Thread n E} {l k : Pc n} {d : Data n} (h : ((pool n E).code t l).Leads d k)
    (hl : home t l) : home t k := by
  cases l with
  | out => rcases callStep_iff.mp h with ⟨b, who, rfl⟩ | rfl <;> cases t <;> exact hl
  | gone => cases h
  | submit c p =>
    cases p with
    | push b who => cases h; cases t <;> cases c <;> exact hl
    | count => cases h; cases t <;> cases c <;> exact hl
  | worker i p =>
    -- a worker goes on as itself, or calls `submit` in its task
    suffices hk : (∃ p, k = .worker i p) ∨ ∃ t b who, k = .submit (.task i t) (.push b who) by
      rcases hk with ⟨p, rfl⟩ | ⟨u, b, who, rfl⟩ <;> cases t <;> exact hl
    cases p with
    | test | idle | idleStop | finish => cases h; exact .inl ⟨_, rfl⟩
    | popLocal | stealFrom =>
      refine .inl ?_
      simp only [pool, workerLoop, Cmd.Leads] at h
      split at h <;> cases h <;> exact ⟨_, rfl⟩
    | steal m =>
      simp only [pool, workerLoop] at h
      split at h
      · rcases victim_iff.mp h with ⟨v, -, rfl⟩ | rfl <;> exact .inl ⟨_, rfl⟩
      · cases h; exact .inl ⟨_, rfl⟩
    | running u =>
      rcases taskStep_iff.mp h with ⟨b, who, rfl⟩ | rfl
      · exact .inr ⟨u, b, who, rfl⟩
      · exact .inl ⟨_, rfl⟩
    | returned => cases h
  | destructor p =>
    suffices hk : ∃ p, k = .destructor p by
      obtain ⟨p, rfl⟩ := hk
      cases t <;> exact hl
    cases p with
    | idle => exact ⟨_, of_decide_eq_true h⟩
    | poll | store => cases h; exact ⟨_, rfl⟩
    | join i =>
      simp only [pool, destruct] at h
      split at h <;> cases h <;> exact ⟨_, rfl⟩
    | returned => cases h

theorem home_of_reach (h : (pool n E).system.Reach s) (t : Thread n E) : home t (s.th t).point :=
  point_of_leads (I := home) (by rintro (i | e | _) <;> trivial) (fun _ _ _ _ => home_of_leads) h t

omit [DecidableEq E] [Fintype E] in
theorem destructor_of_leads {t : Thread n E} {l : Pc n} {d : Data n} {p : DestructorPc}
    (h : ((pool n E).code t l).Leads d (.destructor p)) : ∃ p, l = .destructor p := by
  cases l with
  | out => rcases callStep_iff.mp h with ⟨b, who, he⟩ | he <;> cases he
  | gone => cases h
  | submit c p => cases p <;> cases c <;> cases h
  | worker i p => exact (home_of_leads (E := E) (t := .worker i) (l := .worker i p) h rfl).elim
  | destructor p => exact ⟨p, rfl⟩

omit [DecidableEq E] [Fintype E] in
theorem joined_of_leads {t : Thread n E} {l k : Pc n} {d : Data n} {u : Thread n E}
    (hk : ((pool n E).code t l).Leads d k) (hu : joined k u) :
    joined l u ∨ ((pool n E).code t l).awaits u = true := by
  cases k with
  | destructor p' =>
    obtain ⟨p, rfl⟩ := destructor_of_leads hk
    cases p with
    | idle =>
      cases of_decide_eq_true hk
      cases u with
      | external e => exact .inr rfl
      | _ => exact hu.elim
    | poll =>
      refine .inl ?_
      simp only [pool, destruct, Cmd.Leads] at hk
      cases u with
      | external e => trivial
      | _ => split at hk <;> cases hk <;> exact hu
    | store =>
      cases hk
      cases u with
      | external e => exact .inl trivial
      | worker i => exact absurd hu (Nat.not_lt_zero _)
      | destructor => exact hu.elim
    | join i =>
      simp only [pool, destruct] at hk ⊢
      cases u with
      | external e => exact .inl trivial
      | destructor => split at hk <;> cases hk <;> exact hu.elim
      | worker k =>
        split at hk
        · cases hk
          rcases Nat.lt_succ_iff_lt_or_eq.mp hu with hlt | heq
          · exact .inl hlt
          · exact .inr (by simp [Cmd.awaits, *, Fin.ext_iff])
        · cases hk
          exact .inl (show (k : ℕ) < i by omega)
    | returned => cases hk
  | _ => cases u <;> exact hu.elim

theorem halted_of_destructor (h : (pool n E).system.Reach s) {u : Thread n E}
    (hu : joined (s.th .destructor).point u) : (pool n E).halted s u = true := by
  refine halted_of_joined (fun t u hu => ?_) (fun _ _ _ _ _ => joined_of_leads) h hu
  cases t <;> cases u <;> exact hu

/-! ## Leaving the loop -/

/-- The destructor has left its loop. -/
def left : Pc n → Bool
  | .destructor p => match p with
    | .idle | .poll => false
    | _ => true
  | _ => false

omit [Fintype E] in
/-- The destructor leaves its loop when it reads that nothing is pending. -/
theorem leave (hs : (pool n E).Step s a s') (hl : left (s.th .destructor).point = false)
    (hl' : left (s'.th .destructor).point = true) :
    a = .exec .destructor ∧ s.th .destructor = .run (.destructor .poll) ∧ s.data.pending.toInt ≤ 0 ∧
      s'.data = s.data := by
  rcases hs.leads .destructor with ⟨hp, -⟩ | ⟨l, hat, hk, -⟩
  · rw [hp, hl] at hl'; cases hl'
  · rw [hat, Status.point_run] at hl
    cases hp' : (s'.th .destructor).point with
    | destructor p' =>
      rw [hp'] at hk hl'
      obtain ⟨p, rfl⟩ := destructor_of_leads hk
      cases p with
      | idle => cases of_decide_eq_true hk; cases hl'
      | poll =>
        rcases hs.of_act hat rfl with hstay | ⟨ha, he⟩
        · rw [hstay] at hp'; cases hp'; cases hl'
        · subst he
          refine ⟨ha, hat, ?_, rfl⟩
          by_contra hpos
          simp [pool, destruct, Cmd.Leads, not_le.mp hpos] at hk
          subst hk
          cases hl'
      | _ => cases hl
    | _ => rw [hp'] at hl'; cases hl'

omit [DecidableEq E] [Fintype E] in
/-- A thread that has halted holds no task, and has counted what it has pushed. -/
theorem rest_of_halted {t : Thread n E} (ht : (pool n E).halted s t = true) :
    inHand (s.th t).point = 0 ∧ counting (s.th t).point = 0 := by
  obtain ⟨l, hl, hc⟩ := Program.halted_iff.mp ht
  rw [hl, Status.point_run]
  cases l with
  | submit c p => cases p <;> cases hc
  | worker i p =>
    cases p with
    | returned => exact ⟨rfl, rfl⟩
    | steal k => simp only [pool, workerLoop] at hc; split at hc <;> cases hc
    | _ => cases hc
  | _ => exact ⟨rfl, rfl⟩

/-! ## Runs -/

/-- The kind of task that a thread is about to push. -/
def pushes : Pc n → Option Bool
  | .submit _ (.push empty _) => some empty
  | _ => none

/-- Only non-empty tasks are pushed. -/
def NonEmpty (s : State (Thread n E) Empty (Data n) (Pc n)) : Act (Thread n E) (Pc n) → Prop
  | .exec t => ∀ empty ∈ pushes (s.th t).point, empty = false
  | _ => True

/-- No task is pushed after the destructor has left its loop, and when it
reads that nothing is pending fewer than `2 ^ 31` tasks are unfinished. -/
def InTime (s : State (Thread n E) Empty (Data n) (Pc n)) : Act (Thread n E) (Pc n) → Prop
  | .exec t =>
    ((pushes (s.th t).point).isSome = true → left (s.th .destructor).point = false) ∧
    ((s.th t).point = .destructor .poll → s.data.pending.toInt ≤ 0 →
      s.data.pushed < s.data.finished.length + 2 ^ 31)
  | _ => True

omit [DecidableEq E] [Fintype E] in
instance (s : State (Thread n E) Empty (Data n) (Pc n)) : ∀ a, Decidable (NonEmpty s a)
  | .exec t => inferInstanceAs (Decidable (∀ empty ∈ pushes (s.th t).point, empty = false))
  | .wake _ _ | .pick _ _ | .ext _ _ | .relock _ | .spurious _ => isTrue trivial

omit [DecidableEq E] [Fintype E] in
instance (s : State (Thread n E) Empty (Data n) (Pc n)) : ∀ a, Decidable (InTime s a)
  | .exec t => inferInstanceAs (Decidable (
    ((pushes (s.th t).point).isSome = true → left (s.th .destructor).point = false) ∧
    ((s.th t).point = .destructor .poll → s.data.pending.toInt ≤ 0 →
      s.data.pushed < s.data.finished.length + 2 ^ 31)))
  | .wake _ _ | .pick _ _ | .ext _ _ | .relock _ | .spurious _ => isTrue trivial

/-- `t` is taken from one end of a deque, which is left with `rest`. -/
def Taken (l : List Task) (t : Task) (rest : List Task) : Prop := l = rest ++ [t] ∨ l = t :: rest

theorem Taken.perm {l rest : List Task} {t : Task} (h : Taken l t rest) : l.Perm (t :: rest) := by
  rcases h with rfl | rfl
  · exact List.perm_append_singleton t rest
  · rfl

theorem Taken.sublist {l rest : List Task} {t : Task} (h : Taken l t rest) : rest.Sublist l := by
  rcases h with rfl | rfl
  · exact List.sublist_append_left rest [t]
  · exact List.sublist_cons_self t rest

omit [Fintype E] in
/-- What a step does to the deques. -/
theorem deques_step (hs : (pool n E).Step s a s') :
    (s'.data.deques = s.data.deques ∧ s'.data.dropped = s.data.dropped ∧ s'.data.pushed = s.data.pushed) ∨
    (∃ t c b who, a = .exec t ∧ s.th t = .run (.submit c (.push b who)) ∧ s'.data = s.data.push b who) ∨
    ∃ i t rest, Taken (s.data.deques i) t rest ∧ s'.data = s.data.take i t rest := by
  rcases hs.data with he | ⟨t, l, f, ha, hl, hc, rfl⟩
  · exact .inl (by rw [he]; exact ⟨rfl, rfl, rfl⟩)
  cases l with
  | out | gone => cases hc
  | submit c p =>
    cases p with
    | push b who => cases hc; exact .inr (.inl ⟨t, c, b, who, ha, hl, rfl⟩)
    | count => cases hc; exact .inl ⟨rfl, rfl, rfl⟩
  | worker i p =>
    cases p with
    | popLocal =>
      cases hc
      dsimp only
      split
      · exact .inl ⟨rfl, rfl, rfl⟩
      · rename_i u hu
        obtain ⟨rest, hrest⟩ := List.getLast?_eq_some_iff.mp hu
        exact .inr (.inr ⟨i, u, rest, .inl hrest, by simp [hrest]⟩)
    | stealFrom k v =>
      cases hc
      dsimp only
      split
      · exact .inl ⟨rfl, rfl, rfl⟩
      · rename_i u rest hu
        exact .inr (.inr ⟨v, u, rest, .inr hu, rfl⟩)
    | steal k => simp only [pool, workerLoop] at hc; split at hc <;> cases hc; exact .inl ⟨rfl, rfl, rfl⟩
    | running | returned => cases hc
    | _ => cases hc; exact .inl ⟨rfl, rfl, rfl⟩
  | destructor p =>
    cases p with
    | join i => simp only [pool, destruct] at hc; split at hc <;> cases hc; exact .inl ⟨rfl, rfl, rfl⟩
    | idle | returned => cases hc
    | _ => cases hc; exact .inl ⟨rfl, rfl, rfl⟩

/-- The tasks in the deques are not empty, and none was dropped. -/
def Solid (d : Data n) : Prop := d.dropped = [] ∧ ∀ i, ∀ t ∈ d.deques i, t.empty = false

omit [Fintype E] in
theorem Solid.step (hs : (pool n E).Step s a s') (ha : NonEmpty s a) (h : Solid s.data) : Solid s'.data := by
  obtain ⟨hd, hq⟩ := h
  rcases deques_step hs with ⟨he, he', -⟩ | ⟨t, c, b, who, rfl, hl, he⟩ | ⟨i, t, rest, hp, he⟩
  · exact ⟨he'.trans hd, fun i => by rw [he]; exact hq i⟩
  · rw [he]
    refine ⟨hd, fun i u hu => ?_⟩
    by_cases hi : i = who
    · subst hi
      simp only [Data.push, Function.update_self, List.mem_append, List.mem_singleton] at hu
      rcases hu with hu | rfl
      · exact hq i u hu
      · exact ha b (by rw [hl]; rfl)
    · simp only [Data.push, Function.update_of_ne hi] at hu
      exact hq i u hu
  · rw [he]
    have ht : t.empty = false := hq i t (hp.perm.mem_iff.mpr List.mem_cons_self)
    refine ⟨by simpa [Data.take, ht] using hd, fun j u hu => ?_⟩
    by_cases hj : j = i
    · subst hj
      simp only [Data.take, Function.update_self] at hu
      exact hq j u (hp.sublist.subset hu)
    · simp only [Data.take, Function.update_of_ne hj] at hu
      exact hq j u hu

theorem queued_eq_zero {d : Data n} : (queued d).card = 0 ↔ ∀ i, d.deques i = [] := by
  rw [Multiset.card_eq_zero, queued, total, Finset.sum_eq_zero_iff]
  simp

/-- A `submit` that has yet to count is one of a task, or of an external thread. -/
theorem counting_le (h : (pool n E).system.Reach s) (hpoll : s.th .destructor = .run (.destructor .poll)) :
    total (fun x => counting x.point) s.th ≤ total (fun x => (inHand x.point).card) s.th := by
  refine total_le fun t => ?_
  have hhome := home_of_reach h t
  cases t with
  | worker i =>
    cases hp : (s.th (.worker i)).point with
    | submit c p =>
      rw [hp] at hhome
      cases c with
      | external => exact hhome.elim
      | task j u => cases p <;> simp [counting, inHand, holds]
    | _ => exact Nat.zero_le _
  | external e =>
    -- the external threads have made their last call
    rw [(rest_of_halted (halted_of_destructor h (u := .external e) (by rw [hpoll]; trivial))).2]
    exact Nat.zero_le _
  | destructor => rw [hpoll]; exact Nat.zero_le _

/-- When the destructor reads that nothing is pending, the deques are empty. -/
theorem deques_empty (h : (pool n E).system.Reach s) (hd : s.data.dropped = [])
    (hpoll : s.th .destructor = .run (.destructor .poll)) (hp : s.data.pending.toInt ≤ 0)
    (hlt : s.data.pushed < s.data.finished.length + 2 ^ 31) : ∀ i, s.data.deques i = [] := by
  have hle := counting_le h hpoll
  have hsum := pushed_eq h
  rw [hd, List.length_nil] at hsum
  obtain ⟨m, hm⟩ : ∃ m, total (fun x => (inHand x.point).card) s.th = m + total (fun x => counting x.point) s.th :=
    ⟨_, (Nat.sub_add_cancel hle).symm⟩
  have hpend := pending_eq h (m := (queued s.data).card + m) (by omega)
  have hnat : s.data.pending.toNat = (queued s.data).card + m := by
    rw [hpend, BitVec.toNat_ofNat, Nat.mod_eq_of_lt (by omega)]
  rw [BitVec.toInt_eq_toNat_of_lt (by omega), hnat] at hp
  exact queued_eq_zero.mp (by omega)

/-- Non-empty tasks stay so, and none is dropped. -/
theorem solid_of_reach (h : (pool n E).system.ReachBy NonEmpty s) : Solid s.data :=
  h.inv (I := fun s => Solid s.data) ⟨rfl, fun _ _ ht => by cases ht⟩
    fun _ hok ha hi => hi.step (Program.step_of_next ha) hok

theorem empty_of_left (h : (pool n E).system.ReachBy (fun s a => NonEmpty s a ∧ InTime s a) s)
    (hleft : left (s.th .destructor).point = true) : ∀ i, s.data.deques i = [] := by
  revert hleft
  refine h.inv (I := fun s => left (s.th .destructor).point = true → ∀ i, s.data.deques i = [])
    (fun hl => by cases hl) fun {s₁ a s₂} hr hok ha hempty hl' => ?_
  have hs := Program.step_of_next ha
  have hsolid := solid_of_reach (hr.mono fun _ _ => And.left)
  cases hl : left (s₁.th .destructor).point with
  | false =>
    obtain ⟨rfl, hpoll, hp, he⟩ := leave hs hl hl'
    rw [he]
    exact deques_empty (System.ReachBy.reach hr) hsolid.1 hpoll hp (hok.2.2 (by rw [hpoll]; rfl) hp)
  | true =>
    have hempty := hempty hl
    rcases deques_step hs with ⟨he, -⟩ | ⟨t, c, b, who, rfl, hat, -⟩ | ⟨i, t, rest, hp, -⟩
    · rw [he]; exact hempty
    · have := hok.2.1 (by rw [hat]; rfl)
      rw [hl] at this; cases this
    · have hp := hp.perm
      rw [hempty i] at hp
      cases hp.nil_eq

/-- If no task is pushed after the destructor has left its loop, all tasks have
run when the destructor returns, and the deques are empty. -/
theorem pool_drains (h : (pool n E).system.ReachBy (fun s a => NonEmpty s a ∧ InTime s a) s)
    (hret : s.th .destructor = .run (.destructor .returned)) :
    (∀ i, (pool n E).halted s (.worker i) = true) ∧ (∀ i, s.data.deques i = []) ∧
      ∀ j, s.data.finished.count j = if j < s.data.pushed then 1 else 0 := by
  have hsolid := solid_of_reach (h.mono fun _ _ => And.left)
  have hempty := empty_of_left h (by rw [hret]; rfl)
  have hjoined : ∀ u : Thread n E, u ≠ .destructor → (pool n E).halted s u = true := by
    intro u hu
    refine halted_of_destructor h.reach ?_
    rw [hret]
    cases u with
    | destructor => exact absurd rfl hu
    | _ => trivial
  refine ⟨fun i => hjoined _ (by simp), hempty, fun j => ?_⟩
  have hhands : total (fun x : Status Empty (Pc n) => inHand x.point) s.th = 0 := by
    refine Finset.sum_eq_zero fun u _ => ?_
    cases u with
    | destructor => rw [hret]; rfl
    | _ => exact (rest_of_halted (hjoined _ (by simp))).1
  have hb := congrArg (Multiset.count j) (pool_tasks.balanced h.reach)
  rw [hhands, Multiset.card_eq_zero.mp (queued_eq_zero.mpr hempty), hsolid.1] at hb
  simpa [← Multiset.coe_range, List.count_range] using hb

/-- The worker `i` runs the task 0, which submits the task 1; the worker `j`
finishes that one before it is counted. The destructor leaves its loop, and
the task 0 submits the task 2. The deques take turns, as with a counter that no other
pool uses. -/
def lateSubmit (i j : Fin 2) : List (Act (Thread 2 Unit) (Pc 2)) :=
  let external : Thread 2 Unit := .external ()
  [.ext external (.submit .external (.push false i)), .exec external, .exec external, .ext external .gone,
    .exec (.worker i), .exec (.worker i), .pick (.worker i) (.submit (.task i ⟨0, false⟩) (.push false j)),
    .exec (.worker i), .exec (.worker j), .exec (.worker j),
    .pick (.worker j) (.worker j (.finish ⟨1, false⟩)), .exec (.worker j),
    .ext .destructor (.destructor .poll), .exec .destructor, .exec .destructor, .exec (.worker j),
    .exec (.worker i), .pick (.worker i) (.submit (.task i ⟨0, false⟩) (.push false i)), .exec (.worker i),
    .exec (.worker i), .pick (.worker i) (.worker i (.finish ⟨0, false⟩)), .exec (.worker i), .exec (.worker i),
    .exec .destructor, .exec .destructor, .exec .destructor]

/-- The destructor returns, and the task 2 is still in its deque. -/
theorem pool_loses : (pool 2 Unit).system.Along NonEmpty (pool 2 Unit).system.start (lateSubmit 0 1) ∧
    ∃ s, (pool 2 Unit).system.run (pool 2 Unit).system.start (lateSubmit 0 1) = some s ∧
      s.th .destructor = .run (.destructor .returned) ∧ (∀ i, (pool 2 Unit).halted s (.worker i) = true) ∧
      s.data.pushed = 3 ∧ s.data.finished = [1, 0] ∧ s.data.deques 0 = [⟨2, false⟩] := by
  refine ⟨by decide +kernel, ?_⟩
  have hr : ((pool 2 Unit).system.run (pool 2 Unit).system.start (lateSubmit 0 1)).any fun s =>
      s.th .destructor = .run (.destructor .returned) ∧ (∀ i, (pool 2 Unit).halted s (.worker i) = true) ∧
      s.data.pushed = 3 ∧ s.data.finished = [1, 0] ∧ s.data.deques 0 = [⟨2, false⟩] := by decide +kernel
  obtain ⟨s, hs, hp⟩ := System.exists_of_run hr
  exact ⟨s, hs, of_decide_eq_true hp⟩

/-- The destructor polls while the task 0 submits the task 1, which `j` steals,
and leaves its loop in time. -/
def nestedSubmit (i j : Fin 2) : List (Act (Thread 2 Unit) (Pc 2)) :=
  let external : Thread 2 Unit := .external ()
  [.ext external (.submit .external (.push false i)), .exec external, .exec external, .ext external .gone,
    .ext .destructor (.destructor .poll), .exec (.worker i), .exec (.worker i),
    .pick (.worker i) (.submit (.task i ⟨0, false⟩) (.push false i)), .exec (.worker i), .exec .destructor,
    .exec (.worker i), .pick (.worker i) (.worker i (.finish ⟨0, false⟩)), .exec (.worker i),
    .exec (.worker j), .exec (.worker j), .pick (.worker j) (.worker j (.stealFrom 0 i)), .exec (.worker j),
    .pick (.worker j) (.worker j (.finish ⟨1, false⟩)), .exec .destructor, .exec (.worker j), .exec .destructor,
    .exec .destructor, .exec (.worker i), .exec (.worker j), .exec .destructor, .exec .destructor,
    .exec .destructor]

theorem pool_drains_nested : ∃ s, (pool 2 Unit).system.run (pool 2 Unit).system.start (nestedSubmit 0 1) = some s ∧
    (∀ i, s.data.deques i = []) ∧ ∀ j, s.data.finished.count j = if j < 2 then 1 else 0 := by
  have hr : ((pool 2 Unit).system.run (pool 2 Unit).system.start (nestedSubmit 0 1)).any fun s =>
      s.th .destructor = .run (.destructor .returned) ∧ s.data.pushed = 2 := by decide +kernel
  have hok : (pool 2 Unit).system.Along (fun s a => NonEmpty s a ∧ InTime s a) (pool 2 Unit).system.start
      (nestedSubmit 0 1) := by decide +kernel
  obtain ⟨s, hs, hp⟩ := System.exists_of_run hr
  obtain ⟨hret, htwo⟩ := of_decide_eq_true hp
  obtain ⟨-, hempty, hran⟩ := pool_drains (System.path_of_along hs hok) hret
  exact ⟨s, hs, hempty, fun j => by simpa only [htwo] using hran j⟩

end TKH.WorkStealing
