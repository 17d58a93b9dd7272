import Mathlib.Data.Nat.Fib.Basic
import ThreadingKnowHows.FibTasks.Model

/-!
# What the calls know

A variable has its value from the moment on when the task that owns it has
assigned it, and before that the value it was initialised with (`Inv.var`). At
`a + b` both tasks of the call are done (`Inv.sum`): `taskwait` has waited for
them, and they in their turn for the tasks below.
-/

namespace TKH.FibTasks

/-! ## The serial recursion -/

theorem serialFib_of_lt {n : ℤ} (h : n < 2) : serialFib n = n := by
  rw [serialFib, if_pos h]

theorem serialFib_of_le {n : ℤ} (h : 2 ≤ n) : serialFib n = serialFib (n - 1) + serialFib (n - 2) := by
  rw [serialFib, if_neg (by omega)]

/-- It computes the Fibonacci numbers. -/
theorem serialFib_natCast (n : ℕ) : serialFib n = Nat.fib n := by
  induction n using Nat.twoStepInduction with
  | zero => exact serialFib_of_lt (by decide)
  | one => exact serialFib_of_lt (by decide)
  | more n ih₁ ih₂ =>
    rw [serialFib_of_le (by omega), show ((n + 2 : ℕ) : ℤ) - 1 = ((n + 1 : ℕ) : ℤ) by omega,
      show ((n + 2 : ℕ) : ℤ) - 2 = (n : ℤ) by omega, ih₁, ih₂, Nat.fib_add_two, Nat.cast_add, add_comm]

theorem serialFib_nonneg {n : ℤ} (h : 0 ≤ n) : 0 ≤ serialFib n := by
  obtain ⟨n, rfl⟩ := Int.eq_ofNat_of_zero_le h
  rw [serialFib_natCast]
  exact Int.natCast_nonneg _

theorem serialFib_mono {m n : ℤ} (hm : 0 ≤ m) (h : m ≤ n) : serialFib m ≤ serialFib n := by
  obtain ⟨m, rfl⟩ := Int.eq_ofNat_of_zero_le hm
  obtain ⟨n, rfl⟩ := Int.eq_ofNat_of_zero_le (hm.trans h)
  rw [serialFib_natCast, serialFib_natCast]
  exact_mod_cast Nat.fib_mono (by exact_mod_cast h)

/-! ## The steps of a call -/

section

variable {w : ℕ} {p : TaskId} {l child k : Point} {f : Vars → Option (Vars × Point)} {d d' : Vars}

theorem eq_of_add {a b v : ℤ} (h : add w a b = some v) : v = a + b := by
  rw [add] at h
  split at h <;> cases h
  rfl

theorem act_cases (hc : fib w p l = .act f) (hf : f d = some (d', k)) :
    (l.pc = .test ∧ d' = d ∧ k = l.goto (if l.n < 2 then .assign l.n else .taskA)) ∨
    (l.pc = .sum ∧ d' = d ∧ ∃ a b v, d (.a p) = some a ∧ d (.b p) = some b ∧ add w a b = some v ∧ k = l.goto (.assign v)) ∨
    ∃ v, l.pc = .assign v ∧ d' = Function.update d l.x (some v) ∧ k = l.goto .done := by
  cases hpc : l.pc with
  | test =>
    simp only [fib, hpc, Tasks.Cmd.act.injEq] at hc
    subst hc
    cases hf
    exact .inl ⟨rfl, rfl, rfl⟩
  | sum =>
    simp only [fib, hpc, Tasks.Cmd.act.injEq] at hc
    subst hc
    simp only [Option.bind_eq_bind, Option.bind_eq_some_iff, Option.some.injEq, Prod.mk.injEq] at hf
    obtain ⟨a, ha, b, hb, v, hv, rfl, rfl⟩ := hf
    exact .inr (.inl ⟨rfl, rfl, a, b, v, ha, hb, hv, rfl⟩)
  | assign v =>
    simp only [fib, hpc, Tasks.Cmd.act.injEq] at hc
    subst hc
    cases hf
    exact .inr (.inr ⟨v, rfl, rfl, rfl⟩)
  | taskA | taskB | taskwait | done => simp [fib, hpc] at hc

theorem create_cases (hc : fib w p l = .create child k) :
    (l.pc = .taskA ∧ child = ⟨.a p, l.n - 1, .test⟩ ∧ k = l.goto .taskB) ∨
    (l.pc = .taskB ∧ child = ⟨.b p, l.n - 2, .test⟩ ∧ k = l.goto .taskwait) := by
  cases hpc : l.pc with
  | taskA =>
    simp only [fib, hpc, Tasks.Cmd.create.injEq] at hc
    exact .inl ⟨rfl, hc.1.symm, hc.2.symm⟩
  | taskB =>
    simp only [fib, hpc, Tasks.Cmd.create.injEq] at hc
    exact .inr ⟨rfl, hc.1.symm, hc.2.symm⟩
  | test | taskwait | sum | assign | done => simp [fib, hpc] at hc

theorem taskwait_cases (hc : fib w p l = .taskwait k) : l.pc = .taskwait ∧ k = l.goto .sum := by
  cases hpc : l.pc with
  | taskwait =>
    simp only [fib, hpc, Tasks.Cmd.taskwait.injEq] at hc
    exact ⟨rfl, hc.symm⟩
  | test | taskA | taskB | sum | assign | done => simp [fib, hpc] at hc

theorem complete_cases (hc : fib w p l = .complete) : l.pc = .done := by
  cases hpc : l.pc with
  | done => rfl
  | test | taskA | taskB | taskwait | sum | assign => simp [fib, hpc] at hc

end

/-! ## The calls -/

/-- The task that assigns a variable. -/
def owner : Var → TaskId
  | .r => []
  | .a p => 0 :: p
  | .b p => 1 :: p

theorem owner_injective : Function.Injective owner := by
  intro x y h
  cases x <;> cases y <;> simp_all [owner]

/-- The argument of a call in `fib(n)`. -/
def arg (n : ℤ) : TaskId → ℤ
  | [] => n
  | 0 :: p => arg n p - 1
  | _ :: p => arg n p - 2

theorem arg_le (n : ℤ) (p : TaskId) : arg n p ≤ n := by
  induction p with
  | nil => exact le_rfl
  | cons i p ih => cases i <;> simp only [arg] <;> omega

/-- How many tasks a call creates. -/
def forks (m : ℤ) : ℕ := if m < 2 then 0 else 2

theorem forks_of_le {m : ℤ} (h : 2 ≤ m) : forks m = 2 := if_neg (by omega)

/-- What is known where a call is, if `m` is its argument and it has created
`children` tasks. -/
def Pc.Ok (m : ℤ) (children : ℕ) : Pc → Prop
  | test => children = 0
  | taskA => 2 ≤ m ∧ children = 0
  | taskB => 2 ≤ m ∧ children = 1
  | taskwait | sum => 2 ≤ m ∧ children = 2
  | assign v => v = serialFib m ∧ children = forks m
  | done => children = forks m

theorem Pc.Ok.children_le {m : ℤ} {children : ℕ} {pc : Pc} (h : pc.Ok m children) (hpos : 0 < children) :
    2 ≤ m ∧ children ≤ 2 := by
  cases pc <;> simp only [Pc.Ok, forks] at h <;> grind

/-- The task `p` in `fib(n)`. -/
structure Call (n : ℤ) (p : TaskId) (T : Tasks.Task Point) : Prop where
  owner_eq : owner T.point.x = p
  arg_eq : T.point.n = arg n p
  nonneg : 0 ≤ n → 0 ≤ arg n p
  pc : T.point.pc.Ok (arg n p) T.children
  created : T.phase = .created → T.point.pc = .test
  complete : T.phase = .complete → T.point.pc = .done

variable {τ : Type} {w : ℕ} {n : ℤ} {s s' : State τ}

structure Inv (n : ℤ) (s : State τ) : Prop where
  call : ∀ {p T}, s.task p = some T → Call n p T
  sum : ∀ {p}, pcAt s p = some .sum → ∀ i < 2, pcAt s (i :: p) = some .done
  var : ∀ x, s.data x = if pcAt s (owner x) = some .done then some (serialFib (arg n (owner x))) else init x

/-- At `a + b` the variables have the values of the two calls. -/
theorem Inv.vars (h : Inv n s) {p : TaskId} (hp : pcAt s p = some .sum) :
    s.data (.a p) = some (serialFib (arg n p - 1)) ∧ s.data (.b p) = some (serialFib (arg n p - 2)) := by
  have ha := h.var (.a p)
  have hb := h.var (.b p)
  rw [owner, if_pos (h.sum hp 0 (by decide))] at ha
  rw [owner, if_pos (h.sum hp 1 (by decide))] at hb
  exact ⟨ha, hb⟩

theorem pcAt_of_task {p : TaskId} {T : Tasks.Task Point} (h : s.task p = some T) : pcAt s p = some T.point.pc := by
  rw [pcAt, h, Option.map_some]

theorem pcAt_of_put {p : TaskId} {T : Tasks.Task Point} (h : s'.task = Function.update s.task p (some T)) :
    pcAt s' = Function.update (pcAt s) p (some T.point.pc) := by
  refine Function.eq_update_iff.mpr ⟨?_, fun q hq => ?_⟩
  · rw [pcAt, h, Function.update_self, Option.map_some]
  · rw [pcAt, h, Function.update_of_ne hq, pcAt]

/-- The task that `p` creates next is nowhere. -/
theorem pcAt_fresh (hi : Tasks.Inv s) {p : TaskId} {T : Tasks.Task Point} (hT : s.task p = some T) :
    pcAt s (T.children :: p) = none := by
  rw [pcAt, hi.task_fresh hT, Option.map_none]

/-- To create a task moves no other. -/
theorem pcAt_put_child {p : TaskId} {T : Tasks.Task Point} (hT : s.task p = some T) (i : ℕ) (C : Tasks.Task Point) :
    pcAt (s.put (i :: p) C) p = some T.point.pc := by
  rw [pcAt_of_put (s := s) rfl, Function.update_of_ne (Tasks.child_ne i p).symm, pcAt_of_task hT]

/-- A step of `p`, after which it is at `T`. -/
theorem Inv.put (h : Inv n s) {p : TaskId} {T : Tasks.Task Point} (htask : s'.task = Function.update s.task p (some T))
    (hcall : Call n p T) (hsum : T.point.pc = .sum → ∀ i < 2, pcAt s (i :: p) = some .done)
    (hdone : pcAt s p = some .done → T.point.pc = .done)
    (hvar : ∀ x, s'.data x = if owner x = p ∧ T.point.pc = .done then some (serialFib (arg n p)) else s.data x) :
    Inv n s' where
  call {q U} hU := by
    rw [htask] at hU
    by_cases hq : q = p
    · subst hq
      rw [Function.update_self] at hU
      cases hU
      exact hcall
    · rw [Function.update_of_ne hq] at hU
      exact h.call hU
  sum {q} hq i hi := by
    rw [pcAt_of_put htask] at hq ⊢
    -- a task that is done stays so
    have hstays : ∀ r, pcAt s r = some .done → Function.update (pcAt s) p (some T.point.pc) r = some .done := fun r hr => by
      by_cases he : r = p
      · subst he; rw [Function.update_self, hdone hr]
      · rwa [Function.update_of_ne he]
    refine hstays _ ?_
    by_cases he : q = p
    · subst he
      rw [Function.update_self, Option.some.injEq] at hq
      exact hsum hq i hi
    · rw [Function.update_of_ne he] at hq
      exact h.sum hq i hi
  var x := by
    rw [hvar, pcAt_of_put htask]
    by_cases hx : owner x = p
    · subst hx
      simp only [true_and, Function.update_self, Option.some.injEq]
      split
      · rfl
      · rename_i hnot
        rw [h.var, if_neg fun hd => hnot (hdone hd)]
    · rw [Function.update_of_ne hx, if_neg fun hd => hx hd.1]
      exact h.var x

/-- A step of `p` that assigns nothing. -/
theorem Inv.go (h : Inv n s) {p : TaskId} {T : Tasks.Task Point} (htask : s'.task = Function.update s.task p (some T))
    (hdata : s'.data = s.data) (hcall : Call n p T)
    (hsum : T.point.pc = .sum → ∀ i < 2, pcAt s (i :: p) = some .done)
    (hdone : pcAt s p = some .done ↔ T.point.pc = .done) : Inv n s' := by
  refine h.put htask hcall hsum hdone.mp fun x => ?_
  rw [hdata]
  split
  · rename_i hx
    rw [h.var, hx.1, if_pos (hdone.mpr hx.2)]
  · rfl

/-- `p` goes on to `pc`. -/
theorem Call.goto {p : TaskId} {T : Tasks.Task Point} (h : Call n p T) {pc : Pc} (hphase : T.phase = .started)
    (hpc : pc.Ok (arg n p) T.children) : Call n p { T with point := T.point.goto pc } where
  owner_eq := h.owner_eq
  arg_eq := h.arg_eq
  nonneg := h.nonneg
  pc := hpc
  created hc := by cases hphase.symm.trans hc
  complete hc := by cases hphase.symm.trans hc

/-- A call creates its next task. -/
theorem Inv.create (h : Inv n s) (hi : Tasks.Inv s) {p : TaskId} {T : Tasks.Task Point} (hT : s.task p = some T)
    (hphase : T.phase = .started) (hnot : T.point.pc ≠ .done) {x : Var} {m : ℤ} {pc : Pc}
    (howner : owner x = T.children :: p) (harg : m = arg n (T.children :: p)) (hm : 0 ≤ m)
    (hpc : pc.Ok (arg n p) (T.children + 1)) (hgo : pc = .taskB ∨ pc = .taskwait) :
    Inv n ((s.put (T.children :: p) ⟨.created, ⟨x, m, .test⟩, 0⟩).put p
      { T with point := T.point.goto pc, children := T.children + 1 }) := by
  have hcall := h.call hT
  have hchild : Inv n (s.put (T.children :: p) ⟨.created, ⟨x, m, .test⟩, 0⟩) := by
    refine h.go rfl rfl ⟨howner, harg, fun _ => harg ▸ hm, rfl, fun _ => rfl, fun hc => by cases hc⟩ (fun hc => by cases hc) ?_
    simp [pcAt_fresh hi hT]
  refine hchild.go rfl rfl ⟨hcall.owner_eq, hcall.arg_eq, hcall.nonneg, hpc, fun hc => ?_, fun hc => ?_⟩ (fun hc => ?_) ?_
  · cases hphase.symm.trans hc
  · cases hphase.symm.trans hc
  · rcases hgo with rfl | rfl <;> cases hc
  · rw [pcAt_put_child hT]
    rcases hgo with rfl | rfl <;> simp [Point.goto, hnot]

variable [DecidableEq τ] {a : Tasks.Act τ}

theorem Inv.step (h : Inv n s) (hi : Tasks.Inv s) (hs : (main w n).Step s a s') : Inv n s' := by
  cases hs with
  | @start t p T hT hp =>
    have hcall := h.call hT
    have hpc := hcall.created hp
    refine h.go rfl rfl ⟨hcall.owner_eq, hcall.arg_eq, hcall.nonneg, hcall.pc, nofun, nofun⟩
      (fun hc => by cases hpc.symm.trans hc) ?_
    rw [pcAt_of_task hT, Option.some.injEq]
  | @act t p T f d k hp hT hc hf =>
    have hcall := h.call hT
    have hok := hcall.pc
    have hphase := hi.started hp hT
    have hat := pcAt_of_task hT
    rcases act_cases hc hf with ⟨hpc, rfl, rfl⟩ | ⟨hpc, rfl, x, y, v, hx, hy, hv, rfl⟩ | ⟨v, hpc, rfl, rfl⟩
    · rw [hpc] at hok hat
      refine h.go rfl rfl (hcall.goto hphase ?_) (fun hc => ?_) ?_
      · split
        · rename_i hlt
          rw [hcall.arg_eq] at hlt ⊢
          exact ⟨(serialFib_of_lt hlt).symm, hok.trans (if_pos hlt).symm⟩
        · exact ⟨by rw [← hcall.arg_eq]; omega, hok⟩
      · simp only [Point.goto] at hc
        split at hc <;> cases hc
      · simp only [Point.goto, hat]
        split <;> simp
    · rw [hpc] at hok hat
      obtain ⟨ha, hb⟩ := h.vars hat
      cases hx.symm.trans ha
      cases hy.symm.trans hb
      obtain rfl := eq_of_add hv
      refine h.go rfl rfl (hcall.goto hphase ?_) (fun hc => by cases hc) (by simp [hat, Point.goto])
      exact ⟨(serialFib_of_le hok.1).symm, hok.2.trans (forks_of_le hok.1).symm⟩
    · rw [hpc] at hok hat
      refine h.put rfl (hcall.goto hphase hok.2) (fun hc => by cases hc) (fun hd => by simp [hat] at hd) fun x => ?_
      by_cases hx : x = T.point.x
      · subst hx
        rw [if_pos ⟨hcall.owner_eq, rfl⟩]
        exact (Function.update_self ..).trans (congrArg some hok.1)
      · rw [if_neg fun hd => hx (owner_injective (hd.1.trans hcall.owner_eq.symm))]
        exact Function.update_of_ne hx ..
  | @create t p T child k hp hT hc =>
    have hcall := h.call hT
    have hok := hcall.pc
    have hphase := hi.started hp hT
    rcases create_cases hc with ⟨hpc, rfl, rfl⟩ | ⟨hpc, rfl, rfl⟩
    · rw [hpc] at hok
      obtain ⟨hle, hzero⟩ := hok
      refine h.create hi hT hphase (by simp [hpc]) ?_ ?_ ?_ ⟨hle, by rw [hzero]⟩ (.inl rfl)
      · rw [hzero]; rfl
      · rw [hzero, hcall.arg_eq]; rfl
      · rw [hcall.arg_eq]; omega
    · rw [hpc] at hok
      obtain ⟨hle, hone⟩ := hok
      refine h.create hi hT hphase (by simp [hpc]) ?_ ?_ ?_ ⟨hle, by rw [hone]⟩ (.inr rfl)
      · rw [hone]; rfl
      · rw [hone, hcall.arg_eq]; rfl
      · rw [hcall.arg_eq]; omega
  | @taskwait t p T k hp hT hc hall =>
    have hcall := h.call hT
    have hok := hcall.pc
    obtain ⟨hpc, rfl⟩ := taskwait_cases hc
    rw [hpc] at hok
    refine h.go rfl rfl (hcall.goto (hi.started hp hT) hok) (fun _ i hlt => ?_) (by simp [pcAt_of_task hT, hpc, Point.goto])
    -- both tasks are complete
    have hcomplete := of_decide_eq_true (hall i (by rw [hok.2]; exact hlt))
    obtain ⟨C, hC, hphase⟩ := Tasks.exists_task hcomplete
    rw [pcAt_of_task hC, (h.call hC).complete hphase]
  | @complete t p T hp hT hc =>
    have hcall := h.call hT
    have hpc := complete_cases hc
    refine h.go rfl rfl ⟨hcall.owner_eq, hcall.arg_eq, hcall.nonneg, hcall.pc, nofun, fun _ => hpc⟩
      (fun hc => by cases hpc.symm.trans hc) ?_
    rw [pcAt_of_task hT, Option.some.injEq]

/-- At first there is the call of `main`. -/
theorem call_start {p : TaskId} {T : Tasks.Task Point} (h : ((main w n).system τ).start.task p = some T) :
    p = [] ∧ T = ⟨.created, ⟨.r, n, .test⟩, 0⟩ := by
  simp only [Tasks.Program.system, main, Function.update_apply] at h
  split at h
  · cases h
    exact ⟨‹_›, rfl⟩
  · cases h

theorem inv (h : ((main w n).system τ).Reach s) : Inv n s := by
  have hnot : ∀ {p pc}, pcAt ((main w n).system τ).start p = some pc → pc = .test := fun hp => by
    obtain ⟨T, hT, rfl⟩ := Option.map_eq_some_iff.mp hp
    rw [(call_start hT).2]
  have hstart : Inv n ((main w n).system τ).start := by
    refine ⟨fun hT => ?_, fun hp => (by cases hnot hp), fun x => ?_⟩
    · obtain ⟨rfl, rfl⟩ := call_start hT
      exact ⟨rfl, rfl, id, rfl, fun _ => rfl, nofun⟩
    · have hnone : pcAt ((main w n).system τ).start (owner x) ≠ some .done := fun hp => by cases hnot hp
      rw [if_neg hnone]
      rfl
  exact h.inv (I := Inv n) hstart fun hr _ ha hinv => hinv.step (Tasks.inv hr) (Tasks.Program.step_of_next ha)

omit [DecidableEq τ] in
/-- What the calls do next is defined: `a` and `b` have been assigned when they
are read, and no sum is greater than the result. -/
theorem defined (h : Inv n s) (hn : 0 ≤ n) (hfits : Fits w (serialFib n)) : (main w n).Defined s := by
  intro p T f hT _ hc
  have hcall := h.call hT
  have hok := hcall.pc
  change fib w p T.point = .act f at hc
  cases hpc : T.point.pc with
  | test | assign =>
    simp only [fib, hpc, Tasks.Cmd.act.injEq] at hc
    subst hc
    rfl
  | sum =>
    rw [hpc] at hok
    simp only [fib, hpc, Tasks.Cmd.act.injEq] at hc
    subst hc
    obtain ⟨ha, hb⟩ := h.vars (by rw [pcAt_of_task hT, hpc])
    have hnonneg := hcall.nonneg hn
    have hpos : (0 : ℤ) ≤ 2 ^ (w - 1) := (serialFib_nonneg hn).trans hfits.2.le
    have hrange : Fits w (serialFib (arg n p - 1) + serialFib (arg n p - 2)) := by
      rw [← serialFib_of_le hok.1]
      exact ⟨(Int.neg_nonpos_of_nonneg hpos).trans (serialFib_nonneg hnonneg),
        (serialFib_mono hnonneg (arg_le n p)).trans_lt hfits.2⟩
    simp [ha, hb, add, hrange]
  | taskA | taskB | taskwait | done => simp [fib, hpc] at hc

end TKH.FibTasks
