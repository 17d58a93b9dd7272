import ThreadingKnowHows.Stack.LockFree

/-!
# What the lock-free pops have synchronised with

The two stacks once more, now with the memory orders they declare. `mo` is
the modification order of `head_`; a load or a failed compare-and-swap may
read any modification that is not older than what its thread has seen, a
successful one reads the last. `known` are the nodes whose initialisation a
thread has synchronised with: its own nodes, and, each time it reads a
modification with acquire order, all nodes published up to it (the
modifications are read-modify-writes, so that release sequences go on). The
two fields `own` and `acq` say where these come from: the nodes that a thread
has made, and how many modifications it has acquired.

`pop` loads `head_` with acquire order, and a successful compare-and-swap
acquires as well, but one that fails is relaxed (`declared`), and then `pop`
goes on with the node that it has read.
-/

namespace TKH.Stack.Visibility

variable {τ A T : Type*}

/-- The orders that the source gives to what `pop` does. -/
inductive Order
  | relaxed
  | acquire

def Order.acquires : Order → Bool
  | acquire => true
  | _ => false

/-- The orders of the load in `pop`, and of its compare-and-swap when it
succeeds and when it fails. -/
structure Orders where
  load : Order
  success : Order
  failure : Order

/-- What both stacks declare. -/
def declared : Orders where
  load := .acquire
  success := .acquire
  failure := .relaxed

/-- `LockFreeStack`, or `TaggedStack` with a tag of `w` bits. -/
inductive Kind
  | lockFree
  | tagged (w : ℕ)

/-- The tag after a swap. -/
def Kind.succ : Kind → ℕ → ℕ
  | lockFree, n => n
  | tagged w, n => (n + 1) % 2 ^ w

/-- The value of `head_`. -/
structure Head (A : Type*) where
  ptr : Option A
  tag : ℕ
  deriving DecidableEq

/-- A modification of `head_`, and the node that it published. -/
structure Mod (A : Type*) where
  head : Head A
  node : Option A

inductive Pc (A T : Type*)
  | out
  /-- Before the relaxed load of `push`; `TaggedStack` has made its node. -/
  | pushLoad (v : T) (n : Option A)
  /-- Before `new Node`; `LockFreeStack` has loaded `head_`. -/
  | pushNew (v : T) (cur : Option (Head A))
  /-- About to set `n->next` to `cur.ptr`. -/
  | pushLink (v : T) (n : A) (cur : Head A)
  | pushCas (v : T) (n : A) (cur : Head A)
  | pushRet (v : T)
  | popLoad
  /-- About to read `ptr->next`. -/
  | popNext (ptr : A) (tag : ℕ)
  | popCas (ptr : A) (tag : ℕ) (next : Option A)
  /-- About to read `ptr->value`. -/
  | popValue (ptr : A)
  | popRet (r : Option T)

structure State (τ A T : Type*) where
  mo : List (Mod A)
  heap : A → Option (Node A T)
  seen : τ → ℕ
  known : τ → List A
  own : τ → List A
  acq : τ → ℕ
  pc : τ → Pc A T

inductive Act (τ A T : Type*)
  | call (t : τ) (op : Op T)
  | new (t : τ) (a : A)
  /-- Loads the modification `i`. -/
  | load (t : τ) (i : ℕ)
  | swap (t : τ)
  /-- The weak compare-and-swap fails, having read the modification `i`. -/
  | fail (t : τ) (i : ℕ)
  | step (t : τ)
  | ret (t : τ)

/-- The nodes published by a modification order. -/
def published (mo : List (Mod A)) : List A := mo.filterMap Mod.node

/-- The node that `pop` is about to dereference. -/
def Pc.derefs : Pc A T → Option A
  | popNext a _ | popValue a => some a
  | _ => none

/-- `pop` has read `cur`: it gives up if the pointer is null. -/
def test (cur : Head A) : Pc A T :=
  match cur.ptr with
  | none => .popRet none
  | some a => .popNext a cur.tag

namespace State

variable [DecidableEq τ] [DecidableEq A]

def goto (s : State τ A T) (t : τ) (k : Pc A T) : State τ A T :=
  { s with pc := Function.update s.pc t k }

/-- `t` reads the modification `i`. -/
def read (s : State τ A T) (t : τ) (i : ℕ) (o : Order) : State τ A T :=
  { s with
    seen := Function.update s.seen t i
    known := if o.acquires then Function.update s.known t (s.known t ++ published (s.mo.take (i + 1)))
      else s.known
    acq := if o.acquires then Function.update s.acq t (max (s.acq t) (i + 1)) else s.acq }

/-- `t` appends to the modification order, right after it has read its end. -/
def modify (s : State τ A T) (t : τ) (m : Mod A) : State τ A T :=
  { s with mo := s.mo ++ [m], seen := Function.update s.seen t s.mo.length }

def link (s : State τ A T) (n : A) (next : Option A) : State τ A T :=
  { s with heap := Function.update s.heap n ((s.heap n).map fun node => { node with next := next }) }

def new (s : State τ A T) (t : τ) (a : A) (node : Node A T) : State τ A T :=
  { s with
    heap := Function.update s.heap a (some node)
    known := Function.update s.known t (a :: s.known t)
    own := Function.update s.own t (a :: s.own t) }

/-- The modification `i`, if `t` may still read it. -/
def readable (s : State τ A T) (t : τ) (i : ℕ) : Option (Mod A) :=
  if s.seen t ≤ i then s.mo[i]? else none

end State

/-- The first control point of an operation. -/
def enter : Kind → Op T → Pc A T
  | .lockFree, .push v => .pushLoad v none
  | .tagged _, .push v => .pushNew v none
  | _, .pop => .popLoad

def next [DecidableEq τ] [DecidableEq A] (K : Kind) (O : Orders) (s : State τ A T) : Act τ A T → Option (State τ A T)
  | .call t op => match s.pc t with
    | .out => some (s.goto t (enter K op))
    | _ => none
  | .new t a => match s.heap a, s.pc t with
    | none, .pushNew v (some cur) => some ((s.new t a ⟨v, cur.ptr⟩).goto t (.pushCas v a cur))
    | none, .pushNew v none => some ((s.new t a ⟨v, none⟩).goto t (.pushLoad v (some a)))
    | _, _ => none
  | .load t i => (s.readable t i).bind fun m => match s.pc t with
    | .pushLoad v none => some ((s.read t i .relaxed).goto t (.pushNew v (some m.head)))
    | .pushLoad v (some n) => some ((s.read t i .relaxed).goto t (.pushLink v n m.head))
    | .popLoad => some ((s.read t i O.load).goto t (test m.head))
    | _ => none
  | .swap t => s.mo.getLast?.bind fun m => match s.pc t with
    | .pushCas v n cur =>
      if m.head = cur then some ((s.modify t ⟨⟨some n, K.succ cur.tag⟩, some n⟩).goto t (.pushRet v)) else none
    | .popCas a tag nx =>
      if m.head = ⟨some a, tag⟩ then
        some (((s.read t (s.mo.length - 1) O.success).modify t ⟨⟨nx, K.succ tag⟩, none⟩).goto t (.popValue a))
      else none
    | _ => none
  | .fail t i => (s.readable t i).bind fun m => match s.pc t with
    | .pushCas v n _ => match K with
      | .lockFree => some (((s.read t i .relaxed).link n m.head.ptr).goto t (.pushCas v n m.head))
      | .tagged _ => some ((s.read t i .relaxed).goto t (.pushLink v n m.head))
    | .popCas _ _ _ => some ((s.read t i O.failure).goto t (test m.head))
    | _ => none
  | .step t => match s.pc t with
    | .pushLink v n cur => some ((s.link n cur.ptr).goto t (.pushCas v n cur))
    | .popNext a tag => (s.heap a).map fun node => s.goto t (.popCas a tag node.next)
    | .popValue a => (s.heap a).map fun node => s.goto t (.popRet (some node.value))
    | _ => none
  | .ret t => match s.pc t with
    | .pushRet _ | .popRet _ => some (s.goto t .out)
    | _ => none

/-- The stack of kind `K`, with the orders `O` in `pop`. -/
def stack (K : Kind) (O : Orders) (τ A T : Type*) [DecidableEq τ] [DecidableEq A] :
    System (State τ A T) (Act τ A T) where
  start := {
    mo := [⟨⟨none, 0⟩, none⟩]
    heap := fun _ => none
    seen := fun _ => 0
    known := fun _ => []
    own := fun _ => []
    acq := fun _ => 0
    pc := fun _ => .out }
  next := next K O

/-! ## Published nodes -/

/-- The node that a thread is about to store, in `head_` or in a node. -/
def Pc.target : Pc A T → Option A
  | pushNew _ (some cur) | pushLink _ _ cur | pushCas _ _ cur => cur.ptr
  | popCas _ _ nx => nx
  | _ => none

/-- The node in the local variable of `pop`. -/
def Pc.old : Pc A T → Option A
  | popNext a _ | popCas a _ _ | popValue a => some a
  | _ => none

/-- Whatever can be reached from `head_` was published before, a thread knows
its own nodes and what it has acquired, and `pop` works on nodes it knows. -/
structure Inv (s : State τ A T) : Prop where
  heads : ∀ (i : ℕ) m b, s.mo[i]? = some m → m.head.ptr = some b → b ∈ published (s.mo.take (i + 1))
  nexts : ∀ a node b, s.heap a = some node → node.next = some b → b ∈ published s.mo
  targets : ∀ t b, (s.pc t).target = some b → b ∈ published s.mo
  acq_le : ∀ t, s.acq t ≤ s.mo.length
  known : ∀ t b, b ∈ s.known t ↔ b ∈ s.own t ∨ b ∈ published (s.mo.take (s.acq t))
  old : ∀ t a, (s.pc t).old = some a → a ∈ s.known t

variable {K : Kind} {O : Orders} {s s' : State τ A T} {t : τ} {k : Pc A T} {i : ℕ} {m : Mod A}

theorem mem_published_append {mo mo' : List (Mod A)} {b : A} :
    b ∈ published (mo ++ mo') ↔ b ∈ published mo ∨ b ∈ published mo' := by
  simp [published]

theorem mem_published_of_take {mo : List (Mod A)} {b : A} (h : b ∈ published (mo.take i)) : b ∈ published mo := by
  rw [← List.take_append_drop i mo]
  exact mem_published_append.mpr (.inl h)

theorem mem_published_take_max {mo : List (Mod A)} {i j : ℕ} {b : A} :
    b ∈ published (mo.take (max i j)) ↔ b ∈ published (mo.take i) ∨ b ∈ published (mo.take j) := by
  have mono : ∀ {i j : ℕ}, i ≤ j → b ∈ published (mo.take i) → b ∈ published (mo.take j) := by
    intro i j h hb
    rw [← Nat.add_sub_cancel' h, List.take_add]
    exact mem_published_append.mpr (.inl hb)
  rcases le_total i j with h | h
  · rw [max_eq_right h]
    exact ⟨.inr, fun hb => hb.elim (mono h) id⟩
  · rw [max_eq_left h]
    exact ⟨.inl, fun hb => hb.elim id (mono h)⟩

theorem Inv.ptr (h : Inv s) (hm : s.mo[i]? = some m) {b : A} (hb : m.head.ptr = some b) : b ∈ published s.mo :=
  mem_published_of_take (h.heads i m b hm hb)

theorem getElem_of_readable (h : s.readable t i = some m) : s.mo[i]? = some m := by
  simp only [State.readable] at h
  split at h
  · exact h
  · cases h

theorem test_target {cur : Head A} {b : A} (h : (test cur : Pc A T).target = some b) : False := by
  simp only [test] at h
  split at h <;> cases h

theorem test_old {cur : Head A} {b : A} (h : (test cur : Pc A T).old = some b) : cur.ptr = some b := by
  simp only [test] at h
  split at h
  · cases h
  · cases h; assumption

variable [DecidableEq τ]

theorem Inv.goto (h : Inv s) (hk : ∀ b, k.target = some b → b ∈ published s.mo)
    (ho : ∀ a, k.old = some a → a ∈ s.known t) : Inv (s.goto t k) := by
  refine { h with targets := ?_, old := ?_ }
  · exact (Function.forall_update_iff s.pc fun _ x => ∀ b, x.target = some b → b ∈ published s.mo).mpr
      ⟨hk, fun u _ => h.targets u⟩
  · exact (Function.forall_update_iff s.pc fun u x => ∀ a, x.old = some a → a ∈ s.known u).mpr
      ⟨ho, fun u _ => h.old u⟩

theorem known_read {o : Order} {u : τ} {b : A} (h : b ∈ s.known u) : b ∈ (s.read t i o).known u := by
  simp only [State.read]
  split
  · by_cases hu : u = t
    · subst hu
      rw [Function.update_self]
      exact List.mem_append_left _ h
    · rwa [Function.update_of_ne hu]
  · exact h

theorem known_of_acquires {o : Order} (h : Inv s) (hm : s.mo[i]? = some m) (ho : o.acquires = true) {b : A}
    (hb : m.head.ptr = some b) : b ∈ (s.read t i o).known t := by
  simp only [State.read, ho, if_true, Function.update_self]
  exact List.mem_append_right _ (h.heads i m b hm hb)

theorem Inv.read (h : Inv s) (hi : s.mo[i]? = some m) (o : Order) : Inv (s.read t i o) := by
  have hlt := (List.getElem?_eq_some_iff.mp hi).1
  by_cases ho : o.acquires
  · refine { h with acq_le := fun u => ?_, known := fun u b => ?_, old := fun u a ha => known_read (h.old u a ha) }
    all_goals
      simp only [State.read, ho, if_true]
      by_cases hu : u = t
    · subst hu
      rw [Function.update_self]
      exact max_le (h.acq_le u) hlt
    · rw [Function.update_of_ne hu]
      exact h.acq_le u
    · subst hu
      rw [Function.update_self, Function.update_self, List.mem_append, h.known, mem_published_take_max, or_assoc]
    · rw [Function.update_of_ne hu, Function.update_of_ne hu]
      exact h.known u b
  · have he : s.read t i o = { s with seen := Function.update s.seen t i } := by simp [State.read, ho]
    rw [he]
    exact { h with }

theorem Inv.modify (h : Inv s) (hm : ∀ b, m.head.ptr = some b → b ∈ published (s.mo ++ [m])) :
    Inv (s.modify t m) := by
  have hgrows : ∀ b, b ∈ published s.mo → b ∈ published (s.mo ++ [m]) := fun b hb =>
    mem_published_append.mpr (.inl hb)
  refine {
    heads := fun i m' b hm' hb => ?_
    nexts := fun a node b hn hb => hgrows b (h.nexts a node b hn hb)
    targets := fun u b hb => hgrows b (h.targets u b hb)
    acq_le := fun u => ?_
    known := fun u b => ?_
    old := h.old }
  · change (s.mo ++ [m])[i]? = some m' at hm'
    change b ∈ published ((s.mo ++ [m]).take (i + 1))
    rw [List.getElem?_append] at hm'
    split at hm'
    · rw [List.take_append_of_le_length (by omega)]
      exact h.heads i m' b hm' hb
    · obtain rfl := List.mem_singleton.mp (List.mem_of_getElem? hm')
      rw [List.take_of_length_le (by simp; omega)]
      exact hm b hb
  · change s.acq u ≤ (s.mo ++ [m]).length
    exact (h.acq_le u).trans (by simp)
  · change b ∈ s.known u ↔ b ∈ s.own u ∨ b ∈ published ((s.mo ++ [m]).take (s.acq u))
    rw [List.take_append_of_le_length (h.acq_le u), h.known]

omit [DecidableEq τ] in
theorem Inv.link [DecidableEq A] (h : Inv s) {n : A} {nx : Option A}
    (hn : ∀ b, nx = some b → b ∈ published s.mo) : Inv (s.link n nx) := by
  refine { h with nexts := fun a node b ha hb => ?_ }
  simp only [State.link] at ha
  by_cases he : a = n
  · subst he
    rw [Function.update_self] at ha
    obtain ⟨node', -, rfl⟩ := Option.map_eq_some_iff.mp ha
    exact hn b hb
  · rw [Function.update_of_ne he] at ha
    exact h.nexts a node b ha hb

theorem Inv.new [DecidableEq A] (h : Inv s) {a : A} {node : Node A T}
    (hn : ∀ b, node.next = some b → b ∈ published s.mo) : Inv (s.new t a node) := by
  refine { h with nexts := fun c node' b hc hb => ?_, known := fun u b => ?_, old := fun u b hb => ?_ }
  · simp only [State.new] at hc
    by_cases he : c = a
    · subst he
      rw [Function.update_self, Option.some.injEq] at hc
      subst hc
      exact hn b hb
    · rw [Function.update_of_ne he] at hc
      exact h.nexts c node' b hc hb
  · simp only [State.new]
    by_cases hu : u = t
    · subst hu
      rw [Function.update_self, Function.update_self, List.mem_cons, List.mem_cons, h.known, or_assoc]
    · rw [Function.update_of_ne hu, Function.update_of_ne hu]
      exact h.known u b
  · simp only [State.new]
    by_cases hu : u = t
    · subst hu
      rw [Function.update_self]
      exact List.mem_cons_of_mem a (h.old u b hb)
    · rw [Function.update_of_ne hu]
      exact h.old u b hb

variable [DecidableEq A]

/-! ## Runs -/

def Pc.swaps : Pc A T → Bool
  | popCas _ _ _ => true
  | _ => false

/-- What `t` has read as `m` is null, one of its own nodes, or a node that was
published before `t` last acquired. -/
def State.Fresh (s : State τ A T) (t : τ) (m : Mod A) : Prop :=
  ∀ b ∈ m.head.ptr, b ∈ s.own t ∨ b ∈ published (s.mo.take (s.acq t))

/-- If the compare-and-swap of a `pop` fails, it reads no node that another
thread has published since the thread last acquired. -/
def Safe (s : State τ A T) : Act τ A T → Prop
  | .fail t i => (s.pc t).swaps = true → ∀ m ∈ s.mo[i]?, s.Fresh t m
  | _ => True

instance (s : State τ A T) (t : τ) (m : Mod A) : Decidable (s.Fresh t m) :=
  inferInstanceAs (Decidable (∀ b ∈ m.head.ptr, b ∈ s.own t ∨ b ∈ published (s.mo.take (s.acq t))))

instance (s : State τ A T) : ∀ a, Decidable (Safe s a)
  | .fail t i => inferInstanceAs (Decidable ((s.pc t).swaps = true → ∀ m ∈ s.mo[i]?, s.Fresh t m))
  | .call _ _ | .new _ _ | .load _ _ | .swap _ | .step _ | .ret _ => isTrue trivial

theorem Inv.step (h : Inv s) (hload : O.load.acquires = true) {a : Act τ A T}
    (hok : O.failure.acquires = true ∨ Safe s a) (ha : (stack K O τ A T).next s a = some s') : Inv s' := by
  change next K O s a = some s' at ha
  cases a with
  | call t op =>
    simp only [next] at ha
    split at ha <;> cases ha
    exact h.goto (by cases K <;> cases op <;> rintro b ⟨⟩) (by cases K <;> cases op <;> rintro b ⟨⟩)
  | new t a =>
    simp only [next] at ha
    split at ha <;> cases ha
    · have hcur := h.targets t
      rw [‹s.pc t = _›] at hcur
      exact (h.new hcur).goto hcur (by rintro b ⟨⟩)
    · exact (h.new (by rintro b ⟨⟩)).goto (by rintro b ⟨⟩) (by rintro b ⟨⟩)
  | load t i =>
    obtain ⟨m, hm, ha⟩ := Option.bind_eq_some_iff.mp ha
    have hm := getElem_of_readable hm
    split at ha <;> cases ha
    · exact (h.read hm _).goto (fun _ => h.ptr hm) (by rintro b ⟨⟩)
    · exact (h.read hm _).goto (fun _ => h.ptr hm) (by rintro b ⟨⟩)
    · exact (h.read hm _).goto (fun _ hb => (test_target hb).elim) fun b hb =>
        known_of_acquires h hm hload (test_old hb)
  | swap t =>
    obtain ⟨m, hm, ha⟩ := Option.bind_eq_some_iff.mp ha
    split at ha
    · split at ha <;> cases ha
      exact (h.modify fun b hb => mem_published_append.mpr (.inr (by simpa [published, eq_comm] using hb))).goto
        (by rintro b ⟨⟩) (by rintro b ⟨⟩)
    · split at ha <;> cases ha
      have hnx := h.targets t
      have hold := h.old t
      rw [‹s.pc t = _›] at hnx hold
      rw [List.getLast?_eq_getElem?] at hm
      exact ((h.read hm _).modify fun b hb => mem_published_append.mpr (.inl (hnx b hb))).goto
        (by rintro b ⟨⟩) fun b hb => known_read (hold b hb)
    · cases ha
  | fail t i =>
    obtain ⟨m, hm, ha⟩ := Option.bind_eq_some_iff.mp ha
    have hm := getElem_of_readable hm
    split at ha
    · split at ha <;> cases ha
      · exact ((h.read hm _).link (fun _ => h.ptr hm)).goto (fun _ => h.ptr hm) (by rintro b ⟨⟩)
      · exact (h.read hm _).goto (fun _ => h.ptr hm) (by rintro b ⟨⟩)
    · cases ha
      refine (h.read hm _).goto (fun _ hb => (test_target hb).elim) fun b hb => ?_
      rcases hok with hok | hok
      · exact known_of_acquires h hm hok (test_old hb)
      · exact known_read ((h.known t b).mpr (hok (by rw [‹s.pc t = _›]; rfl) m hm b (test_old hb)))
    · cases ha
  | step t =>
    have htarget := h.targets t
    have hold := h.old t
    simp only [next] at ha
    split at ha
    · cases ha
      rw [‹s.pc t = _›] at htarget
      exact (h.link htarget).goto htarget (by rintro b ⟨⟩)
    · obtain ⟨node, hn, rfl⟩ := Option.map_eq_some_iff.mp ha
      rw [‹s.pc t = _›] at hold
      exact h.goto (fun b hb => h.nexts _ node b hn hb) hold
    · obtain ⟨node, hn, rfl⟩ := Option.map_eq_some_iff.mp ha
      exact h.goto (by rintro b ⟨⟩) (by rintro b ⟨⟩)
    · cases ha
  | ret t =>
    simp only [next] at ha
    split at ha <;> cases ha <;> exact h.goto (by rintro b ⟨⟩) (by rintro b ⟨⟩)

theorem inv_start : Inv (stack K O τ A T).start := by
  refine ⟨fun i m b hm hb => ?_, by rintro _ _ _ ⟨⟩, by rintro _ _ ⟨⟩, by simp [stack], by simp [stack, published],
    by rintro _ _ ⟨⟩⟩
  obtain rfl := List.mem_singleton.mp (List.mem_of_getElem? hm)
  cases hb

theorem inv_of_path {ok : State τ A T → Act τ A T → Prop} (hload : O.load.acquires = true)
    (hok : ∀ s a, ok s a → O.failure.acquires = true ∨ Safe s a) (h : (stack K O τ A T).ReachBy ok s) : Inv s :=
  h.inv inv_start fun _ ha hn hi => hi.step hload (hok _ _ ha) hn

/-- Each node that a thread dereferences is one that it has synchronised with. -/
def Visible (s : State τ A T) : Prop := ∀ t a, (s.pc t).derefs = some a → a ∈ s.known t

omit [DecidableEq τ] [DecidableEq A] in
theorem Inv.visible (h : Inv s) : Visible s := fun t a ha =>
  h.old t a (by cases hk : s.pc t <;> simp_all [Pc.derefs, Pc.old])

/-- With acquire order on failure as well, all dereferences would be visible. -/
theorem visible_of_acquires (hload : O.load.acquires = true) (hfail : O.failure.acquires = true)
    (h : (stack K O τ A T).Reach s) : Visible s :=
  (inv_of_path hload (fun _ _ _ => .inl hfail) h).visible

theorem not_visible (h : Inv s) {a : Act τ A T} (ha : (stack K declared τ A T).next s a = some s') (hs : ¬Safe s a) :
    ¬Visible s' := by
  cases a with
  | fail t i =>
    simp only [Safe, State.Fresh, Classical.not_imp, not_forall] at hs
    obtain ⟨hpc, m, hm, b, hb, hn⟩ := hs
    change next K declared s (.fail t i) = some s' at ha
    obtain ⟨m', hm', ha⟩ := Option.bind_eq_some_iff.mp ha
    obtain rfl : m' = m := Option.some.inj ((getElem_of_readable hm').symm.trans hm)
    cases hk : s.pc t <;> rw [hk] at hpc <;> cases hpc
    simp only [hk, Option.some.injEq] at ha
    subst ha
    intro hv
    refine hn ((h.known t b).mp (hv t b ?_))
    rw [Option.mem_def] at hb
    simp only [State.goto, Function.update_self, test, hb, Pc.derefs]
  | call _ _ | new _ _ | load _ _ | swap _ | step _ | ret _ => exact absurd trivial hs

/-- In a run, a pop only dereferences nodes that it has synchronised with
exactly if no compare-and-swap of a pop fails on a node that another thread
has published since the popping thread last acquired. -/
theorem pops_visible_iff (K : Kind) {as : List (Act τ A T)}
    (h : (stack K declared τ A T).run (stack K declared τ A T).start as = some s) :
    (stack K declared τ A T).Always Visible (stack K declared τ A T).start as ↔
      (stack K declared τ A T).Along Safe (stack K declared τ A T).start as :=
  have hinv {s} (h : (stack K declared τ A T).ReachBy Safe s) : Inv s := inv_of_path rfl (fun _ _ => .inr) h
  System.always_iff_along (fun h => (hinv h).visible) (fun h => not_visible (hinv h)) h

/-- `u` reads the node of `t` at 10 as the head, `t` pushes one at 11, and
`u` fails on it, and is about to read its `next`. -/
def overtake (t u : τ) : Kind → List (Act τ ℕ ℕ)
  | .lockFree => [.call t (.push 1), .load t 0, .new t 10, .swap t, .ret t, .call u .pop, .load u 1, .step u,
    .call t (.push 2), .load t 1, .new t 11, .swap t, .ret t, .fail u 2]
  | .tagged _ => [.call t (.push 1), .new t 10, .load t 0, .step t, .swap t, .ret t, .call u .pop, .load u 1,
    .step u, .call t (.push 2), .new t 11, .load t 1, .step t, .swap t, .ret t, .fail u 2]

/-- On either stack `1` dereferences a node that it has not synchronised with. -/
theorem pops_not_visible :
    (∃ s, (stack .lockFree declared (Fin 2) ℕ ℕ).run (stack .lockFree declared (Fin 2) ℕ ℕ).start
      (overtake 0 1 .lockFree) = some s ∧ (s.pc 1).derefs = some 11 ∧ 11 ∉ s.known 1) ∧
    ∃ s, (stack (.tagged 64) declared (Fin 2) ℕ ℕ).run (stack (.tagged 64) declared (Fin 2) ℕ ℕ).start
      (overtake 0 1 (.tagged 64)) = some s ∧ (s.pc 1).derefs = some 11 ∧ 11 ∉ s.known 1 := by
  have h : ∀ K ∈ [.lockFree, .tagged 64],
      ((stack K declared (Fin 2) ℕ ℕ).run (stack K declared (Fin 2) ℕ ℕ).start (overtake 0 1 K)).any
        (fun s => (s.pc 1).derefs = some 11 ∧ 11 ∉ s.known 1) = true := by decide +kernel
  obtain ⟨s, hs, hp⟩ := System.exists_of_run (h .lockFree (by simp))
  obtain ⟨s', hs', hp'⟩ := System.exists_of_run (h (.tagged 64) (by simp))
  exact ⟨⟨s, hs, of_decide_eq_true hp⟩, ⟨s', hs', of_decide_eq_true hp'⟩⟩

/-- `u` fails spuriously on the node that it has read, and pops it. -/
def retry (t u : τ) : List (Act τ ℕ ℕ) :=
  [.call t (.push 1), .load t 0, .new t 10, .swap t, .ret t, .call u .pop, .load u 1, .step u, .fail u 1, .step u,
    .swap u, .step u, .ret u]

theorem pops_visible_retry :
    (stack .lockFree declared (Fin 2) ℕ ℕ).Always Visible (stack .lockFree declared (Fin 2) ℕ ℕ).start (retry 0 1) := by
  have hr : ((stack .lockFree declared (Fin 2) ℕ ℕ).run
    (stack .lockFree declared (Fin 2) ℕ ℕ).start (retry 0 1)).isSome = true := by decide +kernel
  exact (pops_visible_iff .lockFree (Option.some_get hr).symm).mpr (by decide +kernel)

end TKH.Stack.Visibility
