import ThreadingKnowHows.Framework.Linked
import ThreadingKnowHows.Stack.Lifo

/-!
# The lock-free stack

`LockFreeStack` of `02_cpp11_threads/04_atomics/05_lockfree_stack.cpp`. Each
load of `head_`, each read of `old->next` and each compare-and-swap is a step;
a weak compare-and-swap may also fail for no reason (`Act.fail`). A failed one
leaves the value of `head_` in its first argument: for `push` that is the
`next` of the new node. `new` returns an address that was never used, since
popped nodes are leaked.

`nodes` and `hist` are not in the source: the addresses of the nodes in the
stack, top first, and the operations in the order in which they took effect.
-/

namespace TKH.Stack

variable {τ A T : Type*}

/-- `LockFreeStack::Node`. -/
structure Node (A T : Type*) where
  value : T
  next : Option A

/-- What a thread does next: `new` allocates its node at `a`, and in `fail` a
weak compare-and-swap fails for no reason. -/
inductive Act (τ A T : Type*)
  | call (t : τ) (op : Op T)
  | step (t : τ)
  | new (t : τ) (a : A)
  | fail (t : τ)
  | ret (t : τ)

/-- Calls and returns. -/
def Act.visible : Act τ A T → Bool
  | .call _ _ | .ret _ => true
  | _ => false

namespace LockFree

inductive Pc (A T : Type*)
  | out
  | pushLoad (v : T)
  /-- `new Node{v, head}`. -/
  | pushNew (v : T) (head : Option A)
  /-- About to swap `head_` from `n->next` to `n`. -/
  | pushCas (v : T) (n : A)
  | pushRet (v : T)
  | popLoad
  /-- About to read `old->next`. -/
  | popNext (old : A)
  | popCas (old : A) (next : Option A)
  /-- About to read `old->value`. -/
  | popValue (old : A)
  | popRet (r : Option T)

structure State (τ A T : Type*) where
  head : Option A
  heap : A → Option (Node A T)
  pc : τ → Pc A T
  nodes : List A
  hist : List (τ × Op T × Ret T)

namespace State

/-- `a->next` and `a->value`. -/
def next (s : State τ A T) (a : A) : Option A := (s.heap a).bind Node.next

def value (s : State τ A T) (a : A) : Option T := (s.heap a).map Node.value

variable [DecidableEq τ] [DecidableEq A]

def goto (s : State τ A T) (t : τ) (k : Pc A T) : State τ A T :=
  { s with pc := Function.update s.pc t k }

/-- An operation takes effect. -/
def commit (s : State τ A T) (t : τ) (op : Op T) (r : Ret T) : State τ A T :=
  { s with hist := s.hist ++ [(t, op, r)] }

/-- `pop` has just read `head_` into `old`: it gives up if that is null. -/
def test (s : State τ A T) (t : τ) : State τ A T :=
  match s.head with
  | none => (s.commit t .pop (.popped none)).goto t (.popRet none)
  | some a => s.goto t (.popNext a)

/-- The compare-and-swap of `push` fails: `n->next` becomes the current head. -/
def pushFail (s : State τ A T) (n : A) (node : Node A T) : State τ A T :=
  { s with heap := Function.update s.heap n (some { node with next := s.head }) }

def pushOk (s : State τ A T) (t : τ) (v : T) (n : A) : State τ A T :=
  ({ s with head := some n, nodes := n :: s.nodes }.commit t (.push v) .pushed).goto t (.pushRet v)

def popOk (s : State τ A T) (t : τ) (old : A) (next : Option A) : State τ A T :=
  ({ s with head := next, nodes := s.nodes.tail }.commit t .pop (.popped (s.value old))).goto t
    (.popValue old)

end State

/-- The first control point of an operation. -/
def enter : Op T → Pc A T
  | .push v => .pushLoad v
  | .pop => .popLoad

variable [DecidableEq τ] [DecidableEq A]

def next (s : State τ A T) : Act τ A T → Option (State τ A T)
  | .call t op => match s.pc t with
    | .out => some (s.goto t (enter op))
    | _ => none
  | .step t => match s.pc t with
    | .pushLoad v => some (s.goto t (.pushNew v s.head))
    | .pushCas v n => (s.heap n).map fun node =>
      if s.head = node.next then s.pushOk t v n else s.pushFail n node
    | .popLoad => some (s.test t)
    | .popNext a => (s.heap a).map fun node => s.goto t (.popCas a node.next)
    | .popCas a nx => some (if s.head = some a then s.popOk t a nx else s.test t)
    | .popValue a => (s.heap a).map fun node => s.goto t (.popRet (some node.value))
    | _ => none
  | .new t a => match s.pc t with
    | .pushNew v h => match s.heap a with
      | none => some ({ s with heap := Function.update s.heap a (some ⟨v, h⟩) }.goto t (.pushCas v a))
      | some _ => none
    | _ => none
  | .fail t => match s.pc t with
    | .pushCas _ n => (s.heap n).map fun node => s.pushFail n node
    | .popCas _ _ => some (s.test t)
    | _ => none
  | .ret t => match s.pc t with
    | .pushRet _ | .popRet _ => some (s.goto t .out)
    | _ => none

/-- The stack, shared by the threads `τ`. -/
def stack (τ A T : Type*) [DecidableEq τ] [DecidableEq A] : System (State τ A T) (Act τ A T) where
  start := { head := none, heap := fun _ => none, pc := fun _ => .out, nodes := [], hist := [] }
  next := next

/-- The steps of `next`. -/
inductive Step (s : State τ A T) : Act τ A T → State τ A T → Prop
  | call {t : τ} {op : Op T} : s.pc t = .out → Step s (.call t op) (s.goto t (enter op))
  | pushLoad {t : τ} {v : T} : s.pc t = .pushLoad v → Step s (.step t) (s.goto t (.pushNew v s.head))
  | pushNew {t : τ} {v : T} {h : Option A} {a : A} : s.pc t = .pushNew v h → s.heap a = none →
    Step s (.new t a)
      ({ s with heap := Function.update s.heap a (some ⟨v, h⟩) }.goto t (.pushCas v a))
  | pushOk {t : τ} {v : T} {n : A} {node : Node A T} : s.pc t = .pushCas v n → s.heap n = some node →
    s.head = node.next → Step s (.step t) (s.pushOk t v n)
  | pushFail {t : τ} {v : T} {n : A} {node : Node A T} {a : Act τ A T} : s.pc t = .pushCas v n →
    s.heap n = some node → a.visible = false → Step s a (s.pushFail n node)
  | popTest {t : τ} {a : Act τ A T} : (s.pc t = .popLoad ∨ ∃ old nx, s.pc t = .popCas old nx) →
    a.visible = false → Step s a (s.test t)
  | popNext {t : τ} {a : A} {node : Node A T} : s.pc t = .popNext a → s.heap a = some node →
    Step s (.step t) (s.goto t (.popCas a node.next))
  | popOk {t : τ} {a : A} {nx : Option A} : s.pc t = .popCas a nx → s.head = some a →
    Step s (.step t) (s.popOk t a nx)
  | popValue {t : τ} {a : A} {node : Node A T} : s.pc t = .popValue a → s.heap a = some node →
    Step s (.step t) (s.goto t (.popRet (some node.value)))
  | ret {t : τ} : (∃ v, s.pc t = .pushRet v) ∨ (∃ r, s.pc t = .popRet r) →
    Step s (.ret t) (s.goto t .out)

theorem step_of_next {s s' : State τ A T} {a : Act τ A T} (h : (stack τ A T).next s a = some s') :
    Step s a s' := by
  change next s a = some s' at h
  cases a with
  | call t op =>
    simp only [next] at h
    split at h <;> cases h
    exact .call ‹_›
  | step t =>
    simp only [next] at h
    split at h
    · cases h; exact .pushLoad ‹_›
    · obtain ⟨node, hn, rfl⟩ := Option.map_eq_some_iff.mp h
      split
      · exact .pushOk ‹_› hn ‹_›
      · exact .pushFail ‹_› hn rfl
    · cases h; exact .popTest (.inl ‹_›) rfl
    · obtain ⟨node, hn, rfl⟩ := Option.map_eq_some_iff.mp h
      exact .popNext ‹_› hn
    · cases h
      split
      · exact .popOk ‹_› ‹_›
      · exact .popTest (.inr ⟨_, _, ‹_›⟩) rfl
    · obtain ⟨node, hn, rfl⟩ := Option.map_eq_some_iff.mp h
      exact .popValue ‹_› hn
    · cases h
  | new t a =>
    simp only [next] at h
    split at h
    · split at h <;> cases h
      exact .pushNew ‹_› ‹_›
    · cases h
  | fail t =>
    simp only [next] at h
    split at h
    · obtain ⟨node, hn, rfl⟩ := Option.map_eq_some_iff.mp h
      exact .pushFail ‹_› hn rfl
    · cases h; exact .popTest (.inr ⟨_, _, ‹_›⟩) rfl
    · cases h
  | ret t =>
    simp only [next] at h
    split at h <;> cases h
    · exact .ret (.inl ⟨_, ‹_›⟩)
    · exact .ret (.inr ⟨_, ‹_›⟩)

end LockFree

end TKH.Stack
