import ThreadingKnowHows.Stack.LockFree

/-!
# The tagged stack

`TaggedStack` of `04_pitfalls/06_aba_problem.cpp`, with a tag of `w` bits that
wraps, and with an allocator that may hand out the address of a node again as
soon as the pop that took the node has returned (`live`). The fields of such a
node can then be overwritten while another thread still holds its address.

Besides `nodes` and `hist`, which are as in the lock-free stack, `ver` counts
the successful compare-and-swaps, and `seen` is the count at the time a thread
read `head_`. Neither is in the source.

A `load` or `compare_exchange` of `head_` is one step. On platforms without 16-byte
atomics it takes a hidden lock, which the steps here leave out; what one thread sees of
the other ones is the same.
-/

namespace TKH.Stack.Tagged

variable {τ A T : Type*} {w : ℕ}

structure TaggedPtr (A : Type*) (w : ℕ) where
  ptr : Option A
  tag : BitVec w
  deriving DecidableEq

inductive Pc (A T : Type*) (w : ℕ)
  | out
  /-- `new Node{v, nullptr}`. -/
  | pushNew (v : T)
  | pushLoad (v : T) (n : A)
  /-- About to set `n->next` to `cur.ptr`. -/
  | pushLink (v : T) (n : A) (cur : TaggedPtr A w) (seen : ℕ)
  | pushCas (v : T) (n : A) (cur : TaggedPtr A w) (seen : ℕ)
  | pushRet (v : T)
  | popLoad
  /-- About to read `cur.ptr->next`, where `cur` is `(ptr, tag)`. -/
  | popNext (ptr : A) (tag : BitVec w) (seen : ℕ)
  | popCas (ptr : A) (tag : BitVec w) (seen : ℕ) (next : Option A)
  /-- About to read `cur.ptr->value`. -/
  | popValue (ptr : A)
  /-- About to return `r`, taken from the node `ptr`. -/
  | popRet (r : Option T) (ptr : Option A)

structure State (τ A T : Type*) (w : ℕ) where
  head : TaggedPtr A w
  heap : A → Option (Node A T)
  live : A → Bool
  pc : τ → Pc A T w
  ver : ℕ
  nodes : List A
  hist : List (τ × Op T × Ret T)

namespace State

/-- `a->next` and `a->value`. -/
def next (s : State τ A T w) (a : A) : Option A := (s.heap a).bind Node.next

def value (s : State τ A T w) (a : A) : Option T := (s.heap a).map Node.value

variable [DecidableEq τ] [DecidableEq A]

def goto (s : State τ A T w) (t : τ) (k : Pc A T w) : State τ A T w :=
  { s with pc := Function.update s.pc t k }

/-- An operation takes effect. -/
def commit (s : State τ A T w) (t : τ) (op : Op T) (r : Ret T) : State τ A T w :=
  { s with hist := s.hist ++ [(t, op, r)] }

/-- `pop` has just read `head_` into `cur`: it gives up if the pointer is null. -/
def test (s : State τ A T w) (t : τ) : State τ A T w :=
  match s.head.ptr with
  | none => (s.commit t .pop (.popped none)).goto t (.popRet none none)
  | some a => s.goto t (.popNext a s.head.tag s.ver)

def new (s : State τ A T w) (t : τ) (v : T) (a : A) : State τ A T w :=
  { s with
    heap := Function.update s.heap a (some ⟨v, none⟩)
    live := Function.update s.live a true }.goto t (.pushLoad v a)

def link (s : State τ A T w) (t : τ) (v : T) (n : A) (cur : TaggedPtr A w) (seen : ℕ) (node : Node A T) :
    State τ A T w :=
  { s with heap := Function.update s.heap n (some { node with next := cur.ptr }) }.goto t
    (.pushCas v n cur seen)

def pushOk (s : State τ A T w) (t : τ) (v : T) (n : A) (cur : TaggedPtr A w) : State τ A T w :=
  ({ s with head := ⟨some n, cur.tag + 1⟩, ver := s.ver + 1, nodes := n :: s.nodes }.commit t
    (.push v) .pushed).goto t (.pushRet v)

def popOk (s : State τ A T w) (t : τ) (a : A) (tag : BitVec w) (next : Option A) : State τ A T w :=
  ({ s with head := ⟨next, tag + 1⟩, ver := s.ver + 1, nodes := s.nodes.tail }.commit t
    .pop (.popped (s.value a))).goto t (.popValue a)

/-- The allocator may reuse the node of a pop that returns. -/
def free (s : State τ A T w) : Option A → State τ A T w
  | none => s
  | some a => { s with live := Function.update s.live a false }

end State

/-- The first control point of an operation. -/
def enter : Op T → Pc A T w
  | .push v => .pushNew v
  | .pop => .popLoad

variable [DecidableEq τ] [DecidableEq A]

def next (s : State τ A T w) : Act τ A T → Option (State τ A T w)
  | .call t op => match s.pc t with
    | .out => some (s.goto t (enter op))
    | _ => none
  | .new t a => match s.pc t with
    | .pushNew v => if s.live a then none else some (s.new t v a)
    | _ => none
  | .step t => match s.pc t with
    | .pushLoad v n => some (s.goto t (.pushLink v n s.head s.ver))
    | .pushLink v n cur seen => (s.heap n).map fun node => s.link t v n cur seen node
    | .pushCas v n cur _ =>
      some (if s.head = cur then s.pushOk t v n cur else s.goto t (.pushLink v n s.head s.ver))
    | .popLoad => some (s.test t)
    | .popNext a tag seen => (s.heap a).map fun node => s.goto t (.popCas a tag seen node.next)
    | .popCas a tag _ nx => some (if s.head = ⟨some a, tag⟩ then s.popOk t a tag nx else s.test t)
    | .popValue a => (s.heap a).map fun node => s.goto t (.popRet (some node.value) (some a))
    | _ => none
  | .fail t => match s.pc t with
    | .pushCas v n _ _ => some (s.goto t (.pushLink v n s.head s.ver))
    | .popCas _ _ _ _ => some (s.test t)
    | _ => none
  | .ret t => match s.pc t with
    | .pushRet _ => some (s.goto t .out)
    | .popRet _ a => some ((s.free a).goto t .out)
    | _ => none

/-- The stack, shared by the threads `τ`. -/
def stack (τ A T : Type*) (w : ℕ) [DecidableEq τ] [DecidableEq A] : System (State τ A T w) (Act τ A T) where
  start := {
    head := ⟨none, 0⟩
    heap := fun _ => none
    live := fun _ => false
    pc := fun _ => .out
    ver := 0
    nodes := []
    hist := [] }
  next := next

/-- The version at which a thread that is about to swap has read `head_`. -/
def Pc.seen : Pc A T w → Option ℕ
  | pushCas _ _ _ seen | popCas _ _ seen _ => some seen
  | _ => none

/-- Fewer than `2 ^ w` compare-and-swaps succeed between the read of `head_`
and the next compare-and-swap of a thread. -/
def Recent (s : State τ A T w) : Act τ A T → Prop
  | .step t | .fail t => ∀ seen ∈ (s.pc t).seen, s.ver < seen + 2 ^ w
  | _ => True

omit [DecidableEq τ] [DecidableEq A] in
instance (s : State τ A T w) : ∀ a, Decidable (Recent s a)
  | .step t | .fail t => inferInstanceAs (Decidable (∀ seen ∈ (s.pc t).seen, s.ver < seen + 2 ^ w))
  | .call _ _ | .new _ _ | .ret _ => isTrue trivial

/-- The steps of `next`. -/
inductive Step (s : State τ A T w) : Act τ A T → State τ A T w → Prop
  | call {t : τ} {op : Op T} : s.pc t = .out → Step s (.call t op) (s.goto t (enter op))
  | pushNew {t : τ} {v : T} {a : A} : s.pc t = .pushNew v → s.live a = false →
    Step s (.new t a) (s.new t v a)
  | pushLoad {t : τ} {v : T} {n : A} : s.pc t = .pushLoad v n →
    Step s (.step t) (s.goto t (.pushLink v n s.head s.ver))
  | pushLink {t : τ} {v : T} {n : A} {cur : TaggedPtr A w} {seen : ℕ} {node : Node A T} :
    s.pc t = .pushLink v n cur seen → s.heap n = some node → Step s (.step t) (s.link t v n cur seen node)
  | pushOk {t : τ} {v : T} {n : A} {cur : TaggedPtr A w} {seen : ℕ} : s.pc t = .pushCas v n cur seen →
    s.head = cur → Step s (.step t) (s.pushOk t v n cur)
  | pushFail {t : τ} {v : T} {n : A} {cur : TaggedPtr A w} {seen : ℕ} {a : Act τ A T} :
    s.pc t = .pushCas v n cur seen → a.visible = false → Step s a (s.goto t (.pushLink v n s.head s.ver))
  | popTest {t : τ} {a : Act τ A T} :
    (s.pc t = .popLoad ∨ ∃ old tag seen nx, s.pc t = .popCas old tag seen nx) →
    a.visible = false → Step s a (s.test t)
  | popNext {t : τ} {a : A} {tag : BitVec w} {seen : ℕ} {node : Node A T} :
    s.pc t = .popNext a tag seen → s.heap a = some node →
    Step s (.step t) (s.goto t (.popCas a tag seen node.next))
  | popOk {t : τ} {a : A} {tag : BitVec w} {seen : ℕ} {nx : Option A} : s.pc t = .popCas a tag seen nx →
    s.head = ⟨some a, tag⟩ → Step s (.step t) (s.popOk t a tag nx)
  | popValue {t : τ} {a : A} {node : Node A T} : s.pc t = .popValue a → s.heap a = some node →
    Step s (.step t) (s.goto t (.popRet (some node.value) (some a)))
  | pushRet {t : τ} {v : T} : s.pc t = .pushRet v → Step s (.ret t) (s.goto t .out)
  | popRet {t : τ} {r : Option T} {a : Option A} : s.pc t = .popRet r a →
    Step s (.ret t) ((s.free a).goto t .out)

theorem step_of_next {s s' : State τ A T w} {a : Act τ A T} (h : (stack τ A T w).next s a = some s') :
    Step s a s' := by
  change next s a = some s' at h
  cases a with
  | call t op =>
    simp only [next] at h
    split at h <;> cases h
    exact .call ‹_›
  | new t a =>
    simp only [next] at h
    split at h
    · split at h <;> cases h
      exact .pushNew ‹_› (Bool.eq_false_iff.mpr ‹_›)
    · cases h
  | step t =>
    simp only [next] at h
    split at h
    · cases h; exact .pushLoad ‹_›
    · obtain ⟨node, hn, rfl⟩ := Option.map_eq_some_iff.mp h
      exact .pushLink ‹_› hn
    · cases h
      split
      · exact .pushOk ‹_› ‹_›
      · exact .pushFail ‹_› rfl
    · cases h; exact .popTest (.inl ‹_›) rfl
    · obtain ⟨node, hn, rfl⟩ := Option.map_eq_some_iff.mp h
      exact .popNext ‹_› hn
    · cases h
      split
      · exact .popOk ‹_› ‹_›
      · exact .popTest (.inr ⟨_, _, _, _, ‹_›⟩) rfl
    · obtain ⟨node, hn, rfl⟩ := Option.map_eq_some_iff.mp h
      exact .popValue ‹_› hn
    · cases h
  | fail t =>
    simp only [next] at h
    split at h
    · cases h; exact .pushFail ‹_› rfl
    · cases h; exact .popTest (.inr ⟨_, _, _, _, ‹_›⟩) rfl
    · cases h
  | ret t =>
    simp only [next] at h
    split at h <;> cases h
    · exact .pushRet ‹_›
    · exact .popRet ‹_›

end TKH.Stack.Tagged
