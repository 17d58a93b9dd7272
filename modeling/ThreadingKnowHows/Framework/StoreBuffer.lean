import Mathlib.Logic.Function.Basic
import ThreadingKnowHows.Framework.System

/-!
# Store buffers

A machine whose threads store into buffers of their own, first in, first out,
from which the stores go to memory at any later time (total store order): a
load returns the last of the thread's own stores that are still in its buffer,
or else what is in memory, and a fence waits until the buffer is empty.
`inOrder` is the machine without buffers. If each load of a thread comes after
a fence that comes after its stores (`Fenced`), what the machine with buffers
reaches is, with the buffers drained, what the one without them reaches
(`tso_inOrder`).
-/

namespace TKH

variable {τ X V : Type*}

inductive Instr (X V : Type*)
  | store (x : X) (v : V)
  | load (x : X)
  | fence

/-- Memory, and for each thread its buffer (oldest store first), what it has
yet to do, and what its loads have returned. -/
structure Tso (τ X V : Type*) where
  mem : X → V
  buf : τ → List (X × V)
  todo : τ → List (Instr X V)
  got : τ → List V

namespace Tso

inductive Act (τ : Type*)
  | exec (t : τ)
  | drain (t : τ)

variable [DecidableEq X]

/-- The memory after stores. -/
def overlay : (X → V) → List (X × V) → X → V
  | m, [] => m
  | m, (x, v) :: b => overlay (Function.update m x v) b

variable [DecidableEq τ]

def next (s : Tso τ X V) : Act τ → Option (Tso τ X V)
  | .exec t => match s.todo t with
    | [] => none
    | .store x v :: is => some { s with
        buf := Function.update s.buf t (s.buf t ++ [(x, v)])
        todo := Function.update s.todo t is }
    | .load x :: is => some { s with
        todo := Function.update s.todo t is
        got := Function.update s.got t (s.got t ++ [overlay s.mem (s.buf t) x]) }
    | .fence :: is => if (s.buf t).isEmpty then some { s with todo := Function.update s.todo t is } else none
  | .drain t => match s.buf t with
    | [] => none
    | (x, v) :: b => some { s with mem := Function.update s.mem x v, buf := Function.update s.buf t b }

/-- The machine started in `s`. -/
def system (s : Tso τ X V) : System (Tso τ X V) (Act τ) := ⟨s, next⟩

/-- What a step does. -/
inductive Step (s : Tso τ X V) : Act τ → Tso τ X V → Prop
  | store {t x v is} (h : s.todo t = .store x v :: is) :
      Step s (.exec t) { s with
        buf := Function.update s.buf t (s.buf t ++ [(x, v)]), todo := Function.update s.todo t is }
  | load {t x is} (h : s.todo t = .load x :: is) :
      Step s (.exec t) { s with
        todo := Function.update s.todo t is
        got := Function.update s.got t (s.got t ++ [overlay s.mem (s.buf t) x]) }
  | fence {t is} (h : s.todo t = .fence :: is) (hb : s.buf t = []) :
      Step s (.exec t) { s with todo := Function.update s.todo t is }
  | drain {t x v b} (h : s.buf t = (x, v) :: b) :
      Step s (.drain t) { s with mem := Function.update s.mem x v, buf := Function.update s.buf t b }

theorem next_iff {s s' : Tso τ X V} {a : Act τ} : s.next a = some s' ↔ Step s a s' := by
  constructor
  · intro h
    cases a with
    | exec t =>
      simp only [next] at h
      split at h
      · cases h
      · cases h; exact .store ‹_›
      · cases h; exact .load ‹_›
      · split at h
        · cases h; exact .fence ‹_› (List.isEmpty_iff.mp ‹_›)
        · cases h
    | drain t =>
      simp only [next] at h
      split at h
      · cases h
      · cases h; exact .drain ‹_›
  · intro h
    cases h with
    | store h => simp [next, h]
    | load h => simp [next, h]
    | fence h hb => simp [next, h, hb]
    | drain h => simp [next, h]

/-! ## Values -/

/-- All values satisfy `P`. -/
structure All (P : V → Prop) (s : Tso τ X V) : Prop where
  mem : ∀ x, P (s.mem x)
  buf : ∀ t, ∀ p ∈ s.buf t, P p.2
  todo : ∀ t x v, .store x v ∈ s.todo t → P v
  got : ∀ t, ∀ v ∈ s.got t, P v

omit [DecidableEq τ] in
theorem overlay_all {P : V → Prop} {m : X → V} {b : List (X × V)} (hm : ∀ x, P (m x)) (hb : ∀ p ∈ b, P p.2) (x : X) :
    P (overlay m b x) := by
  induction b generalizing m with
  | nil => exact hm x
  | cons p b ih =>
    refine ih (fun y => ?_) fun q hq => hb q (List.mem_cons_of_mem p hq)
    rw [Function.update_apply]
    split
    · exact hb p List.mem_cons_self
    · exact hm y

/-- A machine only loads what was stored. -/
theorem All.step {P : V → Prop} {s s' : Tso τ X V} {a : Act τ} (h : s.All P) (hs : Step s a s') : s'.All P := by
  -- the rest of a thread's program stores what the program stores
  have htodo : ∀ {t i is}, s.todo t = i :: is → ∀ u x v, .store x v ∈ Function.update s.todo t is u → P v :=
    fun {t i is} ht => (Function.forall_update_iff s.todo fun _ is => ∀ x v, .store x v ∈ is → P v).mpr
      ⟨fun x v hm => h.todo t x v (by rw [ht]; exact List.mem_cons_of_mem i hm), fun u _ => h.todo u⟩
  cases hs with
  | @store t x v is ht =>
    refine ⟨h.mem, (Function.forall_update_iff s.buf fun _ b => ∀ p ∈ b, P p.2).mpr
      ⟨fun p hp => ?_, fun u _ => h.buf u⟩, htodo ht, h.got⟩
    rcases List.mem_append.mp hp with hp | hp
    · exact h.buf t p hp
    · cases List.mem_singleton.mp hp
      exact h.todo t x v (by rw [ht]; exact List.mem_cons_self)
  | @load t x is ht =>
    refine ⟨h.mem, h.buf, htodo ht, (Function.forall_update_iff s.got fun _ l => ∀ v ∈ l, P v).mpr
      ⟨fun v hv => ?_, fun u _ => h.got u⟩⟩
    rcases List.mem_append.mp hv with hv | hv
    · exact h.got t v hv
    · cases List.mem_singleton.mp hv
      exact overlay_all h.mem (h.buf t) x
  | fence ht hb => exact ⟨h.mem, h.buf, htodo ht, h.got⟩
  | @drain t x v b hb =>
    refine ⟨(Function.forall_update_iff s.mem fun _ v => P v).mpr ⟨?_, fun y _ => h.mem y⟩,
      (Function.forall_update_iff s.buf fun _ b => ∀ p ∈ b, P p.2).mpr ⟨fun p hp => ?_, fun u _ => h.buf u⟩,
      h.todo, h.got⟩
    · exact h.buf t (x, v) (by rw [hb]; exact List.mem_cons_self)
    · exact h.buf t p (by rw [hb]; exact List.mem_cons_of_mem _ hp)

end Tso

/-! ## The machine without buffers -/

@[ext]
structure InOrder (τ X V : Type*) where
  mem : X → V
  todo : τ → List (Instr X V)
  got : τ → List V

namespace InOrder

variable [DecidableEq τ] [DecidableEq X]

def next (s : InOrder τ X V) (t : τ) : Option (InOrder τ X V) :=
  match s.todo t with
  | [] => none
  | .store x v :: is => some { s with mem := Function.update s.mem x v, todo := Function.update s.todo t is }
  | .load x :: is => some { s with
      todo := Function.update s.todo t is, got := Function.update s.got t (s.got t ++ [s.mem x]) }
  | .fence :: is => some { s with todo := Function.update s.todo t is }

def system (s : InOrder τ X V) : System (InOrder τ X V) τ := ⟨s, next⟩

end InOrder

/-! ## Fenced programs -/

/-- The program has no load before its first fence. -/
def Instr.NoLoad : List (Instr X V) → Prop
  | [] => True
  | .store _ _ :: is => NoLoad is
  | .load _ :: _ => False
  | .fence :: _ => True

/-- After each store, no load comes before the next fence. -/
def Instr.Fenced : List (Instr X V) → Prop
  | [] => True
  | .store _ _ :: is => NoLoad is ∧ Fenced is
  | _ :: is => Fenced is

namespace Tso

/-- The buffers drained: the stores in them are yet to be done. -/
def drained (s : Tso τ X V) : InOrder τ X V where
  mem := s.mem
  todo t := (s.buf t).map (fun p => .store p.1 p.2) ++ s.todo t
  got := s.got

/-- The programs are fenced, those of threads with a store in the buffer too. -/
structure Fenced (s : Tso τ X V) : Prop where
  todo : ∀ t, Instr.Fenced (s.todo t)
  buf : ∀ t, s.buf t ≠ [] → Instr.NoLoad (s.todo t)

/-- Only the program and the buffer of `t` change. -/
theorem Fenced.move {s s' : Tso τ X V} {t : τ} (h : s.Fenced) (htodo : ∀ u, u ≠ t → s'.todo u = s.todo u)
    (hbuf : ∀ u, u ≠ t → s'.buf u = s.buf u) (hf : Instr.Fenced (s'.todo t))
    (hn : s'.buf t ≠ [] → Instr.NoLoad (s'.todo t)) : s'.Fenced where
  todo u := by
    by_cases hut : u = t
    · subst hut; exact hf
    · rw [htodo u hut]; exact h.todo u
  buf u hu := by
    by_cases hut : u = t
    · subst hut; exact hn hu
    · rw [hbuf u hut] at hu
      rw [htodo u hut]
      exact h.buf u hu

/-- A thread that loads has an empty buffer. -/
theorem Fenced.load {s : Tso τ X V} {t : τ} {x : X} {is : List (Instr X V)} (h : s.Fenced)
    (ht : s.todo t = .load x :: is) : s.buf t = [] := by
  by_contra hb
  have hn := h.buf t hb
  rw [ht] at hn
  exact hn

variable [DecidableEq X] [DecidableEq τ]

theorem Fenced.step {s s' : Tso τ X V} {a : Act τ} (h : s.Fenced) (hs : Step s a s') : s'.Fenced := by
  cases hs with
  | @store t x v is ht =>
    have hf : Instr.NoLoad is ∧ Instr.Fenced is := by simpa [ht, Instr.Fenced] using h.todo t
    exact h.move (fun u hu => Function.update_of_ne hu ..) (fun u hu => Function.update_of_ne hu ..)
      (by simpa using hf.2) (fun _ => by simpa using hf.1)
  | @load t x is ht =>
    have hf : Instr.Fenced is := by simpa [ht, Instr.Fenced] using h.todo t
    exact h.move (fun u hu => Function.update_of_ne hu ..) (fun _ _ => rfl) (by simpa using hf)
      (fun hb => absurd (h.load ht) hb)
  | @fence t is ht hb =>
    have hf : Instr.Fenced is := by simpa [ht, Instr.Fenced] using h.todo t
    exact h.move (fun u hu => Function.update_of_ne hu ..) (fun _ _ => rfl) (by simpa using hf)
      (fun hb' => absurd hb hb')
  | @drain t x v b hb =>
    exact h.move (fun _ _ => rfl) (fun u hu => Function.update_of_ne hu ..) (h.todo t)
      (fun _ => h.buf t (by rw [hb]; exact List.cons_ne_nil _ _))

omit [DecidableEq X] in
/-- What the thread `t` has yet to do changes to `is`. -/
theorem drained_todo {s s' : Tso τ X V} {t : τ} {is : List (Instr X V)} (ht : s'.drained.todo t = is)
    (hu : ∀ u, u ≠ t → s'.todo u = s.todo u ∧ s'.buf u = s.buf u) :
    Function.update s.drained.todo t is = s'.drained.todo := by
  funext u
  by_cases hut : u = t
  · subst hut; rw [Function.update_self, ht]
  · rw [Function.update_of_ne hut]
    simp only [drained, hu u hut]

/-- A store into a buffer does nothing yet; it takes effect when it is
drained, and loads and fences when they are executed. -/
theorem drained_step {s s' : Tso τ X V} {a : Act τ} (h : s.Fenced) (hs : Step s a s') :
    s'.drained = s.drained ∨ ∃ t, s.drained.next t = some s'.drained := by
  cases hs with
  | @store t x v is ht =>
    left
    simp only [drained, InOrder.mk.injEq, true_and, and_true]
    funext u
    by_cases hut : u = t
    · subst hut; simp [ht]
    · simp [Function.update_of_ne hut]
  | @load t x is ht =>
    right
    have hb := h.load ht
    have htodo : s.drained.todo t = .load x :: is := by simp [drained, hb, ht]
    refine ⟨t, ?_⟩
    simp only [InOrder.next, htodo]
    refine congrArg some (InOrder.ext rfl ?_ (by simp only [drained, hb, overlay]))
    exact drained_todo (by simp [drained, hb]) fun u hu => ⟨Function.update_of_ne hu .., rfl⟩
  | @fence t is ht hb =>
    right
    have htodo : s.drained.todo t = .fence :: is := by simp [drained, hb, ht]
    refine ⟨t, ?_⟩
    simp only [InOrder.next, htodo]
    refine congrArg some (InOrder.ext rfl ?_ rfl)
    exact drained_todo (by simp [drained, hb]) fun u hu => ⟨Function.update_of_ne hu .., rfl⟩
  | @drain t x v b hb =>
    right
    have htodo : s.drained.todo t = .store x v :: (b.map (fun p => .store p.1 p.2) ++ s.todo t) := by
      simp [drained, hb]
    refine ⟨t, ?_⟩
    simp only [InOrder.next, htodo]
    refine congrArg some (InOrder.ext rfl ?_ rfl)
    exact drained_todo (by simp [drained]) fun u hu => ⟨rfl, Function.update_of_ne hu ..⟩

/-- A machine with fenced programs reaches what the machine without buffers
reaches, as soon as its buffers are drained. -/
theorem tso_inOrder {s₀ s : Tso τ X V} (hf : s₀.Fenced) (h : s₀.system.Reach s) :
    s₀.drained.system.Reach s.drained := by
  have hfen : ∀ {s₁}, s₀.system.Reach s₁ → s₁.Fenced := fun h₁ =>
    h₁.inv (I := Fenced) hf fun _ _ ha ih => ih.step (next_iff.mp ha)
  exact h.map s₀.drained.system drained fun h₁ _ ha => drained_step (hfen h₁) (next_iff.mp ha)

end Tso

end TKH
