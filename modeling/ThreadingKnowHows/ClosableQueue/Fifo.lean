import ThreadingKnowHows.Framework.Object

/-!
# The bounded FIFO queue that can be closed

What a bounded blocking queue is for: pushes append while there is room, pops
take the values in their order, and `close` ends both: a push is then
rejected, and a pop gets nothing once the queue is drained. A push on a full
queue and a pop on an empty one are not possible until the queue is closed.
-/

namespace TKH.ClosableQueue

variable {α : Type*}

inductive Op (α : Type*)
  | push (v : α)
  | pop
  | close

inductive Ret (α : Type*)
  | pushed (accepted : Bool)
  | popped (v : Option α)
  | closed

structure Content (α : Type*) where
  items : List α
  closed : Bool

def fifo (cap : ℕ) : Object (Content α) (Op α) (Ret α) where
  start := { items := [], closed := false }
  apply c
    | .push v =>
      if c.closed then some (.pushed false, c)
      else if c.items.length < cap then some (.pushed true, { c with items := c.items ++ [v] })
      else none
    | .pop => match c.items with
      | v :: vs => some (.popped (some v), { c with items := vs })
      | [] => if c.closed then some (.popped none, c) else none
    | .close => some (.closed, { c with closed := true })

/-- The value an operation appended, if any. -/
def appends : Op α × Ret α → Option α
  | (.push v, .pushed true) => some v
  | _ => none

/-- The value an operation took, if any. -/
def takes : Op α × Ret α → Option α
  | (.pop, .popped v) => v
  | _ => none

/-- The values that pushes appended. -/
def appended (h : List (Op α × Ret α)) : List α := h.filterMap appends

/-- The values that pops returned. -/
def taken (h : List (Op α × Ret α)) : List α := h.filterMap takes

@[simp] theorem appended_nil : appended ([] : List (Op α × Ret α)) = [] := rfl
@[simp] theorem taken_nil : taken ([] : List (Op α × Ret α)) = [] := rfl

@[simp] theorem appended_cons (x : Op α × Ret α) (h : List (Op α × Ret α)) :
    appended (x :: h) = (appends x).toList ++ appended h := by
  cases hx : appends x <;> simp [appended, hx]

@[simp] theorem taken_cons (x : Op α × Ret α) (h : List (Op α × Ret α)) :
    taken (x :: h) = (takes x).toList ++ taken h := by
  cases hx : takes x <;> simp [taken, hx]

@[simp] theorem appended_append (h h' : List (Op α × Ret α)) :
    appended (h ++ h') = appended h ++ appended h' := List.filterMap_append

@[simp] theorem taken_append (h h' : List (Op α × Ret α)) : taken (h ++ h') = taken h ++ taken h' :=
  List.filterMap_append

/-! ## Operations -/

/-- A push appends its value, or, only when the queue is closed, leaves it. -/
theorem apply_push {cap : ℕ} {c c' : Content α} {v : α} {r : Ret α}
    (h : (fifo cap).apply c (.push v) = some (r, c')) :
    (r = .pushed true ∧ c.closed = false ∧ c.items.length < cap ∧ c' = { c with items := c.items ++ [v] }) ∨
      (r = .pushed false ∧ c.closed = true ∧ c' = c) := by
  simp only [fifo] at h
  split at h
  · cases h; exact .inr ⟨rfl, ‹_›, rfl⟩
  · split at h <;> cases h
    exact .inl ⟨rfl, by simp_all, ‹_›, rfl⟩

/-- A pop takes the first value, or gets nothing when the queue is closed and
empty. -/
theorem apply_pop {cap : ℕ} {c c' : Content α} {r : Ret α}
    (h : (fifo cap).apply c .pop = some (r, c')) :
    (∃ v vs, c.items = v :: vs ∧ r = .popped (some v) ∧ c' = { c with items := vs }) ∨
      (c.items = [] ∧ c.closed = true ∧ r = .popped none ∧ c' = c) := by
  simp only [fifo] at h
  split at h
  · rename_i v vs hv
    cases h; exact .inl ⟨v, vs, hv, rfl, rfl⟩
  · rename_i hv
    split at h <;> cases h
    exact .inr ⟨hv, ‹_›, rfl, rfl⟩

theorem apply_close {cap : ℕ} {c c' : Content α} {r : Ret α}
    (h : (fifo cap).apply c .close = some (r, c')) : r = .closed ∧ c' = { c with closed := true } := by
  simp only [fifo, Option.some.injEq, Prod.mk.injEq] at h
  exact ⟨h.1.symm, h.2.symm⟩

/-! ## Histories -/

variable {cap : ℕ} {c c' : Content α} {h : List (Op α × Ret α)}

/-- Nothing is lost, duplicated or reordered: what was taken, and then what is
there, is what there was, and then what was appended. -/
theorem runs_order (hr : (fifo cap).Runs c h c') : taken h ++ c'.items = c.items ++ appended h := by
  induction h generalizing c with
  | nil => cases hr; simp
  | cons x h ih =>
    obtain ⟨op, r⟩ := x
    obtain ⟨c₁, ha, hr⟩ := hr
    have := ih hr
    cases op with
    | push v =>
      obtain ⟨rfl, -, -, rfl⟩ | ⟨rfl, -, rfl⟩ := apply_push ha
      · simpa [takes, appends] using this
      · simpa [takes, appends] using this
    | pop =>
      obtain ⟨v, vs, hv, rfl, rfl⟩ | ⟨hv, -, rfl, rfl⟩ := apply_pop ha
      · simp [takes, appends, hv, this]
      · simpa [takes, appends] using this
    | close =>
      obtain ⟨rfl, rfl⟩ := apply_close ha
      simpa [takes, appends] using this

/-- The capacity is never exceeded. -/
theorem runs_length (hr : (fifo cap).Runs c h c') (hc : c.items.length ≤ cap) : c'.items.length ≤ cap := by
  refine hr.inv (I := fun c => c.items.length ≤ cap) (fun {q op r q'} hI ha => ?_) hc
  cases op with
  | push v =>
    obtain ⟨-, -, hl, rfl⟩ | ⟨-, -, rfl⟩ := apply_push ha
    · simp only [List.length_append, List.length_singleton]; omega
    · exact hI
  | pop =>
    obtain ⟨v, vs, hv, -, rfl⟩ | ⟨-, -, -, rfl⟩ := apply_pop ha
    · rw [hv, List.length_cons] at hI; exact Nat.le_of_succ_le hI
    · exact hI
  | close => obtain ⟨-, rfl⟩ := apply_close ha; exact hI

/-- Once closed, the queue stays closed and nothing is appended. -/
theorem runs_closed (hr : (fifo cap).Runs c h c') (hc : c.closed = true) :
    c'.closed = true ∧ appended h = [] := by
  induction h generalizing c with
  | nil => cases hr; exact ⟨hc, rfl⟩
  | cons x h ih =>
    obtain ⟨op, r⟩ := x
    obtain ⟨c₁, ha, hr⟩ := hr
    cases op with
    | push v =>
      obtain ⟨-, hn, -⟩ | ⟨rfl, -, rfl⟩ := apply_push ha
      · rw [hc] at hn; cases hn
      · exact ih hr hc
    | pop =>
      obtain ⟨v, vs, -, rfl, rfl⟩ | ⟨-, -, rfl, rfl⟩ := apply_pop ha <;> exact ih hr hc
    | close => obtain ⟨rfl, rfl⟩ := apply_close ha; exact ih hr rfl

/-- Once closed and empty, the queue stays so and every pop gets nothing. -/
theorem runs_drained (hr : (fifo cap).Runs c h c') (hc : c.closed = true) (he : c.items = []) :
    c'.items = [] ∧ ∀ r, (Op.pop, r) ∈ h → r = .popped none := by
  obtain ⟨-, ha⟩ := runs_closed hr hc
  have ho := runs_order hr
  rw [he, ha, List.nil_append, List.append_eq_nil_iff] at ho
  refine ⟨ho.2, fun r hm => ?_⟩
  obtain ⟨h₁, h₂, rfl⟩ := List.append_of_mem hm
  obtain ⟨c₁, -, c₂, ha', -⟩ := Object.runs_append.mp hr
  obtain ⟨v, vs, -, rfl, -⟩ | ⟨-, -, rfl, -⟩ := apply_pop ha'
  · simp [takes] at ho
  · rfl

end TKH.ClosableQueue
