import ThreadingKnowHows.Dining.Model
import ThreadingKnowHows.Framework.Journal

/-!
# Neighbours do not eat together, and nobody starves the table

A philosopher eats only while he holds both forks, and of the mutexes that block
he takes the forks first and `io_mu` last, so that no philosophers wait for each
other in a circle.
-/

namespace TKH.Dining

variable {N : ℕ} {meals : Fin N → ℕ} {s : Mutexes.State (Fin N) (Mutex N) (Out N) Pc}

/-- Between the constructor of the `scoped_lock` and its destructor. -/
def Pc.eating : Pc → Bool
  | lockIo _ | print _ | unlockIo _ | forks _ .leave => true
  | _ => false

theorem holds_of_eating {i : Fin N} {l : Pc} (h : l.eating = true) :
    Holds i l (.fork i) ∧ Holds i l (.fork (right i)) := by
  cases l with
  | forks meal p => cases p <;> first | exact ⟨.inl rfl, .inr rfl⟩ | cases h
  | lockIo => exact ⟨.inl rfl, .inr rfl⟩
  | print | unlockIo => exact ⟨.inl (.inl rfl), .inl (.inr rfl)⟩
  | lockDone | printDone | unlockDone | returned => cases h

theorem halt_iff {i : Fin N} {l : Pc} : (table meals).code i l = .halt ↔ l = .returned := by
  cases l with
  | forks meal p => cases p <;> simp [table, philosopher, Mutexes.scopedLock]
  | _ => simp [table, philosopher]

/-! ## What is printed -/

/-- The first meals. -/
def served (n : ℕ) : List Line := (List.range n).map .eating

theorem served_succ (n : ℕ) : served (n + 1) = served n ++ [.eating n] := by
  simp [served, List.range_succ]

/-- What a philosopher has printed. -/
def Pc.printed (meals : ℕ) : Pc → List Line
  | forks meal p => if p.entering then served meal else served (meal + 1)
  | lockIo meal | print meal => served meal
  | unlockIo meal => served (meal + 1)
  | lockDone | printDone => served meals
  | unlockDone | returned => served meals ++ [.done]

def Pc.Within (meals : ℕ) : Pc → Prop
  | forks meal _ | lockIo meal | print meal | unlockIo meal => meal < meals
  | _ => True

/-- At the head of the loop. -/
theorem loop_spec {n meal : ℕ} (h : meal ≤ n) :
    (loop n meal).Within n ∧ (loop n meal).printed n = served meal := by
  simp only [loop]
  split
  · exact ⟨‹_›, rfl⟩
  · exact ⟨trivial, by rw [Nat.le_antisymm h (Nat.not_lt.mp ‹_›)]; rfl⟩

def Printed (meals : Fin N → ℕ) (i : Fin N) (l : Pc) (out : Out N) : Prop :=
  l.Within (meals i) ∧ journal i out = l.printed (meals i)

theorem journal_print {i : Fin N} {out : Out N} {line : Line} :
    journal i (out ++ [(i, line)]) = journal i out ++ [line] := by
  rw [journal_append]
  exact congrArg _ (journal_self i [line])

theorem journal_print_of_ne {i j : Fin N} (h : j ≠ i) {out : Out N} {line : Line} :
    journal j (out ++ [(i, line)]) = journal j out := by
  rw [journal_append, show journal j [(i, line)] = [] from journal_of_ne h [line], List.append_nil]

theorem table_printed (hN : 2 ≤ N) (meals : Fin N → ℕ) :
    Mutexes.Annotation (table meals) Holds rank (Printed meals) where
  toDiscipline := table_discipline hN meals
  entries i := by
    obtain ⟨hwithin, hprinted⟩ := loop_spec (Nat.zero_le (meals i))
    exact ⟨hwithin, hprinted.symm⟩
  asserts i l := by
    cases l with
    | forks meal p =>
      refine Mutexes.scopedLock_asserts (X := fun out => meal < meals i ∧ journal i out = served meal)
        (Y := fun out => meal < meals i ∧ journal i out = served (meal + 1)) (fun p out => ?_) (fun _ => id)
        (fun out h => ?_) p
      · simp only [Printed, Pc.Within, Pc.printed]
        split <;> exact Iff.rfl
      · obtain ⟨hwithin, hprinted⟩ := loop_spec (show meal + 1 ≤ meals i from h.1)
        exact ⟨hwithin, h.2.trans hprinted.symm⟩
    | lockIo meal | unlockIo meal | lockDone | unlockDone => exact fun _ => id
    | print meal => exact fun out h => ⟨h.1, by rw [journal_print, h.2]; exact (served_succ meal).symm⟩
    | printDone => exact fun out h => ⟨trivial, by rw [journal_print, h.2]; rfl⟩
    | returned => trivial
  stable {i j l k f out} hc hne _ _ h := by
    cases l with
    | print meal | printDone =>
      cases hc
      exact ⟨h.1, (journal_print_of_ne hne).trans h.2⟩
    | forks meal p => cases p <;> cases hc
    | lockIo | unlockIo | lockDone | unlockDone | returned => cases hc

/-- A philosopher who has finished has printed each of his meals and that he is
done. -/
theorem journal_of_returned (hN : 2 ≤ N) (h : (table meals).system.Reach s) {i : Fin N} (hi : s.pc i = .returned) :
    journal i s.data = served (meals i) ++ [.done] := by
  have hp := ((table_printed hN meals).assert h i).2
  rwa [hi] at hp

/-! ## The table -/

/-- Neighbours share a fork. -/
theorem not_both_eating (hN : 2 ≤ N) (h : (table meals).system.Reach s) (i : Fin N) :
    ¬ ((s.pc i).eating = true ∧ (s.pc (right i)).eating = true) := by
  rintro ⟨hi, hr⟩
  have hunique := (table_discipline hN meals).unique h (holds_of_eating hi).2 (holds_of_eating hr).1
  exact right_ne hN i hunique.symm

/-- What a philosopher who has finished does not hold is free, or held by one who
has not. -/
theorem owner_of_returned (hN : 2 ≤ N) (h : (table meals).system.Reach s) {i : Fin N} (hi : s.pc i = .returned)
    (m : Mutex N) : s.owner m = none ∨ ∃ j, j ≠ i ∧ s.pc j ≠ .returned ∧ s.owner m = some j := by
  cases ho : s.owner m with
  | none => exact .inl rfl
  | some j =>
    have hj := ((table_discipline hN meals).owner_iff h j m).mp ho
    have hne : s.pc j ≠ .returned := fun he => by
      rw [he] at hj
      exact hj
    exact .inr ⟨j, fun he => hne (by rw [he, hi]), hne, rfl⟩

/-- Neighbours do not eat together, no mutex has two holders, a philosopher who
has finished has put down his forks, and there is always one who can go on. -/
theorem table_safe (hN : 2 ≤ N) (h : (table meals).system.Reach s) :
    (∀ i, ¬ ((s.pc i).eating = true ∧ (s.pc (right i)).eating = true)) ∧
    (∀ i m, s.owner m = some i ↔ Holds i (s.pc i) m) ∧
    (∀ m i j, Holds i (s.pc i) m → Holds j (s.pc j) m → i = j) ∧
    (∀ i, s.pc i = .returned →
      ∀ m, s.owner m = none ∨ ∃ j, j ≠ i ∧ s.pc j ≠ .returned ∧ s.owner m = some j) ∧
    ((∃ i, s.pc i ≠ .returned) →
      ∃ i, s.pc i ≠ .returned ∧ ∃ a, a.thread = i ∧ ((table meals).system.next s a).isSome) := by
  have hd := table_discipline hN meals
  refine ⟨not_both_eating hN h, hd.owner_iff h, fun m i j => hd.unique h, fun i => owner_of_returned hN h, ?_⟩
  rintro ⟨i, hi⟩
  obtain ⟨j, hj, ha⟩ := hd.exists_step h ⟨i, fun hc => hi (halt_iff.mp hc)⟩
  exact ⟨j, fun he => hj (halt_iff.mpr he), ha⟩

/-- Of two philosophers, each has taken one fork. The first backs off, and the
second eats. -/
def backingOff : List (Mutexes.Act (Fin 2)) :=
  [.choose 0 true, .exec 0, .choose 1 true, .exec 1, .fail 0, .exec 0, .exec 1, .exec 1, .choose 0 false]

theorem table_safe_backingOff : ∃ s, (table fun _ : Fin 2 => 1).system.run (table fun _ => 1).system.start backingOff = some s ∧
    (s.pc 1).eating = true ∧ (s.pc 0).eating = false ∧
    ∃ i, s.pc i ≠ .returned ∧ ∃ a, a.thread = i ∧ ((table fun _ => 1).system.next s a).isSome := by
  have hr : ((table fun _ : Fin 2 => 1).system.run (table fun _ => 1).system.start backingOff).any
      (fun s => decide ((s.pc 1).eating = true)) = true := by decide
  obtain ⟨s, hs, hp⟩ := System.exists_of_run hr
  have heating := of_decide_eq_true hp
  obtain ⟨hexcl, -, -, -, hstep⟩ := table_safe le_rfl (System.reach_of_run hs)
  refine ⟨s, hs, heating, Bool.eq_false_iff.mpr fun h => hexcl 0 ⟨h, heating⟩, hstep ⟨1, fun he => ?_⟩⟩
  rw [he] at heating
  cases heating

end TKH.Dining
