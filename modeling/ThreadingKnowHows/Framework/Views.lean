import Mathlib.Data.Finset.Lattice.Lemmas
import Mathlib.Tactic.Common

/-!
# Views

What a thread has synchronised with is a set of events, its view. An atomic
variable is the list of the messages that were stored in it, each with the view
of its thread: a load may return a message, or the value the variable had at
first, as long as none of the later messages is in the view of the thread.
-/

namespace TKH

variable {τ V E : Type*}

/-- A store: its value, the view of its thread, and the event that it is. -/
structure Message (V E : Type*) where
  value : V
  view : Finset E
  event : E

variable [DecidableEq E]

/-- What a thread with the view `v` loads: the message `i`, or the first value,
if it may. -/
def mayLoad (mo : List (Message V E)) (v : Finset E) : Option ℕ → Option (Option (Message V E))
  | none => if mo.all (·.event ∉ v) then some none else none
  | some i => if (mo.drop (i + 1)).all (·.event ∉ v) then mo[i]?.map some else none

theorem not_mem_of_mayLoad {mo : List (Message V E)} {v : Finset E} {i : Option ℕ}
    (h : mayLoad mo v i = some none) {m : Message V E} (hm : m ∈ mo) : m.event ∉ v := by
  cases i with
  | none =>
    simp only [mayLoad] at h
    split at h
    · rename_i hall
      simpa using List.all_eq_true.mp hall m hm
    · cases h
  | some i =>
    simp only [mayLoad] at h
    split at h
    · obtain ⟨m', -, hm'⟩ := Option.map_eq_some_iff.mp h
      cases hm'
    · cases h

theorem mem_of_mayLoad {mo : List (Message V E)} {v : Finset E} {i : Option ℕ} {m : Message V E}
    (h : mayLoad mo v i = some (some m)) : m ∈ mo := by
  cases i with
  | none =>
    simp only [mayLoad] at h
    split at h <;> cases h
  | some i =>
    simp only [mayLoad] at h
    split at h
    · obtain ⟨m', hi, hm'⟩ := Option.map_eq_some_iff.mp h
      cases hm'
      exact List.mem_of_getElem? hi
    · cases h

/-- A load returns a message with no later one in the view. -/
theorem getElem_of_mayLoad {mo : List (Message V E)} {v : Finset E} {i : Option ℕ} {m : Message V E}
    (h : mayLoad mo v i = some (some m)) :
    ∃ j : ℕ, mo[j]? = some m ∧ ∀ (k : ℕ) (m' : Message V E), j < k → mo[k]? = some m' → m'.event ∉ v := by
  cases i with
  | none =>
    simp only [mayLoad] at h
    split at h <;> cases h
  | some j =>
    simp only [mayLoad] at h
    split at h
    · rename_i hall
      obtain ⟨m₁, hj, he⟩ := Option.map_eq_some_iff.mp h
      cases he
      refine ⟨j, hj, fun k m' hk hm' => ?_⟩
      have hmem : m' ∈ mo.drop (j + 1) := by
        refine List.mem_of_getElem? (i := k - (j + 1)) ?_
        rw [List.getElem?_drop, show j + 1 + (k - (j + 1)) = k by omega]
        exact hm'
      simpa using List.all_eq_true.mp hall m' hmem
    · cases h

/-- A thread may always load something: the last message. -/
theorem exists_mayLoad (mo : List (Message V E)) (v : Finset E) : ∃ i r, mayLoad mo v i = some r := by
  rcases List.eq_nil_or_concat mo with rfl | ⟨mo, m, rfl⟩
  · exact ⟨none, none, rfl⟩
  · exact ⟨some mo.length, some m, by simp [mayLoad]⟩

variable [DecidableEq τ]

/-- `t` synchronises with `v`. -/
def gain (view : τ → Finset E) (t : τ) (v : Finset E) : τ → Finset E := Function.update view t (view t ∪ v)

theorem gain_self {view : τ → Finset E} {t : τ} {v : Finset E} : gain view t v t = view t ∪ v :=
  Function.update_self ..

theorem gain_of_ne {view : τ → Finset E} {t u : τ} {v : Finset E} (h : u ≠ t) : gain view t v u = view u :=
  Function.update_of_ne h ..

end TKH
