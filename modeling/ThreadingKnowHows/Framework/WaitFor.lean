import Mathlib.Logic.Relation
import ThreadingKnowHows.Framework.LockOrder

/-!
# Circular waits

The code of the threads may lock in any order, as long as it locks nothing twice
and unlocks only what it has locked (`Balanced`). A thread waits for another one that holds the mutex
it locks next (`Waits`). The threads of a circular wait stay there
(`CircularWait.step`), and a state in which no thread can go on is the end, or has
a circular wait (`Accounted.finished_iff`).
-/

namespace TKH

variable {T A : Type*} [DecidableEq T] [DecidableEq A]

/-- From the mutexes `held`, the code locks nothing twice, unlocks only what it
has locked, and ends with nothing. -/
def Balanced : Finset A → List (LockOp A) → Prop
  | held, [] => held = ∅
  | held, .lock a :: is => a ∉ held ∧ Balanced (insert a held) is
  | held, .unlock a :: is => a ∈ held ∧ Balanced (held.erase a) is

/-- `t` waits for a mutex that `u` holds. -/
def Waits (s : LockState T A) (t u : T) : Prop := ∃ a is, s.code t = .lock a :: is ∧ a ∈ s.held u

def CircularWait (s : LockState T A) : Prop := ∃ t, Relation.TransGen (Waits s) t t

/-- What holds in every state of threads with balanced code. -/
structure Accounted (s : LockState T A) : Prop where
  balanced : ∀ t, Balanced (s.held t) (s.code t)
  locked : ∀ a, s.locked a = true ↔ ∃ t, a ∈ s.held t
  unique : ∀ {t u a}, a ∈ s.held t → a ∈ s.held u → t = u

variable {code : T → List (LockOp A)} {s s' : LockState T A} {t u : T}

/-! ## The mutexes -/

/-- What a step does. -/
theorem lock_step_cases (h : (lockSystem code).next s t = some s') :
    (∃ a is, s.code t = .lock a :: is ∧ s.locked a = false ∧ s' =
      ⟨Function.update s.locked a true, Function.update s.held t (insert a (s.held t)), Function.update s.code t is⟩) ∨
    ∃ a is, s.code t = .unlock a :: is ∧ s' =
      ⟨Function.update s.locked a false, Function.update s.held t ((s.held t).erase a), Function.update s.code t is⟩ := by
  simp only [lockSystem] at h
  split at h
  · cases h
  · rename_i a is hc
    split at h
    · cases h
    · rename_i hfree
      exact .inl ⟨a, is, hc, Bool.eq_false_iff.mpr hfree, (Option.some.inj h).symm⟩
  · rename_i a is hc
    exact .inr ⟨a, is, hc, (Option.some.inj h).symm⟩

/-- A step of `t` that changes only what is known of the mutex `a`. -/
theorem Accounted.set (h : Accounted s) {a : A} {b : Bool} {held : Finset A} {is : List (LockOp A)}
    (hbal : Balanced held is) (hother : ∀ u, u ≠ t → a ∉ s.held u) (ha : b = true ↔ a ∈ held)
    (hheld : ∀ b, b ≠ a → (b ∈ held ↔ b ∈ s.held t)) :
    Accounted ⟨Function.update s.locked a b, Function.update s.held t held, Function.update s.code t is⟩ := by
  have hne : ∀ {u c}, c ≠ a → (c ∈ Function.update s.held t held u ↔ c ∈ s.held u) := fun {u c} hc => by
    by_cases hu : u = t
    · subst hu; rw [Function.update_self, hheld c hc]
    · rw [Function.update_of_ne hu]
  have hself : ∀ {u}, a ∈ Function.update s.held t held u → u = t := fun {u} hmem => by
    by_contra hu
    rw [Function.update_of_ne hu] at hmem
    exact hother u hu hmem
  refine ⟨fun u => ?_, fun c => ?_, fun {u v c} hu hv => ?_⟩
  · dsimp only
    by_cases hu : u = t
    · subst hu; simpa only [Function.update_self] using hbal
    · simpa only [Function.update_of_ne hu] using h.balanced u
  · dsimp only
    by_cases hc : c = a
    · subst hc
      rw [Function.update_self, ha]
      exact ⟨fun hmem => ⟨t, by rwa [Function.update_self]⟩, fun ⟨u, hu⟩ => by
        rw [hself hu, Function.update_self] at hu; exact hu⟩
    · rw [Function.update_of_ne hc, h.locked c]
      exact exists_congr fun u => (hne hc).symm
  · by_cases hc : c = a
    · subst hc
      rw [hself hu, hself hv]
    · exact h.unique ((hne hc).mp hu) ((hne hc).mp hv)

theorem Accounted.step (h : Accounted s) (ha : (lockSystem code).next s t = some s') : Accounted s' := by
  have hbal := h.balanced t
  rcases lock_step_cases ha with ⟨a, is, hc, hfree, rfl⟩ | ⟨a, is, hc, rfl⟩ <;> rw [hc] at hbal
  · refine h.set hbal.2 (fun u _ hmem => ?_) (by simp) fun b hb => by simp [hb]
    rw [(h.locked a).mpr ⟨u, hmem⟩] at hfree
    cases hfree
  · exact h.set hbal.2 (fun u hu hmem => hu (h.unique hmem hbal.1)) (by simp) fun b hb => by simp [hb]

theorem accounted (hcode : ∀ t, Balanced ∅ (code t)) (h : (lockSystem code).Reach s) : Accounted s := by
  refine h.inv ⟨hcode, fun a => ?_, fun hu => ?_⟩ fun _ _ ha hi => hi.step ha
  · simp [lockSystem]
  · simp [lockSystem] at hu

/-- A thread that cannot go on has finished, or waits. -/
theorem Accounted.next_eq_none (h : Accounted s) :
    (lockSystem code).next s t = none ↔ s.code t = [] ∨ ∃ u, Waits s t u := by
  constructor
  · intro hn
    simp only [lockSystem] at hn
    split at hn
    · exact .inl ‹_›
    · rename_i a is hc
      split at hn
      · obtain ⟨u, hu⟩ := (h.locked a).mp ‹_›
        exact .inr ⟨u, a, is, hc, hu⟩
      · cases hn
    · cases hn
  · rintro (hc | ⟨u, a, is, hc, hu⟩)
    · simp [lockSystem, hc]
    · simp [lockSystem, hc, (h.locked a).mpr ⟨u, hu⟩]

omit [DecidableEq T] in
/-- In the end the mutexes are free. -/
theorem Accounted.free (h : Accounted s) (hnil : ∀ t, s.code t = []) (a : A) : s.locked a = false := by
  by_contra ha
  obtain ⟨t, ht⟩ := (h.locked a).mp (Bool.eq_true_of_not_eq_false ha)
  have hbal := h.balanced t
  rw [hnil t] at hbal
  rw [show s.held t = ∅ from hbal] at ht
  exact Finset.notMem_empty a ht

omit [DecidableEq T] in
theorem Accounted.not_waits_self (h : Accounted s) : ¬ Waits s t t := by
  rintro ⟨a, is, hc, hmem⟩
  have hbal := h.balanced t
  rw [hc] at hbal
  exact hbal.1 hmem

/-! ## Circular waits -/

omit [DecidableEq T] [DecidableEq A] in
theorem CircularWait.ne_nil (h : CircularWait s) : ∃ t, s.code t ≠ [] := by
  obtain ⟨t, ht⟩ := h
  obtain ⟨u, ⟨a, is, hc, -⟩, -⟩ := Relation.TransGen.head'_iff.mp ht
  exact ⟨t, by rw [hc]; exact List.cons_ne_nil _ _⟩

/-- If neither of two threads can go on, a step of another one keeps that the
first waits for the second. -/
theorem Waits.step (h : Waits s t u) {v : T} (ht : v ≠ t) (hu : v ≠ u) (ha : (lockSystem code).next s v = some s') :
    Waits s' t u := by
  obtain ⟨a, is, hc, hmem⟩ := h
  refine ⟨a, is, ?_, ?_⟩ <;> rcases lock_step_cases ha with ⟨_, _, -, -, rfl⟩ | ⟨_, _, -, rfl⟩ <;> dsimp only
  · rwa [Function.update_of_ne ht.symm]
  · rwa [Function.update_of_ne ht.symm]
  · rwa [Function.update_of_ne hu.symm]
  · rwa [Function.update_of_ne hu.symm]

/-- The threads of a circular wait stay there. -/
theorem CircularWait.step (h : CircularWait s) (hi : Accounted s) {v : T} (ha : (lockSystem code).next s v = some s') :
    CircularWait s' := by
  obtain ⟨t, ht⟩ := h
  have hne : ∀ {x y}, Waits s x y → v ≠ x := fun hw he => by
    rw [he, hi.next_eq_none.mpr (.inr ⟨_, hw⟩)] at ha
    cases ha
  -- on a path to a thread that waits, each thread waits
  have hpath : ∀ {x y}, Relation.TransGen (Waits s) x y → (∃ z, Waits s y z) → Relation.TransGen (Waits s') x y := by
    intro x y hxy
    induction hxy with
    | single hw => exact fun ⟨z, hz⟩ => .single (hw.step (hne hw) (hne hz) ha)
    | tail _ hw ih => exact fun ⟨z, hz⟩ => (ih ⟨_, hw⟩).tail (hw.step (hne hw) (hne hz) ha)
  obtain ⟨z, hz, -⟩ := Relation.TransGen.head'_iff.mp ht
  exact ⟨t, hpath ht ⟨z, hz⟩⟩

/-- Two threads wait in a circle if each waits for the other. -/
theorem Accounted.circularWait_bool {s : LockState Bool A} (h : Accounted s) :
    CircularWait s ↔ Waits s false true ∧ Waits s true false := by
  refine ⟨?_, fun ⟨h₁, h₂⟩ => ⟨false, .tail (.single h₁) h₂⟩⟩
  rintro ⟨t, ht⟩
  obtain ⟨u, hu, -⟩ := Relation.TransGen.head'_iff.mp ht
  obtain ⟨v, -, hv⟩ := Relation.TransGen.tail'_iff.mp ht
  have hne : ∀ {x y}, Waits s x y → x ≠ y := fun hw he => h.not_waits_self (he ▸ hw)
  cases t with
  | false => exact ⟨Bool.eq_true_of_not_eq_false (hne hu).symm ▸ hu, Bool.eq_true_of_not_eq_false (hne hv) ▸ hv⟩
  | true => exact ⟨Bool.eq_false_of_not_eq_true (hne hv) ▸ hv, Bool.eq_false_of_not_eq_true (hne hu).symm ▸ hu⟩

/-- If no thread can go on, all have finished or there is a circular wait. -/
theorem Accounted.finished_iff [Finite T] (h : Accounted s) (hq : ∀ t, (lockSystem code).next s t = none) :
    (∀ t, s.code t = []) ↔ ¬ CircularWait s := by
  refine ⟨fun hfin hcirc => ?_, fun hcirc => ?_⟩
  · obtain ⟨t, ht⟩ := hcirc.ne_nil
    exact ht (hfin t)
  · by_contra hne
    push Not at hne
    -- without a circular wait, some thread waits for none that waits
    have hirrefl : Std.Irrefl (flip (Relation.TransGen (Waits s))) := ⟨fun t ht => hcirc ⟨t, ht⟩⟩
    have htrans : IsTrans T (flip (Relation.TransGen (Waits s))) := ⟨fun _ _ _ h₁ h₂ => h₂.trans h₁⟩
    have hwf : WellFounded (flip (Relation.TransGen (Waits s))) := Finite.wellFounded_of_trans_of_irrefl _
    obtain ⟨t, ht, hmin⟩ := hwf.has_min {t | s.code t ≠ []} hne
    obtain ⟨u, hu⟩ := (h.next_eq_none.mp (hq t)).resolve_left ht
    obtain ⟨a, is, hc, hmem⟩ := hu
    refine hmin u (fun hnil => ?_) (.single ⟨a, is, hc, hmem⟩)
    have hbal := h.balanced u
    rw [hnil] at hbal
    rw [show s.held u = ∅ from hbal] at hmem
    exact Finset.notMem_empty a hmem

end TKH
