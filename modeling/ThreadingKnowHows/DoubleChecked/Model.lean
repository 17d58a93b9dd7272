import ThreadingKnowHows.Framework.System
import ThreadingKnowHows.Framework.Views

/-!
# Double-checked locking

`get_atomic_dcl` of `03_patterns/08_double_checked_locking.cpp`, called any
number of times by any threads. A pointer that `new` returns has not been
returned before. `g_atomic` is a variable with views: the first load is an
acquire load, which gains the view of the message it returns; the one under
the mutex is relaxed and gains nothing; the store is a release store. Taking
the mutex gains the views of all threads that released it before (`released`).
-/

namespace TKH.DoubleChecked

variable {τ P : Type}

/-- What a thread may have synchronised with. -/
inductive Event (P : Type)
  | construct (p : P)
  | store (p : P)
  deriving DecidableEq

/-- The control points of `get_atomic_dcl`; a pointer `s` may be null. -/
inductive Pc (P : Type)
  | out
  /-- `g_atomic.load(acquire)` -/
  | load
  | lock
  /-- `g_atomic.load(relaxed)` -/
  | reload
  /-- `new Singleton()` -/
  | new
  /-- `g_atomic.store(s, release)` -/
  | store (p : P)
  | unlock (s : Option P)
  | ret (s : Option P)
  deriving DecidableEq

structure State (τ P : Type) where
  mo : List (Message P (Event P))
  owner : Option τ
  released : Finset (Event P)
  view : τ → Finset (Event P)
  pc : τ → Pc P
  constructed : List P

inductive Act (τ P : Type)
  | call (t : τ)
  /-- Loads the message `i`, or null. -/
  | load (t : τ) (i : Option ℕ)
  | lock (t : τ)
  | new (t : τ) (p : P)
  | store (t : τ)
  | unlock (t : τ)
  | ret (t : τ)

variable [DecidableEq τ] [DecidableEq P]

def State.goto (s : State τ P) (t : τ) (k : Pc P) : State τ P := { s with pc := Function.update s.pc t k }

def State.gain (s : State τ P) (t : τ) (v : Finset (Event P)) : State τ P := { s with view := TKH.gain s.view t v }

def next (s : State τ P) : Act τ P → Option (State τ P)
  | .call t => match s.pc t with
    | .out => some (s.goto t .load)
    | _ => none
  | .load t i => match s.pc t with
    | .load => (mayLoad s.mo (s.view t) i).map fun
      | none => s.goto t .lock
      | some m => (s.goto t (.ret (some m.value))).gain t m.view
    | .reload => (mayLoad s.mo (s.view t) i).map fun
      | none => s.goto t .new
      | some m => s.goto t (.unlock (some m.value))
    | _ => none
  | .lock t => match s.pc t, s.owner with
    | .lock, none => some { (s.goto t .reload).gain t s.released with owner := some t }
    | _, _ => none
  | .new t p => match s.pc t with
    | .new =>
      if p ∈ s.constructed then none
      else some { (s.goto t (.store p)).gain t {.construct p} with constructed := s.constructed ++ [p] }
    | _ => none
  | .store t => match s.pc t with
    | .store p => some { (s.goto t (.unlock (some p))).gain t {.store p} with
        mo := s.mo ++ [⟨p, s.view t ∪ {.store p}, .store p⟩] }
    | _ => none
  | .unlock t => match s.pc t with
    | .unlock p => some { s.goto t (.ret p) with owner := none, released := s.released ∪ s.view t }
    | _ => none
  | .ret t => match s.pc t with
    | .ret _ => some (s.goto t .out)
    | _ => none

def system (τ P : Type) [DecidableEq τ] [DecidableEq P] : System (State τ P) (Act τ P) where
  start := { mo := [], owner := none, released := ∅, view := fun _ => ∅, pc := fun _ => .out, constructed := [] }
  next := next

/-- The steps of `next`. -/
inductive Step (s : State τ P) : Act τ P → State τ P → Prop
  | call {t : τ} : s.pc t = .out → Step s (.call t) (s.goto t .load)
  | loadNull {t : τ} {i : Option ℕ} : s.pc t = .load → mayLoad s.mo (s.view t) i = some none →
    Step s (.load t i) (s.goto t .lock)
  | loadPtr {t : τ} {i : Option ℕ} {m : Message P (Event P)} : s.pc t = .load →
    mayLoad s.mo (s.view t) i = some (some m) →
    Step s (.load t i) ((s.goto t (.ret (some m.value))).gain t m.view)
  | lock {t : τ} : s.pc t = .lock → s.owner = none →
    Step s (.lock t) { (s.goto t .reload).gain t s.released with owner := some t }
  | reloadNull {t : τ} {i : Option ℕ} : s.pc t = .reload → mayLoad s.mo (s.view t) i = some none →
    Step s (.load t i) (s.goto t .new)
  | reloadPtr {t : τ} {i : Option ℕ} {m : Message P (Event P)} : s.pc t = .reload →
    mayLoad s.mo (s.view t) i = some (some m) → Step s (.load t i) (s.goto t (.unlock (some m.value)))
  | new {t : τ} {p : P} : s.pc t = .new → p ∉ s.constructed →
    Step s (.new t p) { (s.goto t (.store p)).gain t {.construct p} with constructed := s.constructed ++ [p] }
  | store {t : τ} {p : P} : s.pc t = .store p →
    Step s (.store t) { (s.goto t (.unlock (some p))).gain t {.store p} with
      mo := s.mo ++ [⟨p, s.view t ∪ {.store p}, .store p⟩] }
  | unlock {t : τ} {p : Option P} : s.pc t = .unlock p →
    Step s (.unlock t) { s.goto t (.ret p) with owner := none, released := s.released ∪ s.view t }
  | ret {t : τ} {p : Option P} : s.pc t = .ret p → Step s (.ret t) (s.goto t .out)

theorem step_of_next {s s' : State τ P} {a : Act τ P} (h : (system τ P).next s a = some s') : Step s a s' := by
  change next s a = some s' at h
  cases a with
  | call t => simp only [next] at h; split at h <;> cases h; exact .call ‹_›
  | load t i =>
    simp only [next] at h
    split at h
    · obtain ⟨m, hm, rfl⟩ := Option.map_eq_some_iff.mp h
      cases m with
      | none => exact .loadNull ‹_› hm
      | some m => exact .loadPtr ‹_› hm
    · obtain ⟨m, hm, rfl⟩ := Option.map_eq_some_iff.mp h
      cases m with
      | none => exact .reloadNull ‹_› hm
      | some m => exact .reloadPtr ‹_› hm
    · cases h
  | lock t => simp only [next] at h; split at h <;> cases h; exact .lock ‹_› ‹_›
  | new t p =>
    simp only [next] at h
    split at h
    · split at h <;> cases h
      exact .new ‹_› ‹_›
    · cases h
  | store t => simp only [next] at h; split at h <;> cases h; exact .store ‹_›
  | unlock t => simp only [next] at h; split at h <;> cases h; exact .unlock ‹_›
  | ret t => simp only [next] at h; split at h <;> cases h; exact .ret ‹_›

end TKH.DoubleChecked
