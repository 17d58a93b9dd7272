import ThreadingKnowHows.Framework.Journal
import ThreadingKnowHows.ThreadPool.Model

/-!
# Whole calls of `submit`

A call is what it finds and leaves in its critical section, and what it ends with
(`Call`). Between the two it keeps its result (`pending`), so what a thread
does is a list of whole calls, and the start of one more at most (`Recorded`).
-/

namespace TKH.ThreadPool

variable {n : ℕ} {E : Type}

/-- What can be seen of `submit`. -/
inductive Event
  /-- The critical section: `stop_`, and `tasks_` before and after it. -/
  | body (stop : Bool) (before after : List ℕ)
  /-- The future of a job, or an exception. -/
  | ends (r : Option ℕ)

structure Call where
  stop : Bool
  before : List ℕ
  after : List ℕ
  result : Option ℕ

def Call.body (c : Call) : Event := .body c.stop c.before c.after

def Call.events (c : Call) : List Event := [c.body, .ends c.result]

/-- The call throws if `stop_` is set, and leaves `tasks_`; otherwise it returns the
future of the job that it has appended. -/
def Call.Ok (c : Call) : Prop :=
  match c.result with
  | none => c.stop = true ∧ c.after = c.before
  | some j => c.stop = false ∧ c.after = c.before ++ [j]

def event (t : Thread n E) : Pc → Data → List Event
  | .submit c .body, d => match (pool n E).code t (.submit c .body) with
    | .act f => [.body d.stop d.tasks (f d).1.tasks]
    | _ => []
  | .submit _ (.ret r), _ => [.ends r]
  | _, _ => []

/-- What a call ends with that has been in its critical section. -/
def pending : Pc → Option (Option ℕ)
  | .submit _ (.unlock r) | .submit _ (.ret r) => some r
  | .submit _ (.notify j) => some (some j)
  | _ => none

/-- Whole calls, and the start of the one that ends with `pending`. -/
def Recorded (l : Pc) (es : List Event) : Prop :=
  ∃ cs : List Call, (∀ c ∈ cs, c.Ok) ∧ match pending l with
    | none => es = cs.flatMap Call.events
    | some r => ∃ c : Call, c.Ok ∧ c.result = r ∧ es = cs.flatMap Call.events ++ [c.body]

theorem Recorded.congr {l k : Pc} {es : List Event} (h : Recorded l es) (hk : pending k = pending l) :
    Recorded k es := by
  simpa only [Recorded, hk] using h

/-- A step that cannot be seen. -/
theorem Recorded.silent {l k : Pc} {es : List Event} (h : Recorded l es) (hk : pending k = pending l) :
    Recorded k (es ++ []) := by
  rw [List.append_nil]
  exact h.congr hk

/-- The call has been in its critical section. -/
theorem Recorded.enters {l k : Pc} {es : List Event} (h : Recorded l es) (hl : pending l = none) {c : Call} (hc : c.Ok)
    (hk : pending k = some c.result) : Recorded k (es ++ [c.body]) := by
  obtain ⟨cs, hcs, hes⟩ := h
  rw [hl] at hes
  refine ⟨cs, hcs, ?_⟩
  rw [hk]
  exact ⟨c, hc, rfl, by rw [hes]⟩

/-- The call ends with the result that it has kept. -/
theorem Recorded.ends {l k : Pc} {es : List Event} {r : Option ℕ} (h : Recorded l es) (hl : pending l = some r)
    (hk : pending k = none) : Recorded k (es ++ [.ends r]) := by
  obtain ⟨cs, hcs, hes⟩ := h
  rw [hl] at hes
  obtain ⟨c, hc, rfl, rfl⟩ := hes
  refine ⟨cs ++ [c], fun c' hc' => ?_, ?_⟩
  · rcases List.mem_append.mp hc' with hc' | hc'
    · exact hcs c' hc'
    · rwa [List.mem_singleton.mp hc']
  · rw [hk, List.flatMap_append, List.flatMap_singleton, Call.events, List.append_assoc]
    rfl

theorem pool_journal : Journal (pool n E) event fun _ => Recorded where
  entries t := by cases t <;> exact ⟨[], nofun, rfl⟩
  records t l := by
    cases l with
    | out =>
      intro k es hk h
      dsimp only at hk
      split at hk <;> first | exact h.congr rfl | cases hk
    | gone => trivial
    | submit c p =>
      cases p with
      | lock => exact ⟨fun _ => rfl, fun es h => h.congr rfl⟩
      | body =>
        intro d es h
        cases hs : d.stop with
        | true =>
          have := h.enters (k := .submit c (.unlock none)) rfl (c := ⟨true, d.tasks, d.tasks, none⟩) ⟨rfl, rfl⟩ rfl
          simpa [event, pool, submit, hs, Call.body] using this
        | false =>
          have := h.enters (k := .submit c (.unlock (some d.accepted))) rfl
            (c := ⟨false, d.tasks, d.tasks ++ [d.accepted], some d.accepted⟩) ⟨rfl, rfl⟩ rfl
          simpa [event, pool, submit, hs, Call.body] using this
      | unlock r => cases r <;> exact ⟨fun _ => rfl, fun es h => h.congr rfl⟩
      | notify j => exact ⟨fun _ => rfl, fun es h => h.congr rfl⟩
      | ret r => exact fun d es h => h.ends rfl (by cases c <;> rfl)
    | worker p =>
      cases p with
      | lock | sleep | unlock | leave => exact ⟨fun _ => rfl, fun es h => h.congr rfl⟩
      | test => exact fun d es h => h.silent (by dsimp only; split <;> rfl)
      | body =>
        intro d es h
        refine h.silent ?_
        dsimp only
        split
        · split <;> rfl
        · rfl
      | running j => exact fun d k es hk h => by rcases jobStep_iff.mp hk with rfl | rfl <;> exact h.congr rfl
      | finish j | undefined => exact fun d es h => h.silent rfl
      | returned => trivial
    | destructor p =>
      cases p with
      | idle => exact fun k es hk h => by dsimp only at hk; split at hk <;> first | exact h.congr rfl | cases hk
      | lock | unlock | notify => exact ⟨fun _ => rfl, fun es h => h.congr rfl⟩
      | set => exact fun d es h => h.silent rfl
      | join i =>
        simp only [pool, destruct]
        split
        · exact ⟨fun _ => rfl, fun es h => h.congr rfl⟩
        · exact fun d es h => h.silent rfl
      | returned => trivial

/-- What a thread has done in a run is a list of whole calls, and the start of one. -/
theorem recorded [DecidableEq E] [Fintype E] {s : State (Thread n E) Cv Data Pc} {as : List (Act (Thread n E) Pc)}
    (h : (pool n E).system.run (pool n E).system.start as = some s) (t : Thread n E) :
    Recorded (s.th t).point (journal t ((pool n E).system.trace (outputs event) (pool n E).system.start as)) :=
  pool_journal.holds h t

end TKH.ThreadPool
