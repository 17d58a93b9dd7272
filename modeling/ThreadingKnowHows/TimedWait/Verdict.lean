import ThreadingKnowHows.Framework.Trace
import ThreadingKnowHows.TimedWait.Model

/-!
# When the loop gives up

The first outcome that is not idle ends both loops (`waitLoop_of_idle`): it is a
timeout, or `ready` is set, or both. In the last case `loop` reports giving up,
and `documented` does not.
-/

namespace TKH.TimedWait

/-! ## The end of the loop -/

/-- The wait has ended for no reason. -/
def idle : Outcome := ⟨.zero, false⟩

theorem waitLoop_append {quits : Outcome → Bool} (hidle : quits idle = false) {os : List Outcome} (hos : ∀ o ∈ os, o = idle)
    (waits : ℕ) (os' : List Outcome) :
    waitLoop quits waits .zero false (os ++ os') = waitLoop quits (waits + os.length) .zero false os' := by
  induction os generalizing waits with
  | nil => rfl
  | cons o os ih =>
    obtain rfl := hos o List.mem_cons_self
    rw [List.cons_append, waitLoop, hidle, if_neg Bool.false_ne_true]
    refine (ih (fun o ho => hos o (List.mem_cons_of_mem _ ho)) (waits + 1)).trans ?_
    rw [List.length_cons, Nat.add_assoc, Nat.add_comm 1]

theorem waitLoop_true (quits : Outcome → Bool) (waits : ℕ) (rc : Rc) (os : List Outcome) :
    waitLoop quits waits rc true os = some ⟨waits, rc, true, false⟩ := by
  cases os <;> rfl

/-- While the outcomes are idle the loop is not left. -/
theorem waitLoop_idle {quits : Outcome → Bool} (hidle : quits idle = false) {os : List Outcome} (hos : ∀ o ∈ os, o = idle) :
    waitLoop quits 0 .zero false os = none := by
  rw [← List.append_nil os, waitLoop_append hidle hos]
  rfl

/-- The first outcome that is not idle ends the loop. -/
theorem waitLoop_of_idle {quits : Outcome → Bool} (hidle : quits idle = false) (hquits : quits ⟨.etimedout, false⟩ = true)
    {os : List Outcome} (hos : ∀ o ∈ os, o = idle) {o : Outcome} (ho : o ≠ idle) (os' : List Outcome) :
    waitLoop quits 0 .zero false (os ++ o :: os') = some ⟨os.length + 1, o.rc, o.ready, quits o⟩ := by
  rw [waitLoop_append hidle hos, Nat.zero_add, waitLoop]
  split
  · rw [‹quits o = true›]
  · rename_i hnot
    have hready : o.ready = true := by
      obtain ⟨rc, r⟩ := o
      cases r with
      | true => rfl
      | false => cases rc <;> contradiction
    rw [hready, waitLoop_true, Bool.eq_false_iff.mpr hnot]

theorem idle_cases (os : List Outcome) :
    (∀ o ∈ os, o = idle) ∨ ∃ os₁ o os₂, os = os₁ ++ o :: os₂ ∧ (∀ o ∈ os₁, o = idle) ∧ o ≠ idle := by
  induction os with
  | nil => exact .inl nofun
  | cons o os ih =>
    by_cases ho : o = idle
    · rcases ih with hos | ⟨os₁, o', os₂, rfl, hos, ho'⟩
      · exact .inl (List.forall_mem_cons.mpr ⟨ho, hos⟩)
      · exact .inr ⟨o :: os₁, o', os₂, rfl, List.forall_mem_cons.mpr ⟨ho, hos⟩, ho'⟩
    · exact .inr ⟨[], o, os, rfl, nofun, ho⟩

theorem loop_of_idle {os : List Outcome} (hos : ∀ o ∈ os, o = idle) {o : Outcome} (ho : o ≠ idle) (os' : List Outcome) :
    loop false (os ++ o :: os') = some ⟨os.length + 1, o.rc, o.ready, o.rc = .etimedout⟩ :=
  waitLoop_of_idle rfl rfl hos ho os'

theorem documented_of_idle {os : List Outcome} (hos : ∀ o ∈ os, o = idle) {o : Outcome} (ho : o ≠ idle) (os' : List Outcome) :
    documented false (os ++ o :: os') = some ⟨os.length + 1, o.rc, o.ready, o.rc = .etimedout ∧ o.ready = false⟩ :=
  waitLoop_of_idle rfl rfl hos ho os'

/-! ## What `main` sees -/

variable {W : Type} {results : ℕ → Rc}

/-- Where `main` is, and what it has seen: idle outcomes as long as it waits,
and what ends `loop` when it has left. -/
def MainPc.knows : MainPc → Data → Prop
  | .lock, d | .test none, d => d.first = none ∧ d.rc = .zero ∧ d.gaveUp = false ∧ d.outcomes = []
  | .test (some r), d => d.first = some false ∧ d.rc = .zero ∧ d.gaveUp = false ∧
    ∃ os, d.outcomes = os ++ [⟨.zero, r⟩] ∧ ∀ o ∈ os, o = idle
  | .timedwait, d | .check, d => d.first = some false ∧ d.rc = .zero ∧ d.gaveUp = false ∧ ∀ o ∈ d.outcomes, o = idle
  | .unlock, d | .returned, d => ∃ r e, d.first = some r ∧ loop r d.outcomes = some e ∧
    e.waits = d.outcomes.length ∧ e.rc = d.rc ∧ e.gaveUp = d.gaveUp

/-- Nobody has set `ready`. -/
def Unset (d : Data) : Prop := d.ready = false ∧ ∀ o ∈ d.outcomes, o.ready = false

/-- Where the threads are. Without setters `ready` is never set. -/
def role : Thread W → Pc → Data → Prop
  | .main, .main p, d => p.knows d ∧ (IsEmpty W → Unset d)
  | .setter _, .setter _, _ => True
  | _, _, _ => False

theorem role.main {t : Thread W} {p p' : MainPc} {d d' : Data} (h : role t (.main p) d) (hp : p.knows d → p'.knows d')
    (hunset : Unset d → Unset d') : role t (.main p') d' := by
  cases t with
  | main => exact ⟨hp h.1, fun hW => hunset (h.2 hW)⟩
  | setter => exact h.elim

theorem role.setter {t : Thread W} {p p' : SetterPc} {d d' : Data} (h : role t (.setter p) d) : role t (.setter p') d' := by
  cases t with
  | main => exact h.elim
  | setter => trivial

/-- What the setters know does not depend on what `main` does. -/
theorem role.other {t u : Thread W} {p : MainPc} {k : Pc} {d d' : Data} (h : role t (.main p) d) (hu : u ≠ t)
    (h' : role u k d) : role u k d' := by
  cases t with
  | setter => exact h.elim
  | main =>
    cases u with
    | main => exact absurd rfl hu
    | setter w =>
      cases k with
      | main => exact h'.elim
      | setter => trivial

/-- What `main` knows does not depend on `ready`. -/
theorem MainPc.knows.ready {p : MainPc} {d : Data} (h : p.knows d) (r : Bool) : p.knows { d with ready := r } := by
  cases p with
  | test woken => cases woken <;> exact h
  | _ => exact h

theorem knows_test {woken : Option Bool} {d : Data} (h : (MainPc.test woken).knows d)
    (hready : tested (.main (.test woken)) d) :
    (if d.ready then MainPc.unlock else .timedwait).knows { d with first := some (d.first.getD d.ready) } := by
  cases woken with
  | none =>
    obtain ⟨hfirst, hrc, hgave, hos⟩ := h
    cases hr : d.ready with
    | true =>
      refine ⟨true, ⟨0, .zero, true, false⟩, ?_, waitLoop_true .., ?_, hrc.symm, hgave.symm⟩
      · rw [hfirst, Option.getD_none]
      · rw [hos, List.length_nil]
    | false =>
      refine ⟨?_, hrc, hgave, ?_⟩
      · rw [hfirst, Option.getD_none]
      · simp [hos]
  | some r =>
    obtain ⟨hfirst, hrc, hgave, os, hos, hidle⟩ := h
    have hr : d.ready = r := hready
    cases r with
    | true =>
      rw [hr]
      refine ⟨false, ⟨os.length + 1, .zero, true, false⟩, ?_, ?_, ?_, hrc.symm, hgave.symm⟩
      · rw [hfirst, Option.getD_some]
      · rw [hos]
        exact loop_of_idle hidle (by decide) []
      · rw [hos, List.length_append, List.length_singleton]
    | false =>
      rw [hr]
      refine ⟨?_, hrc, hgave, fun o ho => ?_⟩
      · rw [hfirst, Option.getD_some]
      · rw [hos] at ho
        rcases List.mem_append.mp ho with ho | ho
        · exact hidle o ho
        · exact List.mem_singleton.mp ho

theorem knows_check {d : Data} (h : MainPc.check.knows d) (rc : Rc) :
    (if rc = .etimedout then MainPc.unlock else .test (some d.ready)).knows
      { d with rc := rc, gaveUp := d.gaveUp || rc = .etimedout, outcomes := d.outcomes ++ [⟨rc, d.ready⟩] } := by
  obtain ⟨hfirst, hrc, hgave, hidle⟩ := h
  cases rc with
  | zero => exact ⟨hfirst, rfl, by rw [hgave]; rfl, d.outcomes, rfl, hidle⟩
  | etimedout =>
    refine ⟨false, ⟨d.outcomes.length + 1, .etimedout, d.ready, true⟩, hfirst, ?_, ?_, rfl, ?_⟩
    · exact loop_of_idle hidle (by simp [idle]) []
    · rw [List.length_append, List.length_singleton]
    · rw [hgave]; rfl

theorem timedWait_local : Local (timedWait W results) held (fun _ => True) tested role where
  toAnnotation := timedWait_annotation
  entries t := by
    cases t with
    | main => exact ⟨⟨rfl, rfl, rfl, rfl⟩, fun _ => ⟨rfl, nofun⟩⟩
    | setter => trivial
  asserts t l := by
    cases l with
    | main p =>
      cases p with
      | lock | timedwait | unlock => exact fun d h => h.main id id
      | test woken =>
        exact fun d hready h => ⟨h.main (fun hp => knows_test hp (hready rfl)) id, fun u k hu h' => h.other hu h'⟩
      | check =>
        refine fun d _ h => ⟨h.main (fun hp => knows_check hp _) fun hunset => ?_, fun u k hu h' => h.other hu h'⟩
        refine ⟨hunset.1, fun o ho => ?_⟩
        rcases List.mem_append.mp ho with ho | ho
        · exact hunset.2 o ho
        · rw [List.mem_singleton.mp ho]
          exact hunset.1
      | returned => trivial
    | setter p =>
      cases p with
      | lock | notify | unlock => exact fun d h => h.setter
      | set =>
        refine fun d _ h => ⟨h.setter, fun u k hu h' => ?_⟩
        cases t with
        | main => exact h.elim
        | setter w =>
          cases u with
          | main =>
            cases k with
            | main p => exact ⟨h'.1.ready true, fun hW => hW.elim w⟩
            | setter => exact h'.elim
          | setter =>
            cases k with
            | main => exact h'.elim
            | setter => trivial
      | returned => trivial

section

variable [DecidableEq W] [Fintype W] {s : State (Thread W) Cv Data Pc}

/-- Where `main` is, and what it has seen. -/
theorem main_point (h : (timedWait W results).system.Reach s) :
    ∃ p, (s.th .main).point = .main p ∧ p.knows s.data ∧ (IsEmpty W → Unset s.data) := by
  have hr := timedWait_local.assert h .main
  cases hp : (s.th .main).point with
  | main p =>
    rw [hp] at hr
    exact ⟨p, rfl, hr⟩
  | setter =>
    rw [hp] at hr
    exact hr.elim

/-- While `main` waits, `loop` does. -/
theorem loop_of_waiting (h : (timedWait W results).system.Reach s)
    (hp : (s.th .main).point = .main .timedwait ∨ (s.th .main).point = .main .check) :
    s.data.first = some false ∧ loop false s.data.outcomes = none := by
  obtain ⟨p, hat, hknows, -⟩ := main_point h
  rcases hp with hp | hp
  all_goals
    cases hat.symm.trans hp
    exact ⟨hknows.1, waitLoop_idle rfl hknows.2.2.2⟩

/-- When `main` has left, `loop` has, with the same verdict. -/
theorem loop_of_left (h : (timedWait W results).system.Reach s)
    (hp : (s.th .main).point = .main .unlock ∨ (s.th .main).point = .main .returned) :
    ∃ r e, s.data.first = some r ∧ loop r s.data.outcomes = some e ∧
      e.waits = s.data.outcomes.length ∧ e.rc = s.data.rc ∧ e.gaveUp = s.data.gaveUp := by
  obtain ⟨p, hat, hknows, -⟩ := main_point h
  rcases hp with hp | hp
  all_goals
    cases hat.symm.trans hp
    exact hknows

end

/-! ## The two verdicts -/

/-- `loop` does what `documented` does, and reports giving up exactly when the
deadline has passed with `ready` not set. -/
def Implements (ready : Bool) (os : List Outcome) : Prop :=
  loop ready os = documented ready os ∧ ∀ e, loop ready os = some e →
    (e.gaveUp = true ↔ e.rc = .etimedout ∧ e.ready = false) ∧ (e.ready = true → e.gaveUp = false)

/-- No wait that times out is the first one to find `ready` set. -/
def Timely (ready : Bool) (os : List Outcome) : Prop :=
  ready = true ∨ Precedes (fun o => o ≠ ⟨.zero, false⟩) (fun o => o = ⟨.etimedout, true⟩) os

theorem timely_of_idle {os : List Outcome} (hos : ∀ o ∈ os, o = idle) {o : Outcome} (ho : o ≠ idle) (os' : List Outcome) :
    Timely false (os ++ o :: os') ↔ o ≠ ⟨.etimedout, true⟩ := by
  have hskip : ∀ o ∈ os, ¬o ≠ ⟨.zero, false⟩ ∧ ¬o = ⟨.etimedout, true⟩ := fun o ho => by
    rw [hos o ho]
    exact ⟨fun hn => hn rfl, nofun⟩
  rw [Timely, precedes_append hskip, precedes_cons]
  simp only [Bool.false_eq_true, false_or]
  exact and_iff_left (.inl ho)

/-- In the file as it is nobody sets `ready`, so that all waits are timely. -/
theorem timely_of_isEmpty [DecidableEq W] [Fintype W] [IsEmpty W] {s : State (Thread W) Cv Data Pc}
    (h : (timedWait W results).system.Reach s) (ready : Bool) : Timely ready s.data.outcomes := by
  obtain ⟨p, -, -, hunset⟩ := main_point h
  refine .inr fun os₁ o os₂ heq hlate => ?_
  have hready := (hunset inferInstance).2 o (by rw [heq]; simp)
  rw [hlate] at hready
  cases hready

/-- `main` does what the comment says exactly if no wait that times out is the
first one to find `ready` set. -/
theorem timed_wait_implements_iff (ready : Bool) (os : List Outcome) : Implements ready os ↔ Timely ready os := by
  cases ready with
  | true =>
    refine iff_of_true ⟨?_, fun e he => ?_⟩ (.inl rfl)
    · rw [loop, documented, waitLoop_true, waitLoop_true]
    · rw [loop, waitLoop_true] at he
      cases he
      simp
  | false =>
    rcases idle_cases os with hos | ⟨os₁, o, os₂, rfl, hos, ho⟩
    · -- it is still waiting
      refine iff_of_true ⟨?_, fun e he => ?_⟩ (.inr fun os₁ o os₂ heq hlate => ?_)
      · rw [loop, documented, waitLoop_idle rfl hos, waitLoop_idle rfl hos]
      · rw [loop, waitLoop_idle rfl hos] at he
        cases he
      · have hidle := hos o (by rw [heq]; simp)
        cases hidle.symm.trans hlate
    · rw [timely_of_idle hos ho, Implements, loop_of_idle hos ho, documented_of_idle hos ho]
      obtain ⟨rc, r⟩ := o
      cases rc <;> cases r <;> simp

/-- `main` times out while the setter has the mutex, and finds `ready` set when
it has it again. -/
def late {W : Type} (w : W) : List (Act (Thread W) Pc) :=
  [.exec .main, .exec .main, .exec .main, .exec (.setter w), .spurious .main, .exec (.setter w), .exec (.setter w),
    .exec (.setter w), .relock .main, .exec .main]

/-- `main` reports giving up although `ready` is set, and the algorithm does not. -/
theorem timed_wait_gives_up_late :
    (∃ s, (timedWait Unit fun _ => .etimedout).system.run (timedWait Unit fun _ => .etimedout).system.start (late ()) =
      some s ∧ s.data.first = some false ∧ s.data.outcomes = [⟨.etimedout, true⟩] ∧ s.data.gaveUp = true ∧
      s.data.ready = true) ∧
    documented false [⟨.etimedout, true⟩] = some ⟨1, .etimedout, true, false⟩ ∧
    ¬Implements false [⟨.etimedout, true⟩] := by
  have hr : ((timedWait Unit fun _ => .etimedout).system.run (timedWait Unit fun _ => .etimedout).system.start
      (late ())).any (fun s => s.data.first = some false ∧ s.data.outcomes = [⟨.etimedout, true⟩] ∧
        s.data.gaveUp = true ∧ s.data.ready = true) = true := by
    decide +kernel
  obtain ⟨s, hs, hp⟩ := System.exists_of_run hr
  refine ⟨⟨s, hs, of_decide_eq_true hp⟩, by decide, fun h => ?_⟩
  exact absurd h.1 (by decide)

end TKH.TimedWait
