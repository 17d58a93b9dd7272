import ThreadingKnowHows.Framework.Flow
import ThreadingKnowHows.Framework.Wakeup
import ThreadingKnowHows.StartingGun.Model

/-!
# Nobody passes early or is left waiting

A waiter sleeps because it has seen, with the mutex held, that the flag is not
set. So the broadcast is still to come, and whoever arrives after it does not
sleep.
-/

namespace TKH.StartingGun

variable {W : Type} {kind : W → Kind}

/-! ## Where the threads are, and what they know there -/

def MainPc.knows : MainPc → Data W → Prop
  | .lock, d | .set, d => d.ready = false
  | _, d => d.ready = true

/-- After its wait a waiter knows that the flag is set. -/
def WaiterPc.knows : WaiterPc → Data W → Prop
  | .print, d | .unlock, d | .returned, d => d.ready = true
  | _, _ => True

def role (kind : W → Kind) : Thread W → Pc → Data W → Prop
  | .main, .main p, d => p.knows d
  | .waiter w, .goodConsumer p, d => kind w = .goodConsumer ∧ p.knows d
  | .waiter w, .worker p, d => kind w = .worker ∧ p.knows d
  | _, _, _ => False

theorem role.main {u : Thread W} {p p' : MainPc} {d d' : Data W} (h : role kind u (.main p) d)
    (hp : p.knows d → p'.knows d') : role kind u (.main p') d' := by
  cases u with
  | main => exact hp h
  | waiter => exact h.elim

theorem role.goodConsumer {u : Thread W} {p p' : WaiterPc} {d d' : Data W} (h : role kind u (.goodConsumer p) d)
    (hp : p.knows d → p'.knows d') : role kind u (.goodConsumer p') d' := by
  cases u with
  | main => exact h.elim
  | waiter => exact ⟨h.1, hp h.2⟩

theorem role.worker {u : Thread W} {p p' : WaiterPc} {d d' : Data W} (h : role kind u (.worker p) d)
    (hp : p.knows d → p'.knows d') : role kind u (.worker p') d' := by
  cases u with
  | main => exact h.elim
  | waiter => exact ⟨h.1, hp h.2⟩

/-- Only the flag matters. -/
theorem role.stable {u : Thread W} {k : Pc} {d d' : Data W} (h : role kind u k d) (hready : d'.ready = d.ready) :
    role kind u k d' := by
  cases k with
  | main p => exact h.main fun hp => by cases p <;> exact hready.trans hp
  | goodConsumer p => exact h.goodConsumer fun hp => by cases p <;> first | trivial | exact hready.trans hp
  | worker p => exact h.worker fun hp => by cases p <;> first | trivial | exact hready.trans hp

/-- The flag is set. -/
theorem role.ready {u : Thread W} {k : Pc} {d d' : Data W} (h : role kind u k d) (hu : u ≠ .main)
    (hready : d'.ready = true) : role kind u k d' := by
  cases u with
  | main => exact absurd rfl hu
  | waiter w =>
    cases k with
    | main => exact h.elim
    | goodConsumer p | worker p => exact ⟨h.1, by cases p <;> trivial⟩

theorem gun_local : Local (gun kind) held Truthful tested (role kind) where
  toAnnotation := gun_annotation
  entries t := by
    cases t with
    | main => rfl
    | waiter w =>
      simp only [gun]
      cases hk : kind w <;> exact ⟨hk, trivial⟩
  asserts t l := by
    cases l with
    | main p =>
      cases p with
      | lock | unlock => exact fun d h => h.main id
      | notify | join => exact fun d h => h.main id
      | set =>
        refine fun d _ h => ⟨h.main fun _ => rfl, fun u k hu h' => h'.ready (fun hm => ?_) rfl⟩
        subst hm
        cases t with
        | main => exact hu rfl
        | waiter => exact h.elim
      | returned => trivial
    | goodConsumer p =>
      cases p with
      | lock | sleep | unlock => exact fun d h => h.goodConsumer id
      | test =>
        refine fun d _ h => ⟨?_, fun _ _ _ h => h⟩
        dsimp only
        split
        · exact h.goodConsumer fun _ => ‹_›
        · exact h.goodConsumer id
      | print => exact fun d _ h => ⟨h.goodConsumer id, fun u k _ h' => h'.stable rfl⟩
      | returned => trivial
    | worker p =>
      cases p with
      | lock | sleep | unlock => exact fun d h => h.worker id
      | test =>
        refine fun d _ h => ⟨?_, fun _ _ _ h => h⟩
        dsimp only
        split
        · exact h.worker fun _ => ‹_›
        · exact h.worker id
      | print => exact fun d _ h => ⟨h.worker id, fun u k _ h' => h'.stable rfl⟩
      | returned => trivial

/-! ## The broadcast -/

/-- What the waiters are told. -/
def fired : Signal (Data W) Pc where
  need _ := 0
  weight
    | .goodConsumer .test | .worker .test => 1
    | _ => 0
  urgent d := d.ready = true
  rouses
    | .main .notify => True
    | _ => False

theorem gun_fired : Waking (gun kind) held Truthful tested .cv fired where
  toAnnotation := gun_annotation
  signals t l := by
    cases l with
    | main p =>
      cases p with
      | lock | unlock => exact ⟨le_rfl, id⟩
      | set => exact fun d _ => ⟨fun _ => rfl, fun _ => .inr trivial, False.elim, .inl rfl⟩
      | notify => exact fun h => absurd rfl h
      | join | returned => exact ⟨rfl, id⟩
    | goodConsumer p | worker p =>
      cases p with
      | lock => exact ⟨Nat.zero_le _, id⟩
      | unlock => exact ⟨le_rfl, id⟩
      | test => exact fun d _ => ⟨id, .inl, False.elim, .inr (.inl rfl)⟩
      | sleep => exact ⟨id, le_rfl, fun d h => ⟨rfl, by simp [fired, show d.ready = false from h.2]⟩⟩
      | print => exact fun d _ => ⟨id, .inl, False.elim, .inr (.inl rfl)⟩
      | returned => exact ⟨rfl, id⟩

theorem wait_point {t : Thread W} {l k : Pc} {c : Cv} (h : (gun kind).code t l = .wait c k) :
    k = .goodConsumer .test ∨ k = .worker .test := by
  cases l with
  | main p => cases p <;> cases h
  | goodConsumer p => cases p <;> cases h; exact .inl rfl
  | worker p => cases p <;> cases h; exact .inr rfl

/-! ## Runs -/

/-- The wait is over. -/
def WaiterPc.passed : WaiterPc → Bool
  | .print | .unlock | .returned => true
  | .lock | .test | .sleep => false

def Pc.passed : Pc → Bool
  | .main _ => false
  | .goodConsumer p | .worker p => p.passed

variable [DecidableEq W] [Fintype W] {s : State (Thread W) Cv (Data W) Pc}

/-- What the good consumers have printed is that the flag is set. -/
theorem truthful (h : (gun kind).system.Reach s) : Truthful s.data :=
  gun_annotation.always (fun _ _ hp => hp.1) h

/-- Where `main` is, and the flag. -/
theorem main_point (h : (gun kind).system.Reach s) : ∃ p, (s.th .main).point = .main p ∧ p.knows s.data := by
  have hr := gun_local.assert h .main
  cases hp : (s.th .main).point with
  | main p => rw [hp] at hr; exact ⟨p, rfl, hr⟩
  | goodConsumer | worker => rw [hp] at hr; exact hr.elim

/-- No waiter passes before the flag is set. -/
theorem ready_of_passed (h : (gun kind).system.Reach s) {w : W} (hw : (s.th (.waiter w)).point.passed = true) :
    s.data.ready = true := by
  have hr := gun_local.assert h (.waiter w)
  cases hp : (s.th (.waiter w)).point with
  | main p => rw [hp] at hr; exact hr.elim
  | goodConsumer p | worker p =>
    rw [hp] at hr hw
    have hk := hr.2
    cases p <;> first | exact hk | cases hw

/-- In a quiet state `main` waits for the waiters, or has returned. -/
theorem main_quiet (h : (gun kind).system.Reach s) (hq : (gun kind).Quiet s) :
    s.data.ready = true ∧ (s.th .main = .run (.main .join) ∨ s.th .main = .run (.main .returned)) := by
  obtain ⟨p, hp, hknows⟩ := main_point h
  rcases (gun_discipline.quiet (gun_discipline.locked h) hq).2 .main with ⟨l, hl, hrest⟩ | ⟨c, k, hk⟩
  · rw [hl, Status.point_run] at hp
    subst hp
    cases p with
    | join => exact ⟨hknows, .inl hl⟩
    | returned => exact ⟨hknows, .inr hl⟩
    | lock | set | notify | unlock => exact hrest.elim
  · obtain ⟨l, hc⟩ := Program.wait_of_asleep h hk
    rw [hk, Status.point_asleep] at hp
    subst hp
    rcases wait_point hc with hc | hc <;> cases hc

/-- In a quiet state all waiters have returned. -/
theorem waiter_quiet (h : (gun kind).system.Reach s) (hq : (gun kind).Quiet s) (w : W) :
    (gun kind).halted s (.waiter w) = true := by
  have hr := gun_local.assert h (.waiter w)
  rcases (gun_discipline.quiet (gun_discipline.locked h) hq).2 (.waiter w) with ⟨l, hl, hrest⟩ | ⟨⟨⟩, k, hk⟩
  · rw [hl, Status.point_run] at hr
    refine Program.halted_iff.mpr ⟨l, hl, ?_⟩
    cases l with
    | main p => exact hr.elim
    | goodConsumer p | worker p => cases p <;> first | rfl | exact hrest.elim
  · -- the flag is set, so that nobody sleeps
    exact absurd (main_quiet h hq).1 (gun_fired.asleep h hq hk).2

theorem halted_of_quiet (h : (gun kind).system.Reach s) (hq : (gun kind).Quiet s) (t : Thread W) :
    (gun kind).halted s t = true := by
  cases t with
  | waiter w => exact waiter_quiet h hq w
  | main =>
    rcases (main_quiet h hq).2 with hl | hl
    · refine (not_step_of_quiet hq (.join hl rfl fun u hu => ?_) trivial).elim
      cases u with
      | main => cases hu
      | waiter w => exact waiter_quiet h hq w
    · exact Program.halted_iff.mpr ⟨_, hl, rfl⟩

/-- The gun neither fires early nor is it missed. -/
theorem gun_not_lost (h : (gun kind).system.Reach s) :
    (∀ w, (s.th (.waiter w)).point.passed = true → s.data.ready = true ∧
      (s.th .main).point ≠ .main .lock ∧ (s.th .main).point ≠ .main .set) ∧
    ((gun kind).Quiet s → (gun kind).halted s .main = true ∧ ∀ w, (gun kind).halted s (.waiter w) = true) := by
  refine ⟨fun w hw => ?_, fun hq => ⟨halted_of_quiet h hq .main, waiter_quiet h hq⟩⟩
  have hready := ready_of_passed h hw
  obtain ⟨p, hp, hknows⟩ := main_point h
  refine ⟨hready, fun hl => ?_, fun hl => ?_⟩
  · cases hp.symm.trans hl
    rw [show s.data.ready = false from hknows] at hready
    cases hready
  · cases hp.symm.trans hl
    rw [show s.data.ready = false from hknows] at hready
    cases hready

/-- A good consumer sleeps, wakes for no reason and sleeps again before the
broadcast; a worker arrives after it. -/
def earlyAndLate : List (Act (Thread Bool) Pc) :=
  [.exec (.waiter false), .exec (.waiter false), .exec (.waiter false), .spurious (.waiter false),
    .relock (.waiter false), .exec (.waiter false), .exec (.waiter false),
    .exec .main, .exec .main, .exec .main, .exec .main,
    .exec (.waiter true), .exec (.waiter true), .exec (.waiter true), .exec (.waiter true),
    .relock (.waiter false), .exec (.waiter false), .exec (.waiter false), .exec (.waiter false), .exec .main]

/-- `false` is a good consumer and `true` a worker. -/
def mixed (w : Bool) : Kind := if w then .worker else .goodConsumer

theorem gun_not_lost_mixed : ∃ s, (gun mixed).system.run (gun mixed).system.start earlyAndLate = some s ∧
    (∀ w, (gun mixed).halted s (.waiter w) = true) ∧ s.data.ready = true := by
  have hr : ((gun mixed).system.run (gun mixed).system.start earlyAndLate).any
      (fun s => decide ((∀ t, (gun mixed).blocked s t = true) ∧ (s.th (.waiter true)).point.passed = true)) = true := by
    decide +kernel
  obtain ⟨s, hs, hp⟩ := System.exists_of_run hr
  obtain ⟨hb, hw⟩ := of_decide_eq_true hp
  obtain ⟨hearly, hquiet⟩ := gun_not_lost (System.reach_of_run hs)
  exact ⟨s, hs, (hquiet (quiet_of_blocked hb)).2, (hearly true hw).1⟩

end TKH.StartingGun
