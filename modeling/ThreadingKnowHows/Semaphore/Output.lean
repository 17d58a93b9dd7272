import Mathlib.Data.List.Infix
import ThreadingKnowHows.Framework.Amortised
import ThreadingKnowHows.Semaphore.Model

/-!
# Who is in the pool

Each user is where the lines that it has printed say (`Inv.own`), and the slots
that are not free are those of the users between `sem_wait` and `sem_post`
(`Inv.sem`). So the lines of a user come in order, and no more users than there
are slots have begun and not ended to work. Every output of that kind is the one
of a run, in which a user gets its slot right before it prints that it works, and
gives it back right after it prints that it leaves.
-/

namespace TKH.Semaphore

variable {T : Type} [DecidableEq T] {slots : ℕ} {s s' : State T} {t : T}

def Line.user : Line T → T
  | waiting t | working t | leaving t => t

def Line.isWorking : Line T → Bool
  | working _ => true
  | _ => false

def Line.isLeaving : Line T → Bool
  | leaving _ => true
  | _ => false

/-- The lines of `t`. -/
def own (t : T) (out : List (Line T)) : List (Line T) := out.filter fun x => x.user = t

/-- What `t` has printed at a control point. -/
def Pc.printed (t : T) : Pc → List (Line T)
  | announce => []
  | wait | enter => [.waiting t]
  | leave => [.waiting t, .working t]
  | post | done => [.waiting t, .working t, .leaving t]

/-- The output of users that work `slots` at a time. -/
structure Output (slots : ℕ) (out : List (Line T)) : Prop where
  own : ∀ t, own t out = [.waiting t, .working t, .leaving t]
  bound : ∀ l, l <+: out → l.countP Line.isWorking ≤ l.countP Line.isLeaving + slots

theorem own_concat (u : T) (out : List (Line T)) (x : Line T) :
    own u (out ++ [x]) = if x.user = u then own u out ++ [x] else own u out := by
  by_cases hx : x.user = u <;> simp [own, List.filter_append, hx]

/-! ## The invariant -/

def Pc.holds : Pc → ℕ
  | enter | leave | post => 1
  | _ => 0

def Pc.works : Pc → ℕ
  | leave => 1
  | _ => 0

theorem Pc.works_le (k : Pc) : k.works ≤ k.holds := by cases k <;> decide

variable [Fintype T]

structure Inv (slots : ℕ) (s : State T) : Prop where
  own : ∀ t, own t s.out = (s.pc t).printed t
  sem : s.sem + total Pc.holds s.pc = slots
  count : s.out.countP Line.isWorking = s.out.countP Line.isLeaving + total Pc.works s.pc
  bound : ∀ l, l <+: s.out → l.countP Line.isWorking ≤ l.countP Line.isLeaving + slots

/-- A step of `t` that prints nothing. -/
theorem Inv.quietly (h : Inv slots s) {k : Pc} {n : ℕ}
    (hprinted : k.printed t = (s.pc t).printed t) (hworks : k.works = (s.pc t).works)
    (hsem : n + k.holds = s.sem + (s.pc t).holds) : Inv slots { s.goto t k with sem := n } where
  own := (Function.forall_update_iff s.pc fun u k => Semaphore.own u s.out = k.printed u).mpr
    ⟨by rw [hprinted]; exact h.own t, fun u _ => h.own u⟩
  sem := by
    have := total_update Pc.holds s.pc t k
    have := h.sem
    change n + total Pc.holds (Function.update s.pc t k) = slots
    omega
  count := by
    have := total_update_eq (w := Pc.works) (f := s.pc) (t := t) hworks
    change s.out.countP _ = s.out.countP _ + total Pc.works (Function.update s.pc t k)
    rw [this]
    exact h.count
  bound := h.bound

/-- A step of `t` that prints. -/
theorem Inv.prints (h : Inv slots s) {k : Pc} {x : Line T} (hx : x.user = t)
    (hprinted : k.printed t = (s.pc t).printed t ++ [x]) (hholds : k.holds = (s.pc t).holds)
    (hworks : k.works + [x].countP Line.isLeaving = (s.pc t).works + [x].countP Line.isWorking) :
    Inv slots ((s.goto t k).print x) := by
  have hcount : (s.out ++ [x]).countP Line.isWorking =
      (s.out ++ [x]).countP Line.isLeaving + total Pc.works (Function.update s.pc t k) := by
    have := total_update Pc.works s.pc t k
    have := h.count
    rw [List.countP_append, List.countP_append]
    omega
  have hslots : s.sem + total Pc.holds (Function.update s.pc t k) = slots := by
    rw [total_update_eq hholds]
    exact h.sem
  refine ⟨?_, hslots, hcount, fun l hl => ?_⟩
  · refine (Function.forall_update_iff s.pc fun u k => Semaphore.own u (s.out ++ [x]) = k.printed u).mpr
      ⟨?_, fun u hu => ?_⟩
    · rw [own_concat, if_pos hx, hprinted, h.own]
    · rw [own_concat, if_neg (by rw [hx]; exact Ne.symm hu)]
      exact h.own u
  · have hl : l <+: s.out ++ [x] := hl
    rcases List.prefix_concat_iff.mp hl with rfl | hl
    · -- those that work have a slot
      have hle : total Pc.works (Function.update s.pc t k) ≤ total Pc.holds (Function.update s.pc t k) :=
        total_le fun u => Pc.works_le _
      omega
    · exact h.bound l hl

theorem Step.inv (hs : Step s t s') (h : Inv slots s) : Inv slots s' := by
  cases hs with
  | wait hpc hpos =>
    refine h.quietly (by rw [hpc]; rfl) (by rw [hpc]; rfl) ?_
    rw [hpc]
    exact Nat.sub_add_cancel hpos
  | announce hpc | enter hpc | leave hpc =>
    exact h.prints rfl (by rw [hpc]; rfl) (by rw [hpc]; rfl) (by rw [hpc]; rfl)
  | post hpc => exact h.quietly (by rw [hpc]; rfl) (by rw [hpc]; rfl) (by rw [hpc]; rfl)

theorem inv (hs : (pool slots T).Reach s) : Inv slots s := by
  refine hs.inv (I := Inv slots) ?_ fun _ _ ha hi => (user_iff.mp ha).inv hi
  refine ⟨fun _ => rfl, ?_, ?_, fun l hl => ?_⟩
  · simp [pool, total, Pc.holds]
  · simp [pool, total, Pc.works]
  · rw [List.prefix_nil.mp hl]
    exact Nat.zero_le _

/-! ## How a run ends -/

def Pc.rank : Pc → ℕ
  | announce => 5
  | wait => 4
  | enter => 3
  | leave => 2
  | post => 1
  | done => 0

theorem Step.rank (hs : Step s t s') : total Pc.rank s'.pc + 1 = total Pc.rank s.pc := by
  have hmove : ∀ k : Pc, k.rank + 1 = (s.pc t).rank →
      total Pc.rank (Function.update s.pc t k) + 1 = total Pc.rank s.pc := fun k hk => by
    have := total_update Pc.rank s.pc t k
    omega
  cases hs with
  | announce hpc | enter hpc | leave hpc | post hpc => exact hmove _ (by rw [hpc]; rfl)
  | wait hpc _ => exact hmove _ (by rw [hpc]; rfl)

/-- If no user can go on, all have ended: a user that has a slot can go on. -/
theorem done_of_quiet (hpos : 0 < slots) (h : Inv slots s) (hq : ∀ t, user s t = none) (t : T) :
    s.pc t = .done := by
  have hno : ∀ {t s'}, ¬ Step s t s' := fun hstep => by
    cases (user_iff.mpr hstep).symm.trans (hq _)
  have hholds : ∀ u, (s.pc u).holds = 0 := fun u => by
    cases hpc : s.pc u with
    | announce | wait | done => rfl
    | enter => exact (hno (.enter hpc)).elim
    | leave => exact (hno (.leave hpc)).elim
    | post => exact (hno (.post hpc)).elim
  have hsem : 0 < s.sem := by
    have := h.sem
    rw [total_eq_zero.mpr hholds] at this
    omega
  cases hpc : s.pc t with
  | announce => exact (hno (.announce hpc)).elim
  | wait => exact (hno (.wait hpc hsem)).elim
  | enter => exact (hno (.enter hpc)).elim
  | leave => exact (hno (.leave hpc)).elim
  | post => exact (hno (.post hpc)).elim
  | done => rfl

/-! ## Every such output is possible -/

omit [Fintype T]

/-- Where `t` is when it has printed some lines and does nothing else. -/
def after : Option (Line T) → Pc
  | none => .announce
  | some (.waiting _) => .wait
  | some (.working _) => .leave
  | some (.leaving _) => .done

/-- The users have printed `out`, and those that are not at work have no slots. -/
def printed (slots : ℕ) (out : List (Line T)) : State T where
  sem := slots + out.countP Line.isLeaving - out.countP Line.isWorking
  pc t := after (own t out).getLast?
  out := out

theorem after_concat (out : List (Line T)) (x : Line T) :
    (fun t => after (own t (out ++ [x])).getLast?) =
      Function.update (fun t => after (own t out).getLast?) x.user (after (some x)) := by
  funext t
  by_cases ht : t = x.user
  · subst ht
    rw [own_concat, if_pos rfl, List.getLast?_concat, Function.update_self]
  · rw [own_concat, if_neg (Ne.symm ht), Function.update_of_ne ht]

/-- What `t` printed before the line `x`. -/
theorem before {out : List (Line T)} (h : Output slots out) {l : List (Line T)} {x : Line T}
    (hl : l ++ [x] <+: out) :
    own x.user l ++ [x] <+: [.waiting x.user, .working x.user, .leaving x.user] := by
  have hp : own x.user (l ++ [x]) <+: own x.user out := hl.filter _
  rwa [own_concat, if_pos rfl, h.own] at hp

/-- Where the user of the line `x` is before it. -/
theorem after_before {out : List (Line T)} (h : Output slots out) {l : List (Line T)} {x : Line T}
    (hl : l ++ [x] <+: out) : after (own x.user l).getLast? = match x with
      | .waiting _ => .announce
      | .working _ => .wait
      | .leaving _ => .leave := by
  have hp := before h hl
  generalize own x.user l = o at hp
  match o, hp with
  | [], hp => cases x <;> simp_all [after, Line.user]
  | [a], hp => cases x <;> simp_all [after, Line.user]
  | [a, b], hp => cases x <;> simp_all [after, Line.user]
  | a :: b :: c :: o, hp => simp at hp

theorem printed_path {out : List (Line T)} (h : Output slots out) {l : List (Line T)} (hl : l <+: out) :
    (pool slots T).Reach (printed slots l) := by
  induction l using List.reverseRecOn with
  | nil => exact .refl
  | append_singleton l x ih =>
    have hprefix : l <+: out := (List.prefix_append l [x]).trans hl
    have hpath := ih hprefix
    have hpc := after_before h hl
    have hcount := h.bound _ hl
    have hcount' := h.bound _ hprefix
    rw [List.countP_append, List.countP_append] at hcount
    cases x with
    | waiting t =>
      have hstep : Step (printed slots l) t (printed slots (l ++ [.waiting t])) := by
        have hs : Step (printed slots l) t _ := .announce hpc
        have heq : ((printed slots l).goto t .wait).print (.waiting t) =
            printed slots (l ++ [.waiting t]) := by
          rw [printed, printed, after_concat]
          simp [State.goto, State.print, List.countP_append, Line.isWorking, Line.isLeaving, Line.user, after]
        rwa [heq] at hs
      exact hpath.step trivial (user_iff.mpr hstep)
    | working t =>
      have hsem : 0 < (printed slots l).sem := by
        simp [Line.isWorking, Line.isLeaving] at hcount
        simp only [printed]
        omega
      have hwait : Step (printed slots l) t _ := .wait hpc hsem
      have henter : Step _ t _ := .enter (s := { (printed slots l).goto t .enter with
        sem := (printed slots l).sem - 1 }) (Function.update_self ..)
      have heq : State.print (State.goto { (printed slots l).goto t .enter with
          sem := (printed slots l).sem - 1 } t .leave) (.working t) =
          printed slots (l ++ [.working t]) := by
        rw [printed, printed, after_concat]
        simp [State.goto, State.print, List.countP_append, Line.isWorking, Line.isLeaving, Line.user, after]
        omega
      rw [heq] at henter
      exact (hpath.step trivial (user_iff.mpr hwait)).step trivial (user_iff.mpr henter)
    | leaving t =>
      have hleave : Step (printed slots l) t _ := .leave hpc
      have hpost : Step _ t _ := .post (s := ((printed slots l).goto t .post).print (.leaving t))
        (Function.update_self ..)
      have heq : { State.goto (((printed slots l).goto t .post).print (.leaving t)) t .done with
          sem := (printed slots l).sem + 1 } = printed slots (l ++ [.leaving t]) := by
        rw [printed, printed, after_concat]
        simp [State.goto, State.print, List.countP_append, Line.isWorking, Line.isLeaving, Line.user, after]
        omega
      change Step _ t { State.goto (((printed slots l).goto t .post).print (.leaving t)) t .done with
        sem := (printed slots l).sem + 1 } at hpost
      rw [heq] at hpost
      exact (hpath.step trivial (user_iff.mpr hleave)).step trivial (user_iff.mpr hpost)

/-- Every run ends. A semaphore is never above the number of slots, and the outputs
of the finished runs are those in which each user prints its lines in order and at
most as many users as there are slots are in the pool at a time. -/
theorem pool_output_iff [Fintype T] (hpos : 0 < slots) :
    (∀ as s, (pool slots T).run (pool slots T).start as = some s →
      as.length ≤ 5 * Fintype.card T ∧ s.sem ≤ slots) ∧
    ∀ out : List (Line T), (∃ s, (pool slots T).Reach s ∧ (∀ t, (pool slots T).next s t = none) ∧
      s.out = out) ↔ Output slots out := by
  refine ⟨fun as s h => ⟨?_, ?_⟩, fun out => ⟨?_, fun h => ?_⟩⟩
  · have hle := System.length_add_le (f := fun s : State T => total Pc.rank s.pc)
      (fun _ ha => Nat.lt_of_succ_le (user_iff.mp ha).rank.le) h
    have hstart : total Pc.rank (fun _ : T => Pc.announce) ≤ 5 * Fintype.card T := total_le_mul fun _ => le_rfl
    exact (Nat.le_of_add_right_le hle).trans hstart
  · have := (inv (System.reach_of_run h)).sem
    omega
  · rintro ⟨s, hs, hq, rfl⟩
    have hi := inv hs
    refine ⟨fun t => ?_, hi.bound⟩
    rw [hi.own, done_of_quiet hpos hi hq]
    rfl
  · refine ⟨_, printed_path h List.prefix_rfl, fun t => ?_, rfl⟩
    have hpc : (printed slots out).pc t = .done := by
      change after (own t out).getLast? = .done
      rw [h.own]
      rfl
    simp [pool, user, hpc]

/-- Three users and two slots. -/
theorem pool_output_iff_three : ∃ s, (pool 2 (Fin 3)).Reach s ∧ (∀ t, (pool 2 (Fin 3)).next s t = none) ∧
    s.out = [.waiting 2, .waiting 0, .working 2, .working 0, .waiting 1, .leaving 2, .working 1, .leaving 1, .leaving 0] :=
  ((pool_output_iff (by decide)).2 _).mpr ⟨by decide, fun l hl => by
    replace hl := (List.mem_inits l _).mpr hl
    revert l
    decide⟩

end TKH.Semaphore
