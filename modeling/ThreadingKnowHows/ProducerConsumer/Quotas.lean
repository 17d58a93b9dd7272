import Mathlib.Data.Fintype.BigOperators
import ThreadingKnowHows.Framework.Wakeup
import ThreadingKnowHows.ProducerConsumer.Ring
import ThreadingKnowHows.ProducerConsumer.Shutdown

/-!
# The consumers' quotas suffice

A consumer stops after its quota, but all quotas together are more than what
the producers put. So before the cancellations some consumer has not returned;
if nobody but `main` can go on, it sleeps on `not_empty`, the buffer is empty,
and no producer can be asleep on `not_full`.
-/

namespace TKH.ProducerConsumer

variable {M : Config}

/-! ## The queue of the program -/

/-- What the program's threads do with the queue. -/
def Pc.op : Pc M → Option Op
  | .producer id (.put i p) => p.op (id * 1000 + i)
  | .consumer _ (.get _ p) => p.op
  | _ => none

theorem op_held (l : Pc M) (hl : l.op ≠ none) : held l = true := by
  cases l with
  | producer id p =>
    cases p with
    | put i p => cases p <;> first | rfl | exact absurd rfl hl
    | _ => exact absurd rfl hl
  | consumer id p =>
    cases p with
    | get i p => cases p <;> first | rfl | exact absurd rfl hl
    | _ => exact absurd rfl hl
  | main p => exact absurd rfl hl

theorem program_ring : RingUser (program M) held M.cap Data.q Pc.op where
  toDiscipline := program_discipline
  init := rfl
  held_of_op := op_held
  uses t l := by
    cases l with
    | producer id p =>
      cases p with
      | put i p =>
        simp only [program, producer, qPut_eq]
        exact putCode_uses (fun _ _ => rfl) (fun p => Pc.producer id (.put i p)) _ _ (fun _ => rfl) p
      | loop i => exact fun d => ⟨rfl, by dsimp only; split <;> trivial⟩
      | nap i => exact fun d => ⟨rfl, trivial⟩
      | returned => rfl
    | consumer id p =>
      cases p with
      | get i p =>
        simp only [program, consumer, qGet_eq]
        exact getCode_uses (fun _ _ => rfl) (fun p => Pc.consumer id (.get i p)) _ (fun _ => rfl) p
      | loop i => exact fun d => ⟨rfl, by dsimp only; split <;> trivial⟩
      | nap i v | returned | killed => rfl
    | main p =>
      cases p with
      | joinProducer i | joinConsumer i | cancel i =>
        simp only [program, main]
        split
        · first | rfl | exact fun _ => ⟨rfl, trivial⟩
        · exact fun _ => ⟨rfl, trivial⟩
      | nap | destroy => exact fun _ => ⟨rfl, trivial⟩
      | returned => rfl

/-! ## No lost wakeups -/

/-- A producer is told of each free slot. -/
def room (M : Config) : Signal (Data M) (Pc M) where
  need d := (M.cap - d.q.count).toNat
  weight
    | .producer _ (.put _ .test) | .producer _ (.put _ .store) => 1
    | .consumer _ (.get _ (.signal _)) => 1
    | _ => 0
  urgent _ := False
  rouses _ := False

/-- A consumer is told of each item. -/
def stock (M : Config) : Signal (Data M) (Pc M) where
  need d := d.q.count.toNat
  weight
    | .consumer _ (.get _ .test) | .consumer _ (.get _ .load) => 1
    | .producer _ (.put _ .signal) => 1
    | _ => 0
  urgent _ := False
  rouses _ := False

/-- What the critical sections know. -/
def knows (l : Pc M) (d : Data M) : Prop := d.q.Valid M.cap ∧ d.q.Ready M.cap l.op

/-- A signal that nobody rouses all sleepers for, that depends on the queue
alone, and that no thread outside `q_put` and `q_get` owes anything. -/
structure Calm (S : Signal (Data M) (Pc M)) : Prop where
  urgent : ∀ d, ¬S.urgent d
  rouses : ∀ l, ¬S.rouses l
  need : ∀ {d d' : Data M}, d'.q = d.q → S.need d' = S.need d
  weight : ∀ l, held l = false → S.weight l = 0

variable {S : Signal (Data M) (Pc M)}

theorem Calm.act (h : Calm S) {d d' : Data M} {l k : Pc M}
    (hn : S.need d' = 0 ∨ S.need d' + S.weight l ≤ S.need d + S.weight k) :
    (S.urgent d → S.urgent d') ∧ (S.urgent d' → S.urgent d ∨ S.rouses k) ∧ (S.rouses l → S.rouses k) ∧
      (S.urgent d' ∨ S.need d' = 0 ∨ S.need d' + S.weight l ≤ S.need d + S.weight k) :=
  ⟨fun hu => absurd hu (h.urgent d), fun hu => absurd hu (h.urgent d'), fun hr => absurd hr (h.rouses l), .inr hn⟩

/-- Outside `q_put` and `q_get` the program agrees with a calm signal. -/
theorem Calm.waking (h : Calm S) {c : Cv} (hcap : 0 < M.cap)
    (hput : ∀ id i p, (qPut (fun p => .producer id (.put i p)) (.producer id (.nap i)) (id * 1000 + i) p).Signals
      held knows c S (.producer id (.put i p)))
    (hget : ∀ id i p, (qGet (fun p => .consumer id (.get i p)) (fun v => .consumer id (.nap i v)) p).Signals
      held knows c S (.consumer id (.get i p))) :
    Waking (program M) held (fun d => d.q.Valid M.cap) knows c S where
  toAnnotation := program_ring.annotation hcap
  signals t l := by
    have hact : ∀ {f : Data M → Data M × Pc M}, held l = false → (∀ d, (f d).1.q = d.q) →
        (Cmd.act f : Code M).Signals held knows c S l := fun hl hq d _ =>
      h.act (.inr (by rw [h.need (hq d), h.weight l hl]; exact Nat.le_add_right _ _))
    have hrest : held l = false → S.weight l = 0 ∧ ¬S.rouses l := fun hl => ⟨h.weight l hl, h.rouses l⟩
    cases l with
    | producer id p =>
      cases p with
      | put i p => exact hput id i p
      | loop i | nap i => exact hact rfl fun _ => rfl
      | returned => exact hrest rfl
    | consumer id p =>
      cases p with
      | get i p => exact hget id i p
      | loop i => exact hact rfl fun _ => rfl
      | nap i v | returned | killed => exact hrest rfl
    | main p =>
      cases p with
      | joinProducer i | joinConsumer i | cancel i =>
        simp only [program, main]
        split
        · first | exact hrest rfl | exact hact rfl fun _ => rfl
        · exact hact rfl fun _ => rfl
      | nap | destroy => exact hact rfl fun _ => rfl
      | returned => exact hrest rfl

theorem room_calm : Calm (room M) where
  urgent _ := not_false
  rouses _ := not_false
  need hq := by simp only [room, hq]
  weight l hl := by
    rcases l with ⟨_, _ | ⟨_, _ | _ | _ | _ | _ | _⟩ | _ | _⟩ | ⟨_, _ | ⟨_, _ | _ | _ | _ | _ | _⟩ | _ | _ | _⟩ | _ <;>
      first | rfl | cases hl

theorem stock_calm : Calm (stock M) where
  urgent _ := not_false
  rouses _ := not_false
  need hq := by simp only [stock, hq]
  weight l hl := by
    rcases l with ⟨_, _ | ⟨_, _ | _ | _ | _ | _ | _⟩ | _ | _⟩ | ⟨_, _ | ⟨_, _ | _ | _ | _ | _ | _⟩ | _ | _ | _⟩ | _ <;>
      first | rfl | cases hl

theorem program_room (hcap : 0 < M.cap) :
    Waking (program M) held (fun d => d.q.Valid M.cap) knows .notFull (room M) := by
  refine room_calm.waking hcap (fun id i p => ?_) fun id i p => ?_
  · cases p with
    | lock | unlock => exact ⟨Nat.zero_le _, False.elim⟩
    | test =>
      refine fun d _ => room_calm.act ?_
      dsimp only
      split
      · rename_i hfull
        exact .inl (by simp [room, hfull])
      · exact .inr le_rfl
    | wait =>
      refine ⟨not_false, le_rfl, fun d hd => ⟨?_, not_false⟩⟩
      have hfull : d.q.count = M.cap := hd.2
      simp [room, hfull]
    | store =>
      intro d hd
      obtain ⟨hv, hn⟩ := hd rfl
      have h₁ := hv.le_cap
      have hn : d.q.count ≠ M.cap := hn
      refine room_calm.act (.inr ?_)
      simp only [room, Queue.put]
      omega
    | signal => exact ⟨False.elim, le_rfl⟩
  · cases p with
    | lock | unlock => exact ⟨Nat.zero_le _, False.elim⟩
    | test => exact fun d _ => room_calm.act (.inr (by dsimp only; split <;> exact le_rfl))
    | wait => exact ⟨not_false, rfl⟩
    | load =>
      refine fun d _ => room_calm.act (.inr ?_)
      simp only [room, Queue.get]
      omega
    | signal v => exact ⟨False.elim, le_rfl⟩

theorem program_stock (hcap : 0 < M.cap) :
    Waking (program M) held (fun d => d.q.Valid M.cap) knows .notEmpty (stock M) := by
  refine stock_calm.waking hcap (fun id i p => ?_) fun id i p => ?_
  · cases p with
    | lock | unlock => exact ⟨Nat.zero_le _, False.elim⟩
    | test => exact fun d _ => stock_calm.act (.inr (by dsimp only; split <;> exact le_rfl))
    | wait => exact ⟨not_false, rfl⟩
    | store =>
      refine fun d _ => stock_calm.act (.inr ?_)
      simp only [stock, Queue.put]
      omega
    | signal => exact ⟨False.elim, le_rfl⟩
  · cases p with
    | lock | unlock => exact ⟨Nat.zero_le _, False.elim⟩
    | test =>
      refine fun d _ => stock_calm.act ?_
      dsimp only
      split
      · rename_i hempty
        exact .inl (by simp [stock, hempty])
      · exact .inr le_rfl
    | wait =>
      refine ⟨not_false, le_rfl, fun d hd => ⟨?_, not_false⟩⟩
      have hempty : d.q.count = 0 := hd.2
      simp [stock, hempty]
    | load =>
      intro d hd
      obtain ⟨hv, hn⟩ := hd rfl
      have h₀ := hv.nonneg
      have hn : d.q.count ≠ 0 := hn
      refine stock_calm.act (.inr ?_)
      simp only [stock, Queue.get]
      omega
    | signal v => exact ⟨False.elim, le_rfl⟩

/-! ## What the threads have put and got -/

namespace ProducerPc

/-- The loop index is in range. -/
def InRange (M : Config) : ProducerPc → Prop
  | loop i => i ≤ M.items
  | put i _ | nap i => i < M.items
  | returned => True

/-- How many items the producer has put. -/
def made (M : Config) : ProducerPc → ℕ
  | loop i => i
  | put i p => match p with
    | .signal | .unlock => i + 1
    | _ => i
  | nap i => i + 1
  | returned => M.items

theorem made_le {p : ProducerPc} (h : p.InRange M) : p.made M ≤ M.items := by
  cases p with
  | put i p => cases p <;> simp only [InRange] at h <;> simp only [made] <;> omega
  | loop | nap => simp only [InRange] at h; simp only [made]; omega
  | returned => exact le_rfl

end ProducerPc

/-- How many items the consumer has got. -/
def ConsumerPc.taken (M : Config) : ConsumerPc → ℕ
  | loop i => i
  | get i p => match p with
    | .signal _ | .unlock _ => i + 1
    | _ => i
  | nap i _ => i + 1
  | returned => M.total
  | killed => 0

/-- The `i`-th item of the producer `id`. -/
def item (id : Fin M.producers) (i : ℕ) : ℤ := id * 1000 + i

/-- What a thread has done to the queue, by where it is. -/
def recorded (_ : Thread M) (l : Pc M) (es : List Event) : Prop :=
  match l with
  | .producer id p => p.InRange M ∧ puts es = (List.range (p.made M)).map (item id) ∧ gots es = []
  | .consumer _ p => puts es = [] ∧ match p with
    | .loop i => i ≤ M.total ∧ (gots es).length = i
    | .get i _ | .nap i _ => i < M.total ∧ (gots es).length = p.taken M
    | .returned => (gots es).length = M.total
    | .killed => True
  | .main _ => puts es = [] ∧ gots es = []

theorem puts_append (es fs : List Event) : puts (es ++ fs) = puts es ++ puts fs := List.filterMap_append

theorem gots_append (es fs : List Event) : gots (es ++ fs) = gots es ++ gots fs := List.filterMap_append

theorem program_journal : Journal (program M) (ringOut Data.q Pc.op) recorded where
  entries t := by cases t <;> simp [program, recorded, ProducerPc.InRange, ProducerPc.made, puts, gots]
  records t l := by
    cases l with
    | producer id p =>
      cases p with
      | loop i =>
        rintro d es ⟨hi, hp, hg⟩
        dsimp only [ringOut, Pc.op, Queue.event]
        rw [List.append_nil]
        split
        · exact ⟨‹_›, hp, hg⟩
        · obtain rfl : i = M.items := Nat.le_antisymm hi (by omega)
          exact ⟨trivial, hp, hg⟩
      | put i p =>
        cases p with
        | lock | wait | signal | unlock => exact ⟨fun _ => rfl, fun _ h => h⟩
        | test =>
          intro d es h
          dsimp only [ringOut, Pc.op, PutPc.op, Queue.event]
          rw [List.append_nil]
          split <;> exact h
        | store =>
          rintro d es ⟨hi, hp, hg⟩
          refine ⟨hi, ?_, ?_⟩
          · rw [puts_append, hp]
            simp only [ProducerPc.made, List.range_succ, List.map_append, List.map_singleton]
            rfl
          · rw [gots_append, hg]
            rfl
      | nap i =>
        rintro d es ⟨hi, hp, hg⟩
        dsimp only [ringOut, Pc.op, Queue.event]
        rw [List.append_nil]
        exact ⟨hi, hp, hg⟩
      | returned => trivial
    | consumer id p =>
      cases p with
      | loop i =>
        rintro d es ⟨hp, hi, hg⟩
        dsimp only [ringOut, Pc.op, Queue.event]
        rw [List.append_nil]
        split
        · exact ⟨hp, ‹_›, hg⟩
        · exact ⟨hp, show _ = _ by omega⟩
      | get i p =>
        cases p with
        | lock | wait | signal | unlock => exact ⟨fun _ => rfl, fun _ h => h⟩
        | test =>
          intro d es h
          dsimp only [ringOut, Pc.op, GetPc.op, Queue.event]
          rw [List.append_nil]
          split <;> exact h
        | load =>
          rintro d es ⟨hp, hi, hg⟩
          refine ⟨?_, hi, ?_⟩
          · rw [puts_append, hp]
            rfl
          · rw [gots_append, List.length_append, hg]
            rfl
      | nap i v =>
        rintro d k es hk ⟨hp, hi, hg⟩
        rcases nap_iff.mp hk with rfl | ⟨rfl, -⟩
        · exact ⟨hp, hi, hg⟩
        · exact ⟨hp, trivial⟩
      | returned | killed => trivial
    | main p =>
      cases p with
      | joinProducer i | joinConsumer i | cancel i =>
        simp only [program, main]
        split
        · first
            | exact ⟨fun _ => rfl, fun _ => id⟩
            | exact fun d es h => by dsimp only [ringOut, Pc.op, Queue.event]; rwa [List.append_nil]
        · exact fun d es h => by dsimp only [ringOut, Pc.op, Queue.event]; rwa [List.append_nil]
      | nap | destroy => exact fun d es h => by dsimp only [ringOut, Pc.op, Queue.event]; rwa [List.append_nil]
      | returned => trivial

variable {s s' : State (Thread M) Cv (Data M) (Pc M)} {as : List (Act (Thread M) (Pc M))}

def Thread.equiv (M : Config) : Fin M.producers ⊕ Fin M.consumers ⊕ Unit ≃ Thread M where
  toFun
    | .inl i => .producer i
    | .inr (.inl j) => .consumer j
    | .inr (.inr ()) => .main
  invFun
    | .producer i => .inl i
    | .consumer j => .inr (.inl j)
    | .main => .inr (.inr ())
  left_inv := by rintro (_ | _ | _) <;> rfl
  right_inv := by rintro (_ | _ | _) <;> rfl

theorem sum_threads {A : Type*} [AddCommMonoid A] (f : Thread M → A) :
    ∑ t, f t = ∑ id, f (.producer id) + (∑ j, f (.consumer j) + f .main) := by
  rw [← (Thread.equiv M).sum_comp, Fintype.sum_sum_type, Fintype.sum_sum_type]
  exact congrArg _ (congrArg _ (Fintype.sum_unique fun u : Unit => f (Thread.equiv M (.inr (.inr u)))))

theorem point_producer (h : (program M).system.Reach s) (id : Fin M.producers) :
    ∃ p, (s.th (.producer id)).point = .producer id p := by
  have hh := home_eq h (.producer id)
  cases hp : (s.th (.producer id)).point with
  | producer id p => rw [hp] at hh; cases hh; exact ⟨p, rfl⟩
  | _ => rw [hp] at hh; cases hh

theorem point_consumer (h : (program M).system.Reach s) (id : Fin M.consumers) :
    ∃ p, (s.th (.consumer id)).point = .consumer id p := by
  have hh := home_eq h (.consumer id)
  cases hp : (s.th (.consumer id)).point with
  | consumer id p => rw [hp] at hh; cases hh; exact ⟨p, rfl⟩
  | _ => rw [hp] at hh; cases hh

theorem point_main (h : (program M).system.Reach s) : ∃ p, (s.th .main).point = .main p := by
  have hh := home_eq h .main
  cases hp : (s.th .main).point with
  | main p => exact ⟨p, rfl⟩
  | _ => rw [hp] at hh; cases hh

/-- The part of a thread in the operations of a run. -/
def part (as : List (Act (Thread M) (Pc M))) (t : Thread M) : List Event :=
  journal t (operations (program M) Data.q Pc.op as)

theorem part_recorded (hr : (program M).system.run (program M).system.start as = some s) (t : Thread M) :
    recorded t (s.th t).point (part as t) :=
  program_journal.holds hr t

/-- The producers have put what was put. -/
theorem coe_puts (hr : (program M).system.run (program M).system.start as = some s) :
    (puts (history (program M) Data.q Pc.op as) : Multiset ℤ) = ∑ id, (puts (part as (.producer id)) : Multiset ℤ) := by
  have h : (program M).system.Reach s := System.reach_of_run hr
  have hc : ∀ j, puts (part as (.consumer j)) = [] := fun j => by
    obtain ⟨p, hp⟩ := point_consumer h j
    have hj := part_recorded hr (.consumer j)
    rw [hp] at hj
    exact hj.1
  have hm : puts (part as .main) = [] := by
    obtain ⟨p, hp⟩ := point_main h
    have hj := part_recorded hr .main
    rw [hp] at hj
    exact hj.1
  calc (puts (history (program M) Data.q Pc.op as) : Multiset ℤ)
    _ = ∑ t, (puts (part as t) : Multiset ℤ) := coe_filterMap_eq_total _ _
    _ = _ := by rw [sum_threads]; simp only [hc, hm, Multiset.coe_nil, Finset.sum_const_zero, add_zero]

/-- The consumers have got what was got. -/
theorem coe_gots (hr : (program M).system.run (program M).system.start as = some s) :
    (gots (history (program M) Data.q Pc.op as) : Multiset ℤ) = ∑ j, (gots (part as (.consumer j)) : Multiset ℤ) := by
  have h : (program M).system.Reach s := System.reach_of_run hr
  have hp : ∀ id, gots (part as (.producer id)) = [] := fun id => by
    obtain ⟨p, hp⟩ := point_producer h id
    have hj := part_recorded hr (.producer id)
    rw [hp] at hj
    exact hj.2.2
  have hm : gots (part as .main) = [] := by
    obtain ⟨p, hp⟩ := point_main h
    have hj := part_recorded hr .main
    rw [hp] at hj
    exact hj.2
  calc (gots (history (program M) Data.q Pc.op as) : Multiset ℤ)
    _ = ∑ t, (gots (part as t) : Multiset ℤ) := coe_filterMap_eq_total _ _
    _ = _ := by
        rw [sum_threads]
        simp only [hp, hm, Multiset.coe_nil, Finset.sum_const_zero, add_zero, zero_add]

/-- No more is put than the producers have. -/
theorem length_puts_le (hr : (program M).system.run (program M).system.start as = some s) :
    (puts (history (program M) Data.q Pc.op as)).length ≤ M.producers * M.items := by
  have h : (program M).system.Reach s := System.reach_of_run hr
  have hle : ∀ id, (puts (part as (.producer id)) : Multiset ℤ).card ≤ M.items := fun id => by
    obtain ⟨p, hp⟩ := point_producer h id
    have hj := part_recorded hr (.producer id)
    rw [hp] at hj
    rw [hj.2.1]
    simpa using ProducerPc.made_le hj.1
  rw [← Multiset.coe_card, coe_puts hr, Multiset.card_sum]
  simpa using Finset.sum_le_sum fun id (_ : id ∈ Finset.univ) => hle id

/-- All quotas together are more than what the producers have. -/
theorem quotas_exceed (hc : 0 < M.consumers) : M.producers * M.items < M.consumers * M.total :=
  Nat.lt_mul_div_succ _ hc

theorem length_gots_of_returned (hr : (program M).system.run (program M).system.start as = some s)
    (hall : ∀ j, (s.th (.consumer j)).point = .consumer j .returned) :
    (gots (history (program M) Data.q Pc.op as)).length = M.consumers * M.total := by
  have hj : ∀ j, (gots (part as (.consumer j)) : Multiset ℤ).card = M.total := fun j => by
    have hj := part_recorded hr (.consumer j)
    rw [hall j] at hj
    exact hj.2
  rw [← Multiset.coe_card, coe_gots hr, Multiset.card_sum]
  simp [hj]

/-! ## Before the cancellations -/

theorem canceled_step {a : Act (Thread M) (Pc M)} (hs : (program M).Step s a s') {j : Fin M.consumers}
    (hj : s.data.canceled j = true) : s'.data.canceled j = true := by
  rcases hs.data with he | ⟨t, l, f, -, -, hc, rfl⟩
  · rw [he]; exact hj
  cases l with
  | producer id p =>
    cases p with
    | put i p => cases p <;> cases hc <;> exact hj
    | _ => cases hc <;> exact hj
  | consumer id p =>
    cases p with
    | get i p => cases p <;> cases hc <;> exact hj
    | _ => cases hc <;> exact hj
  | main p =>
    cases p with
    | joinProducer i | joinConsumer i =>
      simp only [program, main] at hc
      split at hc <;> cases hc
      exact hj
    | cancel i =>
      simp only [program, main] at hc
      split at hc <;> cases hc
      · simp only [Function.update_apply]
        split <;> [rfl; exact hj]
      · exact hj
    | _ => cases hc <;> exact hj

theorem canceled_of_leads {t : Thread M} {l : Pc M} {d : Data M} {id : Fin M.consumers}
    (h : ((program M).code t l).Leads d (.consumer id .killed)) : d.canceled id = true := by
  have hl := (leads_home h).symm
  cases l with
  | producer | main => cases hl
  | consumer id p =>
    cases hl
    cases p with
    | get i p => cases p <;> cases h
    | nap i v =>
      have h : decide (id = id ∧ d.canceled id = true) = true := h
      exact (of_decide_eq_true h).2
    | loop i =>
      simp only [program, consumer, Cmd.Leads] at h
      split at h <;> cases h
    | _ => cases h

/-- A consumer ends early only if it was cancelled. -/
theorem canceled_of_killed (h : (program M).system.Reach s) {t : Thread M} {id : Fin M.consumers}
    (ht : (s.th t).point = .consumer id .killed) : s.data.canceled id = true := by
  revert ht
  refine h.inv (I := fun s => (s.th t).point = .consumer id .killed → s.data.canceled id = true)
    (fun ht => by cases t <;> cases ht) fun {s₁ a s₂} _ _ ha ih ht => ?_
  have hs := Program.step_of_next ha
  refine canceled_step hs ?_
  rcases hs.leads t with ⟨hp, -⟩ | ⟨l, -, hk, -⟩
  · exact ih (hp.symm.trans ht)
  · rw [ht] at hk
    exact canceled_of_leads hk

/-! ## When nobody but `main` can go on -/

theorem wait_iff {t : Thread M} {l k : Pc M} {c : Cv} (h : (program M).code t l = .wait c k) :
    (∃ id i, c = .notFull ∧ k = .producer id (.put i .test)) ∨
      ∃ id i, c = .notEmpty ∧ k = .consumer id (.get i .test) := by
  cases l with
  | producer id p =>
    cases p with
    | put i p => cases p <;> cases h; exact .inl ⟨id, i, rfl, rfl⟩
    | _ => cases h
  | consumer id p =>
    cases p with
    | get i p => cases p <;> cases h; exact .inr ⟨id, i, rfl, rfl⟩
    | _ => cases h
  | main p =>
    cases p with
    | joinProducer i | joinConsumer i | cancel i => simp only [program, main] at h; split at h <;> cases h
    | _ => cases h

/-- Nobody but `main` can go on. -/
abbrev Stuck (s : State (Thread M) Cv (Data M) (Pc M)) : Prop := (program M).QuietOf (· ≠ .main) s

theorem main_not_held (h : (program M).system.Reach s) {t : Thread M} {l : Pc M} (ht : ¬t ≠ .main)
    (hl : s.th t = .run l) : held l = false := by
  obtain rfl := not_not.mp ht
  obtain ⟨p, hp⟩ := point_main h
  rw [hl, Status.point_run] at hp
  rw [hp]; rfl

theorem Calm.main_idle (hS : Calm S) (h : (program M).system.Reach s) {t : Thread M} (ht : ¬t ≠ .main) :
    S.wt (s.th t) = 0 ∧ ∀ l, s.th t = .run l → ¬S.rouses l := by
  obtain rfl := not_not.mp ht
  obtain ⟨p, hp⟩ := point_main h
  refine ⟨?_, fun l _ => hS.rouses l⟩
  cases hm : s.th .main with
  | asleep c k => rfl
  | run l | woken l =>
    rw [hm] at hp
    exact (congrArg S.weight hp).trans (hS.weight (.main p) rfl)

theorem asleep_at (h : (program M).system.Reach s) {t : Thread M} {c : Cv} {k : Pc M} (ht : s.th t = .asleep c k) :
    (∃ id i, t = .producer id ∧ c = .notFull ∧ k = .producer id (.put i .test)) ∨
      ∃ id i, t = .consumer id ∧ c = .notEmpty ∧ k = .consumer id (.get i .test) := by
  have hh := home_eq h t
  rw [ht, Status.point_asleep] at hh
  obtain ⟨l, hc⟩ := Program.wait_of_asleep h ht
  rcases wait_iff hc with ⟨id, i, rfl, rfl⟩ | ⟨id, i, rfl, rfl⟩
  · exact .inl ⟨id, i, hh.symm, rfl, rfl⟩
  · exact .inr ⟨id, i, hh.symm, rfl, rfl⟩

theorem producer_stuck (h : (program M).system.Reach s) (hq : Stuck s) (id : Fin M.producers) :
    s.th (.producer id) = .run (.producer id .returned) ∨
      ∃ i, s.th (.producer id) = .asleep .notFull (.producer id (.put i .test)) := by
  rcases (program_discipline.quietOf (program_discipline.locked h) hq fun t l => main_not_held h).2 (.producer id)
    (by simp) with ⟨l, hl, hr⟩ | ⟨c, k, hk⟩
  · obtain ⟨p, hp⟩ := point_producer h id
    rw [hl, Status.point_run] at hp
    subst hp
    cases p with
    | put i p => cases p <;> exact hr.elim
    | loop | nap => exact hr.elim
    | returned => exact .inl hl
  · rcases asleep_at h hk with ⟨id', i, he, rfl, rfl⟩ | ⟨id', i, he, rfl, rfl⟩
    · cases he; exact .inr ⟨i, hk⟩
    · cases he

theorem consumer_stuck (h : (program M).system.Reach s) (hq : Stuck s) (hc : ∀ j, s.data.canceled j = false)
    (j : Fin M.consumers) : s.th (.consumer j) = .run (.consumer j .returned) ∨
      ∃ i, s.th (.consumer j) = .asleep .notEmpty (.consumer j (.get i .test)) := by
  rcases (program_discipline.quietOf (program_discipline.locked h) hq fun t l => main_not_held h).2 (.consumer j)
    (by simp) with ⟨l, hl, hr⟩ | ⟨c, k, hk⟩
  · obtain ⟨p, hp⟩ := point_consumer h j
    have hp' := hp
    rw [hl, Status.point_run] at hp
    subst hp
    cases p with
    | get i p => cases p <;> exact hr.elim
    | loop i => exact hr.elim
    | nap i v =>
      exact (not_step_of_quietOf hq (.pick hl rfl (nap_iff.mpr (.inl rfl))) trivial (by simp [Act.thread])).elim
    | returned => exact .inl hl
    | killed => exact absurd (canceled_of_killed h hp') (by simp [hc j])
  · rcases asleep_at h hk with ⟨id', i, he, rfl, rfl⟩ | ⟨id', i, he, rfl, rfl⟩
    · cases he
    · cases he; exact .inr ⟨i, hk⟩

/-- Some consumer has not reached its quota, and waits in front of an empty buffer. -/
theorem exists_waiting (hcap : 0 < M.cap) (hcons : 0 < M.consumers)
    (hr : (program M).system.run (program M).system.start as = some s) (hq : Stuck s)
    (hc : ∀ j, s.data.canceled j = false) :
    s.data.q.count = 0 ∧ ∃ j i, s.th (.consumer j) = .asleep .notEmpty (.consumer j (.get i .test)) := by
  have h : (program M).system.Reach s := System.reach_of_run hr
  have hex : ∃ j i, s.th (.consumer j) = .asleep .notEmpty (.consumer j (.get i .test)) := by
    by_contra hn
    push Not at hn
    have hall : ∀ j, (s.th (.consumer j)).point = .consumer j .returned := fun j => by
      rcases consumer_stuck h hq hc j with hj | ⟨i, hj⟩
      · rw [hj]; rfl
      · exact absurd hj (hn j i)
    have hfifo := congrArg List.length (program_ring.fifo hcap hr)
    have hle := length_puts_le hr
    have hlt := quotas_exceed hcons
    rw [List.length_append, length_gots_of_returned hr hall] at hfifo
    omega
  refine ⟨?_, hex⟩
  obtain ⟨j, i, hj⟩ := hex
  have hneed := (program_stock hcap).asleepOf h hq (fun t l => main_not_held h) (fun t => stock_calm.main_idle h) hj
  have hv := (program_ring.valid hcap h).nonneg
  simp only [stock] at hneed
  omega

/-- The consumers' quotas do not block the producers. -/
theorem quotas_suffice (hcap : 0 < M.cap) (hcons : 0 < M.consumers) {as : List (CancelAct (Thread M) (Pc M))}
    (hr : (system M).run (system M).start as = some s) (hc : ∀ j, s.data.canceled j = false)
    (hq : (system M).Quiet (fun a => a.inner ∧ a.thread ≠ .main) s) :
    ∃ as' : List (Act (Thread M) (Pc M)), as = as'.map .step ∧
      (∀ id, s.th (.producer id) = .run (.producer id .returned)) ∧
      gots (history (program M) Data.q Pc.op as') = puts (history (program M) Data.q Pc.op as') ∧
      (gots (history (program M) Data.q Pc.op as') : Multiset ℤ) =
        ∑ id : Fin M.producers, (((List.range M.items).map (item id) : List ℤ) : Multiset ℤ) ∧
      (gots (history (program M) Data.q Pc.op as')).length = M.producers * M.items ∧
      s.data.q.count = 0 ∧ ∃ j i, s.th (.consumer j) = .asleep .notEmpty (.consumer j (.get i .test)) := by
  obtain ⟨as', rfl⟩ := steps_of_run (fun {s s' a t} hs ht => by
    cases t with
    | consumer j => exact canceled_step hs ht
    | _ => cases ht) hr fun t => by
    cases t with
    | consumer j => exact hc j
    | _ => rfl
  rw [run_steps] at hr
  have hr : (program M).system.run (program M).system.start as' = some s := hr
  have h : (program M).system.Reach s := System.reach_of_run hr
  have hstuck : Stuck s := fun a ha => hq (.step a) ha
  obtain ⟨hzero, hwaiting⟩ := exists_waiting hcap hcons hr hstuck hc
  have hprod : ∀ id, s.th (.producer id) = .run (.producer id .returned) := fun id => by
    rcases producer_stuck h hstuck id with hp | ⟨i, hp⟩
    · exact hp
    · -- it would wait for a free slot
      have hneed := (program_room hcap).asleepOf h hstuck (fun t l => main_not_held h) (fun t => room_calm.main_idle h) hp
      simp only [room, hzero] at hneed
      omega
  have hfifo : gots (history (program M) Data.q Pc.op as') = puts (history (program M) Data.q Pc.op as') := by
    have hf := program_ring.fifo hcap hr
    have hempty : s.data.q.content M.cap = [] := by simp [Queue.content, hzero]
    rwa [hempty, List.append_nil] at hf
  have hputs : (gots (history (program M) Data.q Pc.op as') : Multiset ℤ) =
      ∑ id : Fin M.producers, (((List.range M.items).map (item id) : List ℤ) : Multiset ℤ) := by
    rw [hfifo, coe_puts hr]
    refine Finset.sum_congr rfl fun id _ => ?_
    have hj := part_recorded hr (.producer id)
    rw [hprod id] at hj
    rw [hj.2.1]
    rfl
  refine ⟨as', rfl, hprod, hfifo, hputs, ?_, hzero, hwaiting⟩
  rw [← Multiset.coe_card, hputs, Multiset.card_sum]
  simp

/-- The program as it is. The first producer waits until a slot is free again; the consumers
get 6, 6 and 4 items, and the last one waits for another one. -/
def fullRing (p₁ p₂ : Fin 2) (c₁ c₂ c₃ : Fin 3) : List (CancelAct (Thread asIs) (Pc asIs)) :=
  putFour p₁ ++ steps (.producer p₁) 4 ++
  steps (.consumer c₁) 4 ++ .step (.wake (.consumer c₁) (.producer p₁)) :: steps (.consumer c₁) 1 ++
  .step (.pick (.consumer c₁) (.consumer c₁ (.loop 1))) :: .step (.relock (.producer p₁)) ::
  steps (.producer p₁) 5 ++ take c₁ 1 4 ++ steps (.producer p₁) 21 ++ take c₁ 4 6 ++ take c₂ 0 2 ++
  putFour p₂ ++ take c₂ 2 6 ++ putFour p₂ ++ take c₃ 0 4 ++
  steps (.producer p₁) 1 ++ steps (.producer p₂) 1 ++ steps (.consumer c₁) 1 ++ steps (.consumer c₂) 1 ++
  steps (.consumer c₃) 4

theorem quotas_suffice_full :
    ∃ s, (system asIs).run (system asIs).start (fullRing 0 1 0 1 2) = some s ∧
      (∀ id, s.th (.producer id) = .run (.producer id .returned)) ∧ s.data.q.count = 0 := by
  have hr : ((system asIs).run (system asIs).start (fullRing 0 1 0 1 2)).any fun s =>
      (∀ j, s.data.canceled j = false) ∧ ∀ t, t ≠ .main → (program asIs).blocked s t = true := by
    decide +kernel
  obtain ⟨s, hs, hp⟩ := System.exists_of_run hr
  obtain ⟨hc, hb⟩ := of_decide_eq_true hp
  have hq : (system asIs).Quiet (fun a => a.inner ∧ a.thread ≠ .main) s :=
    cancel_quietOf (quietOf_of_blocked hb) fun t => by
      cases t with
      | consumer j => exact hc j
      | _ => rfl
  obtain ⟨-, -, hprod, -, -, -, hzero, -⟩ := quotas_suffice (by decide) (by decide) hs hc hq
  exact ⟨s, hs, hprod, hzero⟩

end TKH.ProducerConsumer
