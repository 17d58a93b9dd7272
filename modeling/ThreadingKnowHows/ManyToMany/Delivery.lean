import Mathlib.Data.Fintype.BigOperators
import ThreadingKnowHows.ManyToMany.Protocol

/-!
# Everything is delivered

As long as a producer is not done the queue is open, so no push is rejected.
When nobody can go on, a producer that is not done would be asleep in front of
a full queue and all consumers in front of an empty one; so the producers are
done, the queue is closed, and the consumers have drained it.
-/

namespace TKH.ManyToMany

open ClosableQueue

variable {M : Config}

/-- The consumer has written a value that it has not counted. -/
def Consumer.uncounted : Consumer → ℕ
  | count => 1
  | _ => 0

/-- How many producers are done. -/
def Net.done (s : Net M) : ℕ := total Producer.past s.producer

/-- How many items the producers have counted. -/
def Net.counted (s : Net M) : ℕ := total (Producer.counted M) s.producer

structure Inv (s : Net M) : Prop where
  reach : (queue (Thread M) ℤ Queue M.cap).system.Reach s.q
  protocol : Protocol M s.producer s.done s.closes s.counted
  serves : Serves (abs s.q) s.producer s.consumer s.out s.done s.closes
  done : s.producersDone = BitVec.ofNat 32 s.done
  produced : s.produced = BitVec.ofNat 32 s.counted
  consumed : ∃ n, s.consumed = BitVec.ofNat 32 n ∧ n + total Consumer.uncounted s.consumer = total List.length s.out

variable {s s' : Net M} {p : Fin M.producers} {c : Fin M.consumers}

theorem Inv.opened (hi : Inv s) {i : ℕ} (hp : s.producer p = .inPush i) : (abs s.q).obj.closed = false := by
  rw [← Bool.not_eq_true]
  intro hc
  exact absurd (hi.serves.closed hc) (hi.protocol.counter_lt (p := p) (by rw [hp]; rfl)).ne

/-- The counters of a state are those that the protocol speaks of. -/
theorem Inv.of (done produced : ℕ) (hreach : (queue (Thread M) ℤ Queue M.cap).system.Reach s.q)
    (hprot : Protocol M s.producer done s.closes produced)
    (hserves : Serves (abs s.q) s.producer s.consumer s.out done s.closes) (hdone : s.producersDone = BitVec.ofNat 32 done)
    (hproduced : s.produced = BitVec.ofNat 32 produced)
    (hconsumed : ∃ n, s.consumed = BitVec.ofNat 32 n ∧
      n + total Consumer.uncounted s.consumer = total List.length s.out) : Inv s := by
  obtain rfl : done = s.done := hprot.counter
  obtain rfl : produced = s.counted := hprot.produced
  exact ⟨hreach, hprot, hserves, hdone, hproduced, hconsumed⟩

theorem Inv.queue_step (hi : Inv s) {a : Act (Thread M) (Pc ℤ)} {q : Q M} (h : inside Queue M.cap s.q a = some q) :
    Inv { s with q := q } where
  reach := inside_reach hi.reach h
  protocol := hi.protocol
  serves := by
    rcases inside_abs hi.reach h with he | ⟨u, ha⟩
    · exact he ▸ hi.serves
    · exact hi.serves.commit (fun p i => hi.opened) (fun p hp => hi.protocol.last p (.inr hp)) ha
  done := hi.done
  produced := hi.produced
  consumed := hi.consumed

/-! ## The producers -/

/-- A producer goes on outside the queue. -/
theorem Inv.goP (hi : Inv s) {k : Producer} {done produced : ℕ} {x y : BitVec 32}
    (hprot : Protocol M (Function.update s.producer p k) done s.closes produced)
    (hserves : Serves (abs s.q) (Function.update s.producer p k) s.consumer s.out done s.closes)
    (hx : x = BitVec.ofNat 32 done) (hy : y = BitVec.ofNat 32 produced) :
    Inv { s.goP p k with producersDone := x, produced := y } :=
  .of _ _ hi.reach hprot hserves hx hy hi.consumed

/-- A producer calls the queue, or returns from it. -/
theorem Inv.cross_producer (hi : Inv s) {k : Producer} {l : Pc ℤ} {q : Q M} {closes : ℕ}
    (hq : cross Queue M.cap s.q (.producer p) l = some q)
    (hprot : Protocol M (Function.update s.producer p k) s.done closes s.counted)
    (hp : Producing p (phase l) (journal (.producer p) (abs s.q).hist) k)
    (hx : (abs s.q).phase (.producer p) ≠ .pending .close) (hcloses : closes = s.closes ∨ phase l = .pending .close) :
    Inv { s.goP p k with q := q, closes := closes } := by
  refine .of _ _ (cross_reach hi.reach hq) hprot ?_ hi.done hi.produced hi.consumed
  dsimp only [Net.goP]
  rw [cross_abs hq]
  exact hi.serves.move_producer hp id hx hcloses

/-- The test of the last producer does not overflow. -/
theorem Inv.last_iff (hi : Inv s) (hlt : s.done < M.producers) :
    s.producersDone + 1 = BitVec.ofNat 32 M.producers ↔ s.done + 1 = M.producers := by
  have hfits := M.producers_int
  have hadd : BitVec.ofNat 32 s.done + 1 = BitVec.ofNat 32 (s.done + 1) := (BitVec.ofNat_add ..).symm
  rw [hi.done, hadd, ← BitVec.toNat_inj, BitVec.toNat_ofNat, BitVec.toNat_ofNat, Nat.mod_eq_of_lt (by omega),
    Nat.mod_eq_of_lt (by omega)]

theorem Inv.producer_step (hi : Inv s) (h : producerNext s p = some s') : Inv s' := by
  have hprod := hi.serves.producing p
  simp only [producerNext] at h
  cases hp : s.producer p with
  | loop i =>
    rw [hp] at h hprod
    obtain ⟨hx, hj, hi'⟩ := hprod
    dsimp only at h
    split at h
    · rename_i hlt
      obtain ⟨q, hq, rfl⟩ := Option.map_eq_some_iff.mp h
      have hprot := hi.protocol.move (k := .inPush i) (by rw [hp]; rfl) (by simp)
      exact hi.cross_producer hq hprot ⟨hlt, .inl ⟨rfl, hj⟩⟩ (by rw [hx]; simp) (.inl rfl)
    · obtain rfl : i = M.items := by omega
      cases h
      exact hi.goP (hi.protocol.move (by rw [hp]; rfl) (by simp)) (hi.serves.goP ⟨hx, hj⟩ id hx) hi.done hi.produced
  | inPush i =>
    rw [hp] at h hprod
    obtain ⟨q, hq, rfl⟩ := Option.map_eq_some_iff.mp h
    obtain ⟨op, r, hdone⟩ := cross_out hq
    have hprot := hi.protocol.move (k := .count i) (by rw [hp]; rfl) (by simp)
    obtain ⟨hi', ⟨hx, -⟩ | ⟨-, hj⟩⟩ := hprod
    · rw [hdone] at hx; cases hx
    · exact hi.cross_producer hq hprot ⟨rfl, hj, hi'⟩ (by rw [hdone]; simp) (.inl rfl)
  | count i =>
    rw [hp] at h hprod
    cases h
    refine hi.goP (hi.protocol.count hp) (hi.serves.goP hprod id hprod.1) hi.done ?_
    rw [hi.produced, BitVec.ofNat_add]
    rfl
  | nap i =>
    rw [hp] at h hprod
    cases h
    exact hi.goP (hi.protocol.move (by rw [hp]; rfl) (by simp)) (hi.serves.goP hprod id hprod.1) hi.done hi.produced
  | finish =>
    rw [hp] at h hprod
    cases h
    have hlt := hi.protocol.counter_lt (p := p) (by rw [hp]; rfl)
    rw [if_congr (hi.last_iff hlt) rfl rfl]
    refine hi.goP (hi.protocol.finish hp) (hi.serves.goP ?_ (fun he => absurd he hlt.ne) hprod.1) ?_ hi.produced
    · split
      · exact hprod
      · exact ⟨hprod.1, .inl hprod.2⟩
    · rw [hi.done, BitVec.ofNat_add]
      rfl
  | close =>
    rw [hp] at h hprod
    obtain ⟨q, hq, rfl⟩ := Option.map_eq_some_iff.mp h
    exact hi.cross_producer hq (hi.protocol.close hp) (.inl ⟨rfl, hprod.2⟩) (by rw [hprod.1]; simp) (.inr rfl)
  | inClose =>
    rw [hp] at h hprod
    obtain ⟨q, hq, rfl⟩ := Option.map_eq_some_iff.mp h
    obtain ⟨op, r, hdone⟩ := cross_out hq
    have hprot := hi.protocol.move (k := .returned) (by rw [hp]; rfl) (by simp)
    obtain ⟨hx, -⟩ | ⟨-, hj⟩ := hprod
    · rw [hdone] at hx; cases hx
    · exact hi.cross_producer hq hprot ⟨rfl, .inr hj⟩ (by rw [hdone]; simp) (.inl rfl)
  | returned => rw [hp] at h; cases h

/-! ## The consumers -/

/-- A consumer goes on outside the queue. -/
theorem Inv.goC (hi : Inv s) {k : Consumer} {out : Fin M.consumers → List ℤ} {x : BitVec 32} {n : ℕ}
    (hserves : Serves (abs s.q) s.producer (Function.update s.consumer c k) out s.done s.closes)
    (hx : x = BitVec.ofNat 32 n)
    (hcount : n + total Consumer.uncounted (Function.update s.consumer c k) = total List.length out) :
    Inv { s.goC c k with out := out, consumed := x } :=
  ⟨hi.reach, hi.protocol, hserves, hi.done, hi.produced, n, hx, hcount⟩

/-- A consumer calls the queue, or returns from it. -/
theorem Inv.cross_consumer (hi : Inv s) {k : Consumer} {l : Pc ℤ} {q : Q M}
    (hq : cross Queue M.cap s.q (.consumer c) l = some q)
    (hk : Consuming (phase l) (journal (.consumer c) (abs s.q).hist) (s.out c) (Drained (abs s.q).obj) k)
    (hcount : k.uncounted = (s.consumer c).uncounted) : Inv { s.goC c k with q := q } where
  reach := cross_reach hi.reach hq
  protocol := hi.protocol
  serves := by
    dsimp only [Net.goC]
    rw [cross_abs hq]
    exact hi.serves.move_consumer (fun _ _ => rfl) hk
  done := hi.done
  produced := hi.produced
  consumed := by
    dsimp only [Net.goC]
    rw [total_update_eq hcount]
    exact hi.consumed

theorem Inv.consumer_step (hi : Inv s) (h : consumerNext s c = some s') : Inv s' := by
  have hcons := hi.serves.consuming c
  obtain ⟨n, hn, hconsumed⟩ := hi.consumed
  simp only [consumerNext] at h
  cases hk : s.consumer c with
  | loop =>
    rw [hk] at h hcons
    obtain ⟨q, hq, rfl⟩ := Option.map_eq_some_iff.mp h
    exact hi.cross_consumer hq ⟨hcons.1, .inl ⟨rfl, hcons.2.2⟩⟩ (by rw [hk]; rfl)
  | inPop =>
    rw [hk] at h hcons
    dsimp only at h
    split at h
    · rename_i v hv
      obtain ⟨q, hq, rfl⟩ := Option.map_eq_some_iff.mp h
      have hdone : (abs s.q).phase (.consumer c) = .done .pop (.popped (some v)) := by simp [absState, hv, phase]
      refine hi.cross_consumer hq ⟨hcons.1, rfl, ?_⟩ (by rw [hk]; rfl)
      rcases hcons.2 with ⟨hx, -⟩ | ⟨w, hx, ht⟩ | ⟨hx, -⟩ <;> cases hdone.symm.trans hx
      exact ht
    · rename_i hv
      obtain ⟨q, hq, rfl⟩ := Option.map_eq_some_iff.mp h
      have hdone : (abs s.q).phase (.consumer c) = .done .pop (.popped none) := by simp [absState, hv, phase]
      refine hi.cross_consumer hq ⟨hcons.1, rfl, ?_⟩ (by rw [hk]; rfl)
      rcases hcons.2 with ⟨hx, -⟩ | ⟨w, hx, -⟩ | ⟨-, hd⟩
      · cases hdone.symm.trans hx
      · cases hdone.symm.trans hx
      · exact hd
    · cases h
  | print v =>
    rw [hk] at h hcons
    cases h
    refine hi.goC (hi.serves.goC (fun c' hc' => Function.update_of_ne hc' ..) ⟨hcons.1, hcons.2.1, ?_⟩) hn ?_
    · exact hcons.2.2.trans (Function.update_self (f := s.out) ..).symm
    · have hcount := total_update Consumer.uncounted s.consumer c .count
      have hlength := total_update List.length s.out c (s.out c ++ [v])
      rw [hk] at hcount
      rw [List.length_append, List.length_singleton] at hlength
      simp only [Consumer.uncounted] at hcount
      omega
  | count =>
    rw [hk] at h hcons
    cases h
    refine hi.goC (n := n + 1) (hi.serves.goC (fun _ _ => rfl) hcons) (by rw [hn, BitVec.ofNat_add]; rfl) ?_
    have hcount := total_update Consumer.uncounted s.consumer c .nap
    rw [hk] at hcount
    simp only [Consumer.uncounted] at hcount
    dsimp only [Net.goC]
    omega
  | nap =>
    rw [hk] at h hcons
    cases h
    refine hi.goC (hi.serves.goC (fun _ _ => rfl) hcons) hn ?_
    rw [total_update_eq (by rw [hk]; rfl)]
    exact hconsumed
  | returned => rw [hk] at h; cases h

/-! ## Runs -/

theorem inv (h : M.system.Reach s) : Inv s := by
  refine h.inv (I := Inv) ?_ fun {s a s'} _ _ ha hi => ?_
  · refine .of 0 0 .refl ⟨?_, ?_, ?_, ?_⟩
      ⟨fun p => ⟨rfl, rfl, Nat.zero_le _⟩, fun c => ⟨?_, rfl, rfl⟩, ?_, ?_⟩ rfl rfl ⟨0, rfl, ?_⟩
    · exact (total_eq_zero.mpr fun _ => rfl).symm
    · rintro p (hp | hp) <;> cases hp
    · have hclosing : total Producer.closing M.system.start.producer = 0 := total_eq_zero.mpr fun _ => rfl
      rw [hclosing]
      exact (if_neg M.producers_pos.ne).symm
    · exact (total_eq_zero.mpr fun _ => rfl).symm
    · intro x hx; cases hx
    · intro hc; cases hc
    · intro hpos; cases hpos
    · have h₁ : total Consumer.uncounted M.system.start.consumer = 0 := total_eq_zero.mpr fun _ => rfl
      have h₂ : total List.length M.system.start.out = 0 := total_eq_zero.mpr fun _ => rfl
      rw [h₁, h₂]
  · change M.next s a = some s' at ha
    cases a with
    | queue a =>
      obtain ⟨q, hq, rfl⟩ := Option.map_eq_some_iff.mp ha
      exact hi.queue_step hq
    | producer p => exact hi.producer_step ha
    | consumer c => exact hi.consumer_step ha
    | main =>
      simp only [Config.next, mainNext] at ha
      split at ha
      · split at ha
        · cases ha
          exact ⟨hi.reach, hi.protocol, hi.serves, hi.done, hi.produced, hi.consumed⟩
        · cases ha
      · cases ha

/-- When all producers have returned, one of them has closed the queue. -/
theorem Inv.done_of_returned (hi : Inv s) (hall : ∀ p, s.producer p = .returned) :
    s.done = M.producers ∧ s.closes = 1 := by
  have hdone : s.done = M.producers := by
    have htotal : total Producer.past s.producer = total (fun _ : Producer => 1) s.producer :=
      total_congr fun p => by rw [hall p]; rfl
    rw [Net.done, htotal]
    simp [total]
  have hclosing : total Producer.closing s.producer = 0 := total_eq_zero.mpr fun p => by rw [hall p]; rfl
  have honce := hi.protocol.once
  rw [if_pos hdone, hclosing] at honce
  exact ⟨hdone, honce⟩

/-! ## Quiet states -/

section Quiet

variable (h : M.system.Reach s) (hq : M.system.Quiet NetAct.counts s)

include hq in
theorem queue_quiet : (queue (Thread M) ℤ Queue M.cap).Quiet s.q :=
  inside_quiet fun a ha => Option.map_eq_none_iff.mp (hq (.queue a) ha)

include h hq

/-- A producer that cannot go on has returned, or is in front of a full queue. -/
theorem producer_quiet (p : Fin M.producers) :
    s.producer p = .returned ∨ (s.q.data.closed = false ∧ s.q.data.q.length = M.cap) := by
  have hi := inv h
  have hnone : producerNext s p = none := hq (.producer p) trivial
  have hprod := hi.serves.producing p
  have hs := quiet_cases hi.reach (queue_quiet hq) (t := .producer p)
  simp only [producerNext] at hnone
  cases hp : s.producer p with
  | loop i =>
    rw [hp] at hnone hprod
    rw [hprod.1] at hs
    dsimp only at hnone
    rw [cross_call hs rfl] at hnone
    split at hnone <;> cases hnone
  | inPush i =>
    rw [hp] at hnone hprod
    have hcur : current ((abs s.q).phase (.producer p)) = some (.push (item p i)) := by
      rcases hprod.2 with ⟨hx, -⟩ | ⟨hx, -⟩ <;> (rw [hx]; rfl)
    rw [hcur] at hs
    rcases hs with ⟨ok, ht⟩ | hfull
    · rw [cross_return ht (.inl ⟨_, _, rfl⟩)] at hnone; cases hnone
    · exact .inr hfull
  | close =>
    rw [hp] at hnone hprod
    rw [hprod.1] at hs
    dsimp only at hnone
    rw [cross_call hs rfl] at hnone; cases hnone
  | inClose =>
    rw [hp] at hnone hprod
    have hcur : current ((abs s.q).phase (.producer p)) = some .close := by
      rcases hprod with ⟨hx, -⟩ | ⟨hx, -⟩ <;> (rw [hx]; rfl)
    rw [hcur] at hs
    dsimp only at hnone
    rw [cross_return hs (.inr (.inr rfl))] at hnone; cases hnone
  | count | nap | finish => rw [hp] at hnone; cases hnone
  | returned => exact .inl rfl

/-- A consumer that cannot go on has returned, or is in front of an empty queue. -/
theorem consumer_quiet (c : Fin M.consumers) :
    s.consumer c = .returned ∨ (s.q.data.closed = false ∧ s.q.data.q = []) := by
  have hi := inv h
  have hnone : consumerNext s c = none := hq (.consumer c) trivial
  have hcons := hi.serves.consuming c
  have hs := quiet_cases hi.reach (queue_quiet hq) (t := .consumer c)
  simp only [consumerNext] at hnone
  cases hk : s.consumer c with
  | loop =>
    rw [hk] at hnone hcons
    rw [hcons.2.1] at hs
    dsimp only at hnone
    rw [cross_call hs rfl] at hnone; cases hnone
  | inPop =>
    rw [hk] at hnone hcons
    have hcur : current ((abs s.q).phase (.consumer c)) = some .pop := by
      rcases hcons.2 with ⟨hx, -⟩ | ⟨v, hx, -⟩ | ⟨hx, -⟩ <;> (rw [hx]; rfl)
    rw [hcur] at hs
    rcases hs with ⟨r, ht⟩ | hempty
    · cases r <;> simp [ht, cross_return ht (.inr (.inl ⟨_, rfl⟩))] at hnone
    · exact .inr hempty
  | print | count | nap => rw [hk] at hnone; cases hnone
  | returned => exact .inl rfl

/-- The producers do not wait: all consumers would have to be asleep, in front
of the same full queue. -/
theorem producers_returned (p : Fin M.producers) : s.producer p = .returned := by
  have hi := inv h
  rcases producer_quiet h hq p with hp | ⟨hopen, hfull⟩
  · exact hp
  · exfalso
    rcases consumer_quiet h hq ⟨0, M.consumers_pos⟩ with hc | ⟨-, hempty⟩
    · have hcons := hi.serves.consuming ⟨0, M.consumers_pos⟩
      rw [hc] at hcons
      cases hopen.symm.trans hcons.2.2.2.1
    · rw [hempty] at hfull
      exact M.cap_pos.ne hfull

theorem done_eq : s.done = M.producers ∧ s.closes = 1 ∧ s.q.data.closed = true := by
  have hi := inv h
  have hall := producers_returned h hq
  obtain ⟨hdone, hcloses⟩ := hi.done_of_returned hall
  refine ⟨hdone, hcloses, ?_⟩
  rcases hi.serves.shut (by omega) with hc | ⟨p, hp⟩
  · exact hc
  · have hprod := hi.serves.producing p
    rw [hall p] at hprod
    rw [hprod.1] at hp; cases hp

theorem consumers_returned (c : Fin M.consumers) : s.consumer c = .returned := by
  rcases consumer_quiet h hq c with hc | ⟨hopen, -⟩
  · exact hc
  · cases hopen.symm.trans (done_eq h hq).2.2

end Quiet

/-! ## Deliveries -/

/-- The pushes that were accepted, with the pops that took their values. -/
def deliveries (q : Q M) : List ((Thread M × ℤ) × (Thread M × ℤ)) :=
  (tagged appends q.data.hist).zip (tagged takes q.data.hist)

/-- What the consumer `c` got from the producer `p`. -/
def received (q : Q M) (p : Fin M.producers) (c : Fin M.consumers) : List ℤ :=
  ((deliveries q).filter fun d => d.1.1 = .producer p ∧ d.2.1 = .consumer c).map fun d => d.2.2

theorem fifo_tagged (h : M.system.Reach s) :
    (tagged takes s.q.data.hist).map Prod.snd ++ s.q.data.q = (tagged appends s.q.data.hist).map Prod.snd := by
  rw [map_snd_tagged, map_snd_tagged]
  exact runs_order (history_runs (inv h).reach)

theorem eq_of_mem_zip {β γ : Type*} {as : List (β × ℤ)} {bs : List (γ × ℤ)}
    (h : bs.map Prod.snd <+: as.map Prod.snd) {d : (β × ℤ) × (γ × ℤ)} (hd : d ∈ as.zip bs) : d.1.2 = d.2.2 := by
  induction as generalizing bs with
  | nil => cases hd
  | cons a as ih =>
    cases bs with
    | nil => cases hd
    | cons b bs =>
      obtain ⟨hhead, htail⟩ := List.cons_prefix_cons.mp h
      rcases List.mem_cons.mp hd with rfl | hd
      · exact hhead.symm
      · exact ih htail hd

theorem mem_of_producing {x : Phase (Op ℤ) (Ret ℤ)} {hs : List (Op ℤ × Ret ℤ)} {k : Producer} (h : Producing p x hs k)
    {y : Op ℤ × Ret ℤ} (hy : y ∈ hs) : (∃ i, y = (.push (item p i), .pushed true)) ∨ y = (.close, .closed) := by
  have hpush : ∀ {n}, y ∈ pushes p n → ∃ i, y = (.push (item p i), .pushed true) := fun hy => by
    obtain ⟨i, -, rfl⟩ := List.mem_map.mp hy
    exact ⟨i, rfl⟩
  have hclose : ∀ {n}, y ∈ pushes p n ++ [(.close, .closed)] →
      (∃ i, y = (.push (item p i), .pushed true)) ∨ y = (.close, .closed) := fun hy =>
    (List.mem_append.mp hy).imp hpush List.mem_singleton.mp
  cases k with
  | loop | count | nap => exact .inl (hpush (h.2.1 ▸ hy))
  | inPush i => rcases h.2 with ⟨-, rfl⟩ | ⟨-, rfl⟩ <;> exact .inl (hpush hy)
  | finish | close => exact .inl (hpush (h.2 ▸ hy))
  | inClose => rcases h with ⟨-, rfl⟩ | ⟨-, rfl⟩ <;> [exact .inl (hpush hy); exact hclose hy]
  | returned => rcases h.2 with rfl | rfl <;> [exact .inl (hpush hy); exact hclose hy]

/-- What a thread has done to the queue: producers push and close, consumers pop. -/
theorem mem_hist (h : M.system.Reach s) {t : Thread M} {y : Op ℤ × Ret ℤ} (hy : (t, y) ∈ s.q.data.hist) :
    (∃ p, t = .producer p ∧ ((∃ i, y = (.push (item p i), .pushed true)) ∨ y = (.close, .closed))) ∨
      ∃ c, t = .consumer c ∧ y.1 = .pop := by
  have hi := inv h
  cases t with
  | producer p => exact .inl ⟨p, rfl, mem_of_producing (hi.serves.producing p) (mem_journal.mpr hy)⟩
  | consumer c => exact .inr ⟨c, rfl, (hi.serves.consuming c).1 y (mem_journal.mpr hy)⟩

/-- No push is rejected. -/
theorem accepted (h : M.system.Reach s) (v : ℤ) : (Op.push v, Ret.pushed false) ∉ history s.q := by
  intro hv
  obtain ⟨⟨t, y⟩, hy, rfl⟩ := List.mem_map.mp hv
  rcases mem_hist h hy with ⟨p, -, ⟨i, hi⟩ | hi⟩ | ⟨c, -, hi⟩ <;> cases hi

theorem returns_true (h : M.system.Reach s) {t : Thread M} {v : ℤ} {ok : Bool}
    (ht : s.q.th t = .run (.push v (.ret ok))) : ok = true := by
  have hi := inv h
  have hphase : (abs s.q).phase t = .done (.push v) (.pushed ok) := by simp [absState, ht, phase]
  cases t with
  | producer p =>
    have hprod := hi.serves.producing p
    rw [hphase] at hprod
    cases hp : s.producer p with
    | inPush i =>
      rw [hp] at hprod
      rcases hprod.2 with ⟨hx, -⟩ | ⟨hx, -⟩ <;> cases hx
      rfl
    | inClose => rw [hp] at hprod; rcases hprod with ⟨hx, -⟩ | ⟨hx, -⟩ <;> cases hx
    | _ => rw [hp] at hprod; cases hprod.1
  | consumer c =>
    have hcons := (hi.serves.consuming c).2
    rw [hphase] at hcons
    cases hk : s.consumer c with
    | inPop => rw [hk] at hcons; rcases hcons with ⟨hx, -⟩ | ⟨v, hx, -⟩ | ⟨hx, -⟩ <;> cases hx
    | _ => rw [hk] at hcons; cases hcons.1

theorem mem_deliveries (h : M.system.Reach s) {d : (Thread M × ℤ) × (Thread M × ℤ)} (hd : d ∈ deliveries s.q) :
    d.1.2 = d.2.2 ∧ (∃ p, d.1.1 = .producer p) ∧ ∃ c, d.2.1 = .consumer c := by
  obtain ⟨⟨t, v⟩, u, w⟩ := d
  have hmem := List.of_mem_zip hd
  refine ⟨eq_of_mem_zip ⟨_, fifo_tagged h⟩ hd, ?_, ?_⟩
  · obtain ⟨y, hy, hv⟩ := mem_tagged.mp hmem.1
    rcases mem_hist h hy with ⟨p, rfl, -⟩ | ⟨c, -, hpop⟩
    · exact ⟨p, rfl⟩
    · obtain ⟨op, r⟩ := y
      cases hpop
      cases hv
  · obtain ⟨y, hy, hw⟩ := mem_tagged.mp hmem.2
    rcases mem_hist h hy with ⟨p, -, ⟨i, rfl⟩ | rfl⟩ | ⟨c, rfl, -⟩
    · cases hw
    · cases hw
    · exact ⟨c, rfl⟩

theorem received_sublist_out (q : Q M) (p : Fin M.producers) (c : Fin M.consumers) :
    (received q p c).Sublist (journal (.consumer c) ((deliveries q).map Prod.snd)) := by
  rw [journal_eq, List.filter_map, List.map_map]
  refine (List.monotone_filter_right _ fun d hd => ?_).map _
  simp only [decide_eq_true_eq] at hd
  simp [hd.2]

theorem received_sublist_items (h : M.system.Reach s) (p : Fin M.producers) (c : Fin M.consumers) :
    (received s.q p c).Sublist (journal (.producer p) ((deliveries s.q).map Prod.fst)) := by
  have hsame : received s.q p c =
      ((deliveries s.q).filter fun d => d.1.1 = .producer p ∧ d.2.1 = .consumer c).map fun d => d.1.2 :=
    List.map_congr_left fun d hd => ((mem_deliveries h (List.mem_of_mem_filter hd)).1).symm
  rw [hsame, journal_eq, List.filter_map, List.map_map]
  refine (List.monotone_filter_right _ fun d hd => ?_).map _
  simp only [decide_eq_true_eq] at hd
  simp [hd.1]

/-! ## The end -/

theorem sum_threads (f : Thread M → ℕ) : ∑ t, f t = ∑ p, f (.producer p) + ∑ c, f (.consumer c) := by
  rw [← (Thread.equiv M).sum_comp, Fintype.sum_sum_type]
  rfl

theorem main_of_producerNext (h : producerNext s p = some s') : s'.main = s.main := by
  simp only [producerNext] at h
  split at h
  · split at h
    · obtain ⟨q, -, rfl⟩ := Option.map_eq_some_iff.mp h; rfl
    · cases h; rfl
  all_goals first | (cases h; done) | (cases h; rfl) | (obtain ⟨q, -, rfl⟩ := Option.map_eq_some_iff.mp h; rfl)

theorem main_of_consumerNext (h : consumerNext s c = some s') : s'.main = s.main := by
  simp only [consumerNext] at h
  split at h
  · obtain ⟨q, -, rfl⟩ := Option.map_eq_some_iff.mp h; rfl
  · split at h
    · obtain ⟨q, -, rfl⟩ := Option.map_eq_some_iff.mp h; rfl
    · obtain ⟨q, -, rfl⟩ := Option.map_eq_some_iff.mp h; rfl
    · cases h
  all_goals first | (cases h; done) | (cases h; rfl)

/-- `main` writes the counters after all threads have returned. -/
theorem main_returned (h : M.system.Reach s) {x y : BitVec 32} (hm : s.main = .returned x y) :
    x = s.produced ∧ y = s.consumed ∧ (∀ p, s.producer p = .returned) ∧ ∀ c, s.consumer c = .returned := by
  revert x y
  refine h.inv (I := fun s => ∀ {x y}, s.main = .returned x y → x = s.produced ∧ y = s.consumed ∧
    (∀ p, s.producer p = .returned) ∧ ∀ c, s.consumer c = .returned) (fun hm => by cases hm) ?_
  intro s a s' _ _ ha ih x y hm
  change M.next s a = some s' at ha
  cases a with
  | queue a =>
    obtain ⟨q, hq, rfl⟩ := Option.map_eq_some_iff.mp ha
    exact ih hm
  | producer p =>
    obtain ⟨-, -, hall, -⟩ := ih ((main_of_producerNext ha).symm.trans hm)
    simp [Config.next, producerNext, hall p] at ha
  | consumer c =>
    obtain ⟨-, -, -, hall⟩ := ih ((main_of_consumerNext ha).symm.trans hm)
    simp [Config.next, consumerNext, hall c] at ha
  | main =>
    simp only [Config.next, mainNext] at ha
    split at ha
    · split at ha
      · cases ha
        cases hm
        rename_i hall
        exact ⟨rfl, rfl, hall.1, hall.2⟩
      · cases ha
    · cases ha

section Quiet

variable (h : M.system.Reach s) (hq : M.system.Quiet NetAct.counts s)

include h hq

theorem pushed_eq (p : Fin M.producers) :
    journal (.producer p) (tagged appends s.q.data.hist) = (List.range M.items).map (item p) := by
  have hprod := (inv h).serves.producing p
  rw [producers_returned h hq p] at hprod
  have hpushes : ∀ n, (pushes p n).filterMap appends = (List.range n).map (item p) := fun n => by
    rw [pushes, List.filterMap_map]
    exact congrFun (List.filterMap_eq_map (f := item p)) _
  rw [journal_tagged]
  rcases hprod.2 with hj | hj
  · exact (congrArg _ hj).trans (hpushes _)
  · refine (congrArg _ hj).trans ?_
    rw [List.filterMap_append, hpushes]
    exact List.append_nil _

theorem popped_eq (c : Fin M.consumers) :
    journal (.consumer c) (tagged takes s.q.data.hist) = s.out c := by
  have hcons := (inv h).serves.consuming c
  rw [consumers_returned h hq c] at hcons
  rw [journal_tagged]
  exact hcons.2.2.1

theorem queue_empty : s.q.data.q = [] := by
  have hcons := (inv h).serves.consuming ⟨0, M.consumers_pos⟩
  rw [consumers_returned h hq] at hcons
  exact hcons.2.2.2.2

theorem length_pushed : (tagged appends s.q.data.hist).length = M.producers * M.items := by
  have hzero : ∀ c : Fin M.consumers, (journal (.consumer c) (tagged appends s.q.data.hist)).length = 0 := fun c => by
    rw [journal_tagged, List.length_eq_zero_iff, List.filterMap_eq_nil_iff]
    rintro ⟨op, r⟩ hy
    cases (inv h).serves.consuming c |>.1 _ hy
    rfl
  rw [length_eq_sum_journal, sum_threads, Finset.sum_eq_zero fun c _ => hzero c]
  simp [pushed_eq h hq]

theorem length_popped : (tagged takes s.q.data.hist).length = total List.length s.out := by
  have hzero : ∀ p : Fin M.producers, (journal (.producer p) (tagged takes s.q.data.hist)).length = 0 := fun p => by
    rw [journal_tagged, List.length_eq_zero_iff, List.filterMap_eq_nil_iff]
    intro y hy
    rcases mem_of_producing ((inv h).serves.producing p) hy with ⟨i, rfl⟩ | rfl <;> rfl
  rw [length_eq_sum_journal, sum_threads, Finset.sum_eq_zero fun p _ => hzero p]
  simp [popped_eq h hq, total]

theorem same_length : (tagged takes s.q.data.hist).length = (tagged appends s.q.data.hist).length := by
  have := congrArg List.length (fifo_tagged h)
  rwa [queue_empty h hq, List.append_nil, List.length_map, List.length_map] at this

theorem counters_eq : s.produced = BitVec.ofNat 32 (M.producers * M.items) ∧
    s.consumed = BitVec.ofNat 32 (M.producers * M.items) := by
  have hi := inv h
  have hcounted : s.counted = M.producers * M.items := by
    simp [Net.counted, total, producers_returned h hq, Producer.counted]
  have huncounted : total Consumer.uncounted s.consumer = 0 :=
    total_eq_zero.mpr fun c => by rw [consumers_returned h hq c]; rfl
  obtain ⟨n, hn, hconsumed⟩ := hi.consumed
  rw [huncounted, ← length_popped h hq, same_length h hq, length_pushed h hq, Nat.add_zero] at hconsumed
  rw [hi.produced, hn, hcounted, hconsumed]
  exact ⟨rfl, rfl⟩

theorem main_eq : s.main = .returned (BitVec.ofNat 32 (M.producers * M.items))
    (BitVec.ofNat 32 (M.producers * M.items)) := by
  cases hm : s.main with
  | joining =>
    have hnone : mainNext s = none := hq .main trivial
    rw [mainNext, hm] at hnone
    dsimp only at hnone
    rw [if_pos ⟨producers_returned h hq, consumers_returned h hq⟩] at hnone
    cases hnone
  | returned x y =>
    obtain ⟨rfl, rfl, -⟩ := main_returned h hm
    obtain ⟨hproduced, hconsumed⟩ := counters_eq h hq
    rw [hproduced, hconsumed]

end Quiet

/-- What an `int` says that has counted `k`. -/
theorem toInt_eq_iff {k : ℕ} : (BitVec.ofNat 32 k).toInt = k ↔ k < 2 ^ 31 := by
  rw [BitVec.toInt_eq_toNat_cond, BitVec.toNat_ofNat]
  split <;> omega

/-- The last producer closes the queue, and everything is delivered. The counters say
how much, as long as that fits into an `int`. -/
theorem last_closes_delivers (h : M.system.Reach s) :
    s.closes ≤ 1 ∧
    (∀ v, (Op.push v, Ret.pushed false) ∉ history s.q) ∧
    (∀ t v ok, s.q.th t = .run (.push v (.ret ok)) → ok = true) ∧
    (M.system.Quiet NetAct.counts s →
      (∀ p, s.producer p = .returned) ∧ (∀ c, s.consumer c = .returned) ∧
      s.main = .returned s.produced s.consumed ∧
      s.produced = BitVec.ofNat 32 (M.producers * M.items) ∧ s.consumed = BitVec.ofNat 32 (M.producers * M.items) ∧
      (s.produced.toInt = (M.producers * M.items : ℕ) ↔ M.producers * M.items < 2 ^ 31) ∧
      s.closes = 1 ∧ s.q.data.q = [] ∧
      (∀ p, journal (.producer p) ((deliveries s.q).map Prod.fst) = (List.range M.items).map (item p)) ∧
      (∀ c, journal (.consumer c) ((deliveries s.q).map Prod.snd) = s.out c) ∧
      (deliveries s.q).length = M.producers * M.items ∧
      (∀ d ∈ deliveries s.q, d.1.2 = d.2.2 ∧ (∃ p, d.1.1 = .producer p) ∧ ∃ c, d.2.1 = .consumer c) ∧
      ∀ p c, (received s.q p c).Sublist ((List.range M.items).map (item p)) ∧
        (received s.q p c).Sublist (s.out c)) := by
  have hi := inv h
  refine ⟨?_, accepted h, fun t v ok => returns_true h, fun hq => ?_⟩
  · have := hi.protocol.once
    split at this <;> omega
  have hlength := same_length h hq
  have hfst : (deliveries s.q).map Prod.fst = tagged appends s.q.data.hist := List.map_fst_zip hlength.ge
  have hsnd : (deliveries s.q).map Prod.snd = tagged takes s.q.data.hist := List.map_snd_zip hlength.le
  have hpushed : ∀ p, journal (.producer p) ((deliveries s.q).map Prod.fst) = (List.range M.items).map (item p) :=
    fun p => by rw [hfst, pushed_eq h hq p]
  have hpopped : ∀ c, journal (.consumer c) ((deliveries s.q).map Prod.snd) = s.out c :=
    fun c => by rw [hsnd, popped_eq h hq c]
  obtain ⟨hproduced, hconsumed⟩ := counters_eq h hq
  refine ⟨producers_returned h hq, consumers_returned h hq, ?_, hproduced, hconsumed, ?_, (done_eq h hq).2.1,
    queue_empty h hq, hpushed, hpopped, ?_, fun d => mem_deliveries h, fun p c => ⟨?_, ?_⟩⟩
  · rw [hproduced, hconsumed]
    exact main_eq h hq
  · rw [hproduced]
    exact toInt_eq_iff
  · rw [← length_pushed h hq, ← hfst, List.length_map]
  · rw [← hpushed p]
    exact received_sublist_items h p c
  · rw [← hpopped c]
    exact received_sublist_out s.q p c

/-- Two producers, one consumer, one item each, and room for one. -/
def narrow : Config where
  producers := 2
  consumers := 1
  items := 1
  cap := 1
  producers_pos := by decide
  consumers_pos := by decide
  cap_pos := by decide
  producers_int := by decide
  item_int := by omega

/-- `p` ends first, and `p'` closes the queue. -/
def secondCloses (p p' : Fin narrow.producers) (c : Fin narrow.consumers) : List (NetAct narrow) :=
  let within (t : Thread narrow) (k : ℕ) : List (NetAct narrow) := List.replicate k (.queue (.exec t))
  [[.producer p], within (.producer p) 5, List.replicate 5 (.producer p),
    [.consumer c], within (.consumer c) 5, List.replicate 5 (.consumer c),
    [.producer p'], within (.producer p') 5, List.replicate 6 (.producer p'),
    within (.producer p') 5, [.producer p'], within (.consumer c) 5, List.replicate 5 (.consumer c),
    within (.consumer c) 4, [.consumer c, .main]].flatten

theorem last_closes_delivers_narrow :
    ∃ s, narrow.system.run narrow.system.start (secondCloses ⟨0, by decide⟩ ⟨1, by decide⟩ ⟨0, by decide⟩) = some s ∧
      s.main = .returned 2 2 ∧ s.closes = 1 ∧ s.q.data.q = [] := by
  have hr : (narrow.system.run narrow.system.start (secondCloses ⟨0, by decide⟩ ⟨1, by decide⟩ ⟨0, by decide⟩)).any (fun s =>
      (∀ p, s.producer p = .returned) ∧ (∀ c, s.consumer c = .returned) ∧ s.main = .returned 2 2 ∧
        ∀ t, (queue (Thread narrow) ℤ Queue narrow.cap).blocked s.q t = true) = true := by decide +kernel
  obtain ⟨s, hs, hp⟩ := System.exists_of_run hr
  obtain ⟨hprod, hcons, hmain, hblocked⟩ := of_decide_eq_true hp
  have hq : narrow.system.Quiet NetAct.counts s := by
    intro a ha
    change narrow.next s a = none
    cases a with
    | queue a =>
      have hnone : (queue (Thread narrow) ℤ Queue narrow.cap).next s.q a = none := quiet_of_blocked hblocked a ha
      simp [Config.next, inside, hnone]
    | producer p => simp [Config.next, producerNext, hprod p]
    | consumer c => simp [Config.next, consumerNext, hcons c]
    | main => simp [Config.next, mainNext, hmain]
  obtain ⟨-, -, -, hend⟩ := last_closes_delivers (System.reach_of_run hs)
  obtain ⟨-, -, -, -, -, -, hcloses, hempty, -⟩ := hend hq
  exact ⟨s, hs, hmain, hcloses, hempty⟩

end TKH.ManyToMany
