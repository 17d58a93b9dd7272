import ThreadingKnowHows.Framework.Turns
import ThreadingKnowHows.ManyToMany.Delivery

/-!
# A run that ends

With any numbers of producers, consumers and items there is a run to the end
(`completes`): the producers push their items one by one, each of which a consumer takes
at once, then they add themselves to `producers_done`, and the consumers find the
queue closed. So with more than `2 ^ 31` items there is a run in which the counters
wrap.
-/

namespace TKH.ManyToMany

open ClosableQueue

variable {M : Config}

abbrev Leads (s s' : Net M) : Prop := M.system.Path (fun _ _ => True) s s'

theorem leads_of_next {s s' : Net M} {a : NetAct M} (h : M.next s a = some s') : Leads s s' := .step .refl trivial h

theorem leads_of_replicate {s s' : Net M} {n : ℕ} {a : NetAct M} (h : M.system.run s (List.replicate n a) = some s') :
    Leads s s' :=
  System.path_of_run h

/-- A run inside the queue. -/
theorem leads_of_run {s : Net M} {t : Thread M} {k : ℕ} {q : Q M}
    (h : (queue (Thread M) ℤ Queue M.cap).system.run s.q (List.replicate k (.exec t)) = some q) :
    Leads s { s with q := q } := by
  induction k generalizing s with
  | zero => cases h; exact .refl
  | succ k ih =>
    obtain ⟨q₁, ha, hr⟩ := System.run_cons h
    have hstep : M.next s (.queue (.exec t)) = some { s with q := q₁ } := Option.map_eq_some_iff.mpr ⟨q₁, ha, rfl⟩
    exact (leads_of_next hstep).trans (ih (s := { s with q := q₁ }) hr)

variable {s : Net M} {p : Fin M.producers} {c : Fin M.consumers} {d : Data (Thread M) ℤ}

/-! ## One call -/

theorem produce {i : ℕ} (hq : s.q = vacant d) (hp : s.producer p = .loop i) (hi : i < M.items) (hopen : d.closed = false)
    (hroom : d.q.length < M.cap) : Leads s { s.goP p (.loop (i + 1)) with
      q := vacant ({ d with q := d.q ++ [item p i] }.commit (.producer p) (.push (item p i)) (.pushed true))
      produced := s.produced + 1 } := by
  have hcall : M.next s (.producer p) =
      some { s.goP p (.inPush i) with q := alone (.producer p) (.push (item p i) .lock) d } := by
    simp [Config.next, producerNext, hp, hi, hq, call_vacant (k := Pc.push (item p i) .lock) rfl]
  refine (leads_of_next hcall).trans ((leads_of_run (push_alone hopen hroom)).trans ?_)
  refine leads_of_replicate (n := 3) (a := .producer p) ?_
  simp [List.replicate, System.run, Config.system, Config.next, producerNext, Net.goP,
    return_alone (l := Pc.push (item p i) (.ret true)) (.inl ⟨_, _, rfl⟩)]

theorem call_pop (hq : s.q = vacant d) (hc : s.consumer c = .loop) :
    M.next s (.consumer c) = some { s.goC c .inPop with q := alone (.consumer c) (.pop .lock) d } := by
  simp [Config.next, consumerNext, hc, hq, call_vacant (k := Pc.pop .lock) rfl]

theorem consume {v : ℤ} {vs : List ℤ} (hq : s.q = vacant d) (hc : s.consumer c = .loop) (hd : d.q = v :: vs) :
    Leads s { s.goC c .loop with
      q := vacant ({ d with q := vs }.commit (.consumer c) .pop (.popped (some v)))
      consumed := s.consumed + 1
      out := Function.update s.out c (s.out c ++ [v]) } := by
  refine (leads_of_next (call_pop hq hc)).trans ((leads_of_run (pop_alone hd)).trans ?_)
  refine leads_of_replicate (n := 4) (a := .consumer c) ?_
  simp [List.replicate, System.run, Config.system, Config.next, consumerNext, Net.goC,
    return_alone (l := Pc.pop (.ret (some v))) (.inr (.inl ⟨_, rfl⟩))]

theorem leave (hq : s.q = vacant d) (hc : s.consumer c = .loop) (hclosed : d.closed = true) (hd : d.q = []) :
    Leads s { s.goC c .returned with q := vacant (d.commit (.consumer c) .pop (.popped none)) } := by
  refine (leads_of_next (call_pop hq hc)).trans ((leads_of_run (pop_none_alone hclosed hd)).trans ?_)
  refine leads_of_next (a := .consumer c) ?_
  simp [Config.next, consumerNext, Net.goC, return_alone (l := Pc.pop (.ret none)) (.inr (.inl ⟨_, rfl⟩))]

theorem shut (hq : s.q = vacant d) (hp : s.producer p = .close) : Leads s { s.goP p .returned with
    q := vacant ({ d with closed := true }.commit (.producer p) .close .closed)
    closes := s.closes + 1 } := by
  have hcall : M.next s (.producer p) =
      some { s.goP p .inClose with q := alone (.producer p) (.close .lock) d, closes := s.closes + 1 } := by
    simp [Config.next, producerNext, hp, hq, call_vacant (k := Pc.close .lock) rfl]
  refine (leads_of_next hcall).trans ((leads_of_run close_alone).trans ?_)
  refine leads_of_next (a := .producer p) ?_
  simp [Config.next, producerNext, Net.goP, return_alone (l := Pc.close .ret) (.inr (.inr rfl))]

/-! ## From the start to the end -/

/-- Nobody is in the queue, which is empty, and the other threads have not got far. -/
structure Resting (s : Net M) (closed : Bool) : Prop where
  vacant : ∃ hist, s.q = vacant ⟨[], closed, hist⟩
  main : s.main = .joining

/-- A producer pushes an item, and a consumer takes it. -/
theorem produce_one {i : ℕ} (hs : Resting s false ∧ ∀ c, s.consumer c = .loop) (hp : s.producer p = .loop i)
    (hi : i < M.items) : ∃ s', Leads s s' ∧ (Resting s' false ∧ ∀ c, s'.consumer c = .loop) ∧
      s'.producer = Function.update s.producer p (.loop (i + 1)) := by
  obtain ⟨⟨⟨hist, hq⟩, hm⟩, hc⟩ := hs
  have hpush := produce hq hp hi rfl M.cap_pos
  refine ⟨_, hpush.trans (consume (c := ⟨0, M.consumers_pos⟩) rfl (hc _) rfl), ⟨⟨⟨_, rfl⟩, hm⟩, ?_⟩, rfl⟩
  exact (Function.forall_update_iff s.consumer fun _ k => k = .loop).mpr ⟨rfl, fun c _ => hc c⟩

/-- A producer pushes the rest of its items. -/
theorem produce_all {n i : ℕ} (hn : i + n = M.items) {s : Net M} (hs : Resting s false ∧ ∀ c, s.consumer c = .loop)
    (hp : s.producer p = .loop i) : ∃ s', Leads s s' ∧ (Resting s' false ∧ ∀ c, s'.consumer c = .loop) ∧
      s'.producer = Function.update s.producer p .finish := by
  induction n generalizing i s with
  | zero =>
    have hnext : M.next s (.producer p) = some (s.goP p .finish) := by
      simp [Config.next, producerNext, hp, show ¬ i < M.items by omega]
    exact ⟨_, leads_of_next hnext, ⟨⟨hs.1.vacant, hs.1.main⟩, hs.2⟩, rfl⟩
  | succ n ih =>
    obtain ⟨s₁, h₁, hrest₁, hpc₁⟩ := produce_one hs hp (by omega)
    obtain ⟨s₂, h₂, hrest₂, hpc₂⟩ := ih (i := i + 1) (by omega) hrest₁ (by rw [hpc₁, Function.update_self])
    refine ⟨s₂, h₁.trans h₂, hrest₂, ?_⟩
    rw [hpc₂, hpc₁, Function.update_idem]

/-- A producer adds itself to `producers_done`, and closes the queue if it is the last. -/
theorem finish_one (hs : (∃ closed, Resting s closed) ∧ ∀ c, s.consumer c = .loop) (hp : s.producer p = .finish) :
    ∃ s', Leads s s' ∧ ((∃ closed, Resting s' closed) ∧ ∀ c, s'.consumer c = .loop) ∧
      s'.producer = Function.update s.producer p .returned := by
  obtain ⟨⟨closed, ⟨hist, hq⟩, hm⟩, hc⟩ := hs
  have hnext : M.next s (.producer p) = some { s.goP p
      (if s.producersDone + 1 = BitVec.ofNat 32 M.producers then .close else .returned) with
        producersDone := s.producersDone + 1 } := by
    simp [Config.next, producerNext, hp]
  by_cases hlast : s.producersDone + 1 = BitVec.ofNat 32 M.producers
  · rw [if_pos hlast] at hnext
    refine ⟨_, (leads_of_next hnext).trans (shut (d := ⟨[], closed, hist⟩) hq (Function.update_self ..)),
      ⟨⟨true, ⟨_, rfl⟩, hm⟩, hc⟩, ?_⟩
    exact Function.update_idem _ _ _
  · rw [if_neg hlast] at hnext
    exact ⟨_, leads_of_next hnext, ⟨⟨closed, ⟨hist, hq⟩, hm⟩, hc⟩, rfl⟩

/-- When all producers have returned the queue is closed. -/
theorem closed_of_returned (h : M.system.Reach s) (hall : ∀ p, s.producer p = .returned) {closed : Bool}
    (hs : Resting s closed) : closed = true := by
  have hi := inv h
  have hcloses := (hi.done_of_returned hall).2
  obtain ⟨hist, hq⟩ := hs.vacant
  rcases hi.serves.shut (by omega) with hc | ⟨p, hp⟩
  · rw [hq] at hc
    exact hc
  · rw [hq] at hp
    cases hp

/-- There is a run to the end. -/
theorem completes (M : Config) : ∃ s, M.system.Reach s ∧ M.system.Quiet NetAct.counts s := by
  obtain ⟨s₁, h₁, ⟨hrest₁, hloop₁⟩, hfin₁⟩ := System.Path.each Net.producer
    (fun s => Resting s false ∧ ∀ c, s.consumer c = .loop) (.loop 0) .finish
    (fun hs hp => produce_all (n := M.items) (by omega) hs hp) (s := M.system.start) ⟨⟨⟨[], rfl⟩, rfl⟩, fun _ => rfl⟩
    fun _ => rfl
  obtain ⟨s₂, h₂, ⟨⟨closed, hrest₂⟩, hloop₂⟩, hret₂⟩ := System.Path.each Net.producer
    (fun s => (∃ closed, Resting s closed) ∧ ∀ c, s.consumer c = .loop) .finish .returned finish_one
    ⟨⟨false, hrest₁⟩, hloop₁⟩ hfin₁
  obtain rfl := closed_of_returned (h₁.trans h₂) hret₂ hrest₂
  obtain ⟨s₃, h₃, ⟨hrest₃, hret₃⟩, hdone₃⟩ := System.Path.each Net.consumer
    (fun s => Resting s true ∧ ∀ p, s.producer p = .returned) .loop .returned
    (fun {s c} ⟨⟨⟨hist, hq⟩, hm⟩, hall⟩ hc => ⟨_, leave hq hc rfl rfl, ⟨⟨⟨_, rfl⟩, hm⟩, hall⟩, rfl⟩) ⟨hrest₂, hret₂⟩ hloop₂
  -- all have returned, and `main` joins them
  have hmain : M.next s₃ .main = some { s₃ with main := .returned s₃.produced s₃.consumed } := by
    simp [Config.next, mainNext, hrest₃.main, hret₃, hdone₃]
  refine ⟨_, ((h₁.trans h₂).trans h₃).trans (leads_of_next hmain), fun a ha => ?_⟩
  obtain ⟨hist, hq⟩ := hrest₃.vacant
  cases a with
  | queue a =>
    have hnone : (queue (Thread M) ℤ Queue M.cap).next s₃.q a = none :=
      quiet_of_out (fun t => by rw [hq]; rfl) a ha
    simp [Config.system, Config.next, inside, hnone]
  | producer p => simp [Config.system, Config.next, producerNext, hret₃ p]
  | consumer c => simp [Config.system, Config.next, consumerNext, hdone₃ c]
  | main => rfl

/-- The producers and consumers of `main`, with `2 ^ 30` items for each producer. -/
def wide : Config where
  producers := 3
  consumers := 4
  items := 2 ^ 30
  cap := 8
  producers_pos := by decide
  consumers_pos := by decide
  cap_pos := by decide
  producers_int := by decide
  item_int := by omega

/-- The counters wrap. -/
theorem counters_wrap : ∃ s, wide.system.Reach s ∧ wide.system.Quiet NetAct.counts s ∧
    s.produced.toInt = -2 ^ 30 ∧ s.consumed.toInt = -2 ^ 30 := by
  obtain ⟨s, hs, hq⟩ := completes wide
  obtain ⟨hproduced, hconsumed⟩ := counters_eq hs hq
  refine ⟨s, hs, hq, ?_, ?_⟩
  · rw [hproduced]
    decide
  · rw [hconsumed]
    decide

end TKH.ManyToMany
