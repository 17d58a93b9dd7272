import ThreadingKnowHows.ClosableQueue.Wakeup

/-!
# A queue between one producer and one consumer

When one thread pushes and closes and another one pops, the queue is a
channel: `Channel` relates where the two are to what has been sent and
received. It holds whatever the critical sections do (`Channel.commit`); a
producer that never pushes after it has closed is never rejected. When both
are stuck inside the queue, it is open and not empty, or open and empty
(`Channel.quiet_push`, `Channel.quiet_pop`).
-/

namespace TKH.ClosableQueue

variable {τ α : Type*}

/-- Where the producer is: outside, in a call, or done. -/
inductive Feed (α : Type*)
  | out
  | push (w : α)
  | close
  | closed

/-- Where the consumer is: outside, in `pop`, or told that nothing is left. -/
inductive Take
  | out
  | pop
  | ended

/-- The value of a push that has not returned. -/
def Feed.hand : Feed α → List α
  | push w => [w]
  | _ => []

/-- The operations that took effect on a shared queue. -/
abbrev ops (S : Shared (Content α) τ (Op α) (Ret α)) : List (Op α × Ret α) := S.hist.map Prod.snd

theorem mem_ops_concat {h : List (τ × Op α × Ret α)} {x : τ × Op α × Ret α} {y : Op α × Ret α} :
    y ∈ (h ++ [x]).map Prod.snd ↔ y ∈ h.map Prod.snd ∨ y = x.2 := by
  rw [List.map_append, List.mem_append, List.map_singleton, List.mem_singleton]

/-- The pushes of `p` that have returned sent `sent`. -/
def Produces (S : Shared (Content α) τ (Op α) (Ret α)) (p : τ) (sent : List α) : Feed α → Prop
  | .out => S.phase p = .idle ∧ S.obj.closed = false ∧ appended (ops S) = sent
  | .push w => S.obj.closed = false ∧
      ((S.phase p = .pending (.push w) ∧ appended (ops S) = sent) ∨
        (S.phase p = .done (.push w) (.pushed true) ∧ appended (ops S) = sent ++ [w]))
  | .close => appended (ops S) = sent ∧
      ((S.phase p = .pending .close ∧ S.obj.closed = false) ∨
        (S.phase p = .done .close .closed ∧ S.obj.closed = true))
  | .closed => S.phase p = .idle ∧ S.obj.closed = true ∧ appended (ops S) = sent

/-- The pops of `c` that have returned got `got`. -/
def Consumes (S : Shared (Content α) τ (Op α) (Ret α)) (c : τ) (got : List α) : Take → Prop
  | .out => S.phase c = .idle ∧ taken (ops S) = got
  | .pop => (S.phase c = .pending .pop ∧ taken (ops S) = got) ∨
      (∃ v, S.phase c = .done .pop (.popped (some v)) ∧ taken (ops S) = got ++ [v]) ∨
      (S.phase c = .done .pop (.popped none) ∧ taken (ops S) = got ∧ S.obj.closed = true ∧ S.obj.items = [])
  | .ended => S.phase c = .idle ∧ taken (ops S) = got ∧ S.obj.closed = true ∧ S.obj.items = []

structure Channel (S : Shared (Content α) τ (Op α) (Ret α)) (p c : τ) (feed : Feed α) (sent : List α)
    (take : Take) (got : List α) : Prop where
  produces : Produces S p sent feed
  consumes : Consumes S c got take
  others : ∀ t, t ≠ p → t ≠ c → S.phase t = .idle
  accepted : ∀ v, (Op.push v, Ret.pushed false) ∉ ops S

variable {S S' : Shared (Content α) τ (Op α) (Ret α)} {p c : τ} {feed feed' : Feed α}
  {sent sent' got got' : List α} {take take' : Take} {cap : ℕ}

/-! ## Steps -/

theorem Produces.frame (h : Produces S p sent feed) (hp : S'.phase p = S.phase p)
    (hc : S'.obj.closed = S.obj.closed) (ha : appended (ops S') = appended (ops S)) :
    Produces S' p sent feed := by
  cases feed <;> simpa only [Produces, hp, hc, ha] using h

theorem Consumes.frame (h : Consumes S c got take) (hc : S'.phase c = S.phase c)
    (ht : taken (ops S') = taken (ops S))
    (hd : S.obj.closed = true → S.obj.items = [] → S'.obj.closed = true ∧ S'.obj.items = []) :
    Consumes S' c got take := by
  cases take with
  | out => simpa only [Consumes, hc, ht] using h
  | pop =>
    refine h.imp (by simp only [hc, ht]; exact id) (Or.imp ?_ ?_)
    · simp only [hc, ht]; exact id
    · rintro ⟨hp, hg, hcl, he⟩; exact ⟨hc.trans hp, ht.trans hg, hd hcl he⟩
  | ended =>
    obtain ⟨hp, hg, hcl, he⟩ := h
    exact ⟨hc.trans hp, ht.trans hg, hd hcl he⟩

variable [DecidableEq τ]

/-- The producer calls or returns. -/
theorem Channel.move_producer (h : Channel S p c feed sent take got) (hpc : p ≠ c)
    {x : Phase (Op α) (Ret α)} (hp : Produces { S with phase := Function.update S.phase p x } p sent' feed') :
    Channel { S with phase := Function.update S.phase p x } p c feed' sent' take got where
  produces := hp
  consumes := h.consumes.frame (Function.update_of_ne hpc.symm ..) rfl fun hc he => ⟨hc, he⟩
  others t ht ht' := (Function.update_of_ne ht ..).trans (h.others t ht ht')
  accepted := h.accepted

/-- The consumer calls or returns. -/
theorem Channel.move_consumer (h : Channel S p c feed sent take got) (hpc : p ≠ c)
    {x : Phase (Op α) (Ret α)} (hc : Consumes { S with phase := Function.update S.phase c x } c got' take') :
    Channel { S with phase := Function.update S.phase c x } p c feed sent take' got' where
  produces := h.produces.frame (Function.update_of_ne hpc ..) rfl rfl
  consumes := hc
  others t ht ht' := (Function.update_of_ne ht' ..).trans (h.others t ht ht')
  accepted := h.accepted

/-- What the producer does in a critical section: it pushes on an open queue,
or closes it. -/
theorem Produces.commit (h : Produces S p sent feed) {op : Op α} {r : Ret α} {q : Content α}
    (hp : S.phase p = .pending op) (ho : (fifo cap).apply S.obj op = some (r, q)) :
    S.obj.closed = false ∧ takes (op, r) = none ∧ (∀ v, (op, r) ≠ (.push v, .pushed false)) ∧
      Produces ⟨q, Function.update S.phase p (.done op r), S.hist ++ [(p, op, r)]⟩ p sent feed := by
  cases feed with
  | out | closed => rw [h.1] at hp; cases hp
  | push w =>
    obtain ⟨hc, ⟨hp', ha⟩ | ⟨hp', -⟩⟩ := h
    · cases hp.symm.trans hp'
      obtain ⟨rfl, -, -, rfl⟩ | ⟨-, hc', -⟩ := apply_push ho
      · exact ⟨hc, rfl, by simp, hc, .inr ⟨Function.update_self .., by simp [ops, appends] at ha ⊢; exact ha⟩⟩
      · rw [hc] at hc'; cases hc'
    · rw [hp] at hp'; cases hp'
  | close =>
    obtain ⟨ha, ⟨hp', hc⟩ | ⟨hp', -⟩⟩ := h
    · cases hp.symm.trans hp'
      obtain ⟨rfl, rfl⟩ := apply_close ho
      exact ⟨hc, rfl, by simp, by simp [ops, appends] at ha ⊢; exact ha, .inr ⟨Function.update_self .., rfl⟩⟩
    · rw [hp] at hp'; cases hp'

/-- What the consumer does in a critical section: it pops. -/
theorem Consumes.commit (h : Consumes S c got take) {op : Op α} {r : Ret α} {q : Content α}
    (hp : S.phase c = .pending op) (ho : (fifo cap).apply S.obj op = some (r, q)) :
    op = .pop ∧ q.closed = S.obj.closed ∧
      Consumes ⟨q, Function.update S.phase c (.done op r), S.hist ++ [(c, op, r)]⟩ c got take := by
  cases take with
  | out | ended => rw [h.1] at hp; cases hp
  | pop =>
    obtain ⟨hp', ht⟩ | ⟨v, hp', -⟩ | ⟨hp', -⟩ := h
    · cases hp.symm.trans hp'
      obtain ⟨v, vs, hv, rfl, rfl⟩ | ⟨he, hc, rfl, rfl⟩ := apply_pop ho
      · exact ⟨rfl, rfl, .inr (.inl ⟨v, Function.update_self .., by simp [ops, takes] at ht ⊢; exact ht⟩)⟩
      · exact ⟨rfl, rfl, .inr (.inr ⟨Function.update_self .., by simp [ops, takes] at ht ⊢; exact ht, hc, he⟩)⟩
    · rw [hp] at hp'; cases hp'
    · rw [hp] at hp'; cases hp'

theorem Channel.commit (h : Channel S p c feed sent take got) (hpc : p ≠ c) {t : τ}
    (ha : (atomic (fifo cap)).next S (.commit t) = some S') : Channel S' p c feed sent take got := by
  obtain ⟨op, r, q, hp, ho, rfl⟩ := atomic_commit ha
  by_cases htp : t = p
  · subst htp
    obtain ⟨hc, hn, hr, hprod⟩ := h.produces.commit hp ho
    refine ⟨hprod, h.consumes.frame (Function.update_of_ne hpc.symm ..) ?_ ?_, fun u hu hu' => ?_, fun v hv => ?_⟩
    · simp [ops, hn]
    · intro hc'; rw [hc] at hc'; cases hc'
    · exact (Function.update_of_ne hu ..).trans (h.others u hu hu')
    · rcases mem_ops_concat.mp hv with hv | hv
      · exact h.accepted v hv
      · exact hr v hv.symm
  · by_cases htc : t = c
    · subst htc
      obtain ⟨rfl, hc, hcons⟩ := h.consumes.commit hp ho
      refine ⟨h.produces.frame (Function.update_of_ne hpc ..) hc ?_, hcons, fun u hu hu' => ?_, fun v hv => ?_⟩
      · simp [ops, appends]
      · exact (Function.update_of_ne hu' ..).trans (h.others u hu hu')
      · rcases mem_ops_concat.mp hv with hv | hv
        · exact h.accepted v hv
        · cases hv
    · rw [h.others t htp htc] at hp; cases hp

/-! ## Calls and returns -/

theorem Channel.call_push (h : Channel S p c .out sent take got) (hpc : p ≠ c) (w : α) :
    Channel { S with phase := Function.update S.phase p (.pending (.push w)) } p c (.push w) sent take got :=
  h.move_producer hpc ⟨h.produces.2.1, .inl ⟨Function.update_self .., h.produces.2.2⟩⟩

theorem Channel.return_push {w : α} (h : Channel S p c (.push w) sent take got) (hpc : p ≠ c) {op : Op α}
    {r : Ret α} (hd : S.phase p = .done op r) :
    Channel { S with phase := Function.update S.phase p .idle } p c .out (sent ++ [w]) take got := by
  obtain ⟨hc, ⟨hp, -⟩ | ⟨-, ha⟩⟩ := h.produces
  · rw [hd] at hp; cases hp
  · exact h.move_producer hpc ⟨Function.update_self .., hc, ha⟩

theorem Channel.call_close (h : Channel S p c .out sent take got) (hpc : p ≠ c) :
    Channel { S with phase := Function.update S.phase p (.pending .close) } p c .close sent take got :=
  h.move_producer hpc ⟨h.produces.2.2, .inl ⟨Function.update_self .., h.produces.2.1⟩⟩

theorem Channel.return_close (h : Channel S p c .close sent take got) (hpc : p ≠ c) {op : Op α}
    {r : Ret α} (hd : S.phase p = .done op r) :
    Channel { S with phase := Function.update S.phase p .idle } p c .closed sent take got := by
  obtain ⟨ha, ⟨hp, -⟩ | ⟨-, hc⟩⟩ := h.produces
  · rw [hd] at hp; cases hp
  · exact h.move_producer hpc ⟨Function.update_self .., hc, ha⟩

theorem Channel.call_pop (h : Channel S p c feed sent .out got) (hpc : p ≠ c) :
    Channel { S with phase := Function.update S.phase c (.pending .pop) } p c feed sent .pop got :=
  h.move_consumer hpc (.inl ⟨Function.update_self .., h.consumes.2⟩)

theorem Channel.return_some (h : Channel S p c feed sent .pop got) (hpc : p ≠ c) {op : Op α} {v : α}
    (hd : S.phase c = .done op (.popped (some v))) :
    Channel { S with phase := Function.update S.phase c .idle } p c feed sent .out (got ++ [v]) := by
  obtain ⟨hp, -⟩ | ⟨v', hp, ht⟩ | ⟨hp, -⟩ := h.consumes
  · rw [hd] at hp; cases hp
  · cases hd.symm.trans hp
    exact h.move_consumer hpc ⟨Function.update_self .., ht⟩
  · cases hd.symm.trans hp

theorem Channel.return_none (h : Channel S p c feed sent .pop got) (hpc : p ≠ c) {op : Op α}
    (hd : S.phase c = .done op (.popped none)) :
    Channel { S with phase := Function.update S.phase c .idle } p c feed sent .ended got := by
  obtain ⟨hp, -⟩ | ⟨v', hp, -⟩ | ⟨-, ht, hc, he⟩ := h.consumes
  · rw [hd] at hp; cases hp
  · cases hd.symm.trans hp
  · exact h.move_consumer hpc ⟨Function.update_self .., ht, hc, he⟩

/-! ## What is received -/

omit [DecidableEq τ] in
/-- What is received is what was sent, or the first part of it. -/
theorem Channel.received (h : Channel S p c feed sent take got)
    (hr : (fifo cap).Runs ⟨[], false⟩ (ops S) S.obj) : got <+: sent ++ feed.hand := by
  have htaken : got <+: taken (ops S) := by
    have := h.consumes
    cases take with
    | out => rw [this.2]
    | ended => rw [this.2.1]
    | pop =>
      obtain ⟨-, ht⟩ | ⟨v, -, ht⟩ | ⟨-, ht, -⟩ := this
      · rw [ht]
      · exact ⟨[v], ht.symm⟩
      · rw [ht]
  have happended : appended (ops S) <+: sent ++ feed.hand := by
    have := h.produces
    cases feed with
    | out | closed => simp [this.2.2, Feed.hand]
    | push w =>
      obtain ⟨-, ⟨-, ha⟩ | ⟨-, ha⟩⟩ := this
      · exact ⟨[w], by rw [ha]; rfl⟩
      · simp [ha, Feed.hand]
    | close => simp [this.1, Feed.hand]
  exact htaken.trans ((show taken (ops S) <+: appended (ops S) from ⟨_, runs_order hr⟩).trans happended)

omit [DecidableEq τ] in
/-- When the consumer is told that nothing is left, the producer has closed
the queue, and everything was received. -/
theorem Channel.drained (h : Channel S p c feed sent .ended got)
    (hr : (fifo cap).Runs ⟨[], false⟩ (ops S) S.obj) : got = sent := by
  obtain ⟨-, ht, hc, he⟩ := h.consumes
  have ho := runs_order hr
  rw [he, ht] at ho
  have := h.produces
  cases feed with
  | out => exact absurd (hc.symm.trans this.2.1) (by decide)
  | push w => exact absurd (hc.symm.trans this.1) (by decide)
  | close => simpa [this.1] using ho
  | closed => simpa [this.2.2] using ho

/-! ## Quiet states -/

/-- The operation a thread is in. -/
def current : Phase (Op α) (Ret α) → Option (Op α)
  | .idle => none
  | .pending op | .done op _ => some op

def Feed.op : Feed α → Option (Op α)
  | push w => some (.push w)
  | close => some .close
  | _ => none

def Take.op : Take → Option (Op α)
  | pop => some .pop
  | _ => none

omit [DecidableEq τ] in
theorem Channel.producer_current (h : Channel S p c feed sent take got) :
    current (S.phase p) = feed.op := by
  have := h.produces
  cases feed with
  | out | closed => rw [this.1]; rfl
  | push w => rcases this.2 with ⟨hp, -⟩ | ⟨hp, -⟩ <;> rw [hp] <;> rfl
  | close => rcases this.2 with ⟨hp, -⟩ | ⟨hp, -⟩ <;> rw [hp] <;> rfl

omit [DecidableEq τ] in
theorem Channel.consumer_current (h : Channel S p c feed sent take got) :
    current (S.phase c) = take.op := by
  have := h.consumes
  cases take with
  | out | ended => rw [this.1]; rfl
  | pop => rcases this with ⟨hp, -⟩ | ⟨v, hp, -⟩ | ⟨hp, -⟩ <;> rw [hp] <;> rfl

variable [Fintype τ] {st : Style} {q : State τ Cv (Data τ α) (Pc α)} {t : τ}

/-- Where a thread is in a quiet state, by the operation it is in: outside,
about to return, or asleep for a reason. -/
theorem quiet_cases (h : (queue τ α st cap).system.Reach q) (hq : (queue τ α st cap).Quiet q) :
    match current ((abs q).phase t) with
    | none => q.th t = .run .out
    | some (.push w) => (∃ ok, q.th t = .run (.push w (.ret ok))) ∨
        (q.data.closed = false ∧ q.data.q.length = cap)
    | some .pop => (∃ r, q.th t = .run (.pop (.ret r))) ∨ (q.data.closed = false ∧ q.data.q = [])
    | some .close => q.th t = .run (.close .ret) := by
  rcases (queue_discipline.quiet (queue_discipline.locked h) hq).2 t with ⟨l, hl, hr⟩ | ⟨cv, k, hk⟩
  · simp only [absState, hl, Status.point_run]
    cases l with
    | out => rfl
    | push v pc => cases pc <;> first | exact hr.elim | exact .inl ⟨_, rfl⟩
    | pop pc => cases pc <;> first | exact hr.elim | exact .inl ⟨_, rfl⟩
    | close pc => cases pc <;> first | exact hr.elim | rfl
  · obtain ⟨l, hc⟩ := Program.wait_of_asleep h hk
    obtain ⟨rfl, v, rfl⟩ | ⟨rfl, rfl⟩ := wait_point hc
    · simp only [absState, hk, Status.point_asleep]
      exact .inr (full_quiet h hq hk)
    · simp only [absState, hk, Status.point_asleep]
      exact .inr (empty_quiet h hq hk)

end TKH.ClosableQueue
