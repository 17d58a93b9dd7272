import ThreadingKnowHows.ClosableQueue.Model

/-!
# The blocking queues are linearizable bounded FIFO queues

Every operation takes effect in the critical section in which its wait ends:
`phase` says before which control point. With the wait predicates of
`tested`, these effects are those of `fifo` (`queue_committing`), so that the
history of the critical sections is a run of the bounded FIFO queue.
-/

namespace TKH.ClosableQueue

variable {τ α : Type*} {S : Style} {cap : ℕ}

/-- Where a control point is in its call. -/
def phase : Pc α → Phase (Op α) (Ret α)
  | .out => .idle
  | .push v p => match p with
    | .lock | .test | .sleep | .body => .pending (.push v)
    | .notify | .notifyLate => .done (.push v) (.pushed true)
    | .unlock ok | .ret ok => .done (.push v) (.pushed ok)
  | .pop p => match p with
    | .lock | .test | .sleep | .body => .pending .pop
    | .notify v | .notifyLate v => .done .pop (.popped (some v))
    | .unlock r | .ret r => .done .pop (.popped r)
  | .close p => match p with
    | .lock | .set => .pending .close
    | _ => .done .close .closed

/-- `q_` and `closed_` as the content of a FIFO queue. -/
def content (d : Data τ α) : Content α := ⟨d.q, d.closed⟩

theorem phase_call {k : Pc α} (h : isCall k = true) : ∃ op, phase k = .pending op := by
  rcases isCall_iff.mp h with ⟨v, rfl⟩ | rfl | rfl <;> exact ⟨_, rfl⟩

theorem phase_out {k : Pc α} (h : isOut k = true) : phase k = .idle := by
  rw [isOut_iff.mp h]; rfl

theorem push_commits (t : τ) (v : α) (p : PushPc) :
    (push S cap t v p).Commits held (tested cap) (fifo cap) content Data.hist phase t (.push v p) := by
  cases p with
  | test => intro d _; exact .inl ⟨rfl, rfl, by dsimp only; split <;> rfl⟩
  | body =>
    intro d hp
    have ht : mayPush cap d = true := hp rfl
    refine .inr ?_
    dsimp only
    cases hc : d.closed with
    | true => exact ⟨_, _, rfl, rfl, by simp [fifo, content, Data.commit, hc], rfl⟩
    | false =>
      have hl : d.q.length < cap := by simpa [mayPush, hc] using ht
      refine ⟨_, .pushed true, rfl, ?_, ?_, rfl⟩
      · cases S.late <;> rfl
      · simp [fifo, content, Data.commit, hc, hl]
  | unlock ok => cases hS : S.late <;> cases ok <;> simp [push, Cmd.Commits, phase, hS]
  | ret ok => exact fun k hk => .inr ⟨_, _, rfl, phase_out hk⟩
  | _ => rfl

theorem pop_commits (t : τ) (p : PopPc α) :
    (pop S t p).Commits held (tested cap) (fifo cap) content Data.hist phase t (.pop p) := by
  cases p with
  | test => intro d _; exact .inl ⟨rfl, rfl, by dsimp only; split <;> rfl⟩
  | body =>
    intro d hp
    have ht : mayPop d = true := hp rfl
    refine .inr ?_
    dsimp only
    cases hq : d.q with
    | nil =>
      have hc : d.closed = true := by simpa [mayPop, hq] using ht
      exact ⟨_, _, rfl, rfl, by simp [fifo, content, Data.commit, hq, hc], rfl⟩
    | cons v vs =>
      refine ⟨_, .popped (some v), rfl, ?_, by simp [fifo, content, Data.commit, hq], rfl⟩
      cases S.late <;> rfl
  | unlock r => cases hS : S.late <;> cases r <;> simp [pop, Cmd.Commits, phase, hS]
  | ret r => exact fun k hk => .inr ⟨_, _, rfl, phase_out hk⟩
  | _ => rfl

theorem close_commits (t : τ) (p : ClosePc) :
    (close t p : Cmd τ Cv (Data τ α) (Pc α)).Commits held (tested cap) (fifo cap) content Data.hist phase t
      (.close p) := by
  cases p with
  | set => intro d _; exact .inr ⟨_, _, rfl, rfl, rfl, rfl⟩
  | ret => exact fun k hk => .inr ⟨_, _, rfl, phase_out hk⟩
  | _ => rfl

theorem queue_committing :
    Committing (queue τ α S cap) held (fun _ => True) (tested cap) (fifo cap) content Data.hist phase where
  toAnnotation := queue_annotation
  obj_init := rfl
  hist_init := rfl
  idle _ := rfl
  commits t l := by
    cases l with
    | out => exact fun k hk => .inl ((phase_call hk).imp fun _ h => ⟨rfl, h⟩)
    | push v p => exact push_commits t v p
    | pop p => exact pop_commits t p
    | close p => exact close_commits t p

variable [DecidableEq τ] [Fintype τ]

/-- The queue as the shared FIFO queue. -/
abbrev abs (s : State τ Cv (Data τ α) (Pc α)) : Shared (Content α) τ (Op α) (Ret α) :=
  absState content Data.hist phase s

/-- The operations in the order of their critical sections, without their threads. -/
def history (s : State τ Cv (Data τ α) (Pc α)) : List (Op α × Ret α) := s.data.hist.map Prod.snd

theorem history_runs {s : State τ Cv (Data τ α) (Pc α)} (h : (queue τ α S cap).system.Reach s) :
    (fifo cap).Runs ⟨[], false⟩ (history s) (content s.data) :=
  queue_committing.linearizes.runs h

/-- The blocking queues are linearizable bounded FIFO queues. -/
theorem queue_linearizable (S : Style) (cap : ℕ) :
    Linearizes (queue τ α S cap).system (fun _ _ => True) (fifo cap) abs Act.outer ∧
    ∀ {s : State τ Cv (Data τ α) (Pc α)}, (queue τ α S cap).system.Reach s →
      s.data.q.length ≤ cap ∧
      taken (history s) ++ s.data.q = appended (history s) ∧
      (∀ t v ok, s.th t = .run (.push v (.ret ok)) →
        (s.data.hist.filter fun x => x.1 = t).getLast? = some (t, .push v, .pushed ok) ∧
          Queue.result ok = some ok) ∧
      (∀ t r, s.th t = .run (.pop (.ret r)) →
        (s.data.hist.filter fun x => x.1 = t).getLast? = some (t, .pop, .popped r)) ∧
      ∀ h₁ op r h₂, history s = h₁ ++ (op, r) :: h₂ →
        ∃ c c' : Content α, (fifo cap).Runs ⟨[], false⟩ h₁ c ∧ (fifo cap).Runs c' h₂ (content s.data) ∧
          (∀ v, op = .push v →
            (r = .pushed true ∧ c.closed = false ∧ c' = { c with items := c.items ++ [v] }) ∨
              (r = .pushed false ∧ c.closed = true ∧ c' = c)) ∧
          (c.closed = true → appended ((op, r) :: h₂) = []) ∧
          (op = .pop → (r = .popped none ↔ c.closed = true ∧ c.items = [])) ∧
          (op = .pop → r = .popped none → ∀ r', (.pop, r') ∈ h₂ → r' = .popped none) := by
  refine ⟨queue_committing.linearizes, fun {s} h => ?_⟩
  have hr := history_runs h
  have ha := queue_committing.linearizes.reach h
  refine ⟨runs_length hr (Nat.zero_le _), runs_order hr, fun t v ok ht => ⟨?_, rfl⟩, fun t r ht => ?_, ?_⟩
  · exact atomic_last ha (by simp [absState, ht, phase])
  · exact atomic_last ha (by simp [absState, ht, phase])
  · intro h₁ op r h₂ hh
    rw [hh] at hr
    obtain ⟨c, hr₁, c', ha, hr₂⟩ := Object.runs_append.mp hr
    refine ⟨c, c', hr₁, hr₂, ?_, ?_, ?_, ?_⟩
    · rintro v rfl
      rcases apply_push ha with ⟨hr, hc, -, he⟩ | hfull
      · exact .inl ⟨hr, hc, he⟩
      · exact .inr hfull
    · exact fun hc => (runs_closed (h := (op, r) :: h₂) ⟨c', ha, hr₂⟩ hc).2
    · rintro rfl
      obtain ⟨v, vs, hv, rfl, -⟩ | ⟨he, hc, rfl, -⟩ := apply_pop ha
      · simp [hv]
      · simp [he, hc]
    · rintro rfl rfl
      obtain ⟨v, vs, -, hn, -⟩ | ⟨he, hc, -, rfl⟩ := apply_pop ha
      · simp at hn
      · exact (runs_drained hr₂ hc he).2

/-- `t` pushes 7 and closes the queue, `u` pops twice. -/
def pushClosePopPop (t u : τ) : List (Act τ (Pc ℕ)) :=
  .ext t (.push 7 .lock) :: List.replicate 5 (.exec t) ++ .ext t .out ::
    .ext t (.close .lock) :: List.replicate 5 (.exec t) ++
    .ext u (.pop .lock) :: List.replicate 5 (.exec u) ++ .ext u .out ::
    .ext u (.pop .lock) :: List.replicate 4 (.exec u)

theorem queue_linearizable_drained :
    ∃ s, (queue (Fin 2) ℕ BoundedQueue 1).system.run (queue (Fin 2) ℕ BoundedQueue 1).system.start
        (pushClosePopPop 0 1) = some s ∧
      s.data.q.length ≤ 1 ∧ taken (history s) ++ s.data.q = appended (history s) ∧
      (s.data.hist.filter fun x => x.1 = 1).getLast? = some (1, .pop, .popped none) ∧
      ∃ c c' : Content ℕ, (fifo 1).Runs ⟨[], false⟩ [(.push 7, .pushed true), (.close, .closed)] c ∧
        (fifo 1).Runs c' [(.pop, .popped none)] (content s.data) ∧ c.closed = true := by
  have hr : ((queue (Fin 2) ℕ BoundedQueue 1).system.run (queue (Fin 2) ℕ BoundedQueue 1).system.start
      (pushClosePopPop 0 1)).isSome = true := by decide
  refine ⟨_, (Option.some_get hr).symm, ?_⟩
  obtain ⟨-, h⟩ := queue_linearizable (τ := Fin 2) (α := ℕ) BoundedQueue 1
  obtain ⟨h₁, h₂, -, h₃, h₄⟩ := h (System.reach_of_run (Option.some_get hr).symm)
  obtain ⟨c, c', hc, hc', -⟩ := h₄ [(.push 7, .pushed true), (.close, .closed)] .pop (.popped (some 7))
    [(.pop, .popped none)] rfl
  refine ⟨h₁, h₂, h₃ 1 none rfl, c, c', hc, hc', ?_⟩
  obtain ⟨c₁, h₁, c₂, h₂, hc⟩ := hc
  cases h₁; cases h₂; cases hc
  rfl

end TKH.ClosableQueue
