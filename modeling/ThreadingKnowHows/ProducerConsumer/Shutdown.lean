import ThreadingKnowHows.ProducerConsumer.Model

/-!
# How the producers and consumers shut down

`main` destroys the queue after it has cancelled and joined the consumers. As
long as no consumer is cancelled inside `pthread_cond_wait` this is clean
(`Clean`). The first consumer that is cancelled there ends with `q->m`, as the
program has no cleanup handler: then the next one never ends, or the mutex is
destroyed while it is locked.
-/

namespace TKH.ProducerConsumer

variable {M : Config}

/-! ## Where the threads are -/

/-- The thread that a control point belongs to. -/
def Pc.home : Pc M → Thread M
  | producer id _ => .producer id
  | consumer id _ => .consumer id
  | main _ => .main

theorem leads_home {t : Thread M} {l k : Pc M} {d : Data M} (h : ((program M).code t l).Leads d k) :
    k.home = l.home := by
  cases l with
  | producer id p =>
    cases p with
    | put i p => cases p <;> cases h <;> rfl
    | _ => cases h <;> rfl
  | consumer id p =>
    cases p with
    | get i p => cases p <;> cases h <;> rfl
    | nap i v => rcases nap_iff.mp h with rfl | ⟨rfl, -⟩ <;> rfl
    | _ => cases h <;> rfl
  | main p =>
    cases p with
    | joinProducer i | joinConsumer i | cancel i =>
      simp only [program, ProducerConsumer.main] at h
      split at h <;> cases h <;> rfl
    | _ => cases h <;> rfl

/-- The threads that `main` has joined. -/
def joined : Pc M → Thread M → Prop
  | .main (.joinProducer i), .producer id => id < i
  | .main _, .producer _ => True
  | .main (.joinConsumer j), .consumer id => id < j
  | .main .destroy, .consumer _ | .main .returned, .consumer _ => True
  | _, _ => False

variable {s s' : State (Thread M) Cv (Data M) (Pc M)}

theorem home_eq (h : (program M).system.Reach s) (t : Thread M) : (s.th t).point.home = t :=
  point_of_leads (I := fun t l => l.home = t) (by rintro (_ | _ | _) <;> rfl)
    (fun _ _ _ _ hk hl => (leads_home hk).trans hl) h t

theorem joined_home {l : Pc M} {u : Thread M} (h : joined l u) : l.home = .main := by
  cases l with
  | main => rfl
  | _ => cases u <;> exact h.elim

theorem not_joined_entry (t u : Thread M) : ¬joined ((program M).entry t) u := by
  intro hu
  cases t <;> cases u
  case main.producer id => exact Nat.not_lt_zero _ hu
  all_goals exact hu

theorem joined_of_leads {t : Thread M} {l k : Pc M} {d : Data M} {u : Thread M}
    (hk : ((program M).code t l).Leads d k) (hu : joined k u) : joined l u ∨ ((program M).code t l).awaits u = true := by
  have hl := (leads_home hk).symm.trans (joined_home hu)
  cases l with
  | producer | consumer => cases hl
  | main p =>
    cases p with
    | joinProducer i =>
      simp only [program, ProducerConsumer.main] at hk ⊢
      split at hk
      · cases hk
        cases u with
        | producer id =>
          rcases Nat.lt_succ_iff_lt_or_eq.mp hu with hlt | heq
          · exact .inl hlt
          · exact .inr (by simp [Cmd.awaits, *, Fin.ext_iff])
        | _ => exact hu.elim
      · cases hk
        cases u with
        | producer id => exact .inl (show (id : ℕ) < i by omega)
        | _ => exact hu.elim
    | joinConsumer j =>
      simp only [program, ProducerConsumer.main] at hk ⊢
      split at hk
      · cases hk
        cases u with
        | consumer id =>
          rcases Nat.lt_succ_iff_lt_or_eq.mp hu with hlt | heq
          · exact .inl hlt
          · exact .inr (by simp [Cmd.awaits, *, Fin.ext_iff])
        | producer => exact .inl trivial
        | main => exact hu.elim
      · cases hk
        cases u with
        | consumer id => exact .inl (show (id : ℕ) < j by omega)
        | producer => exact .inl trivial
        | main => exact hu.elim
    | cancel j =>
      simp only [program, ProducerConsumer.main] at hk
      split at hk <;> cases hk
      · exact .inl (by cases u <;> exact hu)
      · cases u with
        | consumer id => exact (Nat.not_lt_zero _ hu).elim
        | _ => exact .inl hu
    | nap | destroy => cases hk; exact .inl (by cases u <;> exact hu)
    | returned => cases hk

theorem halted_of_main (h : (program M).system.Reach s) {p : MainPc} (hp : s.th .main = .run (.main p))
    {u : Thread M} (hu : joined (.main p) u) : (program M).halted s u = true :=
  halted_of_joined not_joined_entry (fun _ _ _ _ _ => joined_of_leads) h (t := .main) (by rwa [hp])

/-! ## The shutdown -/

/-- No thread has ended with `q->m`, `main` is not stuck in the join of a
cancelled consumer, and if `main` is about to destroy `q->m` it is unlocked. -/
structure Clean (s : State (Thread M) Cv (Data M) (Pc M)) : Prop where
  ended : ∀ t, (program M).halted s t = true → s.owner ≠ some t
  joins : ∀ j : Fin M.consumers, s.th .main = .run (.main (.joinConsumer j)) → s.data.canceled j = true →
    (program M).halted s (.consumer j) = false → ¬(system M).Quiet CancelAct.inner s
  destroys : s.th .main = .run (.main .destroy) → s.owner = none

/-- A consumer can end, or go on, or waits. -/
theorem consumer_quiet (h : (program M).system.Reach s) (hq : (program M).Quiet s) (j : Fin M.consumers) :
    (program M).halted s (.consumer j) = true ∨ ∀ l, s.th (.consumer j) ≠ .run l := by
  rcases (program_discipline.quiet (program_discipline.locked h) hq).2 (.consumer j) with ⟨l, hl, hr⟩ | ⟨c, k, hk⟩
  · have hh := home_eq h (.consumer j)
    rw [hl, Status.point_run] at hh
    cases l with
    | producer | main => cases hh
    | consumer id p =>
      cases p with
      | loop i => exact hr.elim
      | get i p => cases p <;> exact hr.elim
      | nap i v => exact (not_step_of_quiet hq (.pick hl rfl (nap_iff.mpr (.inl rfl))) trivial).elim
      | returned | killed => exact .inl (Program.halted_iff.mpr ⟨_, hl, rfl⟩)
  · exact .inr fun l hl => by rw [hk] at hl; cases hl

/-- The shutdown is clean as long as no consumer is cancelled in a wait. -/
theorem clean_of_unharmed (h : (system M).ReachBy Unharmed s) : Clean s := by
  have hr := reach_of_unharmed h
  have hi := program_discipline.locked hr
  refine ⟨fun t ht => program_discipline.owner_alive h ht, fun j _ hj hn hq => ?_, fun hd => ?_⟩
  · obtain ⟨hP, hp⟩ := program_discipline.cancel_quiet h hq
    rcases consumer_quiet hr hP j with ht | ht
    · rw [hn] at ht; cases ht
    · exact Bool.noConfusion (hj.symm.trans (hp (.consumer j) ht))
  · cases ho : s.owner with
    | none => rfl
    | some t =>
      -- the owner has halted, or it is `main`, which does not hold the mutex
      cases t with
      | main =>
        obtain ⟨l, hl, hh⟩ := (hi.owner .main).mp ho
        cases hd.symm.trans hl
        cases hh
      | producer id => exact absurd ho (program_discipline.owner_alive h (halted_of_main hr hd trivial))
      | consumer id => exact absurd ho (program_discipline.owner_alive h (halted_of_main hr hd trivial))

/-- After the first consumer that is cancelled in a wait no state is clean. -/
theorem never_clean_again {t : Thread M} {ok : State (Thread M) Cv (Data M) (Pc M) → CancelAct (Thread M) (Pc M) → Prop}
    {s₁ s₂ : State (Thread M) Cv (Data M) (Pc M)} (hd : (system M).next s (.die t) = some s₁)
    (h : (system M).Path ok s₁ s₂) : ¬Clean s₂ := by
  obtain ⟨ht, ho⟩ := owner_of_die (by rintro (_ | _ | _) <;> rfl) hd
  obtain ⟨ht, ho⟩ := owner_forever h ht ho
  exact fun hc => hc.ended t ht ho

theorem not_clean_of_harmed {a : CancelAct (Thread M) (Pc M)} (ha : (system M).next s a = some s')
    (hn : ¬Unharmed s a) : ¬Clean s' := by
  cases a with
  | step a => exact absurd trivial hn
  | die t => exact never_clean_again ha (.refl : (system M).Path (fun _ _ => True) s' s')

/-- In a run the shutdown is clean exactly if no consumer is cancelled inside
`pthread_cond_wait`. -/
theorem shutdown_clean_iff {as : List (CancelAct (Thread M) (Pc M))}
    (h : (system M).run (system M).start as = some s) :
    (system M).Always Clean (system M).start as ↔ (system M).Along Unharmed (system M).start as :=
  System.always_iff_along clean_of_unharmed (fun _ => not_clean_of_harmed) h

/-- The program as it is. -/
abbrev asIs : Config := { cap := 4, producers := 2, consumers := 3, items := 8 }

/-- `t` takes `n` steps. -/
def steps (t : Thread asIs) (n : ℕ) : List (CancelAct (Thread asIs) (Pc asIs)) :=
  List.replicate n (.step (.exec t))

/-- The producer `id` puts four items. -/
def putFour (id : Fin 2) : List (CancelAct (Thread asIs) (Pc asIs)) := steps (.producer id) 28

/-- The consumer `id` takes its items from the `i`-th to before the `n`-th. -/
def take (id : Fin 3) (i n : ℕ) : List (CancelAct (Thread asIs) (Pc asIs)) :=
  (List.range' i (n - i)).flatMap fun m =>
    steps (.consumer id) 6 ++ [.step (.pick (.consumer id) (.consumer id (.loop (m + 1))))]

/-- The consumers get 6, 5 and 5 items. The first returns, and `main` has
joined the second, which was cancelled in its wait, as the third is. -/
def twoWait (p₁ p₂ : Fin 2) (c₁ c₂ c₃ : Fin 3) : List (CancelAct (Thread asIs) (Pc asIs)) :=
  putFour p₁ ++ take c₁ 0 4 ++ putFour p₁ ++ take c₁ 4 6 ++ take c₂ 0 2 ++
  putFour p₂ ++ take c₂ 2 5 ++ take c₃ 0 1 ++ putFour p₂ ++ take c₃ 1 5 ++
  steps (.producer p₁) 1 ++ steps (.producer p₂) 1 ++ steps (.consumer c₁) 1 ++
  steps (.consumer c₂) 4 ++ steps (.consumer c₃) 4 ++ steps .main 9 ++
  .die (.consumer c₂) :: steps .main 1

/-- The consumers get 6, 6 and 4 items. Two return, and `main` has joined the
third, which was cancelled in its wait. -/
def oneWaits (p₁ p₂ : Fin 2) (c₁ c₂ c₃ : Fin 3) : List (CancelAct (Thread asIs) (Pc asIs)) :=
  putFour p₁ ++ take c₁ 0 4 ++ putFour p₁ ++ take c₁ 4 6 ++ take c₂ 0 2 ++
  putFour p₂ ++ take c₂ 2 6 ++ putFour p₂ ++ take c₃ 0 4 ++
  steps (.producer p₁) 1 ++ steps (.producer p₂) 1 ++ steps (.consumer c₁) 1 ++
  steps (.consumer c₂) 1 ++ steps (.consumer c₃) 4 ++ steps .main 10 ++
  .die (.consumer c₃) :: steps .main 2

/-- `main` joins the third consumer for ever, or destroys a locked mutex. -/
theorem shutdown_not_clean :
    (∃ s, (system asIs).run (system asIs).start (twoWait 0 1 0 1 2) = some s ∧
      (program asIs).halted s (.consumer 1) = true ∧ s.owner = some (.consumer 1) ∧
      s.th .main = .run (.main (.joinConsumer 2)) ∧ s.data.canceled 2 = true ∧
      (program asIs).halted s (.consumer 2) = false ∧ (system asIs).Quiet CancelAct.inner s) ∧
    ∃ s, (system asIs).run (system asIs).start (oneWaits 0 1 0 1 2) = some s ∧
      s.th .main = .run (.main .destroy) ∧ s.owner = some (.consumer 2) := by
  constructor
  · have hr : ((system asIs).run (system asIs).start (twoWait 0 1 0 1 2)).any fun s =>
        (program asIs).halted s (.consumer 1) = true ∧ s.owner = some (.consumer 1) ∧
        s.th .main = .run (.main (.joinConsumer 2)) ∧ s.data.canceled 2 = true ∧
        (program asIs).halted s (.consumer 2) = false ∧ ∀ t, (program asIs).blocked s t = true := by
      decide +kernel
    obtain ⟨s, hs, hp⟩ := System.exists_of_run hr
    obtain ⟨h1, h2, h3, h4, h5, hb⟩ := of_decide_eq_true hp
    exact ⟨s, hs, h1, h2, h3, h4, h5, cancel_quiet_of_blocked hb (by simp [h2])⟩
  · have hr : ((system asIs).run (system asIs).start (oneWaits 0 1 0 1 2)).any fun s =>
        s.th .main = .run (.main .destroy) ∧ s.owner = some (.consumer 2) := by decide +kernel
    obtain ⟨s, hs, hp⟩ := System.exists_of_run hr
    exact ⟨s, hs, of_decide_eq_true hp⟩

/-- One producer, and one consumer that is cancelled in its `usleep`. -/
def cancelNap : List (CancelAct (Thread ⟨1, 1, 1, 1⟩) (Pc ⟨1, 1, 1, 1⟩)) :=
  List.replicate 8 (.step (.exec (.producer 0))) ++ List.replicate 6 (.step (.exec (.consumer 0))) ++
  List.replicate 5 (.step (.exec .main)) ++ .step (.pick (.consumer 0) (.consumer 0 .killed)) ::
  List.replicate 3 (.step (.exec .main))

theorem shutdown_clean_nap : (system ⟨1, 1, 1, 1⟩).Always Clean (system ⟨1, 1, 1, 1⟩).start cancelNap := by
  have hr : ((system ⟨1, 1, 1, 1⟩).run (system ⟨1, 1, 1, 1⟩).start cancelNap).isSome = true := by decide +kernel
  exact (shutdown_clean_iff (Option.some_get hr).symm).mpr (by decide +kernel)

end TKH.ProducerConsumer
