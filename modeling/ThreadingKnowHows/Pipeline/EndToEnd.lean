import ThreadingKnowHows.ClosableQueue.Client
import ThreadingKnowHows.Pipeline.Model

/-!
# The pipeline, end to end

Each queue is a channel between two neighbours, and the code of a thread says
where it is in its two channels (`feed`, `take`) and what it holds between
them (`hand`). A stage has received what it has sent, transformed, and what it
holds (`Flows`), so that what arrives at the sink is the transformed input, or
the first part of it. A state in which no thread can go on is the end: a stuck
thread would wait for a neighbour that is stuck as well, up to the source or
down to the sink.
-/

namespace TKH.Pipeline

open ClosableQueue

variable {α β γ : Type} {cap : ℕ}

/-! ## Steps across and within a queue -/

theorem across_reach {q q' : Q α} {t : Thread} {k : Pc α} (hr : (queue Thread α BQ cap).system.Reach q)
    (h : across cap q t k = some q') : (queue Thread α BQ cap).system.Reach q' :=
  cross_reach hr h

theorem across_abs {q q' : Q α} {t : Thread} {k : Pc α} (h : across cap q t k = some q') :
    abs q' = { abs q with phase := Function.update (abs q).phase t (phase k) } :=
  cross_abs (show cross BQ cap q t k = some q' from h)

/-- Only a thread whose operation took effect returns. -/
theorem across_out {q q' : Q α} {t : Thread} (h : across cap q t .out = some q') :
    ∃ op r, (abs q).phase t = .done op r :=
  cross_out (show cross BQ cap q t .out = some q' from h)

theorem across_call {q : Q α} {t : Thread} {k : Pc α} (ht : q.th t = .run .out) (hk : isCall k = true) :
    across cap q t k = some (q.goto t k) :=
  cross_call ht hk

theorem across_return {q : Q α} {t : Thread} {l : Pc α} (ht : q.th t = .run l)
    (hl : (∃ v ok, l = .push v (.ret ok)) ∨ (∃ r, l = .pop (.ret r)) ∨ l = .close .ret) :
    across cap q t .out = some (q.goto t .out) :=
  cross_return ht hl

theorem within_reach {q q' : Q α} {a : Act Thread (Pc α)} (hr : (queue Thread α BQ cap).system.Reach q)
    (h : within cap q a = some q') : (queue Thread α BQ cap).system.Reach q' :=
  inside_reach hr h

theorem within_channel {q q' : Q α} {a : Act Thread (Pc α)} {p c : Thread} {feed : Feed α}
    {sent got : List α} {take : Take} (hr : (queue Thread α BQ cap).system.Reach q)
    (h : within cap q a = some q') (hpc : p ≠ c) (hc : Channel (abs q) p c feed sent take got) :
    Channel (abs q') p c feed sent take got := by
  rcases inside_abs hr h with he | ⟨u, ha⟩
  · exact he ▸ hc
  · exact hc.commit hpc ha

/-! ## The threads -/

def Source.feed : Source α → Feed α
  | loop _ => .out
  | inPush x _ => .push x
  | inClose => .close
  | returned => .closed

/-- The inputs that `source` has not pushed. -/
def Source.rest : Source α → List α
  | loop xs => xs
  | inPush x xs => x :: xs
  | _ => []

def Stage.take : Stage β → Take
  | loop | push _ | inPush _ => .out
  | inPop => .pop
  | close | inClose | returned => .ended

def Stage.feed : Stage β → Feed β
  | inPush w => .push w
  | inClose => .close
  | returned => .closed
  | _ => .out

/-- What a stage has transformed and not pushed. -/
def Stage.hand : Stage β → List β
  | push w | inPush w => [w]
  | _ => []

def Sink.take : Sink γ → Take
  | loop _ => .out
  | inPop _ => .pop
  | returned _ => .ended

theorem source_step {q q' : Q α} {c c' : Source α} {d : Thread} {sent got : List α} {take : Take}
    (hd : Thread.source ≠ d) (h : sourceNext cap q c = some (c', q'))
    (hr : (queue Thread α BQ cap).system.Reach q) (hc : Channel (abs q) .source d c.feed sent take got) :
    (queue Thread α BQ cap).system.Reach q' ∧
      ∃ sent', Channel (abs q') .source d c'.feed sent' take got ∧ sent' ++ c'.rest = sent ++ c.rest := by
  cases c with
  | loop xs =>
    cases xs with
    | nil =>
      obtain ⟨_, hq, heq⟩ := Option.map_eq_some_iff.mp h
      cases heq
      exact ⟨across_reach hr hq, sent, across_abs hq ▸ hc.call_close hd, rfl⟩
    | cons x xs =>
      obtain ⟨_, hq, heq⟩ := Option.map_eq_some_iff.mp h
      cases heq
      exact ⟨across_reach hr hq, sent, across_abs hq ▸ hc.call_push hd x, rfl⟩
  | inPush x xs =>
    obtain ⟨_, hq, heq⟩ := Option.map_eq_some_iff.mp h
    cases heq
    obtain ⟨op, r, hp⟩ := across_out hq
    exact ⟨across_reach hr hq, sent ++ [x], across_abs hq ▸ hc.return_push hd hp, by simp [Source.rest]⟩
  | inClose =>
    obtain ⟨_, hq, heq⟩ := Option.map_eq_some_iff.mp h
    cases heq
    obtain ⟨op, r, hp⟩ := across_out hq
    exact ⟨across_reach hr hq, sent, across_abs hq ▸ hc.return_close hd hp, rfl⟩
  | returned => cases h

theorem stage_step {f : α → β} {t p d : Thread} {capIn capOut : ℕ} {i i' : Q α} {o o' : Q β}
    {c c' : Stage β} {feed : Feed α} {sent got : List α} {take : Take} {sent' got' : List β}
    (hp : p ≠ t) (hd : t ≠ d) (h : stageNext f t capIn capOut i o c = some (c', i', o'))
    (hri : (queue Thread α BQ capIn).system.Reach i) (hro : (queue Thread β BQ capOut).system.Reach o)
    (hi : Channel (abs i) p t feed sent c.take got) (ho : Channel (abs o) t d c.feed sent' take got')
    (he : got.map f = sent' ++ c.hand) :
    (queue Thread α BQ capIn).system.Reach i' ∧ (queue Thread β BQ capOut).system.Reach o' ∧
      ∃ got₁ sent₁, Channel (abs i') p t feed sent c'.take got₁ ∧ Channel (abs o') t d c'.feed sent₁ take got' ∧
        got₁.map f = sent₁ ++ c'.hand := by
  cases c with
  | loop =>
    obtain ⟨_, hq, heq⟩ := Option.map_eq_some_iff.mp h
    cases heq
    exact ⟨across_reach hri hq, hro, got, sent', across_abs hq ▸ hi.call_pop hp, ho, he⟩
  | inPop =>
    simp only [stageNext] at h
    split at h
    · rename_i v hv
      obtain ⟨_, hq, heq⟩ := Option.map_eq_some_iff.mp h
      cases heq
      have hdone : (abs i).phase t = .done .pop (.popped (some v)) := by simp [absState, hv, phase]
      refine ⟨across_reach hri hq, hro, got ++ [v], sent', across_abs hq ▸ hi.return_some hp hdone, ho, ?_⟩
      have he : got.map f = sent' := by simpa [Stage.hand] using he
      simp [Stage.hand, he]
    · rename_i hv
      obtain ⟨_, hq, heq⟩ := Option.map_eq_some_iff.mp h
      cases heq
      have hdone : (abs i).phase t = .done .pop (.popped none) := by simp [absState, hv, phase]
      exact ⟨across_reach hri hq, hro, got, sent', across_abs hq ▸ hi.return_none hp hdone, ho, he⟩
    · cases h
  | push w =>
    obtain ⟨_, hq, heq⟩ := Option.map_eq_some_iff.mp h
    cases heq
    exact ⟨hri, across_reach hro hq, got, sent', hi, across_abs hq ▸ ho.call_push hd w, he⟩
  | inPush w =>
    obtain ⟨_, hq, heq⟩ := Option.map_eq_some_iff.mp h
    cases heq
    obtain ⟨op, r, hdone⟩ := across_out hq
    exact ⟨hri, across_reach hro hq, got, sent' ++ [w], hi, across_abs hq ▸ ho.return_push hd hdone,
      by simpa [Stage.hand] using he⟩
  | close =>
    obtain ⟨_, hq, heq⟩ := Option.map_eq_some_iff.mp h
    cases heq
    exact ⟨hri, across_reach hro hq, got, sent', hi, across_abs hq ▸ ho.call_close hd, he⟩
  | inClose =>
    obtain ⟨_, hq, heq⟩ := Option.map_eq_some_iff.mp h
    cases heq
    obtain ⟨op, r, hdone⟩ := across_out hq
    exact ⟨hri, across_reach hro hq, got, sent', hi, across_abs hq ▸ ho.return_close hd hdone, he⟩
  | returned => cases h

theorem sink_step {q q' : Q γ} {c c' : Sink γ} {p : Thread} {feed : Feed γ} {sent : List γ}
    (hp : p ≠ .sink) (h : sinkNext cap q c = some (c', q'))
    (hr : (queue Thread γ BQ cap).system.Reach q) (hc : Channel (abs q) p .sink feed sent c.take c.out) :
    (queue Thread γ BQ cap).system.Reach q' ∧ Channel (abs q') p .sink feed sent c'.take c'.out := by
  cases c with
  | loop out =>
    obtain ⟨_, hq, heq⟩ := Option.map_eq_some_iff.mp h
    cases heq
    exact ⟨across_reach hr hq, across_abs hq ▸ hc.call_pop hp⟩
  | inPop out =>
    simp only [sinkNext] at h
    split at h
    · rename_i v hv
      obtain ⟨_, hq, heq⟩ := Option.map_eq_some_iff.mp h
      cases heq
      have hdone : (abs q).phase .sink = .done .pop (.popped (some v)) := by simp [absState, hv, phase]
      exact ⟨across_reach hr hq, across_abs hq ▸ hc.return_some hp hdone⟩
    · rename_i hv
      obtain ⟨_, hq, heq⟩ := Option.map_eq_some_iff.mp h
      cases heq
      have hdone : (abs q).phase .sink = .done .pop (.popped none) := by simp [absState, hv, phase]
      exact ⟨across_reach hr hq, across_abs hq ▸ hc.return_none hp hdone⟩
    · cases h
  | returned out => cases h

/-! ## Runs -/

/-- What went through the pipeline so far. -/
structure Flows (P : Config α β γ) (s : Net α β γ) (sent1 got1 : List α) (sent2 got2 : List β)
    (sent3 : List γ) : Prop where
  reach1 : (queue Thread α BQ P.cap1).system.Reach s.q1
  reach2 : (queue Thread β BQ P.cap2).system.Reach s.q2
  reach3 : (queue Thread γ BQ P.cap3).system.Reach s.q3
  chan1 : Channel (abs s.q1) .source .stage1 s.source.feed sent1 s.stage1.take got1
  chan2 : Channel (abs s.q2) .stage1 .stage2 s.stage1.feed sent2 s.stage2.take got2
  chan3 : Channel (abs s.q3) .stage2 .sink s.stage2.feed sent3 s.sink.take s.sink.out
  source : sent1 ++ s.source.rest = P.input
  stage1 : got1.map P.f = sent2 ++ s.stage1.hand
  stage2 : got2.map P.g = sent3 ++ s.stage2.hand

variable {P : Config α β γ} {s : Net α β γ}

theorem channel_start {p c : Thread} :
    Channel (abs (queue Thread α BQ cap).system.start) p c .out [] .out [] where
  produces := ⟨rfl, rfl, rfl⟩
  consumes := ⟨rfl, rfl⟩
  others _ _ _ := rfl
  accepted _ h := by cases h

theorem flows (h : P.system.Reach s) :
    ∃ sent1 got1 sent2 got2 sent3, Flows P s sent1 got1 sent2 got2 sent3 := by
  refine h.inv (I := fun s => ∃ sent1 got1 sent2 got2 sent3, Flows P s sent1 got1 sent2 got2 sent3) ?_ ?_
  · exact ⟨[], [], [], [], [], .refl, .refl, .refl, channel_start, channel_start, channel_start, rfl, rfl, rfl⟩
  rintro s a s' - - ha ⟨sent1, got1, sent2, got2, sent3, hi⟩
  change P.next s a = some s' at ha
  cases a with
  | q1 a =>
    obtain ⟨q, hq, rfl⟩ := Option.map_eq_some_iff.mp ha
    exact ⟨sent1, got1, sent2, got2, sent3, { hi with
      reach1 := within_reach hi.reach1 hq
      chan1 := within_channel hi.reach1 hq (by decide) hi.chan1 }⟩
  | q2 a =>
    obtain ⟨q, hq, rfl⟩ := Option.map_eq_some_iff.mp ha
    exact ⟨sent1, got1, sent2, got2, sent3, { hi with
      reach2 := within_reach hi.reach2 hq
      chan2 := within_channel hi.reach2 hq (by decide) hi.chan2 }⟩
  | q3 a =>
    obtain ⟨q, hq, rfl⟩ := Option.map_eq_some_iff.mp ha
    exact ⟨sent1, got1, sent2, got2, sent3, { hi with
      reach3 := within_reach hi.reach3 hq
      chan3 := within_channel hi.reach3 hq (by decide) hi.chan3 }⟩
  | source =>
    obtain ⟨⟨c, q⟩, hq, rfl⟩ := Option.map_eq_some_iff.mp ha
    obtain ⟨hr, sent1', hc, he⟩ := source_step (by decide) hq hi.reach1 hi.chan1
    exact ⟨sent1', got1, sent2, got2, sent3, { hi with
      reach1 := hr, chan1 := hc, source := he.trans hi.source }⟩
  | stage1 =>
    obtain ⟨⟨c, i, o⟩, hq, rfl⟩ := Option.map_eq_some_iff.mp ha
    obtain ⟨hri, hro, got1', sent2', hci, hco, he⟩ :=
      stage_step (by decide) (by decide) hq hi.reach1 hi.reach2 hi.chan1 hi.chan2 hi.stage1
    exact ⟨sent1, got1', sent2', got2, sent3, { hi with
      reach1 := hri, reach2 := hro, chan1 := hci, chan2 := hco, stage1 := he }⟩
  | stage2 =>
    obtain ⟨⟨c, i, o⟩, hq, rfl⟩ := Option.map_eq_some_iff.mp ha
    obtain ⟨hri, hro, got2', sent3', hci, hco, he⟩ :=
      stage_step (by decide) (by decide) hq hi.reach2 hi.reach3 hi.chan2 hi.chan3 hi.stage2
    exact ⟨sent1, got1, sent2, got2', sent3', { hi with
      reach2 := hri, reach3 := hro, chan2 := hci, chan3 := hco, stage2 := he }⟩
  | sink =>
    obtain ⟨⟨c, q⟩, hq, rfl⟩ := Option.map_eq_some_iff.mp ha
    obtain ⟨hr, hc⟩ := sink_step (by decide) hq hi.reach3 hi.chan3
    exact ⟨sent1, got1, sent2, got2, sent3, { hi with reach3 := hr, chan3 := hc }⟩

theorem Stage.feed_hand (c : Stage β) : c.feed.hand <+: c.hand := by
  cases c <;> simp [Stage.feed, Stage.hand, Feed.hand]

theorem Source.feed_hand (c : Source α) : c.feed.hand <+: c.rest := by
  cases c <;> simp [Source.feed, Source.rest, Feed.hand]

theorem Flows.prefixes {sent1 got1 : List α} {sent2 got2 : List β} {sent3 : List γ}
    (hi : Flows P s sent1 got1 sent2 got2 sent3) : s.sink.out <+: P.input.map (P.g ∘ P.f) := by
  have h3 := hi.chan3.received (history_runs hi.reach3)
  have h2 := hi.chan2.received (history_runs hi.reach2)
  have h1 := hi.chan1.received (history_runs hi.reach1)
  have h1 : got1 <+: P.input :=
    h1.trans (hi.source ▸ (List.prefix_append_right_inj _).mpr s.source.feed_hand)
  have h2 : got2 <+: got1.map P.f :=
    h2.trans (hi.stage1 ▸ (List.prefix_append_right_inj _).mpr s.stage1.feed_hand)
  have h3 : s.sink.out <+: got2.map P.g :=
    h3.trans (hi.stage2 ▸ (List.prefix_append_right_inj _).mpr s.stage2.feed_hand)
  calc s.sink.out
    _ <+: got2.map P.g := h3
    _ <+: (got1.map P.f).map P.g := h2.map P.g
    _ <+: (P.input.map P.f).map P.g := (h1.map P.f).map P.g
    _ = P.input.map (P.g ∘ P.f) := List.map_map

/-- Once all threads have returned, the sink has it all and the queues are
empty. -/
theorem Flows.complete {sent1 got1 : List α} {sent2 got2 : List β} {sent3 : List γ}
    (hi : Flows P s sent1 got1 sent2 got2 sent3) (h0 : s.source = .returned) (h1 : s.stage1 = .returned)
    (h2 : s.stage2 = .returned) (h3 : s.sink = .returned s.sink.out) :
    s.sink.out = P.input.map (P.g ∘ P.f) ∧ s.q1.data.q = [] ∧ s.q2.data.q = [] ∧ s.q3.data.q = [] := by
  have hc1 := hi.chan1
  have hc2 := hi.chan2
  have hc3 := hi.chan3
  have hs := hi.source
  have hs1 := hi.stage1
  have hs2 := hi.stage2
  rw [h1] at hc1 hs1
  rw [h2] at hc2 hs2
  rw [h3] at hc3
  rw [h0] at hs
  have e1 : got1 = P.input := (hc1.drained (history_runs hi.reach1)).trans ((List.append_nil _).symm.trans hs)
  have e2 : got2 = got1.map P.f :=
    (hc2.drained (history_runs hi.reach2)).trans ((List.append_nil _).symm.trans hs1.symm)
  have e3 : s.sink.out = got2.map P.g :=
    (hc3.drained (history_runs hi.reach3)).trans ((List.append_nil _).symm.trans hs2.symm)
  refine ⟨?_, hc1.consumes.2.2.2, hc2.consumes.2.2.2, hc3.consumes.2.2.2⟩
  rw [e3, e2, e1, List.map_map]

/-! ## Quiet states -/

/-- A thread that cannot go on in its own code has returned, or is stuck in a
call. -/
theorem source_quiet {q : Q α} {c : Source α} {d : Thread} {sent got : List α} {take : Take}
    (h : sourceNext cap q c = none) (hr : (queue Thread α BQ cap).system.Reach q)
    (hq : (queue Thread α BQ cap).Quiet q) (hc : Channel (abs q) .source d c.feed sent take got) :
    c = .returned ∨ (q.data.closed = false ∧ q.data.q.length = cap) := by
  have hs := quiet_cases hr hq (t := .source)
  rw [hc.producer_current] at hs
  cases c with
  | loop xs =>
    have ht : q.th .source = .run .out := hs
    cases xs <;> rw [sourceNext, across_call ht rfl] at h <;> cases h
  | inPush x xs =>
    rcases hs with ⟨ok, ht⟩ | hs
    · simp [sourceNext, across_return ht (.inl ⟨_, _, rfl⟩)] at h
    · exact .inr hs
  | inClose =>
    have ht : q.th .source = .run (.close .ret) := hs
    simp [sourceNext, across_return ht (.inr (.inr rfl))] at h
  | returned => exact .inl rfl

theorem stage_quiet {f : α → β} {t p d : Thread} {capIn capOut : ℕ} {i : Q α} {o : Q β} {c : Stage β}
    {feed : Feed α} {sent got : List α} {take : Take} {sent' got' : List β}
    (h : stageNext f t capIn capOut i o c = none)
    (hri : (queue Thread α BQ capIn).system.Reach i) (hqi : (queue Thread α BQ capIn).Quiet i)
    (hro : (queue Thread β BQ capOut).system.Reach o) (hqo : (queue Thread β BQ capOut).Quiet o)
    (hi : Channel (abs i) p t feed sent c.take got) (ho : Channel (abs o) t d c.feed sent' take got') :
    c = .returned ∨ (c.take = .pop ∧ i.data.closed = false ∧ i.data.q = []) ∨
      (o.data.closed = false ∧ o.data.q.length = capOut) := by
  have hsi := quiet_cases hri hqi (t := t)
  have hso := quiet_cases hro hqo (t := t)
  rw [hi.consumer_current] at hsi
  rw [ho.producer_current] at hso
  cases c with
  | loop =>
    have ht : i.th t = .run .out := hsi
    rw [stageNext, across_call ht rfl] at h; cases h
  | inPop =>
    rcases hsi with ⟨r, ht⟩ | hs
    · cases r <;> simp [stageNext, ht, across_return ht (.inr (.inl ⟨_, rfl⟩))] at h
    · exact .inr (.inl ⟨rfl, hs⟩)
  | push w =>
    have ht : o.th t = .run .out := hso
    rw [stageNext, across_call ht rfl] at h; cases h
  | inPush w =>
    rcases hso with ⟨ok, ht⟩ | hs
    · simp [stageNext, across_return ht (.inl ⟨_, _, rfl⟩)] at h
    · exact .inr (.inr hs)
  | close =>
    have ht : o.th t = .run .out := hso
    rw [stageNext, across_call ht rfl] at h; cases h
  | inClose =>
    have ht : o.th t = .run (.close .ret) := hso
    simp [stageNext, across_return ht (.inr (.inr rfl))] at h
  | returned => exact .inl rfl

theorem sink_quiet {q : Q γ} {c : Sink γ} {p : Thread} {feed : Feed γ} {sent got : List γ}
    (h : sinkNext cap q c = none) (hr : (queue Thread γ BQ cap).system.Reach q)
    (hq : (queue Thread γ BQ cap).Quiet q) (hc : Channel (abs q) p .sink feed sent c.take got) :
    c = .returned c.out ∨ (q.data.closed = false ∧ q.data.q = []) := by
  have hs := quiet_cases hr hq (t := .sink)
  rw [hc.consumer_current] at hs
  cases c with
  | loop out =>
    have ht : q.th .sink = .run .out := hs
    rw [sinkNext, across_call ht rfl] at h; cases h
  | inPop out =>
    rcases hs with ⟨r, ht⟩ | hs
    · cases r <;> simp [sinkNext, ht, across_return ht (.inr (.inl ⟨_, rfl⟩))] at h
    · exact .inr hs
  | returned out => exact .inl rfl

theorem within_quiet {q : Q α} (h : ∀ a : Act Thread (Pc α), a.inner → within cap q a = none) :
    (queue Thread α BQ cap).Quiet q :=
  inside_quiet h

/-- A quiet stage whose output is closed has returned. -/
theorem stage_returned {t d : Thread} {capOut : ℕ} {i : Q α} {o : Q β} {c : Stage β} {take : Take}
    {sent got : List β} (ho : Channel (abs o) t d c.feed sent take got)
    (h : c = .returned ∨ (c.take = .pop ∧ i.data.closed = false ∧ i.data.q = []) ∨
      (o.data.closed = false ∧ o.data.q.length = capOut)) (hc : o.data.closed = true) : c = .returned := by
  rcases h with h | ⟨ht, -⟩ | ⟨hc', -⟩
  · exact h
  · have hp := ho.produces
    cases c with
    | inPop => exact absurd (hc.symm.trans hp.2.1) (by decide)
    | _ => cases ht
  · rw [hc] at hc'; cases hc'

/-- A quiet stage whose output is open and empty waits for its input. -/
theorem stage_waits {t d : Thread} {capOut : ℕ} {i : Q α} {o : Q β} {c : Stage β} {take : Take}
    {sent got : List β} (ho : Channel (abs o) t d c.feed sent take got)
    (h : c = .returned ∨ (c.take = .pop ∧ i.data.closed = false ∧ i.data.q = []) ∨
      (o.data.closed = false ∧ o.data.q.length = capOut)) (hpos : 0 < capOut)
    (hc : o.data.closed = false ∧ o.data.q = []) : i.data.closed = false ∧ i.data.q = [] := by
  rcases h with rfl | ⟨-, h⟩ | ⟨-, hl⟩
  · exact absurd (hc.1.symm.trans ho.produces.2.1) (by decide)
  · exact h
  · rw [hc.2] at hl; exact absurd hl hpos.ne

/-- In a quiet state all threads have returned: whoever is stuck in a pop waits
for a producer that is stuck in a pop as well, and the source never pops. -/
theorem all_returned {sent1 got1 : List α} {sent2 got2 : List β} {sent3 : List γ}
    (hi : Flows P s sent1 got1 sent2 got2 sent3) (hq : P.system.Quiet NetAct.counts s) :
    s.source = .returned ∧ s.stage1 = .returned ∧ s.stage2 = .returned ∧ s.sink = .returned s.sink.out := by
  have hq1 : (queue Thread α BQ P.cap1).Quiet s.q1 :=
    within_quiet fun a ha => Option.map_eq_none_iff.mp (hq (.q1 a) ha)
  have hq2 : (queue Thread β BQ P.cap2).Quiet s.q2 :=
    within_quiet fun a ha => Option.map_eq_none_iff.mp (hq (.q2 a) ha)
  have hq3 : (queue Thread γ BQ P.cap3).Quiet s.q3 :=
    within_quiet fun a ha => Option.map_eq_none_iff.mp (hq (.q3 a) ha)
  have hsource := source_quiet (Option.map_eq_none_iff.mp (hq .source trivial)) hi.reach1 hq1 hi.chan1
  have hstage1 := stage_quiet (Option.map_eq_none_iff.mp (hq .stage1 trivial)) hi.reach1 hq1 hi.reach2 hq2
    hi.chan1 hi.chan2
  have hstage2 := stage_quiet (Option.map_eq_none_iff.mp (hq .stage2 trivial)) hi.reach2 hq2 hi.reach3 hq3
    hi.chan2 hi.chan3
  have hsink := sink_quiet (Option.map_eq_none_iff.mp (hq .sink trivial)) hi.reach3 hq3 hi.chan3
  rcases hsink with hs | hs
  · -- the sink has seen the end of `q3`, and so have the stages of their inputs
    have hc3 := hi.chan3.consumes
    rw [hs] at hc3
    have h2 := stage_returned hi.chan3 hstage2 hc3.2.2.1
    have hc2 := hi.chan2.consumes
    rw [h2] at hc2
    have h1 := stage_returned hi.chan2 hstage1 hc2.2.2.1
    have hc1 := hi.chan1.consumes
    rw [h1] at hc1
    rcases hsource with h0 | ⟨hc, -⟩
    · exact ⟨h0, h1, h2, hs⟩
    · exact absurd (hc.symm.trans hc1.2.2.1) (by decide)
  · have h1 := stage_waits hi.chan2 hstage1 P.cap2_pos (stage_waits hi.chan3 hstage2 P.cap3_pos hs)
    rcases hsource with h0 | ⟨-, hl⟩
    · have hp := hi.chan1.produces
      rw [h0] at hp
      exact absurd (h1.1.symm.trans hp.2.1) (by decide)
    · rw [h1.2] at hl; exact absurd hl P.cap1_pos.ne

/-- The pipeline, end to end. -/
theorem pipeline_end_to_end (P : Config α β γ) (h : P.system.Reach s) :
    s.sink.out <+: P.input.map (P.g ∘ P.f) ∧
    (∀ v, (Op.push v, Ret.pushed false) ∉ history s.q1) ∧
    (∀ v, (Op.push v, Ret.pushed false) ∉ history s.q2) ∧
    (∀ v, (Op.push v, Ret.pushed false) ∉ history s.q3) ∧
    (P.system.Quiet NetAct.counts s →
      s.source = .returned ∧ s.stage1 = .returned ∧ s.stage2 = .returned ∧
        s.sink = .returned (P.input.map (P.g ∘ P.f)) ∧
        s.q1.data.q = [] ∧ s.q2.data.q = [] ∧ s.q3.data.q = []) := by
  obtain ⟨sent1, got1, sent2, got2, sent3, hi⟩ := flows h
  refine ⟨hi.prefixes, hi.chan1.accepted, hi.chan2.accepted, hi.chan3.accepted, fun hq => ?_⟩
  obtain ⟨h0, h1, h2, h3⟩ := all_returned hi hq
  obtain ⟨ho, he1, he2, he3⟩ := hi.complete h0 h1 h2 h3
  exact ⟨h0, h1, h2, ho ▸ h3, he1, he2, he3⟩

/-- Nobody is in the queue. -/
def outside (q : Q α) : Bool :=
  decide (∀ t, (match q.th t with
    | .run .out => true
    | _ => false) = true)

/-- All threads have returned. -/
def ended (s : Net α β γ) : Bool :=
  (match s.source, s.stage1, s.stage2, s.sink with
    | .returned, .returned, .returned, .returned _ => true
    | _, _, _, _ => false) && outside s.q1 && outside s.q2 && outside s.q3

theorem quiet_of_outside {q : Q α} (h : outside q = true) : (queue Thread α BQ cap).Quiet q := by
  refine quiet_of_out fun t => ?_
  have ht := of_decide_eq_true h t
  split at ht <;> [assumption; cases ht]

/-- The end is quiet. -/
theorem quiet_of_ended (h : ended s = true) : P.system.Quiet NetAct.counts s := by
  simp only [ended, Bool.and_eq_true] at h
  obtain ⟨⟨⟨h, h1⟩, h2⟩, h3⟩ := h
  have hwithin : ∀ {α : Type} {cap : ℕ} {q : Q α} {a : Act Thread (Pc α)}, outside q = true → a.inner →
      within cap q a = none := fun ho ha => by
    simp only [within]
    split
    · rfl
    · exact quiet_of_outside ho _ ha
  split at h
  · rename_i he0 he1 he2 he3
    intro a ha
    cases a with
    | q1 a => exact Option.map_eq_none_iff.mpr (hwithin h1 ha)
    | q2 a => exact Option.map_eq_none_iff.mpr (hwithin h2 ha)
    | q3 a => exact Option.map_eq_none_iff.mpr (hwithin h3 ha)
    | source => exact Option.map_eq_none_iff.mpr (by rw [he0]; rfl)
    | stage1 => exact Option.map_eq_none_iff.mpr (by rw [he1]; rfl)
    | stage2 => exact Option.map_eq_none_iff.mpr (by rw [he2]; rfl)
    | sink => exact Option.map_eq_none_iff.mpr (by rw [he3]; rfl)
  · cases h

/-- Two inputs, squared and then increased, through queues of capacity 1. -/
def square : Config ℕ ℕ ℕ where
  input := [3, 4]
  f x := x * x
  g x := x + 1
  cap1 := 1
  cap2 := 1
  cap3 := 1
  cap1_pos := Nat.one_pos
  cap2_pos := Nat.one_pos
  cap3_pos := Nat.one_pos

/-- The source and the first stage find their queues full, and wait until the next stage
wakes them. -/
def backPressure : List (NetAct ℕ ℕ ℕ) :=
  let q1 (n : ℕ) (t : Thread) : List (NetAct ℕ ℕ ℕ) := List.replicate n (.q1 (.exec t))
  let q2 (n : ℕ) (t : Thread) : List (NetAct ℕ ℕ ℕ) := List.replicate n (.q2 (.exec t))
  let q3 (n : ℕ) (t : Thread) : List (NetAct ℕ ℕ ℕ) := List.replicate n (.q3 (.exec t))
  [[.source], q1 5 .source, [.source, .source], q1 3 .source,
    [.stage1], q1 3 .stage1, [.q1 (.wake .stage1 .source)], q1 1 .stage1, [.stage1, .stage1], q2 5 .stage1,
    [.stage1, .stage1], [.q1 (.relock .source)], q1 4 .source, [.source, .source], q1 5 .source, [.source],
    q1 5 .stage1, [.stage1, .stage1], q2 3 .stage1,
    [.stage2], q2 3 .stage2, [.q2 (.wake .stage2 .stage1)], q2 1 .stage2, [.stage2, .stage2], q3 5 .stage2,
    [.stage2, .stage2], [.q2 (.relock .stage1)], q2 4 .stage1, [.stage1, .stage1], q1 4 .stage1,
    [.stage1, .stage1], q2 5 .stage1, [.stage1],
    [.sink], q3 5 .sink, [.sink, .sink],
    q2 5 .stage2, [.stage2, .stage2], q3 5 .stage2, [.stage2, .stage2], q2 4 .stage2, [.stage2, .stage2], q3 5 .stage2,
    [.stage2], q3 5 .sink, [.sink, .sink], q3 4 .sink, [.sink]].flatten

theorem pipeline_end_to_end_square : ∃ s, square.system.run square.system.start backPressure = some s ∧
    square.system.Quiet NetAct.counts s ∧ s.sink = .returned [10, 17] ∧ s.q1.data.q = [] := by
  have hr : (square.system.run square.system.start backPressure).any ended = true := by decide +kernel
  obtain ⟨s, hs, he⟩ := System.exists_of_run hr
  have hq := quiet_of_ended (P := square) he
  obtain ⟨-, -, -, -, h⟩ := pipeline_end_to_end square (System.reach_of_run hs)
  exact ⟨s, hs, hq, (h hq).2.2.2.1, (h hq).2.2.2.2.1⟩

end TKH.Pipeline
