import ThreadingKnowHows.Framework.Journal
import ThreadingKnowHows.ManyToMany.Model

/-!
# The last producer closes the queue

The counters say how many producers are done, and that `close` is called once,
after the last one (`Protocol`). Each thread's journal says what it has done to
the queue (`Serves`): the pushes of a producer are all accepted, because the
queue is open as long as a producer is not done.
-/

namespace TKH.ManyToMany

open ClosableQueue

variable {M : Config}

/-! ## The protocol of the last producer -/

namespace Producer

/-- The producer has added itself to `producers_done`. -/
def past : Producer → ℕ
  | close | inClose | returned => 1
  | _ => 0

/-- The producer is about to close the queue. -/
def closing : Producer → ℕ
  | close => 1
  | _ => 0

/-- How often the producer has counted an item. -/
def counted (M : Config) : Producer → ℕ
  | loop i | inPush i | count i => i
  | nap i => i + 1
  | _ => M.items

theorem past_le_one (k : Producer) : k.past ≤ 1 := by
  cases k <;> simp [past]

end Producer

/-- What the counters say about the producers. -/
structure Protocol (M : Config) (f : Fin M.producers → Producer) (done closes produced : ℕ) : Prop where
  counter : done = total Producer.past f
  last : ∀ p, f p = .close ∨ f p = .inClose → done = M.producers
  once : closes + total Producer.closing f = if done = M.producers then 1 else 0
  produced : produced = total (Producer.counted M) f

variable {f : Fin M.producers → Producer} {done closes produced : ℕ} {p : Fin M.producers} {k : Producer}

/-- While some producer has not added itself the counter has not come to its end. -/
theorem Protocol.counter_lt (h : Protocol M f done closes produced) (hp : (f p).past = 0) : done < M.producers := by
  have hle := (h.counter.symm ▸ total_update Producer.past f p .returned :
    total Producer.past (Function.update f p .returned) + (f p).past = done + 1)
  have hall : total Producer.past (Function.update f p .returned) ≤ total (fun _ : Producer => 1)
      (Function.update f p .returned) := total_le fun q => Producer.past_le_one _
  have hcard : total (fun _ : Producer => 1) (Function.update f p .returned) = M.producers := by simp [total]
  omega

/-- The producers that close are the last ones, if `p` is when it does. -/
theorem Protocol.last_update (h : Protocol M f done closes produced)
    (hk : k = .close ∨ k = .inClose → done = M.producers) (q : Fin M.producers)
    (hq : Function.update f p k q = .close ∨ Function.update f p k q = .inClose) : done = M.producers := by
  by_cases hqp : q = p
  · subst hqp
    rw [Function.update_self] at hq
    exact hk hq
  · rw [Function.update_of_ne hqp] at hq
    exact h.last q hq

/-- The producer moves on, and no counter changes. -/
theorem Protocol.move (h : Protocol M f done closes produced)
    (hk : (k.past, k.closing, k.counted M) = ((f p).past, (f p).closing, (f p).counted M))
    (hlast : k = .close ∨ k = .inClose → f p = .close ∨ f p = .inClose) :
    Protocol M (Function.update f p k) done closes produced := by
  obtain ⟨hpast, hclosing, hcounted⟩ := by simpa only [Prod.mk.injEq] using hk
  refine ⟨?_, h.last_update fun hk => h.last p (hlast hk), ?_, ?_⟩
  · rw [total_update_eq hpast]; exact h.counter
  · rw [total_update_eq hclosing]; exact h.once
  · rw [total_update_eq hcounted]; exact h.produced

theorem Protocol.count {i : ℕ} (h : Protocol M f done closes produced) (hp : f p = .count i) :
    Protocol M (Function.update f p (.nap i)) done closes (produced + 1) where
  counter := by rw [total_update_eq (by rw [hp]; rfl)]; exact h.counter
  last := h.last_update fun hk => by rcases hk with hk | hk <;> cases hk
  once := by rw [total_update_eq (by rw [hp]; rfl)]; exact h.once
  produced := by
    have := total_update (Producer.counted M) f p (.nap i)
    rw [hp, ← h.produced] at this
    simp only [Producer.counted] at this
    omega

/-- The producer that brings the counter to its end is the one that closes. -/
theorem Protocol.finish (h : Protocol M f done closes produced) (hp : f p = .finish) :
    Protocol M (Function.update f p (if done + 1 = M.producers then .close else .returned)) (done + 1) closes
      produced where
  counter := by
    have := total_update Producer.past f p (if done + 1 = M.producers then .close else .returned)
    have hk : (if done + 1 = M.producers then Producer.close else .returned).past = 1 := by split <;> rfl
    rw [hp, hk, ← h.counter] at this
    exact this.symm
  last q hq := by
    have hlt := h.counter_lt (p := p) (by rw [hp]; rfl)
    by_cases hqp : q = p
    · subst hqp
      rw [Function.update_self] at hq
      split at hq
      · assumption
      · rcases hq with hq | hq <;> cases hq
    · rw [Function.update_of_ne hqp] at hq
      exact absurd (h.last q hq) hlt.ne
  once := by
    have hlt := h.counter_lt (p := p) (by rw [hp]; rfl)
    have honce := h.once
    rw [if_neg hlt.ne] at honce
    have := total_update Producer.closing f p (if done + 1 = M.producers then .close else .returned)
    rw [hp] at this
    split at this <;> simp only [Producer.closing] at this <;> simp only [*, if_true, if_false] <;> omega
  produced := by
    rw [total_update_eq (by rw [hp]; split <;> rfl)]
    exact h.produced

theorem Protocol.close (h : Protocol M f done closes produced) (hp : f p = .close) :
    Protocol M (Function.update f p .inClose) done (closes + 1) produced where
  counter := by rw [total_update_eq (by rw [hp]; rfl)]; exact h.counter
  last := h.last_update fun _ => h.last p (.inl hp)
  once := by
    have := total_update Producer.closing f p .inClose
    rw [hp] at this
    simp only [Producer.closing] at this
    have := h.once
    omega
  produced := by rw [total_update_eq (by rw [hp]; rfl)]; exact h.produced

/-! ## What the threads have done to the queue -/

/-- The first `i` pushes of a producer. -/
def pushes (p : Fin M.producers) (i : ℕ) : List (Op ℤ × Ret ℤ) :=
  (List.range i).map fun j => (.push (item p j), .pushed true)

/-- Where a producer is in the queue, and what it has done to it. -/
def Producing (p : Fin M.producers) (x : Phase (Op ℤ) (Ret ℤ)) (h : List (Op ℤ × Ret ℤ)) : Producer → Prop
  | .loop i => x = .idle ∧ h = pushes p i ∧ i ≤ M.items
  | .inPush i => i < M.items ∧ ((x = .pending (.push (item p i)) ∧ h = pushes p i) ∨
      (x = .done (.push (item p i)) (.pushed true) ∧ h = pushes p (i + 1)))
  | .count i | .nap i => x = .idle ∧ h = pushes p (i + 1) ∧ i < M.items
  | .finish | .close => x = .idle ∧ h = pushes p M.items
  | .inClose => (x = .pending .close ∧ h = pushes p M.items) ∨
      (x = .done .close .closed ∧ h = pushes p M.items ++ [(.close, .closed)])
  | .returned => x = .idle ∧ (h = pushes p M.items ∨ h = pushes p M.items ++ [(.close, .closed)])

/-- Where a consumer is in the queue, and what it has got, if `out` is what it
has written. -/
def Consuming (x : Phase (Op ℤ) (Ret ℤ)) (h : List (Op ℤ × Ret ℤ)) (out : List ℤ) (ended : Prop) (k : Consumer) :
    Prop :=
  (∀ x ∈ h, x.1 = .pop) ∧ match k with
  | .loop | .count | .nap => x = .idle ∧ taken h = out
  | .inPop => (x = .pending .pop ∧ taken h = out) ∨
      (∃ v, x = .done .pop (.popped (some v)) ∧ taken h = out ++ [v]) ∨
      (x = .done .pop (.popped none) ∧ taken h = out ∧ ended)
  | .print v => x = .idle ∧ taken h = out ++ [v]
  | .returned => x = .idle ∧ taken h = out ∧ ended

/-- The shared FIFO queue. -/
abbrev A (M : Config) := Shared (Content ℤ) (Thread M) (Op ℤ) (Ret ℤ)

/-- The queue is closed, and nothing is left. -/
def Drained (q : Content ℤ) : Prop := q.closed = true ∧ q.items = []

structure Serves (S : A M) (f : Fin M.producers → Producer) (g : Fin M.consumers → Consumer)
    (out : Fin M.consumers → List ℤ) (done closes : ℕ) : Prop where
  producing : ∀ p, Producing p (S.phase (.producer p)) (journal (.producer p) S.hist) (f p)
  consuming : ∀ c, Consuming (S.phase (.consumer c)) (journal (.consumer c) S.hist) (out c) (Drained S.obj) (g c)
  closed : S.obj.closed = true → done = M.producers
  shut : 0 < closes → S.obj.closed = true ∨ ∃ p, S.phase (.producer p) = .pending .close

variable {S S' : A M} {g : Fin M.consumers → Consumer} {out : Fin M.consumers → List ℤ} {c : Fin M.consumers}
  {x : Phase (Op ℤ) (Ret ℤ)} {hs : List (Op ℤ × Ret ℤ)} {obj q : Content ℤ} {op : Op ℤ} {r : Ret ℤ}

theorem pushes_succ (p : Fin M.producers) (i : ℕ) :
    pushes p (i + 1) = pushes p i ++ [(.push (item p i), .pushed true)] := by
  simp [pushes, List.range_succ]

theorem Drained.apply {cap : ℕ} (ho : (fifo cap).apply obj op = some (r, q)) (hd : Drained obj) : Drained q := by
  obtain ⟨hc, he⟩ := hd
  cases op with
  | push v =>
    rcases apply_push ho with ⟨-, hn, -⟩ | ⟨-, -, rfl⟩
    · rw [hc] at hn; cases hn
    · exact ⟨hc, he⟩
  | pop =>
    rcases apply_pop ho with ⟨v, vs, hv, -⟩ | ⟨-, -, -, rfl⟩
    · rw [he] at hv; cases hv
    · exact ⟨hc, he⟩
  | close =>
    obtain ⟨-, rfl⟩ := apply_close ho
    exact ⟨rfl, he⟩

/-- What a producer does in a critical section: it pushes on an open queue, or
closes it. -/
theorem Producing.commit {cap : ℕ} (h : Producing p x hs k) (hx : x = .pending op)
    (ho : (fifo cap).apply obj op = some (r, q)) (hopen : ∀ i, k = .inPush i → obj.closed = false) :
    Producing p (.done op r) (hs ++ [(op, r)]) k ∧
      ((op = .close ∧ q.closed = true ∧ k = .inClose) ∨ (op ≠ .close ∧ q.closed = false)) := by
  subst hx
  cases k with
  | inPush i =>
    obtain ⟨hi, ⟨hx, rfl⟩ | ⟨hx, -⟩⟩ := h
    · cases hx
      have hc := hopen i rfl
      rcases apply_push ho with ⟨rfl, -, -, rfl⟩ | ⟨-, hc', -⟩
      · exact ⟨⟨hi, .inr ⟨rfl, (pushes_succ p i).symm⟩⟩, .inr ⟨by simp, hc⟩⟩
      · rw [hc] at hc'; cases hc'
    · cases hx
  | inClose =>
    obtain ⟨hx, rfl⟩ | ⟨hx, -⟩ := h
    · cases hx
      obtain ⟨rfl, rfl⟩ := apply_close ho
      exact ⟨.inr ⟨rfl, rfl⟩, .inl ⟨rfl, rfl, rfl⟩⟩
    · cases hx
  | _ => cases h.1

/-- What a consumer does in a critical section: it pops. -/
theorem Consuming.commit {cap : ℕ} {o : List ℤ} {k : Consumer} (h : Consuming x hs o (Drained obj) k)
    (hx : x = .pending op) (ho : (fifo cap).apply obj op = some (r, q)) :
    Consuming (.done op r) (hs ++ [(op, r)]) o (Drained q) k ∧ op = .pop ∧ q.closed = obj.closed := by
  subst hx
  obtain ⟨ha, h⟩ := h
  have hpop : ∀ r, ∀ x ∈ hs ++ [(Op.pop, r)], x.1 = .pop := fun r x hx => by
    rcases List.mem_append.mp hx with hx | hx
    · exact ha x hx
    · rw [List.mem_singleton.mp hx]
  cases k with
  | inPop =>
    obtain ⟨hx, ht⟩ | ⟨v, hx, -⟩ | ⟨hx, -⟩ := h
    · cases hx
      rcases apply_pop ho with ⟨v, vs, hv, rfl, rfl⟩ | ⟨he, hc, rfl, rfl⟩
      · exact ⟨⟨hpop _, .inr (.inl ⟨v, rfl, by simp [ht, takes]⟩)⟩, rfl, rfl⟩
      · exact ⟨⟨hpop _, .inr (.inr ⟨rfl, by simp [ht, takes], hc, he⟩)⟩, rfl, rfl⟩
    · cases hx
    · cases hx
  | _ => cases h.1

theorem Consuming.frame {o : List ℤ} {k : Consumer} {e e' : Prop} (h : Consuming x hs o e k) (he : e → e') :
    Consuming x hs o e' k := by
  obtain ⟨ha, h⟩ := h
  refine ⟨ha, ?_⟩
  cases k with
  | inPop => exact h.imp_right (Or.imp_right fun ⟨hx, ht, hd⟩ => ⟨hx, ht, he hd⟩)
  | returned => exact ⟨h.1, h.2.1, he h.2.2⟩
  | _ => exact h

/-- A producer calls or returns. -/
theorem Serves.move_producer (h : Serves S f g out done closes) {x : Phase (Op ℤ) (Ret ℤ)} {done' closes' : ℕ}
    (hp : Producing p x (journal (.producer p) S.hist) k) (hdone : done = M.producers → done' = M.producers)
    (hx : S.phase (.producer p) ≠ .pending .close) (hcloses : closes' = closes ∨ x = .pending .close) :
    Serves { S with phase := Function.update S.phase (.producer p) x } (Function.update f p k) g out done' closes' where
  producing q := by
    by_cases hq : q = p
    · subst hq
      simpa using hp
    · simpa [Function.update_of_ne hq, hq] using h.producing q
  consuming c := by simpa using h.consuming c
  closed hc := hdone (h.closed hc)
  shut hpos := by
    rcases hcloses with rfl | rfl
    · rcases h.shut hpos with hc | ⟨q, hq⟩
      · exact .inl hc
      · refine .inr ⟨q, ?_⟩
        have hne : q ≠ p := by
          rintro rfl
          exact hx hq
        simpa [hne] using hq
    · exact .inr ⟨p, by simp⟩

/-- A consumer calls or returns. -/
theorem Serves.move_consumer (h : Serves S f g out done closes) {x : Phase (Op ℤ) (Ret ℤ)} {k : Consumer}
    {out' : Fin M.consumers → List ℤ} (hout : ∀ c', c' ≠ c → out' c' = out c')
    (hc : Consuming x (journal (.consumer c) S.hist) (out' c) (Drained S.obj) k) :
    Serves { S with phase := Function.update S.phase (.consumer c) x } f (Function.update g c k) out' done closes where
  producing p := by simpa using h.producing p
  consuming c' := by
    by_cases hc' : c' = c
    · subst hc'
      simpa using hc
    · simpa [hc', hout c' hc'] using h.consuming c'
  closed := h.closed
  shut hpos := by simpa using h.shut hpos

/-- A producer goes on outside the queue. -/
theorem Serves.goP (h : Serves S f g out done closes) {done' : ℕ}
    (hp : Producing p (S.phase (.producer p)) (journal (.producer p) S.hist) k)
    (hdone : done = M.producers → done' = M.producers) (hx : S.phase (.producer p) = .idle) :
    Serves S (Function.update f p k) g out done' closes := by
  have := h.move_producer hp hdone (by rw [hx]; simp) (.inl rfl)
  rwa [Function.update_eq_self] at this

/-- A consumer goes on outside the queue. -/
theorem Serves.goC (h : Serves S f g out done closes) {k : Consumer} {out' : Fin M.consumers → List ℤ}
    (hout : ∀ c', c' ≠ c → out' c' = out c')
    (hc : Consuming (S.phase (.consumer c)) (journal (.consumer c) S.hist) (out' c) (Drained S.obj) k) :
    Serves S f (Function.update g c k) out' done closes := by
  have := h.move_consumer hout hc
  rwa [Function.update_eq_self] at this

/-- An operation takes effect while the queue is open for those who push. -/
theorem Serves.commit (h : Serves S f g out done closes) {u : Thread M}
    (hopen : ∀ p i, f p = .inPush i → S.obj.closed = false)
    (hlast : ∀ p, f p = .inClose → done = M.producers)
    (ha : (atomic (fifo M.cap)).next S (.commit u) = some S') : Serves S' f g out done closes := by
  obtain ⟨op, r, q, hp, ho, rfl⟩ := atomic_commit ha
  have hself : journal u (S.hist ++ [(u, op, r)]) = journal u S.hist ++ [(op, r)] := by
    rw [journal_append]
    exact congrArg _ (journal_self u [(op, r)])
  have hother : ∀ {t}, t ≠ u → journal t (S.hist ++ [(u, op, r)]) = journal t S.hist := fun {t} ht => by
    rw [journal_append]
    exact (congrArg _ (journal_of_ne ht [(op, r)])).trans (List.append_nil _)
  -- once closed, the queue stays closed
  have hstays : S.obj.closed = true → q.closed = true := fun hc =>
    (runs_closed (h := [(op, r)]) ⟨q, ho, rfl⟩ hc).1
  cases u with
  | producer p =>
    obtain ⟨hprod, heffect⟩ := (h.producing p).commit hp ho (hopen p)
    refine ⟨fun p' => ?_, fun c => ?_, fun hc => ?_, fun hpos => ?_⟩
    · dsimp only
      by_cases hpp : p' = p
      · subst hpp
        rwa [Function.update_self, hself]
      · rw [Function.update_of_ne (by simpa using hpp), hother (by simpa using hpp)]
        exact h.producing p'
    · dsimp only
      rw [Function.update_of_ne (by simp), hother (by simp)]
      exact (h.consuming c).frame fun hd => hd.apply ho
    · rcases heffect with ⟨-, -, hk⟩ | ⟨-, hc'⟩
      · exact hlast p hk
      · cases hc.symm.trans hc'
    · rcases heffect with ⟨-, hc, -⟩ | ⟨hne, -⟩
      · exact .inl hc
      · refine (h.shut hpos).imp hstays fun ⟨p', hp'⟩ => ⟨p', ?_⟩
        have hpp : p' ≠ p := by
          rintro rfl
          rw [hp] at hp'
          cases hp'
          exact hne rfl
        dsimp only
        rwa [Function.update_of_ne (by simpa using hpp)]
  | consumer c =>
    obtain ⟨hcons, rfl, hclosed⟩ := (h.consuming c).commit hp ho
    refine ⟨fun p => ?_, fun c' => ?_, fun hc => h.closed (hclosed ▸ hc), fun hpos => ?_⟩
    · dsimp only
      rw [Function.update_of_ne (by simp), hother (by simp)]
      exact h.producing p
    · dsimp only
      by_cases hcc : c' = c
      · subst hcc
        rwa [Function.update_self, hself]
      · rw [Function.update_of_ne (by simpa using hcc), hother (by simpa using hcc)]
        exact (h.consuming c').frame fun hd => hd.apply ho
    · refine (h.shut hpos).imp hstays fun ⟨p, hp⟩ => ⟨p, ?_⟩
      dsimp only
      rwa [Function.update_of_ne (by simp)]

end TKH.ManyToMany
