import ThreadingKnowHows.Framework.Circular
import ThreadingKnowHows.Framework.Journal
import ThreadingKnowHows.ProducerConsumer.Model

/-!
# The circular buffer is a queue

What `queue_t` stores is the list `content`: a valid queue (`Queue.Valid`) has
its `count` unread entries from `tail` on, and `head` after them. `q_put` adds
to the end of that list and `q_get` takes its first entry, as long as the one
finds the buffer not full and the other one not empty (`Ready`).

That holds in each program that accesses the queue by these two operations
alone, under its mutex (`RingUser`): whatever the interleaving, what was got
followed by the content is what was put (`RingUser.fifo`). `users` is the
program of any threads that call `q_put` and `q_get` at will.
-/

namespace TKH.ProducerConsumer

namespace Queue

variable {cap : ℕ} {q : Queue}

structure Valid (cap : ℕ) (q : Queue) : Prop where
  nonneg : 0 ≤ q.count
  le_cap : q.count ≤ cap
  tail_lt : q.tail < cap
  head_eq : q.head = (q.tail + q.count.toNat) % cap

/-- The unread entries. -/
def content (cap : ℕ) (q : Queue) : List ℤ := circular cap q.buf q.tail q.count.toNat

theorem valid_init (hcap : 0 < cap) : init.Valid cap := ⟨le_rfl, by simp [init], hcap, by simp [init]⟩

theorem Valid.head_lt (h : q.Valid cap) : q.head < cap :=
  h.head_eq ▸ Nat.mod_lt _ (Nat.zero_lt_of_lt h.tail_lt)

/-- The slot that is written to holds no unread entry. -/
theorem Valid.fresh (h : q.Valid cap) (hn : q.count ≠ cap) {k : ℕ} (hk : k < q.count.toNat) :
    (q.tail + k) % cap ≠ q.head := by
  have := h.nonneg
  have := h.le_cap
  rw [h.head_eq]
  exact slot_ne hk (by omega)

theorem Valid.put (h : q.Valid cap) (hn : q.count ≠ cap) (v : ℤ) : (q.put cap v).Valid cap := by
  have h₀ := h.nonneg
  have h₁ := h.le_cap
  have hc : (q.count + 1).toNat = q.count.toNat + 1 := by omega
  refine ⟨by simp only [Queue.put]; omega, by simp only [Queue.put]; omega, h.tail_lt, ?_⟩
  simp only [Queue.put]
  rw [hc, h.head_eq, Nat.mod_add_mod, Nat.add_assoc]

theorem Valid.content_put (h : q.Valid cap) (hn : q.count ≠ cap) (v : ℤ) :
    (q.put cap v).content cap = q.content cap ++ [v] := by
  have h₀ := h.nonneg
  have h₁ := h.le_cap
  have hc : (q.count + 1).toNat = q.count.toNat + 1 := by omega
  simp only [content, Queue.put]
  rw [hc, h.head_eq]
  exact circular_store q.buf v (by omega)

theorem Valid.get (h : q.Valid cap) (hn : q.count ≠ 0) : (q.get cap).Valid cap := by
  have h₀ := h.nonneg
  have h₁ := h.le_cap
  have hc : q.count.toNat = (q.count - 1).toNat + 1 := by omega
  refine ⟨by simp only [Queue.get]; omega, by simp only [Queue.get]; omega,
    Nat.mod_lt _ (Nat.zero_lt_of_lt h.tail_lt), ?_⟩
  simp only [Queue.get]
  rw [h.head_eq, hc, Nat.mod_add_mod, Nat.add_assoc, Nat.add_comm 1]

theorem Valid.content_get (h : q.Valid cap) (hn : q.count ≠ 0) :
    q.content cap = q.next :: (q.get cap).content cap := by
  have h₀ := h.nonneg
  have hc : q.count.toNat = (q.count - 1).toNat + 1 := by omega
  simp only [content, Queue.get, Queue.next]
  rw [hc, circular_succ, Nat.mod_eq_of_lt h.tail_lt]

end Queue

/-! ## Operations and their history -/

/-- The operations, and what a thread has seen before it waits. -/
inductive Op
  | put (v : ℤ)
  | get
  | full
  | empty

inductive Event
  | put (v : ℤ)
  | got (v : ℤ)
  deriving DecidableEq

/-- The values that were put, and those that were got. -/
def puts (es : List Event) : List ℤ := es.filterMap fun
  | .put v => some v
  | .got _ => none

def gots (es : List Event) : List ℤ := es.filterMap fun
  | .put _ => none
  | .got v => some v

namespace Queue

variable {cap : ℕ} {q : Queue}

def apply (q : Queue) (cap : ℕ) : Option Op → Queue
  | some (.put v) => q.put cap v
  | some .get => q.get cap
  | _ => q

/-- What the critical sections know of the queue. -/
def Ready (q : Queue) (cap : ℕ) : Option Op → Prop
  | none => True
  | some (.put _) => q.count ≠ cap
  | some .get => q.count ≠ 0
  | some .full => q.count = cap
  | some .empty => q.count = 0

def event (q : Queue) : Option Op → List Event
  | some (.put v) => [.put v]
  | some .get => [.got q.next]
  | _ => []

theorem Valid.apply (h : q.Valid cap) {o : Option Op} (hr : q.Ready cap o) : (q.apply cap o).Valid cap := by
  rcases o with _ | v | _ | _ | _
  · exact h
  · exact h.put hr v
  · exact h.get hr
  · exact h
  · exact h

/-- An operation takes from the front, and adds to the end. -/
theorem Valid.gots_content (h : q.Valid cap) {o : Option Op} (hr : q.Ready cap o) :
    gots (q.event o) ++ (q.apply cap o).content cap = q.content cap ++ puts (q.event o) := by
  rcases o with _ | v | _ | _ | _
  · exact (List.append_nil _).symm
  · exact h.content_put hr v
  · rw [h.content_get hr]
    exact (List.append_nil _).symm
  · exact (List.append_nil _).symm
  · exact (List.append_nil _).symm

end Queue

/-! ## Programs that use the queue -/

section

variable {τ D L : Type*}

/-- The command at `l` does to the queue what `op` says, and leads to no
operation that the queue is not ready for. -/
def Cmd.Uses (cap : ℕ) (q : D → Queue) (op : L → Option Op) (l : L) : Cmd τ Cv D L → Prop
  | .act f => ∀ d, q (f d).1 = (q d).apply cap (op l) ∧ (q (f d).1).Ready cap (op (f d).2)
  | .lock k | .notifyOne _ k | .notifyAll _ k => op l = none ∧ op k = none
  | .wait _ k => (op l = some .full ∨ op l = some .empty) ∧ op k = none
  | _ => op l = none

/-- The program accesses the queue by `q_put` and `q_get`. -/
structure RingUser (P : Program τ Cv D L) (held : L → Bool) (cap : ℕ) (q : D → Queue) (op : L → Option Op) :
    Prop extends Discipline P held where
  init : q P.init = .init
  held_of_op : ∀ l, op l ≠ none → held l = true
  uses : ∀ t l, Cmd.Uses cap q op l (P.code t l)

variable {P : Program τ Cv D L} {held : L → Bool} {cap : ℕ} {q : D → Queue} {op : L → Option Op}

theorem RingUser.uses_at (h : RingUser P held cap q op) {t : τ} {l : L} {c : Cmd τ Cv D L} (hc : P.code t l = c) :
    Cmd.Uses cap q op l c := by
  rw [← hc]
  exact h.uses t l

theorem RingUser.annotation [DecidableEq τ] (h : RingUser P held cap q op) (hcap : 0 < cap) :
    Annotation P held (fun d => (q d).Valid cap) fun l d => (q d).Valid cap ∧ (q d).Ready cap (op l) where
  toDiscipline := h.toDiscipline
  init := h.init ▸ Queue.valid_init hcap
  keeps t l := by
    have ho := h.held_of_op l
    cases hc : P.code t l with
    | act f =>
      have hu := h.uses_at hc
      refine fun d => ⟨fun _ hv => ⟨(hu d).1 ▸ hv.1.apply hv.2, (hu d).2⟩, fun hl => ?_⟩
      have hn : op l = none := by
        by_contra hn
        rw [ho hn] at hl; cases hl
      have hq : q (f d).1 = q d := by rw [(hu d).1, hn]; rfl
      dsimp only
      rw [hq]
      exact ⟨id, fun _ _ => id⟩
    | lock k => exact fun d hv => ⟨hv, by rw [(h.uses_at hc).2]; trivial⟩
    | unlock k => exact fun d hv => hv.1
    | wait c k => exact fun d => ⟨And.left, fun hv => ⟨hv, by rw [(h.uses_at hc).2]; trivial⟩⟩
    | notifyOne c k | notifyAll c k => exact fun _ d hv => ⟨hv.1, by rw [(h.uses_at hc).2]; trivial⟩
    | _ => trivial

/-- What the critical sections do. -/
def ringOut (q : D → Queue) (op : L → Option Op) (_ : τ) (l : L) (d : D) : List Event := (q d).event (op l)

/-- The operations of a run, in the order of the critical sections, and whose they are. -/
def operations [DecidableEq τ] [Fintype τ] (P : Program τ Cv D L) (q : D → Queue) (op : L → Option Op)
    (as : List (Act τ L)) : List (τ × Event) :=
  P.system.trace (outputs (ringOut q op)) P.system.start as

def history [DecidableEq τ] [Fintype τ] (P : Program τ Cv D L) (q : D → Queue) (op : L → Option Op)
    (as : List (Act τ L)) : List Event :=
  (operations P q op as).map Prod.snd

variable [DecidableEq τ] [Fintype τ] {s s' : State τ Cv D L} {a : Act τ L}

theorem RingUser.valid (h : RingUser P held cap q op) (hcap : 0 < cap) (hs : P.system.Reach s) :
    (q s.data).Valid cap :=
  (h.annotation hcap).always (fun _ _ hv => hv.1) hs

/-- A step performs the operation that it outputs, or leaves the queue. -/
theorem RingUser.step (h : RingUser P held cap q op) (hcap : 0 < cap) (hr : P.system.Reach s) (hs : P.Step s a s') :
    ∃ o, (outputs (ringOut q op) s a).map Prod.snd = (q s.data).event o ∧ (q s.data).Ready cap o ∧
      q s'.data = (q s.data).apply cap o := by
  have hout : ∀ {t l}, s.th t = .run l →
      (outputs (ringOut q op) s (.exec t)).map Prod.snd = (q s.data).event (op l) := fun hl => by
    simp [outputs, hl, ringOut, Function.comp_def]
  cases hs with
  | @act t l f hl hc =>
    have hu := h.uses_at hc
    refine ⟨op l, hout hl, ?_, (hu s.data).1⟩
    by_cases ho : op l = none
    · rw [ho]; trivial
    · exact (((h.annotation hcap).sound hr).holds t l hl (h.held_of_op l ho)).2
  | @lock t l k hl hc | @notifyNone t l _ k hl hc | @notifyAll t l _ k hl hc =>
    have hu := h.uses_at hc
    exact ⟨none, by rw [hout hl, hu.1], trivial, rfl⟩
  | @wait t l _ k hl hc =>
    have hu := h.uses_at hc
    exact ⟨none, by rw [hout hl]; rcases hu.1 with ho | ho <;> rw [ho] <;> rfl, trivial, rfl⟩
  | @unlock t l k hl hc | @join t l _ k hl hc =>
    have hu := h.uses_at hc
    exact ⟨none, by rw [hout hl, show op l = none from hu], trivial, rfl⟩
  | _ => exact ⟨none, rfl, trivial, rfl⟩

/-- What was got, followed by the content, is what was put. -/
theorem RingUser.fifo (h : RingUser P held cap q op) (hcap : 0 < cap) {as : List (Act τ L)}
    (hr : P.system.run P.system.start as = some s) :
    gots (history P q op as) ++ (q s.data).content cap = puts (history P q op as) := by
  refine System.trace_inv
    (I := fun es s => gots (es.map Prod.snd) ++ (q s.data).content cap = puts (es.map Prod.snd)) hr
    (System.along_true _ _) ?_ fun {es s₁ a s₂} hp _ ha hi => ?_
  · simp [Program.system, h.init, gots, puts, Queue.content, Queue.init]
  · obtain ⟨o, he, hready, hq⟩ := h.step hcap hp (Program.step_of_next ha)
    rw [List.map_append, he, hq]
    generalize es.map Prod.snd = es at hi
    calc gots (es ++ (q s₁.data).event o) ++ ((q s₁.data).apply cap o).content cap
      _ = gots es ++ (gots ((q s₁.data).event o) ++ ((q s₁.data).apply cap o).content cap) := by
          rw [gots, List.filterMap_append, List.append_assoc]; rfl
      _ = gots es ++ ((q s₁.data).content cap ++ puts ((q s₁.data).event o)) := by
          rw [(h.valid hcap hp).gots_content hready]
      _ = puts (es ++ (q s₁.data).event o) := by
          rw [← List.append_assoc, hi, puts, puts, puts, List.filterMap_append]

end

/-! ## Any threads that call `q_put` and `q_get` -/

section

variable {τ D L : Type*} (q : D → Queue) (set : D → Queue → D) (cap : ℕ)

/-- `q_put(q, v)` and `q_get(q)`, for a queue that is a part of the data. -/
def putCode (at' : PutPc → L) (ret : L) (v : ℤ) : PutPc → Cmd τ Cv D L
  | .lock => .lock (at' .test)
  | .test => .act fun d => (d, at' (if (q d).count = cap then .wait else .store))
  | .wait => .wait .notFull (at' .test)
  | .store => .act fun d => (set d ((q d).put cap v), at' .signal)
  | .signal => .notifyOne .notEmpty (at' .unlock)
  | .unlock => .unlock ret

def getCode (at' : GetPc → L) (ret : ℤ → L) : GetPc → Cmd τ Cv D L
  | .lock => .lock (at' .test)
  | .test => .act fun d => (d, at' (if (q d).count = 0 then .wait else .load))
  | .wait => .wait .notEmpty (at' .test)
  | .load => .act fun d => (set d ((q d).get cap), at' (.signal (q d).next))
  | .signal v => .notifyOne .notFull (at' (.unlock v))
  | .unlock v => .unlock (ret v)

def PutPc.op (v : ℤ) : PutPc → Option Op
  | .store => some (.put v)
  | .wait => some .full
  | _ => none

def GetPc.op : GetPc → Option Op
  | .load => some .get
  | .wait => some .empty
  | _ => none

variable {q set cap} {op : L → Option Op}

theorem putCode_uses (hset : ∀ d x, q (set d x) = x) (at' : PutPc → L) (ret : L) (v : ℤ)
    (hop : ∀ p, op (at' p) = p.op v) (p : PutPc) :
    Cmd.Uses cap q op (at' p) (putCode q set cap at' ret v p : Cmd τ Cv D L) := by
  cases p with
  | lock | signal => exact ⟨hop _, hop _⟩
  | wait => exact ⟨.inl (hop _), hop _⟩
  | unlock => exact hop _
  | test =>
    intro d
    simp only [hop]
    refine ⟨rfl, ?_⟩
    split <;> assumption
  | store =>
    intro d
    simp only [hop, hset]
    exact ⟨rfl, trivial⟩

theorem getCode_uses (hset : ∀ d x, q (set d x) = x) (at' : GetPc → L) (ret : ℤ → L)
    (hop : ∀ p, op (at' p) = p.op) (p : GetPc) : Cmd.Uses cap q op (at' p) (getCode q set cap at' ret p : Cmd τ Cv D L) := by
  cases p with
  | lock | signal => exact ⟨hop _, hop _⟩
  | wait => exact ⟨.inr (hop _), hop _⟩
  | unlock => exact hop _
  | test =>
    intro d
    simp only [hop]
    refine ⟨rfl, ?_⟩
    split <;> assumption
  | load =>
    intro d
    simp only [hop, hset]
    exact ⟨rfl, trivial⟩

theorem putCode_holds {held : L → Bool} (at' : PutPc → L) (ret : L) (hat : ∀ p, held (at' p) = p.held)
    (hret : held ret = false) (v : ℤ) (p : PutPc) :
    (putCode q set cap at' ret v p : Cmd τ Cv D L).Holds held (at' p) := by
  cases p with
  | lock | wait => exact ⟨hat _, hat _⟩
  | test =>
    intro d
    simp only [hat]
    split <;> rfl
  | store => exact fun d => (hat .signal).trans (hat .store).symm
  | signal => exact (hat .unlock).trans (hat .signal).symm
  | unlock => exact ⟨hat _, hret⟩

theorem getCode_holds {held : L → Bool} (at' : GetPc → L) (ret : ℤ → L) (hat : ∀ p, held (at' p) = p.held)
    (hret : ∀ v, held (ret v) = false) (p : GetPc) :
    (getCode q set cap at' ret p : Cmd τ Cv D L).Holds held (at' p) := by
  cases p with
  | lock | wait => exact ⟨hat _, hat _⟩
  | test =>
    intro d
    simp only [hat]
    split <;> rfl
  | load => exact fun d => (hat (.signal _)).trans (hat .load).symm
  | signal v => exact (hat (.unlock v)).trans (hat (.signal v)).symm
  | unlock v => exact ⟨hat _, hret v⟩

end

/-- The code of the program's threads. -/
theorem qPut_eq {M : Config} (at' : PutPc → Pc M) (ret : Pc M) (v : ℤ) (p : PutPc) :
    qPut at' ret v p = putCode Data.q (fun d q => { d with q := q }) M.cap at' ret v p := by
  cases p <;> rfl

theorem qGet_eq {M : Config} (at' : GetPc → Pc M) (ret : ℤ → Pc M) (p : GetPc) :
    qGet at' ret p = getCode Data.q (fun d q => { d with q := q }) M.cap at' ret p := by
  cases p <;> rfl

inductive UserPc
  | out
  | put (v : ℤ) (p : PutPc)
  | get (p : GetPc)
  /-- `q_get` has returned `v`. -/
  | got (v : ℤ)
  deriving DecidableEq

namespace UserPc

def call : UserPc → Bool
  | put _ .lock | get .lock => true
  | _ => false

def held : UserPc → Bool
  | put _ p => p.held
  | get p => p.held
  | _ => false

def op : UserPc → Option Op
  | put v p => p.op v
  | get p => p.op
  | _ => none

/-- The call of `q_get` has taken `v`. -/
def taken : UserPc → Option ℤ
  | get (.signal v) | get (.unlock v) | got v => some v
  | _ => none

end UserPc

/-- The threads `τ` call `q_put` and `q_get`, any number of times. -/
def users (τ : Type) (cap : ℕ) : Program τ Cv Queue UserPc where
  code _
    | .out => .ext (fun _ => false) UserPc.call
    | .put v p => putCode id (fun _ q => q) cap (.put v) .out v p
    | .get p => getCode id (fun _ q => q) cap .get .got p
    | .got _ => .act fun q => (q, .out)
  entry _ := .out
  init := .init

variable {τ : Type} {cap : ℕ}

theorem call_iff {k : UserPc} : k.call = true ↔ (∃ v, k = .put v .lock) ∨ k = .get .lock := by
  rcases k with _ | ⟨v, _ | _ | _ | _ | _ | _⟩ | (_ | _ | _ | _ | _ | _) | _ <;> simp [UserPc.call]

theorem users_discipline : Discipline (users τ cap) UserPc.held where
  entry _ := rfl
  code t l := by
    cases l with
    | out => exact ⟨rfl, fun k hk => by rcases call_iff.mp hk with ⟨v, rfl⟩ | rfl <;> rfl⟩
    | put v p =>
      simp only [users]
      exact putCode_holds (UserPc.put v) _ (fun _ => rfl) rfl v p
    | get p =>
      simp only [users]
      exact getCode_holds UserPc.get _ (fun _ => rfl) (fun _ => rfl) p
    | got v => exact fun _ => rfl

theorem users_ring : RingUser (users τ cap) UserPc.held cap id UserPc.op where
  toDiscipline := users_discipline
  init := rfl
  held_of_op l hl := by
    cases l with
    | put v p => cases p <;> first | rfl | exact absurd rfl hl
    | get p => cases p <;> first | rfl | exact absurd rfl hl
    | _ => exact absurd rfl hl
  uses t l := by
    cases l with
    | out => exact rfl
    | put v p =>
      simp only [users]
      exact putCode_uses (fun _ _ => rfl) (UserPc.put v) _ v (fun _ => rfl) p
    | get p =>
      simp only [users]
      exact getCode_uses (fun _ _ => rfl) UserPc.get _ (fun _ => rfl) p
    | got v => exact fun _ => ⟨rfl, trivial⟩

variable [DecidableEq τ] [Fintype τ] {s s' : State τ Cv Queue UserPc}

omit [Fintype τ] in
/-- A call that has taken `v` returns it. -/
theorem taken_step {a : Act τ UserPc} (hs : (users τ cap).Step s a s') {t : τ} {v : ℤ}
    (hv : (s.th t).point.taken = some v) : (s'.th t).point.taken = some v ∨ s.th t = .run (.got v) := by
  rcases hs.leads t with ⟨hp, -⟩ | ⟨l, hl, hk, -⟩
  · exact .inl (by rwa [hp])
  rw [hl, Status.point_run] at hv
  cases l with
  | out | put => cases hv
  | get p =>
    cases p with
    | signal w | unlock w =>
      have hk : (s'.th t).point = _ := hk
      exact .inl (by rw [hk]; exact hv)
    | _ => cases hv
  | got w => cases hv; exact .inr hl

/-- The circular buffer refines a FIFO list. -/
theorem ring_refines_fifo (hcap : 0 < cap) {as : List (Act τ UserPc)}
    (hr : (users τ cap).system.run (users τ cap).system.start as = some s) :
    s.data.Valid cap ∧ s.data.head < cap ∧
    gots (history (users τ cap) id UserPc.op as) ++ s.data.content cap =
      puts (history (users τ cap) id UserPc.op as) ∧
    (∀ t v, s.th t = .run (.put v .store) →
      (∀ k < s.data.count.toNat, (s.data.tail + k) % cap ≠ s.data.head) ∧
      ∃ s', (users τ cap).system.next s (.exec t) = some s' ∧
        s'.data.content cap = s.data.content cap ++ [v]) ∧
    (∀ t, s.th t = .run (.get .load) → 0 < s.data.count.toNat ∧
      ∃ s' v, (users τ cap).system.next s (.exec t) = some s' ∧ s'.th t = .run (.get (.signal v)) ∧
        s.data.content cap = v :: s'.data.content cap) ∧
    (∀ t v, (s.th t).point.taken = some v → ∀ a s', (users τ cap).system.next s a = some s' →
      (s'.th t).point.taken = some v ∨ s.th t = .run (.got v)) ∧
    ∀ a s', (users τ cap).system.next s a = some s' → outputs (ringOut id UserPc.op) s a = [] → s'.data = s.data := by
  have h : (users τ cap).system.Reach s := System.reach_of_run hr
  have hvalid : s.data.Valid cap := users_ring.valid hcap h
  have hsound := (users_ring.annotation hcap).sound h
  refine ⟨hvalid, hvalid.head_lt, users_ring.fifo hcap hr, fun t v ht => ?_, fun t ht => ?_, fun t v hv a s' ha => ?_,
    fun a s' ha he => ?_⟩
  · have hn : s.data.count ≠ cap := (hsound.holds t _ ht rfl).2
    exact ⟨fun k => hvalid.fresh hn, _, (Program.Step.act ht rfl).next, hvalid.content_put hn v⟩
  · have hn : s.data.count ≠ 0 := (hsound.holds t _ ht rfl).2
    have := hvalid.nonneg
    exact ⟨by omega, _, s.data.next, (Program.Step.act ht rfl).next, by simp [State.goto], hvalid.content_get hn⟩
  · exact taken_step (Program.step_of_next ha) hv
  · obtain ⟨o, ho, -, hq⟩ := users_ring.step hcap h (Program.step_of_next ha)
    rw [he] at ho
    rcases o with _ | v | _ | _ | _
    · exact hq
    · cases ho
    · cases ho
    · exact hq
    · exact hq

/-- One thread puts 7 and then 8 into a buffer of one slot, and gets 7 in between. -/
def putGetPut (t : Unit) : List (Act Unit UserPc) :=
  let put (v : ℤ) : List (Act Unit UserPc) := .ext t (.put v .lock) :: List.replicate 5 (.exec t)
  [put 7, .ext t (.get .lock) :: List.replicate 6 (.exec t), put 8].flatten

theorem ring_refines_fifo_one :
    ∃ s, (users Unit 1).system.run (users Unit 1).system.start (putGetPut ()) = some s ∧ s.data.content 1 = [8] ∧
      gots (history (users Unit 1) id UserPc.op (putGetPut ())) ++ [8] =
        puts (history (users Unit 1) id UserPc.op (putGetPut ())) := by
  have hr : ((users Unit 1).system.run (users Unit 1).system.start (putGetPut ())).any fun s =>
      s.data.content 1 = [8] := by decide +kernel
  obtain ⟨s, hs, hp⟩ := System.exists_of_run hr
  have hc := of_decide_eq_true hp
  obtain ⟨-, -, hfifo, -⟩ := ring_refines_fifo Nat.one_pos hs
  rw [hc] at hfifo
  exact ⟨s, hs, hc, hfifo⟩

end TKH.ProducerConsumer
