import ThreadingKnowHows.DoubleChecked.Model
import ThreadingKnowHows.Framework.Trace

/-!
# Safe publication

A thread that returns from `get_atomic_dcl` got the pointer in one of two
ways. Either its acquire load returned a message, which carries the view of
the thread that constructed the object; or it took the mutex, and with it the
view of the threads that had held it: while the mutex is free, that view has
the store to `g_atomic`, if there has been one. This is why the relaxed load
under the mutex cannot return a stale null.
-/

namespace TKH.DoubleChecked

variable {τ P : Type} [DecidableEq τ] [DecidableEq P]

/-- The thread holds the mutex. -/
def Pc.holds : Pc P → Bool
  | reload | new | store _ | unlock _ => true
  | _ => false

/-- `r` is a pointer to the only object, whose construction is in the view. -/
def Published (c : List P) (v : Finset (Event P)) (r : Option P) : Prop :=
  ∃ p, r = some p ∧ c = [p] ∧ .construct p ∈ v

/-- The view has each store with its message, and with the construction of
the object. -/
def Sound (mo : List (Message P (Event P))) (v : Finset (Event P)) : Prop :=
  ∀ p, .store p ∈ v → .construct p ∈ v ∧ ∃ m ∈ mo, m.event = .store p

/-- The view has the stores of all that has been constructed. -/
def Stored (c : List P) (v : Finset (Event P)) : Prop := ∀ p ∈ c, .store p ∈ v

/-- What a thread with the view `v` knows at each point. -/
def Pc.Knows (c : List P) (v : Finset (Event P)) : Pc P → Prop
  | out | load | lock => True
  | reload => Stored c v
  | new => c = []
  | store p => c = [p] ∧ .construct p ∈ v
  | unlock r => Stored c v ∧ Published c v r
  | ret r => Published c v r

structure Inv (s : State τ P) : Prop where
  owner : ∀ t, s.owner = some t ↔ (s.pc t).holds = true
  message : ∀ m ∈ s.mo, m.event = .store m.value ∧ Published s.constructed m.view (some m.value) ∧ Sound s.mo m.view
  released : Sound s.mo s.released
  view : ∀ t, Sound s.mo (s.view t)
  free : s.owner = none → Stored s.constructed s.released
  knows : ∀ t, (s.pc t).Knows s.constructed (s.view t)

section Views

variable {mo : List (Message P (Event P))} {c : List P} {v w : Finset (Event P)} {r : Option P}

omit [DecidableEq P] in
theorem Published.mono (h : Published c v r) (hw : v ⊆ w) : Published c w r := by
  obtain ⟨p, hr, hc, hp⟩ := h
  exact ⟨p, hr, hc, hw hp⟩

theorem Sound.union (hv : Sound mo v) (hw : Sound mo w) : Sound mo (v ∪ w) := by
  intro p hp
  rcases Finset.mem_union.mp hp with hp | hp
  · exact ⟨Finset.mem_union_left w (hv p hp).1, (hv p hp).2⟩
  · exact ⟨Finset.mem_union_right v (hw p hp).1, (hw p hp).2⟩

omit [DecidableEq P] in
theorem Sound.append (hv : Sound mo v) (m : Message P (Event P)) : Sound (mo ++ [m]) v := by
  intro p hp
  obtain ⟨hc, m', hm', he⟩ := hv p hp
  exact ⟨hc, m', List.mem_append_left _ hm', he⟩

/-- The view that has performed the store of a constructed object. -/
theorem Sound.store (hv : Sound mo v) {p : P} (hp : .construct p ∈ v) :
    Sound (mo ++ [⟨p, v ∪ {.store p}, .store p⟩]) (v ∪ {.store p}) := by
  intro q hq
  simp only [Finset.mem_union, Finset.mem_singleton, Event.store.injEq] at hq
  rcases hq with hq | rfl
  · obtain ⟨hc, m, hm, he⟩ := hv q hq
    exact ⟨Finset.mem_union_left _ hc, m, List.mem_append_left _ hm, he⟩
  · exact ⟨Finset.mem_union_left _ hp, _, List.mem_append_right mo (List.mem_singleton_self _), rfl⟩

theorem Sound.construct (hv : Sound mo v) (p : P) : Sound mo (v ∪ {.construct p}) := by
  intro q hq
  simp only [Finset.mem_union, Finset.mem_singleton, reduceCtorEq, or_false] at hq
  exact ⟨Finset.mem_union_left _ (hv q hq).1, (hv q hq).2⟩

omit [DecidableEq P] in
/-- As long as nothing has been constructed, a thread without the mutex knows
nothing of it. -/
theorem Pc.Knows.of_nil {k : Pc P} (h : k.Knows [] v) (hk : k.holds = false) (c : List P) : k.Knows c v := by
  cases k with
  | out | load | lock => trivial
  | reload | new | store | unlock => cases hk
  | ret r =>
    obtain ⟨p, -, hc, -⟩ := h
    cases hc

end Views

/-! ## The steps -/

namespace Inv

variable {s s' : State τ P} {t : τ}

omit [DecidableEq P] in
/-- A thread that neither takes nor releases the mutex. -/
theorem owner_goto (hi : Inv s) {k : Pc P} (hk : k.holds = (s.pc t).holds) :
    ∀ u, s.owner = some u ↔ (Function.update s.pc t k u).holds = true := by
  refine (Function.forall_update_iff s.pc fun u x => s.owner = some u ↔ x.holds = true).mpr ⟨?_, fun u _ => hi.owner u⟩
  rw [hk]
  exact hi.owner t

omit [DecidableEq P] in
/-- A step of `t` that neither constructs nor stores. -/
theorem move (hi : Inv s) {k : Pc P} {o : Option τ} {r : Finset (Event P)} {w : τ → Finset (Event P)}
    (hw : ∀ u, u ≠ t → w u = s.view u) (hv : Sound s.mo (w t)) (hr : Sound s.mo r)
    (hk : k.Knows s.constructed (w t)) (ho : ∀ u, o = some u ↔ (Function.update s.pc t k u).holds = true)
    (hf : o = none → Stored s.constructed r) :
    Inv { s with owner := o, released := r, view := w, pc := Function.update s.pc t k } := by
  refine ⟨ho, hi.message, hr, fun u => ?_, hf, ?_⟩
  · dsimp only
    by_cases hu : u = t
    · subst hu; exact hv
    · rw [hw u hu]; exact hi.view u
  · refine (Function.forall_update_iff s.pc fun u x => x.Knows s.constructed (w u)).mpr ⟨hk, fun u hu => ?_⟩
    rw [hw u hu]
    exact hi.knows u

omit [DecidableEq P] in
/-- The thread goes on, and synchronises with nothing. -/
theorem goto (hi : Inv s) {k : Pc P} (hh : k.holds = (s.pc t).holds) (hk : k.Knows s.constructed (s.view t)) :
    Inv (s.goto t k) :=
  hi.move (fun _ _ => rfl) (hi.view t) hi.released hk (hi.owner_goto hh) hi.free

omit [DecidableEq τ] [DecidableEq P] in
/-- Only one thread holds the mutex. -/
theorem not_holds (hi : Inv s) (ht : (s.pc t).holds = true) {u : τ} (hu : u ≠ t) : (s.pc u).holds = false := by
  have hown := (hi.owner t).mpr ht
  by_contra hn
  have hown' := (hi.owner u).mpr (by simpa using hn)
  rw [hown] at hown'
  exact hu (Option.some.inj hown').symm

/-- The acquire load of a pointer. -/
theorem loadPtr (hi : Inv s) {i : Option ℕ} {m : Message P (Event P)} (hp : s.pc t = .load)
    (hm : mayLoad s.mo (s.view t) i = some (some m)) : Inv ((s.goto t (.ret (some m.value))).gain t m.view) := by
  obtain ⟨-, hpub, hsound⟩ := hi.message m (mem_of_mayLoad hm)
  have ho := hi.owner_goto (t := t) (k := .ret (some m.value)) (by rw [hp]; rfl)
  refine hi.move (w := gain s.view t m.view) (fun _ hu => gain_of_ne hu) ?_ hi.released ?_ ho hi.free
  · rw [gain_self]
    exact (hi.view t).union hsound
  · rw [gain_self]
    exact hpub.mono Finset.subset_union_right

theorem lock (hi : Inv s) (hp : s.pc t = .lock) (hfree : s.owner = none) :
    Inv { (s.goto t .reload).gain t s.released with owner := some t } := by
  have hnot : ∀ u, (s.pc u).holds = false := fun u => by
    have := (hi.owner u).not.mp (by rw [hfree]; simp)
    simpa using this
  refine hi.move (w := gain s.view t s.released) (fun _ hu => gain_of_ne hu) ?_ hi.released ?_ (fun u => ?_) (by simp)
  · rw [gain_self]
    exact (hi.view t).union hi.released
  · rw [gain_self]
    exact fun p hc => Finset.mem_union_right _ (hi.free hfree p hc)
  · by_cases hu : u = t
    · subst hu
      simp [Pc.holds]
    · simp [Function.update_of_ne hu, hnot u, Ne.symm hu]

/-- Under the mutex a null pointer is not stale. -/
theorem reloadNull (hi : Inv s) {i : Option ℕ} (hp : s.pc t = .reload)
    (hm : mayLoad s.mo (s.view t) i = some none) : Inv (s.goto t .new) := by
  refine hi.goto (by rw [hp]; rfl) (List.eq_nil_iff_forall_not_mem.mpr fun p hc => ?_)
  have hk := hi.knows t
  rw [hp] at hk
  have hstore := hk p hc
  obtain ⟨-, m, hmo, he⟩ := hi.view t p hstore
  have hnot := not_mem_of_mayLoad hm hmo
  rw [he] at hnot
  exact hnot hstore

theorem reloadPtr (hi : Inv s) {i : Option ℕ} {m : Message P (Event P)} (hp : s.pc t = .reload)
    (hm : mayLoad s.mo (s.view t) i = some (some m)) : Inv (s.goto t (.unlock (some m.value))) := by
  obtain ⟨-, ⟨p, hpm, hc, -⟩, -⟩ := hi.message m (mem_of_mayLoad hm)
  have hk := hi.knows t
  rw [hp] at hk
  have hstore := hk p (by rw [hc]; simp)
  exact hi.goto (by rw [hp]; rfl) ⟨hk, p, hpm, hc, (hi.view t p hstore).1⟩

theorem new (hi : Inv s) {p : P} (hp : s.pc t = .new) :
    Inv { (s.goto t (.store p)).gain t {.construct p} with constructed := s.constructed ++ [p] } := by
  have hc : s.constructed = [] := by
    have hk := hi.knows t
    rwa [hp] at hk
  have hheld : (s.pc t).holds = true := by rw [hp]; rfl
  have hown := (hi.owner t).mpr hheld
  refine ⟨hi.owner_goto (by rw [hp]; rfl), fun m hm => ?_, hi.released, fun u => ?_, fun hn => ?_, fun u => ?_⟩
  · obtain ⟨-, ⟨q, -, hq, -⟩, -⟩ := hi.message m hm
    rw [hc] at hq
    cases hq
  · simp only [State.gain, State.goto]
    by_cases hu : u = t
    · subst hu
      rw [gain_self]
      exact (hi.view u).construct p
    · rw [gain_of_ne hu]
      exact hi.view u
  · rw [show s.owner = none from hn] at hown
    cases hown
  · simp only [State.gain, State.goto, hc, List.nil_append]
    by_cases hu : u = t
    · subst hu
      rw [Function.update_self, gain_self]
      exact ⟨rfl, Finset.mem_union_right _ (Finset.mem_singleton_self _)⟩
    · rw [Function.update_of_ne hu, gain_of_ne hu]
      have hk := hi.knows u
      rw [hc] at hk
      exact hk.of_nil (hi.not_holds hheld hu) _

omit [DecidableEq τ] in
/-- The message of `t`, once it is in the modification order. -/
theorem append (hi : Inv s) {p : P} (hp : s.pc t = .store p) :
    Inv { s with mo := s.mo ++ [⟨p, s.view t ∪ {.store p}, .store p⟩] } := by
  have hk := hi.knows t
  rw [hp] at hk
  refine ⟨hi.owner, fun m hm => ?_, hi.released.append _, fun u => (hi.view u).append _, hi.free, hi.knows⟩
  rcases List.mem_append.mp hm with hm | hm
  · obtain ⟨he, hpub, hsound⟩ := hi.message m hm
    exact ⟨he, hpub, hsound.append _⟩
  · obtain rfl := List.mem_singleton.mp hm
    exact ⟨rfl, ⟨p, rfl, hk.1, Finset.mem_union_left _ hk.2⟩, (hi.view t).store hk.2⟩

theorem store (hi : Inv s) {p : P} (hp : s.pc t = .store p) :
    Inv { (s.goto t (.unlock (some p))).gain t {.store p} with
      mo := s.mo ++ [⟨p, s.view t ∪ {.store p}, .store p⟩] } := by
  have hk := hi.knows t
  rw [hp] at hk
  have ho := hi.owner_goto (t := t) (k := .unlock (some p)) (by rw [hp]; rfl)
  refine (hi.append hp).move (w := gain s.view t {.store p}) (fun _ hu => gain_of_ne hu) ?_
    (hi.released.append _) ?_ ho hi.free
  · rw [gain_self]
    exact (hi.view t).store hk.2
  · rw [gain_self]
    refine ⟨fun q hq => ?_, p, rfl, hk.1, Finset.mem_union_left _ hk.2⟩
    rw [show s.constructed = [p] from hk.1, List.mem_singleton] at hq
    subst hq
    exact Finset.mem_union_right _ (Finset.mem_singleton_self _)

theorem unlock (hi : Inv s) {r : Option P} (hp : s.pc t = .unlock r) :
    Inv { s.goto t (.ret r) with owner := none, released := s.released ∪ s.view t } := by
  have hk := hi.knows t
  rw [hp] at hk
  refine hi.move (fun _ _ => rfl) (hi.view t) (hi.released.union (hi.view t)) hk.2 (fun u => ?_)
    fun _ p hc => Finset.mem_union_right _ (hk.1 p hc)
  by_cases hu : u = t
  · subst hu
    simp [Pc.holds]
  · simp [Function.update_of_ne hu, hi.not_holds (by rw [hp]; rfl) hu]

theorem step (hi : Inv s) {a : Act τ P} (h : Step s a s') : Inv s' := by
  cases h with
  | call hp => exact hi.goto (by rw [hp]; rfl) trivial
  | loadNull hp => exact hi.goto (by rw [hp]; rfl) trivial
  | loadPtr hp hm => exact hi.loadPtr hp hm
  | lock hp hfree => exact hi.lock hp hfree
  | reloadNull hp hm => exact hi.reloadNull hp hm
  | reloadPtr hp hm => exact hi.reloadPtr hp hm
  | new hp => exact hi.new hp
  | store hp => exact hi.store hp
  | unlock hp => exact hi.unlock hp
  | ret hp => exact hi.goto (by rw [hp]; rfl) trivial

theorem start : Inv (system τ P).start where
  owner _ := by simp [system, Pc.holds]
  message _ hm := by cases hm
  released _ hp := by cases hp
  view _ _ hp := by cases hp
  free _ _ hc := by cases hc
  knows _ := trivial

/-- Nothing has been constructed when an object is. -/
theorem length_step (hi : Inv s) {a : Act τ P} (h : Step s a s') (hone : s.constructed.length ≤ 1) :
    s'.constructed.length ≤ 1 := by
  cases h with
  | @new t q hp =>
    have hk := hi.knows t
    rw [hp] at hk
    simp [show s.constructed = [] from hk]
  | _ => exact hone

/-- What has been constructed stays the only object. -/
theorem constructed_step (hi : Inv s) {a : Act τ P} (h : Step s a s') {p : P} (hc : s.constructed = [p]) :
    s'.constructed = [p] := by
  cases h with
  | @new t q hp =>
    have hk := hi.knows t
    rw [hp] at hk
    rw [show s.constructed = [] from hk] at hc
    cases hc
  | _ => exact hc

end Inv

theorem inv {s : State τ P} (h : (system τ P).Reach s) : Inv s :=
  h.inv .start fun _ _ ha hi => hi.step (step_of_next ha)

/-! ## Progress -/

/-- A thread in a call that does not wait for the mutex can go on. -/
theorem Inv.can_step [Nonempty P] {s : State τ P} (hi : Inv s) {t : τ} (ho : s.pc t ≠ .out) (hl : s.pc t ≠ .lock) :
    ∃ a s', (∀ u, a ≠ .call u) ∧ next s a = some s' := by
  obtain ⟨i, r, hr⟩ := exists_mayLoad s.mo (s.view t)
  have hk := hi.knows t
  cases hp : s.pc t with
  | out => exact absurd hp ho
  | lock => exact absurd hp hl
  | load => exact ⟨.load t i, _, by simp, by simp only [next, hp, hr]; rfl⟩
  | reload => exact ⟨.load t i, _, by simp, by simp only [next, hp, hr]; rfl⟩
  | new =>
    obtain ⟨p⟩ := ‹Nonempty P›
    rw [hp] at hk
    exact ⟨.new t p, _, by simp, by simp only [next, hp, show s.constructed = [] from hk]; rfl⟩
  | store p => exact ⟨.store t, _, by simp, by simp only [next, hp]; rfl⟩
  | unlock r => exact ⟨.unlock t, _, by simp, by simp only [next, hp]; rfl⟩
  | ret r => exact ⟨.ret t, _, by simp, by simp only [next, hp]; rfl⟩

/-- When nothing but new calls is possible, every call has returned. -/
theorem out_of_quiet [Nonempty P] {s : State τ P} (h : (system τ P).Reach s)
    (hq : (system τ P).Quiet (fun a => ∀ u, a ≠ .call u) s) (t : τ) : s.pc t = .out := by
  have hi := inv h
  -- no thread stands anywhere but before a call or at the mutex
  have hstuck : ∀ u, s.pc u = .out ∨ s.pc u = .lock := fun u => by
    by_contra hn
    obtain ⟨ho, hl⟩ := not_or.mp hn
    obtain ⟨a, s', ha, hs⟩ := hi.can_step ho hl
    rw [show next s a = none from hq a ha] at hs
    cases hs
  refine (hstuck t).resolve_right fun hp => ?_
  cases ho : s.owner with
  | none =>
    have hs := hq (.lock t) (by simp)
    simp [system, next, hp, ho] at hs
  | some u =>
    have hheld := (hi.owner u).mp ho
    rcases hstuck u with hu | hu <;> rw [hu] at hheld <;> cases hheld

/-! ## Calls -/

/-- What a call returns, and the view in which it does. -/
def returned (s : State τ P) : Act τ P → List (Option P × Finset (Event P))
  | .ret t => match s.pc t with
    | .ret r => [(r, s.view t)]
    | _ => []
  | _ => []

omit [DecidableEq τ] [DecidableEq P] in
theorem mem_returned {s : State τ P} {a : Act τ P} {x : Option P × Finset (Event P)} (hx : x ∈ returned s a) :
    ∃ t, s.pc t = .ret x.1 ∧ s.view t = x.2 := by
  cases a with
  | ret t =>
    simp only [returned] at hx
    split at hx
    · obtain rfl := List.mem_singleton.mp hx
      exact ⟨t, ‹_›, rfl⟩
    · cases hx
  | _ => cases hx

/-- Nothing but the one object has been returned. -/
structure Agree (l : List (Option P × Finset (Event P))) (c : List P) : Prop where
  once : c.length ≤ 1
  pointer : ∀ x ∈ l, Published c x.2 x.1

theorem Agree.step {l : List (Option P × Finset (Event P))} {s s' : State τ P} {a : Act τ P}
    (hl : Agree l s.constructed) (hi : Inv s) (h : Step s a s') : Agree (l ++ returned s a) s'.constructed := by
  refine ⟨hi.length_step h hl.once, fun x hx => ?_⟩
  have hpub : Published s.constructed x.2 x.1 := by
    rcases List.mem_append.mp hx with hx | hx
    · exact hl.pointer x hx
    · obtain ⟨t, hpc, hv⟩ := mem_returned hx
      have hk := hi.knows t
      rwa [hpc, hv] at hk
  obtain ⟨p, hr, hc, hv⟩ := hpub
  exact ⟨p, hr, hi.constructed_step h hc, hv⟩

/-- At most one object is constructed, every call that returns returns a pointer to it,
with its construction in the view, and no call is left when nothing but new calls is
possible. -/
theorem get_atomic_dcl_publishes {as : List (Act τ P)} {s : State τ P}
    (h : (system τ P).run (system τ P).start as = some s) :
    s.constructed.length ≤ 1 ∧
    (∀ x ∈ (system τ P).trace returned (system τ P).start as,
      ∃ p, x.1 = some p ∧ s.constructed = [p] ∧ .construct p ∈ x.2) ∧
    (Nonempty P → (system τ P).Quiet (fun a => ∀ u, a ≠ .call u) s → ∀ t, s.pc t = .out) := by
  have hall : Agree ((system τ P).trace returned (system τ P).start as) s.constructed := by
    refine System.trace_inv (I := fun l (s : State τ P) => Agree l s.constructed) h
      (System.along_true as _) ⟨Nat.zero_le 1, fun _ hx => by cases hx⟩ fun hp _ ha hl => ?_
    exact hl.step (inv (System.ReachBy.reach hp)) (step_of_next ha)
  exact ⟨hall.once, hall.pointer, fun _ => out_of_quiet (System.reach_of_run h)⟩

/-- `u` loads null before and `v` after `t` has stored the pointer; later `u`
calls again, and takes the fast path. -/
def staleRun (t u v : τ) : List (Act τ ℕ) :=
  [.call t, .load t none, .call u, .load u none, .lock t, .load t none, .new t 7, .store t, .call v,
    .load v none, .unlock t, .ret t, .lock v, .load v (some 0), .unlock v, .ret v, .lock u, .load u (some 0),
    .unlock u, .ret u, .call u, .load u (some 0), .ret u]

theorem get_atomic_dcl_publishes_stale :
    ((system (Fin 3) ℕ).trace returned (system (Fin 3) ℕ).start (staleRun 0 1 2)).length = 4 ∧
    ∃ s, (system (Fin 3) ℕ).run (system (Fin 3) ℕ).start (staleRun 0 1 2) = some s ∧
      ∀ x ∈ (system (Fin 3) ℕ).trace returned (system (Fin 3) ℕ).start (staleRun 0 1 2),
        ∃ p, x.1 = some p ∧ s.constructed = [p] ∧ .construct p ∈ x.2 := by
  have hr : ((system (Fin 3) ℕ).run (system (Fin 3) ℕ).start (staleRun 0 1 2)).isSome = true := by decide +kernel
  obtain ⟨s, hs⟩ := Option.isSome_iff_exists.mp hr
  exact ⟨by decide +kernel, s, hs, (get_atomic_dcl_publishes hs).2.1⟩

end TKH.DoubleChecked
