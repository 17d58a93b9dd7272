import ThreadingKnowHows.Stack.LockFree

/-!
# The lock-free stack is linearizable

A node is private to the thread that made it until its push succeeds, and
public from then on. Published nodes are immutable (`Step.keeps`): only the owner
of a private node writes to it. So the `next` that a pop has read is still the
successor of the node when its compare-and-swap succeeds, whatever happened in
between, and the list from `head_` is the one that the successful
compare-and-swaps made (`Inv`).
-/

namespace TKH.Stack.LockFree

variable {τ A T : Type*}

/-! ## Published nodes -/

/-- The node that only this thread knows. -/
def Pc.mine : Pc A T → Option A
  | pushCas _ n => some n
  | _ => none

namespace State

def Published (s : State τ A T) (a : A) : Prop :=
  (s.heap a).isSome = true ∧ ∀ t, (s.pc t).mine ≠ some a

/-- What a thread relies on at a control point. -/
def knows (s : State τ A T) : Pc A T → Prop
  | .pushCas v n => s.value n = some v
  | .popNext a => s.Published a
  | .popCas a nx => s.Published a ∧ s.next a = nx
  | .popValue a => s.Published a
  | _ => True

end State

structure Inv (s : State τ A T) : Prop where
  linked : Linked s.next s.head s.nodes
  stacked : ∀ a ∈ s.nodes, s.Published a
  knows : ∀ t, s.knows (s.pc t)
  apart : ∀ t u n, (s.pc t).mine = some n → (s.pc u).mine = some n → t = u

/-- Published nodes stay as they are, and the values of all nodes. -/
structure Keeps (s s' : State τ A T) : Prop where
  published : ∀ a, s.Published a → s'.Published a ∧ s'.heap a = s.heap a
  value : ∀ a v, s.value a = some v → s'.value a = some v

variable {s s' : State τ A T}

theorem Keeps.knows (h : Keeps s s') {k : Pc A T} (hk : s.knows k) : s'.knows k := by
  cases k with
  | pushCas v n => exact h.value n v hk
  | popNext a | popValue a => exact (h.published a hk).1
  | popCas a nx =>
    obtain ⟨hp, he⟩ := h.published a hk.1
    exact ⟨hp, by rw [State.next, he]; exact hk.2⟩
  | _ => trivial

theorem Inv.heap_of_mine (h : Inv s) {t : τ} {n : A} (hn : (s.pc t).mine = some n) :
    ∃ v, s.value n = some v := by
  have := h.knows t
  cases hp : s.pc t with
  | pushCas v m => rw [hp] at hn this; cases hn; exact ⟨v, this⟩
  | _ => rw [hp] at hn; cases hn

theorem Inv.value_of_mem (h : Inv s) {a : A} (ha : a ∈ s.nodes) : ∃ v, s.value a = some v := by
  obtain ⟨node, hn⟩ := Option.isSome_iff_exists.mp (h.stacked a ha).1
  exact ⟨node.value, by simp [State.value, hn]⟩

variable [DecidableEq τ] {t : τ} {k : Pc A T}

/-- A step that moves `t` and leaves the heap. -/
theorem keeps_move (hpc : s'.pc = Function.update s.pc t k) (hheap : s'.heap = s.heap)
    (hk : k.mine = none) : Keeps s s' where
  published a ha := by
    refine ⟨⟨by rw [hheap]; exact ha.1, ?_⟩, by rw [hheap]⟩
    rw [hpc]
    exact (Function.forall_update_iff s.pc fun _ x => x.mine ≠ some a).mpr ⟨by rw [hk]; exact nofun, fun u _ => ha.2 u⟩
  value a v := by simp only [State.value, hheap]; exact id

theorem Inv.move (h : Inv s) (hkeeps : Keeps s s') (hpc : s'.pc = Function.update s.pc t k)
    (hk : s'.knows k) (hmine : ∀ n, k.mine = some n → ∀ u, u ≠ t → (s.pc u).mine ≠ some n)
    (hlinked : Linked s'.next s'.head s'.nodes) (hstacked : ∀ a ∈ s'.nodes, s'.Published a) : Inv s' where
  linked := hlinked
  stacked := hstacked
  knows := by
    rw [hpc]
    exact (Function.forall_update_iff s.pc fun _ x => s'.knows x).mpr ⟨hk, fun u _ => hkeeps.knows (h.knows u)⟩
  apart := by
    rw [hpc]
    exact single_owner_update h.apart hmine

omit [DecidableEq τ] in
theorem Inv.linked_of_keeps (h : Inv s) (hkeeps : Keeps s s') : Linked s'.next s.head s.nodes :=
  h.linked.congr fun a ha => by simp only [State.next, (hkeeps.published a (h.stacked a ha)).2]

variable [DecidableEq A] {a : Act τ A T}

/-! ## Steps -/

theorem Step.keeps (h : Step s a s') : Keeps s s' := by
  cases h with
  | @call t op => exact keeps_move rfl rfl (by cases op <;> rfl)
  | pushLoad | popNext | popValue | ret => exact keeps_move rfl rfl rfl
  | pushOk | popOk => exact keeps_move rfl rfl rfl
  | @popTest t =>
    simp only [State.test]
    split <;> exact keeps_move rfl rfl rfl
  | @pushNew t v hd n hpc hn =>
    refine ⟨fun b hb => ?_, fun b w hw => ?_⟩
    · have hne : b ≠ n := by rintro rfl; exact absurd hb.1 (by simp [hn])
      refine ⟨⟨?_, fun u => ?_⟩, Function.update_of_ne hne ..⟩
      · simpa [State.goto, Function.update_of_ne hne] using hb.1
      · by_cases hu : u = t
        · subst hu; simpa [State.goto, Pc.mine] using hne.symm
        · simpa [State.goto, Function.update_of_ne hu] using hb.2 u
    · have hne : b ≠ n := by rintro rfl; simp [State.value, hn] at hw
      simpa [State.value, State.goto, Function.update_of_ne hne] using hw
  | @pushFail t v n node _ hpc hn _ =>
    refine ⟨fun b hb => ?_, fun b w hw => ?_⟩
    · have hne : b ≠ n := by rintro rfl; exact hb.2 t (by rw [hpc]; rfl)
      exact ⟨⟨by simpa [State.pushFail, Function.update_of_ne hne] using hb.1, hb.2⟩,
        Function.update_of_ne hne ..⟩
    · by_cases hb : b = n
      · subst hb; simpa [State.value, State.pushFail, hn] using hw
      · simpa [State.value, State.pushFail, Function.update_of_ne hb] using hw

theorem Step.inv (h : Step s a s') (hi : Inv s) : Inv s' := by
  have hkeeps := h.keeps
  have hlinked := hi.linked_of_keeps hkeeps
  have hstacked : ∀ a ∈ s.nodes, s'.Published a := fun a ha => (hkeeps.published a (hi.stacked a ha)).1
  cases h with
  | @call t op =>
    exact hi.move hkeeps rfl (by cases op <;> trivial) (by cases op <;> exact nofun) hlinked hstacked
  | pushLoad => exact hi.move hkeeps rfl trivial nofun hlinked hstacked
  | @pushNew t v hd n hpc hn =>
    refine hi.move hkeeps rfl ?_ (fun m hm u _ hu => ?_) hlinked hstacked
    · simp [State.knows, State.value, State.goto]
    · cases hm
      obtain ⟨w, hw⟩ := hi.heap_of_mine hu
      simp [State.value, hn] at hw
  | @pushOk t v n node hpc hn hh =>
    have hnext : s.next n = s.head := by simp [State.next, hn, hh]
    refine hi.move hkeeps rfl trivial nofun ⟨rfl, hnext ▸ hlinked⟩ fun b hb => ?_
    rcases List.mem_cons.mp hb with rfl | hb
    · refine ⟨by simp [State.pushOk, State.goto, State.commit, hn], fun u => ?_⟩
      by_cases hu : u = t
      · subst hu; simp [State.pushOk, State.goto, Pc.mine]
      · simp only [State.pushOk, State.goto, State.commit, Function.update_of_ne hu]
        exact fun hm => hu (hi.apart u t b hm (by rw [hpc]; rfl))
    · exact hstacked b hb
  | @pushFail t v n node _ hpc hn _ =>
    have hpc' : (s.pushFail n node).pc = Function.update s.pc t (s.pc t) := by
      rw [Function.update_eq_self]; rfl
    refine hi.move hkeeps hpc' (hkeeps.knows (hi.knows t)) (fun m hm u hu hu' => ?_) hlinked hstacked
    exact hu (hi.apart u t m hu' hm)
  | @popTest t =>
    cases hh : s.head with
    | none =>
      simp only [State.test, hh] at hkeeps hlinked hstacked ⊢
      exact hi.move hkeeps rfl trivial nofun (by rw [← hh] at hlinked; exact hlinked) hstacked
    | some b =>
      obtain ⟨bs, hbs, -⟩ := linked_some (hh ▸ hi.linked)
      simp only [State.test, hh] at hkeeps hlinked hstacked ⊢
      refine hi.move hkeeps rfl ?_ nofun (by rw [← hh] at hlinked; exact hlinked) hstacked
      exact hstacked b (by simp [hbs])
  | @popNext t b node hpc hn =>
    have hp := hi.knows t
    rw [hpc] at hp
    refine hi.move hkeeps rfl ?_ nofun hlinked hstacked
    exact ⟨(hkeeps.published b hp).1, by simp [State.next, State.goto, hn]⟩
  | @popOk t b nx hpc hh =>
    have hp := hi.knows t
    rw [hpc] at hp
    obtain ⟨hpub, rfl⟩ := hp
    obtain ⟨bs, hbs, -⟩ := linked_some (hh ▸ hi.linked)
    have htail : s.nodes.tail = bs := by rw [hbs]; rfl
    refine hi.move hkeeps rfl (hkeeps.published b hpub).1 nofun ?_ fun c hc => ?_
    · rw [hh, hbs] at hlinked
      rw [show (s.popOk t b (s.next b)).nodes = bs from htail]
      exact hlinked.2
    · exact hstacked c (List.mem_of_mem_tail hc)
  | popValue => exact hi.move hkeeps rfl trivial nofun hlinked hstacked
  | ret => exact hi.move hkeeps rfl trivial nofun hlinked hstacked

theorem inv_of_reach (h : (stack τ A T).Reach s) : Inv s :=
  h.inv ⟨rfl, nofun, fun _ => trivial, nofun⟩ fun _ _ ha hi => (step_of_next ha).inv hi

/-! ## Linearization -/

/-- Where a thread is in its call. A pop that has swapped has the value of its
node, which it is about to read. -/
def phase (s : State τ A T) : Pc A T → Phase (Op T) (Ret T)
  | .out => .idle
  | .pushLoad v | .pushNew v _ | .pushCas v _ => .pending (.push v)
  | .pushRet v => .done (.push v) .pushed
  | .popLoad | .popNext _ | .popCas _ _ => .pending .pop
  | .popValue a => .done .pop (.popped (s.value a))
  | .popRet r => .done .pop (.popped r)

/-- The stack as a shared LIFO stack: the values of its nodes. -/
def abs (s : State τ A T) : Shared (List T) τ (Op T) (Ret T) :=
  ⟨s.nodes.filterMap s.value, fun t => phase s (s.pc t), s.hist⟩

omit [DecidableEq τ] [DecidableEq A] in
theorem Keeps.phase (h : Keeps s s') (hk : s.knows k) : phase s' k = LockFree.phase s k := by
  cases k with
  | popValue a => simp only [LockFree.phase, State.value, (h.published a hk).2]
  | _ => rfl

omit [DecidableEq τ] [DecidableEq A] in
theorem Inv.values (h : Inv s) (hkeeps : Keeps s s') :
    s.nodes.filterMap s'.value = s.nodes.filterMap s.value :=
  List.filterMap_congr fun a ha => by
    simp only [State.value, (hkeeps.published a (h.stacked a ha)).2]

omit [DecidableEq A] in
/-- A step that moves `t` and may let an operation take effect. -/
theorem Inv.abs_move (h : Inv s) (hkeeps : Keeps s s') (hpc : s'.pc = Function.update s.pc t k) :
    abs s' = ⟨s'.nodes.filterMap s'.value, Function.update (abs s).phase t (phase s' k), s'.hist⟩ := by
  simp only [abs, Shared.mk.injEq, true_and, and_true]
  rw [hpc]
  refine Function.eq_update_iff.mpr ⟨by rw [Function.update_self], fun u hu => ?_⟩
  rw [Function.update_of_ne hu, hkeeps.phase (h.knows u)]

omit [DecidableEq A] in
/-- A step in which nothing takes effect. -/
theorem Inv.abs_stutter (h : Inv s) (hkeeps : Keeps s s') (hpc : s'.pc = Function.update s.pc t k)
    (hnodes : s'.nodes = s.nodes) (hhist : s'.hist = s.hist) (hk : phase s' k = phase s (s.pc t)) :
    abs s' = abs s := by
  rw [h.abs_move hkeeps hpc, hnodes, hhist, h.values hkeeps, hk]
  simp only [abs, Shared.mk.injEq, true_and, and_true]
  exact Function.update_eq_self t _

omit [DecidableEq A] in
theorem Inv.pushOk_obj (h : Inv s) {v : T} {n : A} (hpc : s.pc t = .pushCas v n) :
    (abs (s.pushOk t v n)).obj = v :: (abs s).obj := by
  have hv := h.knows t
  rw [hpc] at hv
  exact List.filterMap_cons_some hv

omit [DecidableEq A] in
/-- A successful pop takes the value on top. -/
theorem Inv.popOk_obj (h : Inv s) {b : A} (nx : Option A) (hh : s.head = some b) :
    ∃ v, s.value b = some v ∧ (abs s).obj = v :: (abs (s.popOk t b nx)).obj := by
  obtain ⟨bs, hbs, -⟩ := linked_some (hh ▸ h.linked)
  obtain ⟨v, hv⟩ := h.value_of_mem (a := b) (by simp [hbs])
  refine ⟨v, hv, ?_⟩
  have htail : (s.popOk t b nx).nodes = bs := by simp [State.popOk, State.goto, State.commit, hbs]
  simp only [abs, htail, hbs, List.filterMap_cons_some hv]
  rfl

theorem Step.linearizes (h : Step s a s') (hi : Inv s) :
    (a.visible = false ∧ abs s' = abs s) ∨
      ∃ e : Event τ (Op T), e.visible = a.visible ∧ (atomic (lifo T)).next (abs s) e = some (abs s') := by
  have hkeeps := h.keeps
  cases h with
  | @call t op hpc =>
    refine .inr ⟨.call t op, rfl, ?_⟩
    have hp : (abs s).phase t = .idle := by simp [abs, hpc, phase]
    rw [atomic_call_next hp, hi.abs_move hkeeps rfl]
    cases op <;> rfl
  | @pushLoad t v hpc => exact .inl ⟨rfl, hi.abs_stutter hkeeps rfl rfl rfl (by rw [hpc]; rfl)⟩
  | @pushNew t v hd n hpc hn => exact .inl ⟨rfl, hi.abs_stutter hkeeps rfl rfl rfl (by rw [hpc]; rfl)⟩
  | @pushOk t v n node hpc hn hh =>
    refine .inr ⟨.commit t, rfl, ?_⟩
    have hp : (abs s).phase t = .pending (.push v) := by simp [abs, hpc, phase]
    rw [atomic_commit_next hp rfl, ← hi.pushOk_obj hpc, hi.abs_move hkeeps rfl]
    rfl
  | @pushFail t v n node _ hpc hn hv =>
    have hpc' : (s.pushFail n node).pc = Function.update s.pc t (s.pc t) := by
      rw [Function.update_eq_self]; rfl
    exact .inl ⟨hv, hi.abs_stutter hkeeps hpc' rfl rfl (by rw [hpc]; rfl)⟩
  | @popTest t _ hpc hv =>
    have hp : (abs s).phase t = .pending .pop := by
      rcases hpc with hpc | ⟨old, nx, hpc⟩ <;> simp [abs, hpc, phase]
    cases hh : s.head with
    | none =>
      -- the stack is empty now, so that the pop takes effect here
      have he : s.nodes = [] := linked_none (hh ▸ hi.linked)
      refine .inr ⟨.commit t, hv.symm, ?_⟩
      simp only [State.test, hh] at hkeeps ⊢
      have ha : (lifo T).apply (abs s).obj .pop = some (.popped none, []) := by simp [abs, he, lifo]
      rw [atomic_commit_next hp ha, hi.abs_move hkeeps rfl]
      simp [State.goto, State.commit, he, phase, abs]
    | some b =>
      refine .inl ⟨hv, ?_⟩
      simp only [State.test, hh] at hkeeps ⊢
      exact hi.abs_stutter hkeeps rfl rfl rfl hp.symm
  | @popNext t b node hpc hn => exact .inl ⟨rfl, hi.abs_stutter hkeeps rfl rfl rfl (by rw [hpc]; rfl)⟩
  | @popOk t b nx hpc hh =>
    refine .inr ⟨.commit t, rfl, ?_⟩
    have hp : (abs s).phase t = .pending .pop := by simp [abs, hpc, phase]
    obtain ⟨v, hv, hobj⟩ := hi.popOk_obj (t := t) nx hh
    have ha : (lifo T).apply (abs s).obj .pop = some (.popped (some v), (abs (s.popOk t b nx)).obj) := by
      rw [hobj]; rfl
    rw [atomic_commit_next hp ha, hi.abs_move hkeeps rfl]
    simp only [phase, show (s.popOk t b nx).value b = some v from hv]
    simp [State.popOk, State.goto, State.commit, hv, abs]
  | @popValue t b node hpc hn =>
    exact .inl ⟨rfl, hi.abs_stutter hkeeps rfl rfl rfl (by rw [hpc]; simp [phase, State.value, hn])⟩
  | @ret t hpc =>
    have hp : ∃ op r, (abs s).phase t = .done op r := by
      rcases hpc with ⟨v, hpc⟩ | ⟨r, hpc⟩ <;> simp [abs, hpc, phase]
    obtain ⟨op, r, hp⟩ := hp
    refine .inr ⟨.ret t, rfl, ?_⟩
    rw [atomic_ret_next hp, hi.abs_move hkeeps rfl]
    rfl

theorem stack_linearizes : Linearizes (stack τ A T) (fun _ _ => True) (lifo T) abs Act.visible where
  start := rfl
  step hr _ ha := (step_of_next ha).linearizes (inv_of_reach hr)

/-- The operations in the order in which they took effect. -/
def history (s : State τ A T) : List (Op T × Ret T) := s.hist.map Prod.snd

/-- The lock-free stack is a linearizable LIFO stack. -/
theorem stack_linearizable :
    Linearizes (stack τ A T) (fun _ _ => True) (lifo T) abs Act.visible ∧
    ∀ {s : State τ A T}, (stack τ A T).Reach s →
      (∃ ns : List A, Linked s.next s.head ns ∧ ns.Nodup ∧ (∀ a ∈ ns, (s.value a).isSome = true) ∧
        (abs s).obj = ns.filterMap s.value) ∧
      (∀ t a, s.pc t = .popNext a ∨ s.pc t = .popValue a → (s.heap a).isSome = true) ∧
      (∀ t v n, s.pc t = .pushCas v n → s.head = s.next n →
        ∃ s', (stack τ A T).next s (.step t) = some s' ∧ s'.hist = s.hist ++ [(t, .push v, .pushed)] ∧
          (abs s').obj = v :: (abs s).obj) ∧
      (∀ t a nx, s.pc t = .popCas a nx → s.head = some a →
        ∃ v s', (stack τ A T).next s (.step t) = some s' ∧ s'.hist = s.hist ++ [(t, .pop, .popped (some v))] ∧
          (abs s).obj = v :: (abs s').obj) ∧
      (∀ t r, s.pc t = .popRet r → (s.hist.filter fun x => x.1 = t).getLast? = some (t, .pop, .popped r)) ∧
      (∀ h₁ h₂, history s = h₁ ++ (.pop, .popped none) :: h₂ → (lifo T).Runs [] h₁ []) ∧
      (pushed (history s) : Multiset T) = popped (history s) + (abs s).obj := by
  refine ⟨stack_linearizes, fun {s} h => ?_⟩
  have hi := inv_of_reach h
  have hr : (lifo T).Runs [] (history s) (abs s).obj := stack_linearizes.runs h
  refine ⟨⟨s.nodes, hi.linked, hi.linked.nodup, fun a ha => ?_, rfl⟩, fun t a hpc => ?_,
    fun t v n hpc hh => ?_, fun t a nx hpc hh => ?_, fun t r hpc => ?_, fun h₁ h₂ hh => ?_, ?_⟩
  · obtain ⟨v, hv⟩ := hi.value_of_mem ha
    rw [hv]; rfl
  · have hk := hi.knows t
    rcases hpc with hpc | hpc <;> rw [hpc] at hk <;> exact hk.1
  · have hv := hi.knows t
    rw [hpc] at hv
    obtain ⟨node, hn, -⟩ := Option.map_eq_some_iff.mp hv
    refine ⟨s.pushOk t v n, ?_, rfl, hi.pushOk_obj hpc⟩
    simp only [State.next, hn, Option.bind_some] at hh
    simp [stack, next, hpc, hn, hh]
  · obtain ⟨v, hv, hobj⟩ := hi.popOk_obj (t := t) nx hh
    refine ⟨v, s.popOk t a nx, by simp [stack, next, hpc, hh], ?_, hobj⟩
    rw [← hv]; rfl
  · exact atomic_last (stack_linearizes.reach h) (by simp [abs, hpc, phase])
  · rw [hh] at hr
    obtain ⟨q, hr, q', ha, -⟩ := Object.runs_append.mp hr
    cases q with
    | nil => exact hr
    | cons v q => cases ha
  · simpa using runs_conserve hr

/-- Two threads push at once, the push of `t` is retried, and `t` pops, with a
spurious failure. -/
def pushPushPop (t u : τ) : List (Act τ ℕ ℕ) :=
  [.call t (.push 1), .step t, .new t 10, .call u (.push 2), .step u, .new u 11, .step u,
    .step t, .step t, .ret t, .call t .pop, .step t, .step t, .fail t, .step t, .step t, .step t]

theorem stack_linearizable_two :
    ∃ s, (stack (Fin 2) ℕ ℕ).run (stack (Fin 2) ℕ ℕ).start (pushPushPop 0 1) = some s ∧
      (s.hist.filter fun x => x.1 = 0).getLast? = some (0, .pop, .popped (some 1)) ∧
      (pushed (history s) : Multiset ℕ) = popped (history s) + (abs s).obj := by
  have hr : ((stack (Fin 2) ℕ ℕ).run (stack (Fin 2) ℕ ℕ).start (pushPushPop 0 1)).isSome = true := by decide
  have hs := Option.some_get hr
  obtain ⟨-, h⟩ := stack_linearizable (τ := Fin 2) (A := ℕ) (T := ℕ)
  obtain ⟨-, -, -, -, hlast, -, hc⟩ := h (System.reach_of_run hs.symm)
  exact ⟨_, hs.symm, hlast 0 (some 1) rfl, hc⟩

end TKH.Stack.LockFree
