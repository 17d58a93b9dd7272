import ThreadingKnowHows.Framework.Coherence
import ThreadingKnowHows.Framework.Journal
import ThreadingKnowHows.Framework.Object

/-!
# Compare-and-swap loops

A call loads an atomic variable and then tries, until it succeeds, to replace
the value that it has seen by one made from it (`attempt`); it may also leave
without a write. A weak compare-and-swap compares values only, may fail for no
reason, and leaves what it has loaded, so that the call tries again with that.
The first load and the load of a failed compare-and-swap may be stale.

`hist` is not part of a program: the calls whose compare-and-swap has
succeeded, with the value that they replaced. If no call leaves without a
write, the variable is the atomic object whose operations are the calls
(`casLoop_linearizes`).
-/

namespace TKH

variable {τ A V : Type*}

/-- What a call does next with a value it has seen. -/
inductive Attempt (V : Type*)
  /-- Return, without a write. -/
  | leave
  | swap (desired : V)
  /-- The new value is not defined. -/
  | undefined
  deriving DecidableEq

inductive CasPc (A V : Type*)
  | out
  | load (arg : A)
  /-- The call has seen `cur`. -/
  | loop (arg : A) (cur : V)
  | ret (arg : A) (cur : V)
  | undefined
  deriving DecidableEq

structure CasState (τ A V : Type*) where
  var : Atomic τ V
  pc : τ → CasPc A V
  hist : List (τ × A × V)

inductive CasAct (τ A : Type*)
  | call (t : τ) (arg : A)
  /-- The first load, or a compare-and-swap that fails: `t` sees the `i`-th value. -/
  | load (t : τ) (i : ℕ)
  /-- What `attempt` says; its compare-and-swap succeeds. -/
  | step (t : τ)
  | ret (t : τ)

variable [DecidableEq τ]

def CasState.goto (s : CasState τ A V) (t : τ) (k : CasPc A V) : CasState τ A V :=
  { s with pc := Function.update s.pc t k }

/-- `t` loads the `i`-th value. -/
def CasState.see (s : CasState τ A V) (t : τ) (i : ℕ) (arg : A) : Option (CasState τ A V) :=
  (s.var.load t i).map fun (v, var) => { s with var := var }.goto t (.loop arg v)

/-- The compare-and-swap of `t` replaces `cur` by `desired`. -/
def CasState.swap (s : CasState τ A V) (t : τ) (arg : A) (cur desired : V) : CasState τ A V :=
  { s with var := s.var.store t desired, hist := s.hist ++ [(t, arg, cur)] }.goto t (.ret arg cur)

section

variable [DecidableEq V] (attempt : A → V → Attempt V)

def casNext (s : CasState τ A V) : CasAct τ A → Option (CasState τ A V)
  | .call t arg => match s.pc t with
    | .out => some (s.goto t (.load arg))
    | _ => none
  | .load t i => match s.pc t with
    | .load arg => s.see t i arg
    | .loop arg cur => match attempt arg cur with
      | .swap _ => s.see t i arg
      | _ => none
    | _ => none
  | .step t => match s.pc t with
    | .loop arg cur => match attempt arg cur with
      | .leave => some (s.goto t (.ret arg cur))
      | .swap desired => if s.var.value = cur then some (s.swap t arg cur desired) else none
      | .undefined => some (s.goto t .undefined)
    | _ => none
  | .ret t => match s.pc t with
    | .ret _ _ => some (s.goto t .out)
    | _ => none

/-- Any calls of the threads `τ`, on a variable that is `v₀` at first. -/
def casLoop (v₀ : V) : System (CasState τ A V) (CasAct τ A) where
  start := { var := .init v₀, pc := fun _ => .out, hist := [] }
  next := casNext attempt

/-- The steps of `casNext`. -/
inductive CasStep (s : CasState τ A V) : CasAct τ A → CasState τ A V → Prop
  | call {t : τ} {arg : A} : s.pc t = .out → CasStep s (.call t arg) (s.goto t (.load arg))
  | load {t : τ} {i : ℕ} {arg : A} {v : V} {var : Atomic τ V} :
    (s.pc t = .load arg ∨ ∃ cur desired, s.pc t = .loop arg cur ∧ attempt arg cur = .swap desired) →
    s.var.load t i = some (v, var) → CasStep s (.load t i) ({ s with var := var }.goto t (.loop arg v))
  | leave {t : τ} {arg : A} {cur : V} : s.pc t = .loop arg cur → attempt arg cur = .leave →
    CasStep s (.step t) (s.goto t (.ret arg cur))
  | swap {t : τ} {arg : A} {cur desired : V} : s.pc t = .loop arg cur → attempt arg cur = .swap desired →
    s.var.value = cur → CasStep s (.step t) (s.swap t arg cur desired)
  | undefined {t : τ} {arg : A} {cur : V} : s.pc t = .loop arg cur → attempt arg cur = .undefined →
    CasStep s (.step t) (s.goto t .undefined)
  | ret {t : τ} {arg : A} {cur : V} : s.pc t = .ret arg cur → CasStep s (.ret t) (s.goto t .out)

variable {attempt}

theorem casStep_of_next {v₀ : V} {s s' : CasState τ A V} {a : CasAct τ A}
    (h : (casLoop attempt v₀).next s a = some s') : CasStep attempt s a s' := by
  change casNext attempt s a = some s' at h
  have hsee : ∀ {t i arg}, (s.pc t = .load arg ∨ ∃ cur desired, s.pc t = .loop arg cur ∧ attempt arg cur = .swap desired) →
      s.see t i arg = some s' → CasStep attempt s (.load t i) s' := by
    intro t i arg hpc hs
    obtain ⟨⟨v, var⟩, hload, rfl⟩ := Option.map_eq_some_iff.mp hs
    exact .load hpc hload
  cases a with
  | call t arg =>
    simp only [casNext] at h
    split at h <;> cases h
    exact .call ‹_›
  | load t i =>
    simp only [casNext] at h
    split at h
    · exact hsee (.inl ‹_›) h
    · split at h
      · exact hsee (.inr ⟨_, _, ‹_›, ‹_›⟩) h
      · cases h
    · cases h
  | step t =>
    simp only [casNext] at h
    split at h
    · rename_i arg cur hpc
      split at h
      · cases h; exact .leave hpc ‹_›
      · split at h <;> cases h
        exact .swap hpc ‹_› ‹_›
      · cases h; exact .undefined hpc ‹_›
    · cases h
  | ret t =>
    simp only [casNext] at h
    split at h <;> cases h
    exact .ret ‹_›

/-! ## What a thread has seen -/

/-- What a call has seen is a value that the variable has had. -/
theorem cur_mem {v₀ : V} {s : CasState τ A V} (h : (casLoop attempt v₀).Reach s) {t : τ} {arg : A} {cur : V}
    (hpc : s.pc t = .loop arg cur) : cur ∈ s.var.mo := by
  revert t arg cur
  refine h.inv (I := fun s => ∀ {t arg cur}, s.pc t = .loop arg cur → cur ∈ s.var.mo) (fun hpc => by cases hpc) ?_
  intro s a s' _ _ ha ih t arg cur hpc
  -- another control point of `u`
  have hmove : ∀ {u k}, (∀ arg cur, k ≠ .loop arg cur) → Function.update s.pc u k t = .loop arg cur →
      cur ∈ s.var.mo := by
    intro u k hk hu
    by_cases ht : t = u
    · subst ht; rw [Function.update_self] at hu; exact absurd hu (hk arg cur)
    · rw [Function.update_of_ne ht] at hu; exact ih hu
  cases casStep_of_next ha with
  | call | leave | undefined | ret => exact hmove (fun _ _ hn => by cases hn) hpc
  | swap => exact List.mem_append_left _ (hmove (fun _ _ hn => by cases hn) hpc)
  | @load u i arg' v var hu hload =>
    obtain ⟨-, hv, hmo, -, -⟩ := Atomic.load_iff hload
    simp only [CasState.goto, hmo] at hpc ⊢
    by_cases ht : t = u
    · subst ht
      rw [Function.update_self] at hpc
      cases hpc
      exact List.mem_of_getElem? hv
    · rw [Function.update_of_ne ht] at hpc
      exact ih hpc

/-! ## The calls of a run -/

inductive CallEvent (A V : Type*)
  | call (arg : A)
  | ret (arg : A) (r : V)

def CallEvent.called : CallEvent A V → Option A
  | call arg => some arg
  | _ => none

def CallEvent.returned : CallEvent A V → Option (A × V)
  | ret arg r => some (arg, r)
  | _ => none

/-- Calls and returns. -/
def CasAct.events (s : CasState τ A V) : CasAct τ A → List (τ × CallEvent A V)
  | .call t arg => [(t, .call arg)]
  | .ret t => match s.pc t with
    | .ret arg cur => [(t, .ret arg cur)]
    | _ => []
  | _ => []

/-- The call of a thread that has not got to its return. -/
def CasPc.waits : CasPc A V → List A
  | .load arg | .loop arg _ => [arg]
  | _ => []

/-- The call of a thread that is about to return. -/
def CasPc.returns : CasPc A V → List (A × V)
  | .ret arg cur => [(arg, cur)]
  | _ => []

/-- The step does not evaluate what is not defined. -/
def Defined (attempt : A → V → Attempt V) (s : CasState τ A V) : CasAct τ A → Prop
  | .step t => match s.pc t with
    | .loop arg cur => attempt arg cur ≠ .undefined
    | _ => True
  | _ => True

instance (s : CasState τ A V) : ∀ a, Decidable (Defined attempt s a)
  | .step t => match h : s.pc t with
    | .loop arg cur => decidable_of_iff (attempt arg cur ≠ .undefined) (by simp [Defined, h])
    | .out | .load _ | .ret _ _ | .undefined => isTrue (by simp [Defined, h])
  | .call _ _ | .load _ _ | .ret _ => isTrue trivial

/-- The calls that `t` has started, and those it has returned from. -/
def calledBy (t : τ) (es : List (τ × CallEvent A V)) : List A := (journal t es).filterMap CallEvent.called

def returnedBy (t : τ) (es : List (τ × CallEvent A V)) : List (A × V) := (journal t es).filterMap CallEvent.returned

/-- The arguments of all calls, and of those that have returned. -/
def arguments (es : List (τ × CallEvent A V)) : List A := (es.map Prod.snd).filterMap CallEvent.called

def finished (es : List (τ × CallEvent A V)) : List A :=
  ((es.map Prod.snd).filterMap CallEvent.returned).map Prod.fst

omit [DecidableEq V] in
theorem mem_arguments {arg : A} {es : List (τ × CallEvent A V)} : arg ∈ arguments es ↔ ∃ t, arg ∈ calledBy t es := by
  simp only [arguments, calledBy, List.mem_filterMap, List.mem_map, Prod.exists, exists_eq_right, mem_journal]
  grind

omit [DecidableEq V] in
theorem mem_finished {arg : A} {es : List (τ × CallEvent A V)} :
    arg ∈ finished es ↔ ∃ t, arg ∈ (returnedBy t es).map Prod.fst := by
  simp only [finished, returnedBy, List.mem_filterMap, List.mem_map, Prod.exists, exists_eq_right, mem_journal]
  grind

omit [DecidableEq V] in
theorem calledBy_append (t : τ) (es es' : List (τ × CallEvent A V)) :
    calledBy t (es ++ es') = calledBy t es ++ calledBy t es' := by
  rw [calledBy, journal_append, List.filterMap_append]; rfl

omit [DecidableEq V] in
theorem returnedBy_append (t : τ) (es es' : List (τ × CallEvent A V)) :
    returnedBy t (es ++ es') = returnedBy t es ++ returnedBy t es' := by
  rw [returnedBy, journal_append, List.filterMap_append]; rfl

omit [DecidableEq V] in
/-- A thread starts a call, gets to its return, and returns. -/
theorem CasStep.calls {s s' : CasState τ A V} {a : CasAct τ A} (h : CasStep attempt s a s') (hok : Defined attempt s a)
    (u : τ) : (s.pc u).returns.map Prod.fst ++ (s.pc u).waits ++ calledBy u (a.events s) =
      (returnedBy u (a.events s)).map Prod.fst ++ (s'.pc u).returns.map Prod.fst ++ (s'.pc u).waits := by
  -- a step of another thread
  have hother : ∀ {t k} (os : List (CallEvent A V)), u ≠ t →
      (s.pc u).returns.map Prod.fst ++ (s.pc u).waits ++ calledBy u (os.map (Prod.mk t)) =
        (returnedBy u (os.map (Prod.mk t))).map Prod.fst ++ (Function.update s.pc t k u).returns.map Prod.fst ++
          (Function.update s.pc t k u).waits := by
    intro t k os hu
    simp [calledBy, returnedBy, journal_of_ne hu, Function.update_of_ne hu]
  cases h with
  | @call t arg hpc =>
    by_cases hu : u = t
    · subst hu
      simp [CasAct.events, CasState.goto, calledBy, returnedBy, journal, hpc, CasPc.returns, CasPc.waits,
        CallEvent.called, CallEvent.returned]
    · exact hother [.call arg] hu
  | @load t i arg v var hpc _ =>
    by_cases hu : u = t
    · subst hu
      rcases hpc with hpc | ⟨cur, desired, hpc, -⟩ <;>
        simp [CasAct.events, CasState.goto, calledBy, returnedBy, journal, hpc, CasPc.returns, CasPc.waits]
    · exact hother [] hu
  | @leave t arg cur hpc _ | @swap t arg cur _ hpc _ _ =>
    by_cases hu : u = t
    · subst hu
      simp [CasAct.events, CasState.goto, CasState.swap, calledBy, returnedBy, journal, hpc, CasPc.returns, CasPc.waits]
    · exact hother [] hu
  | undefined hpc hundef => exact absurd hundef (by simpa [Defined, hpc] using hok)
  | @ret t arg cur hpc =>
    by_cases hu : u = t
    · subst hu
      simp [CasAct.events, CasState.goto, calledBy, returnedBy, journal, hpc, CasPc.returns, CasPc.waits,
        CallEvent.called, CallEvent.returned]
    · rw [show CasAct.events s (.ret t) = [(t, .ret arg cur)] by simp [CasAct.events, hpc]]
      exact hother [.ret arg cur] hu

/-- The calls of a thread are those it has returned from, the one it is about to
return from, and the one it is in. -/
theorem calls_of_run {v₀ : V} {as : List (CasAct τ A)} {s : CasState τ A V}
    (hr : (casLoop attempt v₀).run (casLoop attempt v₀).start as = some s)
    (hok : (casLoop attempt v₀).Along (Defined attempt) (casLoop attempt v₀).start as) (u : τ) :
    let es := (casLoop attempt v₀).trace CasAct.events (casLoop attempt v₀).start as
    calledBy u es = (returnedBy u es).map Prod.fst ++ (s.pc u).returns.map Prod.fst ++ (s.pc u).waits := by
  refine System.trace_inv (I := fun es s => calledBy u es =
    (returnedBy u es).map Prod.fst ++ (s.pc u).returns.map Prod.fst ++ (s.pc u).waits) hr hok rfl ?_
  intro es s₁ a s₂ _ hdef ha ih
  have hstep := (casStep_of_next ha).calls hdef u
  simp only [List.append_assoc] at hstep ih ⊢
  simp only [calledBy_append, returnedBy_append, ih, List.map_append, List.append_assoc, hstep]

/-! ## Linearizability -/

/-- The calls as operations. -/
def casObject (attempt : A → V → Attempt V) (v₀ : V) : Object V A V where
  start := v₀
  apply cur arg := match attempt arg cur with
    | .swap desired => some (cur, desired)
    | _ => none

def CasPc.phase : CasPc A V → Phase A V
  | .load arg | .loop arg _ => .pending arg
  | .ret arg cur => .done arg cur
  | _ => .idle

def CasState.abs (s : CasState τ A V) : Shared V τ A V :=
  ⟨s.var.value, fun t => (s.pc t).phase, s.hist⟩

def CasAct.visible : CasAct τ A → Bool
  | .call _ _ | .ret _ => true
  | _ => false

omit [DecidableEq V] in
theorem CasState.abs_goto (s : CasState τ A V) (t : τ) (k : CasPc A V) :
    (s.goto t k).abs = ⟨s.var.value, Function.update s.abs.phase t k.phase, s.hist⟩ := by
  simp only [CasState.abs, CasState.goto, Shared.mk.injEq, true_and, and_true]
  exact Function.eq_update_iff.mpr ⟨by rw [Function.update_self], fun u hu => by rw [Function.update_of_ne hu]⟩

omit [DecidableEq V] in
theorem CasStep.linearizes (hleave : ∀ arg cur, attempt arg cur ≠ .leave) {v₀ : V} {s s' : CasState τ A V}
    {a : CasAct τ A} (h : CasStep attempt s a s') (hok : Defined attempt s a) :
    (a.visible = false ∧ s'.abs = s.abs) ∨
      ∃ e : Event τ A, e.visible = a.visible ∧ (atomic (casObject attempt v₀)).next s.abs e = some s'.abs := by
  cases h with
  | @call t arg hpc =>
    have hp : s.abs.phase t = .idle := by simp [CasState.abs, hpc, CasPc.phase]
    exact .inr ⟨.call t arg, rfl, by rw [atomic_call_next hp, CasState.abs_goto]; rfl⟩
  | @load t i arg v var hpc hload =>
    obtain ⟨-, -, -, hvalue, -⟩ := Atomic.load_iff hload
    have hp : s.abs.phase t = .pending arg := by
      rcases hpc with hpc | ⟨cur, desired, hpc, -⟩ <;> simp [CasState.abs, hpc, CasPc.phase]
    have hself : Function.update s.abs.phase t (.pending arg) = s.abs.phase := by
      rw [← hp, Function.update_eq_self]
    refine .inl ⟨rfl, ?_⟩
    rw [CasState.abs_goto, hvalue]
    exact congrArg (fun p => Shared.mk s.var.value p s.hist) hself
  | leave hpc hleft => exact absurd hleft (hleave _ _)
  | @swap t arg cur desired hpc hswap hvalue =>
    have hp : s.abs.phase t = .pending arg := by simp [CasState.abs, hpc, CasPc.phase]
    have ha : (casObject attempt v₀).apply s.abs.obj arg = some (cur, desired) := by
      simp [casObject, CasState.abs, hvalue, hswap]
    refine .inr ⟨.commit t, rfl, ?_⟩
    rw [atomic_commit_next hp ha, CasState.swap, CasState.abs_goto, Atomic.value_store]
    rfl
  | undefined hpc hundef => exact absurd hundef (by simpa [Defined, hpc] using hok)
  | @ret t arg cur hpc =>
    have hp : s.abs.phase t = .done arg cur := by simp [CasState.abs, hpc, CasPc.phase]
    exact .inr ⟨.ret t, rfl, by rw [atomic_ret_next hp, CasState.abs_goto]; rfl⟩

omit [DecidableEq V] in
/-- What a step adds to the history its thread is about to return. -/
theorem CasStep.commits (hleave : ∀ arg cur, attempt arg cur ≠ .leave) {s s' : CasState τ A V} {a : CasAct τ A}
    (h : CasStep attempt s a s') (u : τ) : ∃ new, s'.hist = s.hist ++ new ∧
      (s.pc u).returns ++ journal u new = returnedBy u (a.events s) ++ (s'.pc u).returns := by
  -- a step of another thread
  have hother : ∀ {t k} (os : List (CallEvent A V)) (new : List (A × V)), u ≠ t →
      (s.pc u).returns ++ journal u (new.map (Prod.mk t)) =
        returnedBy u (os.map (Prod.mk t)) ++ (Function.update s.pc t k u).returns := by
    intro t k os new hu
    simp [returnedBy, journal_of_ne hu, Function.update_of_ne hu]
  cases h with
  | leave hpc hleft => exact absurd hleft (hleave _ _)
  | @call t arg hpc =>
    refine ⟨[], (List.append_nil _).symm, ?_⟩
    by_cases hu : u = t
    · subst hu
      simp [CasAct.events, CasState.goto, returnedBy, journal, hpc, CasPc.returns, CallEvent.returned]
    · exact hother [.call arg] [] hu
  | @load t i arg v var hpc _ =>
    refine ⟨[], (List.append_nil _).symm, ?_⟩
    by_cases hu : u = t
    · subst hu
      rcases hpc with hpc | ⟨cur, desired, hpc, -⟩ <;>
        simp [CasAct.events, CasState.goto, returnedBy, journal, hpc, CasPc.returns]
    · exact hother [] [] hu
  | @swap t arg cur desired hpc _ _ =>
    refine ⟨[(t, arg, cur)], rfl, ?_⟩
    by_cases hu : u = t
    · subst hu
      simp [CasAct.events, CasState.swap, CasState.goto, returnedBy, journal, hpc, CasPc.returns]
    · exact hother [] [(arg, cur)] hu
  | @undefined t arg cur hpc _ =>
    refine ⟨[], (List.append_nil _).symm, ?_⟩
    by_cases hu : u = t
    · subst hu
      simp [CasAct.events, CasState.goto, returnedBy, journal, hpc, CasPc.returns]
    · exact hother [] [] hu
  | @ret t arg cur hpc =>
    refine ⟨[], (List.append_nil _).symm, ?_⟩
    rw [show CasAct.events s (.ret t) = [(t, .ret arg cur)] by simp [CasAct.events, hpc]]
    by_cases hu : u = t
    · subst hu
      simp [CasState.goto, returnedBy, journal, hpc, CasPc.returns, CallEvent.returned]
    · exact hother [.ret arg cur] [] hu

/-- If no call leaves without a write, the calls of a thread that have taken
effect are those it has returned from and the one it is about to return from. -/
theorem hist_of_run (hleave : ∀ arg cur, attempt arg cur ≠ .leave) {v₀ : V} {as : List (CasAct τ A)} {s : CasState τ A V}
    (hr : (casLoop attempt v₀).run (casLoop attempt v₀).start as = some s) (u : τ) :
    journal u s.hist =
      returnedBy u ((casLoop attempt v₀).trace CasAct.events (casLoop attempt v₀).start as) ++ (s.pc u).returns := by
  refine System.trace_inv (I := fun es s => journal u s.hist = returnedBy u es ++ (s.pc u).returns) hr
    (System.along_true _ _) rfl ?_
  intro es s₁ a s₂ _ _ ha ih
  obtain ⟨new, hhist, hnew⟩ := (casStep_of_next ha).commits hleave u
  rw [hhist, journal_append, ih, List.append_assoc, hnew, returnedBy_append, List.append_assoc]

/-- A loop that does not leave without a write is its atomic object. -/
theorem casLoop_linearizes (hleave : ∀ arg cur, attempt arg cur ≠ .leave) (v₀ : V) :
    Linearizes (casLoop (τ := τ) attempt v₀) (Defined attempt) (casObject attempt v₀) CasState.abs CasAct.visible where
  start := rfl
  step _ hok ha := (casStep_of_next ha).linearizes hleave hok

end

end TKH
