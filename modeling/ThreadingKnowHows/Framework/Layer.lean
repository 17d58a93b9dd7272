import ThreadingKnowHows.Framework.Trace

/-!
# A system over another one

A system `L` may keep more in its state than a system `S`, and do more, so that what it
does is in `S` a step or nothing, as long as its steps satisfy some condition
(`Layer`). Then its runs are runs of `S`, with what `S` does not see left out, and
they output the same.
-/

namespace TKH

variable {σ σ' α α' β : Type*} {L : System σ' α'} {S : System σ α} {ok : σ' → α' → Prop}

/-- What the states and actions of `L` are in `S`. -/
structure Layer (L : System σ' α') (S : System σ α) (ok : σ' → α' → Prop) where
  state : σ' → σ
  act : α' → Option α
  start : state L.start = S.start
  step : ∀ {s a s'}, ok s a → L.next s a = some s' →
    (act a = none ∧ state s' = state s) ∨ ∃ b, act a = some b ∧ S.next (state s) b = some (state s')

namespace Layer

variable (l : Layer L S ok)

/-- What an action outputs if it is a step of `S`. -/
def lift (f : σ → α → List β) (s : σ') (a : α') : List β := (l.act a).elim [] (f (l.state s))

variable {l} {s s' : σ'}

theorem run {as : List α'} (h : L.run s as = some s') (hok : L.Along ok s as) :
    S.run (l.state s) (as.filterMap l.act) = some (l.state s') := by
  induction as generalizing s with
  | nil => cases h; rfl
  | cons a as ih =>
    obtain ⟨s₁, ha, hr⟩ := System.run_cons h
    have hrest := ih hr (hok.2 s₁ ha)
    rcases l.step hok.1 ha with ⟨hb, hs⟩ | ⟨b, hb, hs⟩
    · rwa [List.filterMap_cons_none hb, ← hs]
    · rwa [List.filterMap_cons_some hb, System.run, hs]

theorem run_start {as : List α'} (h : L.run L.start as = some s) (hok : L.Along ok L.start as) :
    S.run S.start (as.filterMap l.act) = some (l.state s) := by
  rw [← l.start]
  exact run h hok

theorem trace {f : σ → α → List β} {as : List α'} (h : L.run s as = some s') (hok : L.Along ok s as) :
    L.trace (l.lift f) s as = S.trace f (l.state s) (as.filterMap l.act) := by
  induction as generalizing s with
  | nil => rfl
  | cons a as ih =>
    obtain ⟨s₁, ha, hr⟩ := System.run_cons h
    rw [System.trace_cons ha, ih hr (hok.2 s₁ ha), lift]
    rcases l.step hok.1 ha with ⟨hb, hs⟩ | ⟨b, hb, hs⟩
    · rw [List.filterMap_cons_none hb, hb, hs]
      rfl
    · rw [List.filterMap_cons_some hb, System.trace_cons hs, hb]
      rfl

theorem along {p : σ → α → Prop} {as : List α'} (h : L.run s as = some s')
    (hok : L.Along (fun s a => ok s a ∧ ∀ b ∈ l.act a, p (l.state s) b) s as) :
    S.Along p (l.state s) (as.filterMap l.act) := by
  induction as generalizing s with
  | nil => trivial
  | cons a as ih =>
    obtain ⟨s₁, ha, hr⟩ := System.run_cons h
    have hrest := ih hr (hok.2 s₁ ha)
    rcases l.step hok.1.1 ha with ⟨hb, hs⟩ | ⟨b, hb, hs⟩
    · rwa [List.filterMap_cons_none hb, ← hs]
    · rw [List.filterMap_cons_some hb]
      refine ⟨hok.1.2 b hb, fun s₂ hs₂ => ?_⟩
      cases hs.symm.trans hs₂
      exact hrest

end Layer

/-- A stronger condition. -/
theorem System.Along.mono {ok' : σ → α → Prop} {ok : σ → α → Prop} (h : ∀ s a, ok' s a → ok s a) :
    ∀ {as : List α} {s : σ}, S.Along ok' s as → S.Along ok s as
  | [], _, _ => trivial
  | _ :: _, _, hok => ⟨h _ _ hok.1, fun s' ha => (hok.2 s' ha).mono h⟩

end TKH
