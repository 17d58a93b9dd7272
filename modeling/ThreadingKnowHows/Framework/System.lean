import Mathlib.Data.Option.Basic
import Mathlib.Tactic.Common

/-!
# Interleaving systems

A program of several threads is a `System`: the state it starts in, and what
each action of a thread (or of the environment) does to a state, if it can be
taken there. A run is a list of actions (`run`); `Reach` is a state some run
leads to, and `ReachBy ok` one that a run leads to whose steps all satisfy
`ok`. `Path.inv` is the invariant rule, `Path.map` carries runs along an
abstraction function, and `always_iff_along` turns an invariant that holds
exactly as long as the steps satisfy `ok` into a statement about runs.
-/

namespace TKH

/-- The state a program starts in, and the state each action leads to. -/
structure System (σ α : Type*) where
  start : σ
  next : σ → α → Option σ

namespace System

variable {σ α : Type*} (S : System σ α)

/-- `s'` is reached from `s` by steps that satisfy `ok`. -/
inductive Path (ok : σ → α → Prop) (s : σ) : σ → Prop
  | refl : Path ok s s
  | step {s₁ : σ} {a : α} {s₂ : σ} : Path ok s s₁ → ok s₁ a → S.next s₁ a = some s₂ → Path ok s s₂

/-- Reached from the start by steps that satisfy `ok`. -/
abbrev ReachBy (ok : σ → α → Prop) (s : σ) : Prop := S.Path ok S.start s

/-- Reached from the start. -/
abbrev Reach (s : σ) : Prop := S.ReachBy (fun _ _ => True) s

/-- No action that `counts` can be taken. -/
def Quiet (counts : α → Prop) (s : σ) : Prop := ∀ a, counts a → S.next s a = none

/-- The state a list of actions leads to. -/
def run : σ → List α → Option σ
  | s, [] => some s
  | s, a :: as => (S.next s a).bind fun s' => run s' as

variable {S}

theorem run_cons {s s' : σ} {a : α} {as : List α} (h : S.run s (a :: as) = some s') :
    ∃ s₁, S.next s a = some s₁ ∧ S.run s₁ as = some s' :=
  Option.bind_eq_some_iff.mp h

theorem run_append {s : σ} {as bs : List α} :
    S.run s (as ++ bs) = (S.run s as).bind fun s' => S.run s' bs := by
  induction as generalizing s with
  | nil => rfl
  | cons a as ih =>
    simp only [List.cons_append, run, Option.bind_assoc]
    exact congrArg _ (funext fun _ => ih)

theorem run_trans {s s₁ s₂ : σ} {as bs : List α} (h : S.run s as = some s₁) (h' : S.run s₁ bs = some s₂) :
    S.run s (as ++ bs) = some s₂ := by
  rw [run_append, h]
  exact h'

/-- A run that takes one more action. -/
theorem run_concat {s s₁ s₂ : σ} {as : List α} {a : α} (h : S.run s as = some s₁)
    (ha : S.next s₁ a = some s₂) : S.run s (as ++ [a]) = some s₂ := by
  simp [run_append, h, run, ha]

/-! ## Invariants -/

/-- The invariant rule: what holds at first, and is preserved by each step
that satisfies `ok`, holds at the end. -/
theorem Path.inv {ok : σ → α → Prop} {I : σ → Prop} {s s' : σ} (h : S.Path ok s s') (h₀ : I s)
    (hs : ∀ {s₁ a s₂}, S.Path ok s s₁ → ok s₁ a → S.next s₁ a = some s₂ → I s₁ → I s₂) : I s' := by
  induction h with
  | refl => exact h₀
  | step h hok ha ih => exact hs h hok ha ih

theorem Path.mono {ok ok' : σ → α → Prop} {s s' : σ} (h : S.Path ok s s')
    (hok : ∀ s a, ok s a → ok' s a) : S.Path ok' s s' := by
  induction h with
  | refl => exact .refl
  | step _ h₁ ha ih => exact .step ih (hok _ _ h₁) ha

theorem Path.trans {ok : σ → α → Prop} {s s₁ s₂ : σ} (h : S.Path ok s s₁) (h' : S.Path ok s₁ s₂) :
    S.Path ok s s₂ := by
  induction h' with
  | refl => exact h
  | step _ hok ha ih => exact .step ih hok ha

theorem ReachBy.reach {ok : σ → α → Prop} {s : σ} (h : S.ReachBy ok s) : S.Reach s :=
  h.mono fun _ _ _ => trivial

/-- What a run leads to is reached. -/
theorem path_of_run {s : σ} {as : List α} {s' : σ} (h : S.run s as = some s') :
    S.Path (fun _ _ => True) s s' := by
  induction as generalizing s with
  | nil => cases h; exact .refl
  | cons a as ih =>
    obtain ⟨s₁, ha, hr⟩ := run_cons h
    exact (Path.step .refl trivial ha).trans (ih hr)

theorem reach_of_run {as : List α} {s : σ} (h : S.run S.start as = some s) : S.Reach s :=
  path_of_run h

/-- What is reached is reached by a run. -/
theorem Path.exists_run {ok : σ → α → Prop} {s s' : σ} (h : S.Path ok s s') : ∃ as, S.run s as = some s' := by
  induction h with
  | refl => exact ⟨[], rfl⟩
  | step _ _ ha ih =>
    obtain ⟨as, hr⟩ := ih
    exact ⟨as ++ [_], run_concat hr ha⟩

/-- A run whose last state passes a test. -/
theorem exists_of_run {as : List α} {p : σ → Bool} (h : (S.run S.start as).any p = true) :
    ∃ s, S.run S.start as = some s ∧ p s = true :=
  (Option.any_eq_true p _).mp h

/-- If each step decreases `f`, a run has at most as many steps as `f` is at first. -/
theorem length_add_le {f : σ → ℕ} (hf : ∀ {s a s'}, S.Reach s → S.next s a = some s' → f s' < f s) {as : List α}
    {s : σ} (h : S.run S.start as = some s) : as.length + f s ≤ f S.start := by
  suffices H : ∀ {as : List α} {s₀ : σ}, S.Reach s₀ → S.run s₀ as = some s → as.length + f s ≤ f s₀ from H .refl h
  intro as
  induction as with
  | nil =>
    intro s₀ _ hr
    cases hr
    exact Nat.le_of_eq (Nat.zero_add _)
  | cons a as ih =>
    intro s₀ h₀ hr
    obtain ⟨s₁, ha, hr⟩ := run_cons hr
    have hlt := hf h₀ ha
    have hle := ih (.step h₀ trivial ha) hr
    rw [List.length_cons]
    omega

/-! ## Abstraction -/

/-- If each step of `S` leaves the abstraction of the state as it is or is a
step of `S'`, what `S` reaches abstracts to what `S'` reaches. -/
theorem Path.map {σ' α' : Type*} (S' : System σ' α') {ok : σ → α → Prop} (f : σ → σ') {s s' : σ}
    (h : S.Path ok s s')
    (hs : ∀ {s₁ a s₂}, S.Path ok s s₁ → ok s₁ a → S.next s₁ a = some s₂ →
      f s₂ = f s₁ ∨ ∃ b, S'.next (f s₁) b = some (f s₂)) :
    S'.Path (fun _ _ => True) (f s) (f s') := by
  induction h with
  | refl => exact .refl
  | step h hok ha ih =>
    rcases hs h hok ha with e | ⟨b, hb⟩
    · rw [e]; exact ih
    · exact .step ih trivial hb

/-! ## Runs -/

variable (S)

/-- `P` holds in every state a run goes through. -/
def Always (P : σ → Prop) : σ → List α → Prop
  | s, [] => P s
  | s, a :: as => P s ∧ ∀ s', S.next s a = some s' → Always P s' as

/-- Every step of a run satisfies `ok`. -/
def Along (ok : σ → α → Prop) : σ → List α → Prop
  | _, [] => True
  | s, a :: as => ok s a ∧ ∀ s', S.next s a = some s' → Along ok s' as

variable {S}

/-- Whether a run satisfies `ok` can be checked. -/
instance Along.decidable (ok : σ → α → Prop) [∀ s a, Decidable (ok s a)] :
    ∀ (as : List α) (s : σ), Decidable (S.Along ok s as)
  | [], _ => isTrue trivial
  | a :: as, s => match h : S.next s a with
    | none => decidable_of_iff (ok s a) (by simp [Along, h])
    | some s' =>
      have := Along.decidable ok as s'
      decidable_of_iff (ok s a ∧ S.Along ok s' as) (by simp [Along, h])

theorem path_of_along {ok : σ → α → Prop} {as : List α} {s s' : σ} (h : S.run s as = some s')
    (hok : S.Along ok s as) : S.Path ok s s' := by
  induction as generalizing s with
  | nil => cases h; exact .refl
  | cons a as ih =>
    obtain ⟨s₁, ha, hr⟩ := run_cons h
    exact (Path.step .refl hok.1 ha).trans (ih hr (hok.2 s₁ ha))

theorem Always.head {P : σ → Prop} {s : σ} : ∀ {as : List α}, S.Always P s as → P s
  | [], h => h
  | _ :: _, h => h.1

theorem Always.last {P : σ → Prop} {as : List α} {s s' : σ} (h : S.run s as = some s') (hP : S.Always P s as) : P s' := by
  induction as generalizing s with
  | nil => cases h; exact hP
  | cons a as ih =>
    obtain ⟨s₁, ha, hr⟩ := run_cons h
    exact ih hr (hP.2 s₁ ha)

/-- What no step makes true holds along a run if it holds at the end. -/
theorem always_iff_last {P : σ → Prop} (hP : ∀ {s a s'}, S.Reach s → S.next s a = some s' → P s' → P s)
    {as : List α} {s₀ s : σ} (h₀ : S.Reach s₀) (h : S.run s₀ as = some s) : S.Always P s₀ as ↔ P s := by
  refine ⟨Always.last h, fun hs => ?_⟩
  induction as generalizing s₀ with
  | nil => cases h; exact hs
  | cons a as ih =>
    obtain ⟨s₁, ha, hr⟩ := run_cons h
    have htail := ih (.step h₀ trivial ha) hr
    refine ⟨hP h₀ ha htail.head, fun s₂ ha₂ => ?_⟩
    cases ha.symm.trans ha₂
    exact htail

/-- If `P` holds in what is reached by steps that satisfy `ok`, and fails
right after a step that does not, a run keeps `P` exactly if its steps all
satisfy `ok`. -/
theorem always_iff_along {ok : σ → α → Prop} {P : σ → Prop}
    (hP : ∀ {s}, S.ReachBy ok s → P s)
    (hbad : ∀ {s a s'}, S.ReachBy ok s → S.next s a = some s' → ¬ ok s a → ¬ P s')
    {as : List α} {s : σ} (h : S.run S.start as = some s) :
    S.Always P S.start as ↔ S.Along ok S.start as := by
  suffices H : ∀ {as : List α} {s₀ s : σ}, S.ReachBy ok s₀ → S.run s₀ as = some s →
      (S.Always P s₀ as ↔ S.Along ok s₀ as) from H .refl h
  intro as
  induction as with
  | nil => exact fun h₀ _ => ⟨fun _ => trivial, fun _ => hP h₀⟩
  | cons a as ih =>
    intro s₀ s h₀ hr
    obtain ⟨s₁, ha, hr₁⟩ := run_cons hr
    simp only [Always, Along, ha, Option.some.injEq, forall_eq']
    constructor
    · rintro ⟨-, hA⟩
      have hok : ok s₀ a := by
        by_contra hn
        exact hbad h₀ ha hn hA.head
      exact ⟨hok, (ih (.step h₀ hok ha) hr₁).mp hA⟩
    · rintro ⟨hok, hA⟩
      exact ⟨hP h₀, (ih (.step h₀ hok ha) hr₁).mpr hA⟩

end System

end TKH
