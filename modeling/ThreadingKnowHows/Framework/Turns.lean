import Mathlib.Data.Fintype.Basic
import Mathlib.Logic.Function.Basic
import ThreadingKnowHows.Framework.System

/-!
# Threads that take turns

To show that something is possible one builds a run, most often one in which the
threads of a list go through the same part of the code one after the other
(`System.Path.turns`, and `System.Path.each` where what they leave behind does not
matter).
-/

namespace TKH

variable {β γ : Type*} [DecidableEq β]

theorem update_mem (f : β → γ) (x : β) (l : List β) (y : γ) :
    (fun u => if u ∈ l then y else Function.update f x y u) = fun u => if u ∈ x :: l then y else f u := by
  funext u
  by_cases hu : u = x
  · subst hu; simp
  · simp [hu]

theorem update_tail {f : β → γ} {x : β} {l : List β} {y z : γ} (hx : x ∉ l) (hf : ∀ u ∈ x :: l, f u = z) :
    ∀ u ∈ l, Function.update f x y u = z := fun u hu => by
  have hne : u ≠ x := by rintro rfl; exact hx hu
  rw [Function.update_of_ne hne]
  exact hf u (List.mem_cons_of_mem x hu)

/-- If each thread can go from `x` to `y`, and make `g d t` of the rest `d` of the
state, the threads of `l` can do so in this order. -/
theorem System.Path.turns {σ α δ : Type*} {S : System σ α} {ok : σ → α → Prop} {s : (β → γ) → δ → σ} {x y : γ}
    {g : δ → β → δ} (hstep : ∀ {f d t}, f t = x → S.Path ok (s f d) (s (Function.update f t y) (g d t)))
    {l : List β} (hl : l.Nodup) {f : β → γ} (hf : ∀ t ∈ l, f t = x) (d : δ) :
    S.Path ok (s f d) (s (fun t => if t ∈ l then y else f t) (l.foldl g d)) := by
  induction l generalizing f d with
  | nil =>
    simp only [List.not_mem_nil, if_false]
    exact .refl
  | cons t l ih =>
    obtain ⟨ht, hl⟩ := List.nodup_cons.mp hl
    have hrest := ih hl (update_tail (y := y) ht hf) (g d t)
    rw [update_mem] at hrest
    exact (hstep (hf t List.mem_cons_self)).trans hrest

/-- If each thread can go from `x` to `y` and no other one moves, all of them can, where
`R` is what the parts of the run need to know of the state. -/
theorem System.Path.each {σ α : Type*} [Fintype β] {S : System σ α} {ok : σ → α → Prop} (pc : σ → β → γ) (R : σ → Prop)
    (x y : γ) (hstep : ∀ {s t}, R s → pc s t = x → ∃ s', S.Path ok s s' ∧ R s' ∧ pc s' = Function.update (pc s) t y)
    {s : σ} (hR : R s) (hx : ∀ t, pc s t = x) : ∃ s', S.Path ok s s' ∧ R s' ∧ ∀ t, pc s' t = y := by
  suffices H : ∀ {l : List β} {s : σ}, l.Nodup → R s → (∀ t ∈ l, pc s t = x) →
      ∃ s', S.Path ok s s' ∧ R s' ∧ pc s' = fun t => if t ∈ l then y else pc s t by
    obtain ⟨s', hp, hR', hy⟩ := H (Finset.nodup_toList Finset.univ) hR fun t _ => hx t
    exact ⟨s', hp, hR', fun t => by rw [hy]; exact if_pos (Finset.mem_toList.mpr (Finset.mem_univ t))⟩
  intro l
  induction l with
  | nil =>
    intro s _ hR _
    exact ⟨s, .refl, hR, by simp only [List.not_mem_nil, if_false]⟩
  | cons t l ih =>
    intro s hl hR hx
    obtain ⟨ht, hl⟩ := List.nodup_cons.mp hl
    obtain ⟨s₁, hp, hR₁, hpc⟩ := hstep hR (hx t List.mem_cons_self)
    obtain ⟨s₂, hp₂, hR₂, hpc₂⟩ := ih hl hR₁ (by rw [hpc]; exact update_tail ht hx)
    refine ⟨s₂, hp.trans hp₂, hR₂, ?_⟩
    rw [hpc₂, hpc, update_mem]

end TKH
