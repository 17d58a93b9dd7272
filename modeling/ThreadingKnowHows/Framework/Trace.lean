import ThreadingKnowHows.Framework.System

/-!
# Traces

What a run outputs, if the action `a` outputs `f s a` in the state `s`. A
history that the state does not keep (the values that were put, the tasks that
were stolen) is a trace, and `trace_inv` is the invariant rule for it: a
relation between the trace so far and the state that each step preserves. The
order of events is a property of the trace (`Precedes`).
-/

namespace TKH

/-- Whenever something with `q` is output, something with `p` has been before. -/
def Precedes {β : Type*} (p q : β → Prop) (es : List β) : Prop :=
  ∀ es₁ e es₂, es = es₁ ++ e :: es₂ → q e → ∃ e' ∈ es₁, p e'

theorem precedes_nil {β : Type*} {p q : β → Prop} : Precedes p q [] := fun es₁ _ _ h => by simp at h

theorem precedes_cons {β : Type*} {p q : β → Prop} {es : List β} {e : β} :
    Precedes p q (e :: es) ↔ ¬q e ∧ (p e ∨ Precedes p q es) := by
  constructor
  · intro h
    refine ⟨fun hq => ?_, or_iff_not_imp_left.mpr fun hp es₁ f es₂ heq hf => ?_⟩
    · obtain ⟨e', he', -⟩ := h [] e es rfl hq
      cases he'
    · obtain ⟨e', he', hpe⟩ := h (e :: es₁) f es₂ (by rw [heq, List.cons_append]) hf
      rcases List.mem_cons.mp he' with rfl | he'
      · exact absurd hpe hp
      · exact ⟨e', he', hpe⟩
  · rintro ⟨hq, h⟩ es₁ f es₂ heq hf
    cases es₁ with
    | nil =>
      cases heq
      exact absurd hf hq
    | cons e' es₁ =>
      cases heq
      rcases h with hp | h
      · exact ⟨e, List.mem_cons_self, hp⟩
      · obtain ⟨e', he', hpe⟩ := h es₁ f es₂ rfl hf
        exact ⟨e', List.mem_cons_of_mem e he', hpe⟩

/-- What is neither does not matter. -/
theorem precedes_append {β : Type*} {p q : β → Prop} {es₁ es₂ : List β} (h : ∀ e ∈ es₁, ¬p e ∧ ¬q e) :
    Precedes p q (es₁ ++ es₂) ↔ Precedes p q es₂ := by
  induction es₁ with
  | nil => rfl
  | cons e es₁ ih =>
    obtain ⟨hp, hq⟩ := h e List.mem_cons_self
    rw [List.cons_append, precedes_cons, ih fun e he => h e (List.mem_cons_of_mem _ he)]
    simp [hp, hq]

theorem Precedes.concat {β : Type*} {p q : β → Prop} {es : List β} {e : β} (h : Precedes p q es)
    (he : q e → ∃ e' ∈ es, p e') : Precedes p q (es ++ [e]) := by
  intro es₁ f es₂ heq hf
  rcases List.eq_nil_or_concat es₂ with rfl | ⟨es₃, g, rfl⟩
  · obtain ⟨rfl, hfe⟩ := List.append_inj' heq rfl
    cases hfe
    exact he hf
  · rw [List.concat_eq_append, ← List.cons_append, ← List.append_assoc] at heq
    exact h es₁ f es₃ (List.append_inj' heq rfl).1 hf

namespace System

variable {σ α β : Type*} (S : System σ α)

/-- The output of a run, in order. -/
def trace (f : σ → α → List β) : σ → List α → List β
  | _, [] => []
  | s, a :: as => f s a ++ match S.next s a with
    | none => []
    | some s' => trace f s' as

variable {S}

theorem trace_cons {f : σ → α → List β} {s s' : σ} {a : α} (h : S.next s a = some s') (as : List α) :
    S.trace f s (a :: as) = f s a ++ S.trace f s' as := by
  simp only [trace, h]

theorem trace_single (f : σ → α → List β) (s : σ) (a : α) : S.trace f s [a] = f s a := by
  simp only [trace]
  split <;> rw [List.append_nil]

theorem trace_concat {f : σ → α → List β} {s s' : σ} {as : List α} (h : S.run s as = some s') (a : α) :
    S.trace f s (as ++ [a]) = S.trace f s as ++ f s' a := by
  induction as generalizing s with
  | nil =>
    cases h
    simp only [List.nil_append, trace]
    split <;> rw [List.append_nil]
  | cons b as ih =>
    obtain ⟨s₁, hb, hr⟩ := run_cons h
    rw [List.cons_append, trace_cons hb, trace_cons hb, ih hr, List.append_assoc]

theorem trace_append {f : σ → α → List β} {s s' : σ} {as : List α} (h : S.run s as = some s') (bs : List α) :
    S.trace f s (as ++ bs) = S.trace f s as ++ S.trace f s' bs := by
  induction as generalizing s with
  | nil => cases h; rfl
  | cons a as ih =>
    obtain ⟨s₁, ha, hr⟩ := run_cons h
    rw [List.cons_append, trace_cons ha, trace_cons ha, ih hr, List.append_assoc]

theorem along_concat {ok : σ → α → Prop} {s s' : σ} {as : List α} {a : α} (h : S.run s as = some s')
    (hok : S.Along ok s as) (ha : ok s' a) : S.Along ok s (as ++ [a]) := by
  induction as generalizing s with
  | nil =>
    cases h
    exact ⟨ha, fun _ _ => trivial⟩
  | cons b as ih =>
    obtain ⟨s₁, hb, hr⟩ := run_cons h
    refine ⟨hok.1, fun s₂ hb' => ?_⟩
    cases hb.symm.trans hb'
    exact ih hr (hok.2 s₁ hb)

/-- A condition that always holds holds of all steps of a run. -/
theorem along_of_forall {ok : σ → α → Prop} (h : ∀ s a, ok s a) : ∀ (as : List α) (s : σ), S.Along ok s as
  | [], _ => trivial
  | a :: as, s => ⟨h s a, fun s' _ => along_of_forall h as s'⟩

theorem along_true (as : List α) (s : σ) : S.Along (fun _ _ => True) s as := along_of_forall (fun _ _ => trivial) as s

/-- Conditions that are the same in all states that are reached are the same along runs. -/
theorem along_congr {ok ok' : σ → α → Prop} (hiff : ∀ s a, S.Reach s → (ok s a ↔ ok' s a)) {as : List α} {s : σ}
    (h : S.run S.start as = some s) : S.Along ok S.start as ↔ S.Along ok' S.start as := by
  suffices H : ∀ {as : List α} {s₀ : σ}, S.Reach s₀ → S.run s₀ as = some s →
      (S.Along ok s₀ as ↔ S.Along ok' s₀ as) from H .refl h
  intro as
  induction as with
  | nil => exact fun _ _ => Iff.rfl
  | cons a as ih =>
    intro s₀ h₀ hr
    obtain ⟨s₁, ha, hr₁⟩ := run_cons hr
    simp only [Along, ha, Option.some.injEq, forall_eq', hiff s₀ a h₀, ih (.step h₀ trivial ha) hr₁]

/-- The invariant rule for traces. -/
theorem trace_inv {ok : σ → α → Prop} {f : σ → α → List β} {I : List β → σ → Prop} {s s' : σ} {as : List α}
    (h : S.run s as = some s') (hok : S.Along ok s as) (h₀ : I [] s)
    (hs : ∀ {l s₁ a s₂}, S.Path ok s s₁ → ok s₁ a → S.next s₁ a = some s₂ → I l s₁ → I (l ++ f s₁ a) s₂) :
    I (S.trace f s as) s' := by
  -- the trace from `s₁` on comes after what was output before
  suffices H : ∀ {as : List α} {l s₁}, S.Path ok s s₁ → S.run s₁ as = some s' → S.Along ok s₁ as → I l s₁ →
      I (l ++ S.trace f s₁ as) s' from H .refl h hok h₀
  intro as
  induction as with
  | nil =>
    intro l s₁ _ hr _ hl
    cases hr
    rwa [trace, List.append_nil]
  | cons a as ih =>
    intro l s₁ hp hr hok hl
    obtain ⟨s₂, ha, hr⟩ := run_cons hr
    rw [trace_cons ha, ← List.append_assoc]
    exact ih (.step hp hok.1 ha) hr (hok.2 s₂ ha) (hs hp hok.1 ha hl)

end System

end TKH
