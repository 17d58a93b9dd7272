import ThreadingKnowHows.Framework.Journal
import ThreadingKnowHows.Framework.System

/-!
# Lines that are printed piece by piece

What `std::cout << a << b << c` prints is three pieces, and those of other threads may
come in between. A shuffle is a list of the pieces of all threads, where those of
each thread come in order (`Shuffle`). `Shuffle.leads` builds the run that prints
the pieces of a shuffle.
-/

namespace TKH

variable {β γ : Type*} [DecidableEq β]

/-- Each thread prints its pieces, `n` of them, in order. -/
def Shuffle (n : ℕ) (l : List (β × ℕ)) : Prop := ∀ t, journal t l = List.range n

theorem journal_concat (t : β) (l : List (β × ℕ)) (x : β × ℕ) :
    journal t (l ++ [x]) = if t = x.1 then journal t l ++ [x.2] else journal t l := by
  rw [journal_append]
  by_cases ht : t = x.1
  · subst ht; simp [journal]
  · simp [journal, ht, Ne.symm ht]

theorem eq_nil_of_journal {l : List (β × ℕ)} (h : ∀ t, journal t l = []) : l = [] :=
  List.eq_nil_iff_forall_not_mem.mpr fun x hx => by
    have hmem : x.2 ∈ journal x.1 l := mem_journal.mpr hx
    rw [h] at hmem
    cases hmem

/-- The pieces of a thread up to some point are the first ones. -/
theorem journal_prefix {n : ℕ} {l l' : List (β × ℕ)} (h : Shuffle n l) (hl : l' <+: l) (t : β) :
    journal t l' = List.range (journal t l').length := by
  have hp : journal t l' <+: List.range n := by
    rw [← h t]
    exact hl.filterMap _
  rw [List.prefix_iff_eq_take.mp hp, List.length_take, List.take_range, List.length_range]

/-- The next piece of a thread. -/
theorem Shuffle.next {n : ℕ} {l l' : List (β × ℕ)} {x : β × ℕ} (h : Shuffle n l) (hl : l' ++ [x] <+: l) :
    x.2 = (journal x.1 l').length ∧ x.2 < n := by
  have hx := journal_prefix h hl x.1
  have hp : journal x.1 (l' ++ [x]) <+: List.range n := by
    rw [← h x.1]
    exact hl.filterMap _
  have hlen := hp.length_le
  rw [journal_concat, if_pos rfl, List.length_append, List.length_singleton, List.length_range] at hlen
  rw [journal_concat, if_pos rfl, List.length_append, List.length_singleton, List.range_succ] at hx
  have hk := (List.append_inj' hx rfl).2
  rw [List.singleton_inj] at hk
  exact ⟨hk, by omega⟩

/-- If each thread at `y k` can print its piece `k` and go on at `y (k + 1)`, the
threads can print in the order of any shuffle. -/
theorem Shuffle.leads {σ α ε : Type*} {S : System σ α} {s : (β → γ) → List ε → σ} {y : ℕ → γ} {e : β → ℕ → ε} {n : ℕ}
    (hstep : ∀ {f o t k}, k < n → f t = y k → S.Path (fun _ _ => True) (s f o)
      (s (Function.update f t (y (k + 1))) (o ++ [e t k])))
    {l : List (β × ℕ)} (h : Shuffle n l) (out : List ε) : S.Path (fun _ _ => True) (s (fun _ => y 0) out)
      (s (fun _ => y n) (out ++ l.map fun x => e x.1 x.2)) := by
  suffices H : ∀ {l' : List (β × ℕ)}, l' <+: l → S.Path (fun _ _ => True) (s (fun _ => y 0) out)
      (s (fun t => y (journal t l').length) (out ++ l'.map fun x => e x.1 x.2)) by
    have hall := H (List.prefix_rfl (l := l))
    simpa only [h _, List.length_range] using hall
  intro l' hl
  induction l' using List.reverseRecOn with
  | nil =>
    rw [List.map_nil, List.append_nil]
    exact .refl
  | append_singleton l' x ih =>
    obtain ⟨hk, hlt⟩ := h.next hl
    have hx := hstep (o := out ++ l'.map fun x => e x.1 x.2) (f := fun t => y (journal t l').length) (t := x.1) hlt
      (by rw [hk])
    have hf : Function.update (fun t => y (journal t l').length) x.1 (y (x.2 + 1)) =
        fun t => y (journal t (l' ++ [x])).length := by
      funext t
      rw [journal_concat]
      by_cases ht : t = x.1
      · subst ht; rw [Function.update_self, if_pos rfl, List.length_append, List.length_singleton, hk]
      · rw [Function.update_of_ne ht, if_neg ht]
    rw [hf, List.append_assoc] at hx
    rw [List.map_append]
    exact (ih ((List.prefix_append l' [x]).trans hl)).trans hx

end TKH
