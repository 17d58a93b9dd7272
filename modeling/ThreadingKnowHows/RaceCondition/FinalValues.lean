import Mathlib.Algebra.BigOperators.Group.Multiset.Basic
import Mathlib.Data.Finset.Card
import Mathlib.Data.Fintype.Prod
import ThreadingKnowHows.RaceCondition.Bounds

/-!
# The final values of a shared counter

For each value within the bounds a schedule that ends with it: complete
increments count (`run_increments`), and those that come between the load and
the store of another increment are lost (`run_lost`).
-/

namespace TKH.RaceCondition

variable {τ : Type*} [DecidableEq τ] {kind : Kind} {iters : ℕ}

/-- The steps of one increment. -/
def increment (t : τ) : Kind → List τ
  | .unsynchronized => [t, t, t, t]
  | .mutex => [t, t, t, t, t, t]
  | .atomic => [t, t]

/-- A thread in front of its loop test after `n` more increments. -/
def Loc.advance (n : ℕ) : Loc → Loc
  | .test i => .test (i + n)
  | l => l

theorem run_increment {s : State τ} {t : τ} {i : ℕ} (hl : s.th t = .test i) (hi : i < iters) (ho : s.owner = none) :
    (bench kind iters).run s (increment t kind) =
      some ⟨s.c + 1, none, Function.update s.th t (.test (i + 1))⟩ := by
  cases kind <;> simp [increment, System.run, bench, State.goto, hl, hi, ho, body, stored]

/-- Increments one after the other. The threads that do none may be anywhere. -/
theorem run_increments {ws : List τ} {s : State τ} (ho : s.owner = none)
    (hws : ∀ t ∈ ws, ∃ i, s.th t = .test i ∧ i + ws.count t ≤ iters) :
    (bench kind iters).run s (ws.flatMap (increment · kind)) =
      some ⟨s.c + ws.length, none, fun t => (s.th t).advance (ws.count t)⟩ := by
  induction ws generalizing s with
  | nil =>
    have : (fun t => (s.th t).advance 0) = s.th := funext fun t => by cases s.th t <;> rfl
    simp [System.run, this, ← ho]
  | cons w ws ih =>
    obtain ⟨i, hi, hle⟩ := hws w List.mem_cons_self
    rw [List.count_cons_self] at hle
    rw [List.flatMap_cons, System.run_append, run_increment hi (by omega) ho, Option.bind_some, ih rfl ?_]
    · simp only [List.length_cons, Option.some.injEq, State.mk.injEq, true_and]
      refine ⟨by omega, funext fun t => ?_⟩
      by_cases ht : t = w
      · subst ht
        simp only [Function.update_self, hi, Loc.advance, List.count_cons_self, Loc.test.injEq]
        omega
      · rw [Function.update_of_ne ht, List.count_cons_of_ne (Ne.symm ht)]
    · intro t ht
      by_cases htw : t = w
      · subst htw
        exact ⟨i + 1, Function.update_self .., by omega⟩
      · obtain ⟨j, hj, hle'⟩ := hws t (List.mem_cons_of_mem w ht)
        rw [List.count_cons_of_ne (Ne.symm htw)] at hle'
        exact ⟨j, by simpa [Function.update_of_ne htw] using hj, hle'⟩

/-- All threads in front of their loop tests. -/
def tests (c : ℕ) (p : τ → ℕ) : State τ := ⟨c, none, fun t => .test (p t)⟩

theorem run_tests {ws : List τ} {c : ℕ} {p : τ → ℕ} (hws : ∀ t ∈ ws, p t + ws.count t ≤ iters) :
    (bench kind iters).run (tests c p) (ws.flatMap (increment · kind)) =
      some (tests (c + ws.length) fun t => p t + ws.count t) :=
  run_increments rfl fun t ht => ⟨p t, rfl, hws t ht⟩

/-- The increments of others between the load and the store of `a` are lost. -/
theorem run_lost {a : τ} {ws : List τ} {c : ℕ} {p : τ → ℕ} (ha : a ∉ ws) (hp : p a < iters)
    (hws : ∀ t ∈ ws, p t + ws.count t ≤ iters) :
    (bench .unsynchronized iters).run (tests c p) ([a, a] ++ ws.flatMap (increment · .unsynchronized) ++ [a, a]) =
      some (tests (c + 1) fun t => p t + (a :: ws).count t) := by
  have hread : (bench .unsynchronized iters).run (tests c p) [a, a] =
      some ⟨c, none, Function.update (fun t => .test (p t)) a (.add (p a) c)⟩ := by
    simp [System.run, bench, tests, State.goto, hp, body]
  rw [System.run_append, System.run_append, hread, Option.bind_some, run_increments rfl, Option.bind_some]
  · simp only [System.run, bench, Function.update_self, Loc.advance, State.goto, Option.bind_some, stored, tests]
    simp only [Option.some.injEq, State.mk.injEq, true_and, Function.update_idem]
    funext t
    by_cases ht : t = a
    · subst ht; simp [List.count_eq_zero_of_not_mem ha]
    · simp [Function.update_of_ne ht, List.count_cons_of_ne (Ne.symm ht)]
  · intro t ht
    have hta : t ≠ a := fun h => ha (h ▸ ht)
    exact ⟨p t, by simp [Function.update_of_ne hta], hws t ht⟩

/-- The threads leave their loops. -/
theorem run_exits {ts : List τ} {s : State τ} (hnd : ts.Nodup) (hts : ∀ t ∈ ts, s.th t = .test iters) :
    (bench kind iters).run s ts = some { s with th := fun t => if t ∈ ts then .done else s.th t } := by
  induction ts generalizing s with
  | nil => simp [System.run]
  | cons u ts ih =>
    obtain ⟨hu, hnd⟩ := List.nodup_cons.mp hnd
    have hnext : (bench kind iters).next s u = some (s.goto u .done) := by
      simp [bench, hts u List.mem_cons_self]
    rw [System.run, hnext, Option.bind_some, ih hnd fun t ht => ?_]
    · simp only [State.goto, Option.some.injEq, State.mk.injEq, true_and]
      funext t
      by_cases ht : t = u
      · subst ht; simp
      · simp [ht]
    · have htu : t ≠ u := fun h => hu (h ▸ ht)
      simpa [State.goto, Function.update_of_ne htu] using hts t (List.mem_cons_of_mem u ht)

variable [Fintype τ]

theorem exists_finished {as : List τ} {v : ℕ}
    (h : (bench kind iters).run (bench kind iters).start as = some (tests v fun _ => iters)) :
    ∃ as s, (bench kind iters).run (bench (τ := τ) kind iters).start as = some s ∧ s.Finished ∧ s.c = v := by
  refine ⟨as ++ Finset.univ.toList, ⟨v, none, fun _ => .done⟩, ?_, fun _ => rfl, rfl⟩
  rw [System.run_append, h, Option.bind_some, run_exits (Finset.nodup_toList _) fun _ _ => rfl]
  simp [tests]

/-- A list in which each thread occurs as often as wanted. -/
theorem exists_count (f : τ → ℕ) : ∃ ws : List τ, (∀ t, ws.count t = f t) ∧ ws.length = total id f := by
  refine ⟨(∑ t, Multiset.replicate (f t) t).toList, fun t => ?_, ?_⟩
  · rw [← Multiset.coe_count, Multiset.coe_toList, Multiset.count_sum']
    simp [Multiset.count_replicate]
  · simp [total]

variable (τ kind iters) in
/-- All increments one after the other. -/
theorem exists_sequential : ∃ as : List τ,
    (bench kind iters).run (bench kind iters).start as = some (tests (Fintype.card τ * iters) fun _ => iters) := by
  obtain ⟨ws, hws, hlen⟩ := exists_count fun _ : τ => iters
  have hr : (bench kind iters).run (tests 0 fun _ => 0) (ws.flatMap (increment · kind)) =
      some (tests (0 + ws.length) fun t => 0 + ws.count t) := run_tests fun t _ => by rw [hws, Nat.zero_add]
  refine ⟨_, hr.trans ?_⟩
  simp [hws, hlen, total]

/-- All others increment between the load and the store of a thread's only
increment. -/
theorem exists_one [Nonempty τ] : ∃ as : List τ,
    (bench .unsynchronized 1).run (bench .unsynchronized 1).start as = some (tests 1 fun _ => 1) := by
  obtain ⟨a⟩ := ‹Nonempty τ›
  obtain ⟨ws, hws, -⟩ := exists_count (Function.update (fun _ : τ => 1) a 0)
  have ha : a ∉ ws := List.count_eq_zero.mp (by rw [hws, Function.update_self])
  refine ⟨_, (run_lost (p := fun _ => 0) (c := 0) ha Nat.one_pos fun t ht => ?_).trans ?_⟩
  · have hta : t ≠ a := fun h => ha (h ▸ ht)
    rw [hws, Function.update_of_ne hta]
  · simp only [Nat.zero_add, Option.some.injEq, tests, State.mk.injEq, true_and]
    funext t
    by_cases hta : t = a
    · subst hta; rw [List.count_cons_self, List.count_eq_zero.mpr ha]
    · rw [List.count_cons_of_ne (Ne.symm hta), hws, Function.update_of_ne hta]

omit [Fintype τ] in
/-- `m` increments of others count, the rest of `ws` comes before the first
store of `a` and is lost, then `i` increments of `a` count, and its others come
before the last store of `b` and are lost. -/
theorem run_schedule {a b : τ} (hab : a ≠ b) {ws : List τ} (hi : 0 < iters) (ha : ws.count a = 0)
    (hb : ws.count b = iters - 1) (hu : ∀ t, t ≠ a → t ≠ b → ws.count t = iters) {m i : ℕ} (hm : m ≤ ws.length)
    (hi' : i ≤ iters - 1) : ∃ as : List τ, (bench .unsynchronized iters).run (bench .unsynchronized iters).start as =
      some (tests (m + 1 + i + 1) fun _ => iters) := by
  let S : System (State τ) τ := bench .unsynchronized iters
  have hsplit : ∀ t, (ws.take m).count t + (ws.drop m).count t = ws.count t := fun t => by
    rw [← List.count_append, List.take_append_drop]
  have hle : ∀ t, ws.count t ≤ iters := fun t => by
    by_cases hta : t = a
    · subst hta; omega
    · by_cases htb : t = b
      · subst htb; omega
      · exact Nat.le_of_eq (hu t hta htb)
  have hda : a ∉ ws.drop m := List.count_eq_zero.mp (by have := hsplit a; omega)
  -- what the threads have done after each part
  let p₁ : τ → ℕ := fun t => 0 + (ws.take m).count t
  let p₂ : τ → ℕ := fun t => p₁ t + (a :: ws.drop m).count t
  let p₃ : τ → ℕ := fun t => p₂ t + (List.replicate i a).count t
  let p₄ : τ → ℕ := fun t => p₃ t + (b :: List.replicate (iters - 1 - i) a).count t
  have h2 : ∀ t, p₂ t = ws.count t + if t = a then 1 else 0 := fun t => by
    have := hsplit t
    simp only [p₂, p₁, List.count_cons, beq_iff_eq, eq_comm (a := a)]
    omega
  have r₁ : S.run (tests 0 fun _ => 0) _ = some (tests (0 + (ws.take m).length) p₁) := run_tests fun t _ => by
    have := hsplit t
    have := hle t
    omega
  have r₂ : S.run (tests (0 + (ws.take m).length) p₁) _ = some (tests _ p₂) := run_lost hda
    (by have := hsplit a; simp only [p₁]; omega) fun t _ => by
      have := hsplit t
      have := hle t
      simp only [p₁]
      omega
  have r₃ : S.run (tests (0 + (ws.take m).length + 1) p₂) _ = some (tests _ p₃) := run_tests fun t ht => by
    cases List.eq_of_mem_replicate ht
    rw [h2, if_pos rfl, List.count_replicate_self]
    omega
  have r₄ : S.run (tests (0 + (ws.take m).length + 1 + (List.replicate i a).length) p₃) _ = some (tests _ p₄) :=
    run_lost (fun h => hab (List.eq_of_mem_replicate h).symm)
      (by
        simp only [p₃, h2, if_neg (Ne.symm hab), List.count_replicate, beq_iff_eq, if_neg hab]
        omega)
      fun t ht => by
        cases List.eq_of_mem_replicate ht
        simp only [p₃, h2, if_true, List.count_replicate_self]
        omega
  have h4 : p₄ = fun _ => iters := funext fun t => by
    simp only [p₄, p₃, h2, List.count_cons, List.count_replicate, beq_iff_eq]
    by_cases hta : t = a
    · subst hta
      simp only [if_true, if_neg (Ne.symm hab)]
      omega
    · by_cases htb : t = b
      · subst htb
        simp only [if_true, if_neg hta, if_neg hab]
        omega
      · simp only [if_neg hta, if_neg (Ne.symm hta), if_neg (Ne.symm htb), hu t hta htb, Nat.add_zero]
  refine ⟨_, (System.run_trans (System.run_trans (System.run_trans r₁ r₂) r₃) r₄).trans ?_⟩
  rw [h4, List.length_take_of_le hm, List.length_replicate, Nat.zero_add]

/-- Every value from 2 on up to the number of increments. -/
theorem exists_from_two [Nontrivial τ] {v : ℕ} (h2 : 2 ≤ v) (hv : v ≤ Fintype.card τ * iters) (hi : 0 < iters) :
    ∃ as : List τ, (bench .unsynchronized iters).run (bench .unsynchronized iters).start as =
      some (tests v fun _ => iters) := by
  obtain ⟨a, b, hab⟩ := exists_pair_ne τ
  obtain ⟨ws, hws, hlen⟩ := exists_count (Function.update (Function.update (fun _ : τ => iters) a 0) b (iters - 1))
  have hlen' : ws.length + iters + 1 = Fintype.card τ * iters := by
    have h1 := total_update id (fun _ : τ => iters) a 0
    have h2 := total_update id (Function.update (fun _ : τ => iters) a 0) b (iters - 1)
    rw [Function.update_of_ne (Ne.symm hab)] at h2
    have h3 : total id (fun _ : τ => iters) = Fintype.card τ * iters := by simp [total]
    simp only [id] at h1 h2
    omega
  obtain ⟨as, hr⟩ := run_schedule hab hi (by rw [hws, Function.update_of_ne hab, Function.update_self])
    (by rw [hws, Function.update_self]) (fun t ha hb => by rw [hws, Function.update_of_ne hb, Function.update_of_ne ha])
    (Nat.min_le_right (v - 2) ws.length) (show v - 2 - min (v - 2) ws.length ≤ iters - 1 by omega)
  refine ⟨as, hr.trans ?_⟩
  rw [show min (v - 2) ws.length + 1 + (v - 2 - min (v - 2) ws.length) + 1 = v by omega]

/-- The values the counter may have when all threads are at their end: without
synchronisation, all from 2 (or 1, if each thread increments once) up to the
number of increments, and with a mutex or an atomic counter only that number. -/
theorem final_iff [Nontrivial τ] (kind : Kind) (iters v : ℕ) :
    (∃ as s, (bench kind iters).run (bench (τ := τ) kind iters).start as = some s ∧ s.Finished ∧ s.c = v) ↔
      match kind with
      | .unsynchronized => min 2 iters ≤ v ∧ v ≤ Fintype.card τ * iters
      | _ => v = Fintype.card τ * iters := by
  have hex : kind ≠ .unsynchronized →
      (∃ as s, (bench kind iters).run (bench (τ := τ) kind iters).start as = some s ∧ s.Finished ∧ s.c = v) →
      v = Fintype.card τ * iters := by
    rintro hk ⟨as, s, hr, hf, rfl⟩
    exact (exact_of_reach hk (System.reach_of_run hr)).value.trans hf.completed
  have hseq : v = Fintype.card τ * iters →
      ∃ as s, (bench kind iters).run (bench (τ := τ) kind iters).start as = some s ∧ s.Finished ∧ s.c = v := by
    rintro rfl
    obtain ⟨as, hr⟩ := exists_sequential τ kind iters
    exact exists_finished hr
  cases kind with
  | mutex | atomic => exact ⟨hex nofun, hseq⟩
  | unsynchronized =>
    constructor
    · rintro ⟨as, s, hr, hf, rfl⟩
      have hl := lossy (System.reach_of_run hr)
      have hn : s.completed iters = Fintype.card τ * iters := hf.completed
      refine ⟨?_, hn ▸ hl.le⟩
      rcases Nat.eq_zero_or_pos iters with rfl | hi
      · exact Nat.zero_le _
      · exact hl.last (fun t => by rw [hf t]; rfl) (by rw [hn]; exact Nat.mul_pos Fintype.card_pos hi)
    · rintro ⟨hlo, hhi⟩
      rcases Nat.eq_zero_or_pos iters with rfl | hi
      · exact hseq (by omega)
      by_cases h2 : 2 ≤ v
      · obtain ⟨as, hr⟩ := exists_from_two h2 hhi hi
        exact exists_finished hr
      · -- the value is 1, and each thread increments once
        obtain rfl : iters = 1 := by omega
        obtain rfl : v = 1 := by omega
        obtain ⟨as, hr⟩ := exists_one (τ := τ)
        exact exists_finished hr

/-- Eight threads of 200000 unsynchronised increments each may leave 2. -/
theorem final_two : ∃ as s, (bench .unsynchronized 200000).run
    (bench (τ := Bool × Bool × Bool) .unsynchronized 200000).start as = some s ∧ s.Finished ∧ s.c = 2 :=
  (final_iff .unsynchronized 200000 2).mpr ⟨Nat.min_le_left .., by simp⟩

end TKH.RaceCondition
