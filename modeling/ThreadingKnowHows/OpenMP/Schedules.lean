import ThreadingKnowHows.OpenMP.Model

/-!
# What the schedules leave open

In the end `who[i]` is the thread that has run the iteration `i`. The static
schedule fixes it; the dynamic schedule gives the iterations of a chunk to one
thread, and any choice of threads for the chunks is possible (`for_loop_results`).
-/

namespace TKH.OpenMP

open Team (Ended)

variable {τ : Type} [Fintype τ] [DecidableEq τ] {N c : ℕ} {who who₀ : ℕ → τ}

theorem mem_chunk (hc : 0 < c) {k i : ℕ} : i ∈ chunk N c k ↔ i < N ∧ i / c = k := by
  rw [chunk, List.mem_range'_1, Nat.div_eq_iff hc, Nat.mul_comm c k]
  have : c ≤ c * (k + 1) := Nat.le_mul_of_pos_right c (Nat.succ_pos k)
  omega

theorem mem_chunks {is : List ℕ} : is ∈ chunks N c ↔ ∃ k < (N + c - 1) / c, chunk N c k = is := by
  simp [chunks]

/-- Each iteration is in the chunk of its number. -/
theorem chunk_mem (hc : 0 < c) {i : ℕ} (hi : i < N) : chunk N c (i / c) ∈ chunks N c := by
  refine mem_chunks.mpr ⟨i / c, ?_, rfl⟩
  rw [Nat.lt_div_iff_mul_lt hc]
  have := Nat.div_mul_le_self i c
  omega

theorem nodup_chunks (hc : 0 < c) : (chunks N c).flatten.Nodup := by
  rw [List.nodup_flatten]
  refine ⟨fun is his => ?_, ?_⟩
  · obtain ⟨k, -, rfl⟩ := mem_chunks.mp his
    exact List.nodup_range'
  · refine List.Pairwise.map _ (R := fun k l => k ≠ l) (fun k l hne => ?_) List.nodup_range
    intro i hk hl
    exact hne (((mem_chunk hc).mp hk).2.symm.trans ((mem_chunk hc).mp hl).2)

/-! ## What a run ends with -/

/-- In every run an entry of `who` is the thread that has run the iteration. -/
theorem who_eq {share : τ → List ℕ} {queue : List (List ℕ)} {s : Team.State τ ℕ (ℕ → τ)}
    (hs : (whoLoop share queue who).system.Reach s) (hnd : (whoLoop share queue who).iterations.Nodup) :
    ∃ taken done, Team.Account (whoLoop share queue who) s taken done ∧ ∀ t, ∀ i ∈ done t, s.data i = t := by
  refine Team.Loop.inv (J := fun done _ who => ∀ t, ∀ i ∈ done t, who i = t) hs hnd (fun _ _ => nofun) ?_
    fun hJ _ => hJ
  intro done left w t i hJ _ hfresh u j hj
  dsimp only [whoLoop]
  by_cases hji : j = i
  · subst hji
    rw [Function.update_self]
    by_contra hut
    rw [Function.update_of_ne (Ne.symm hut)] at hj
    exact hfresh u hj
  · rw [Function.update_of_ne hji]
    by_cases hut : u = t
    · subst hut
      rw [Function.update_self, List.mem_append, List.mem_singleton] at hj
      exact hJ u j (hj.resolve_right hji)
    · rw [Function.update_of_ne hut] at hj
      exact hJ u j hj

variable [Nonempty τ]

theorem static_who {share : τ → List ℕ} {s : Team.State τ ℕ (ℕ → τ)} (hs : (forStatic share who).system.Reach s)
    (hshare : total (fun is : List ℕ => (is : Multiset ℕ)) share = Multiset.range N) (hend : Ended s) {t : τ} {i : ℕ}
    (hi : i ∈ share t) : s.data i = t := by
  have hnd : (forStatic share who).iterations.Nodup := by
    rw [Team.Loop.iterations_eq]
    simp only [forStatic, whoLoop, hshare, List.flatten_nil, Multiset.coe_nil, add_zero]
    exact Multiset.nodup_range N
  obtain ⟨taken, done, hacc, hwho⟩ := who_eq hs hnd
  refine hwho t i ?_
  rw [(hacc.ended hend).1 t]
  exact List.mem_flatten.mpr ⟨_, hacc.share t, hi⟩

theorem dynamic_who (hc : 0 < c) {s : Team.State τ ℕ (ℕ → τ)} (hs : (forDynamic N c who).system.Reach s) (hend : Ended s)
    {i j : ℕ} (hi : i < N) (hj : j < N) (hij : i / c = j / c) : s.data i = s.data j := by
  have hnd : (forDynamic N c who).iterations.Nodup := by
    rw [Team.Loop.iterations_eq]
    simp only [forDynamic, whoLoop, total, Multiset.coe_nil, Finset.sum_const_zero, zero_add]
    exact Multiset.coe_nodup.mpr (nodup_chunks hc)
  obtain ⟨taken, done, hacc, hwho⟩ := who_eq hs hnd
  have hmem : chunk N c (i / c) ∈ (forDynamic N c who).chunks :=
    Multiset.mem_add.mpr (.inr (Multiset.mem_coe.mpr (chunk_mem hc hi)))
  obtain ⟨t, ht⟩ := hacc.exists_taken hend hmem
  rw [hwho t i (ht i ((mem_chunk hc).mpr ⟨hi, rfl⟩)), hwho t j (ht j ((mem_chunk hc).mpr ⟨hj, hij.symm⟩))]

/-! ## Every choice of threads is possible -/

/-- The thread `t` runs `is`, and the others are idle. -/
def busy (queue : List (List ℕ)) (t : τ) (is : List ℕ) (who : ℕ → τ) : Team.State τ ℕ (ℕ → τ) where
  queue := queue
  todo := Function.update (fun _ => []) t is
  left _ := false
  data := who

def idle (queue : List (List ℕ)) (who : ℕ → τ) : Team.State τ ℕ (ℕ → τ) where
  queue := queue
  todo _ := []
  left _ := false
  data := who

/-- Steps of any kind. -/
abbrev Leads (P : Team.Loop τ ℕ (ℕ → τ)) (s s' : Team.State τ ℕ (ℕ → τ)) : Prop := P.system.Path (fun _ _ => True) s s'

variable {share : τ → List ℕ} {queue cs : List (List ℕ)} {t : τ}

omit [Fintype τ] [Nonempty τ] in
/-- `t` runs its chunk. -/
theorem busy_leads {is : List ℕ} : Leads (whoLoop share queue who₀) (busy cs t is who)
    (idle cs fun i => if i ∈ is then t else who i) := by
  induction is generalizing who with
  | nil =>
    have he : busy cs t [] who = idle cs fun i => if i ∈ [] then t else who i := by
      simp [busy, idle]
    exact he ▸ .refl
  | cons j is ih =>
    have hstep : (whoLoop share queue who₀).Step (busy cs t (j :: is) who) (.exec t)
        (busy cs t is (Function.update who j t)) := by
      have h := Team.Loop.Step.exec (P := whoLoop share queue who₀) (s := busy cs t (j :: is) who)
        (show (busy cs t (j :: is) who).todo t = j :: is by simp [busy])
      simpa [busy, whoLoop] using h
    refine (System.Path.step .refl trivial (Team.Loop.next_iff.mpr hstep)).trans ?_
    convert ih using 2
    funext i
    by_cases hij : i = j
    · subst hij; simp
    · simp [hij]

omit [Fintype τ] [Nonempty τ] in
/-- If `who` is constant on each chunk, the threads may take the chunks so. -/
theorem idle_leads (hconst : ∀ is ∈ cs, ∃ t, ∀ i ∈ is, who i = t) {w : ℕ → τ} :
    Leads (whoLoop share queue who₀) (idle cs w) (idle [] fun i => if i ∈ cs.flatten then who i else w i) := by
  induction cs generalizing w with
  | nil =>
    simp only [List.flatten_nil, List.not_mem_nil, if_false]
    exact .refl
  | cons is cs ih =>
    obtain ⟨t, ht⟩ := hconst is List.mem_cons_self
    have hstep : (whoLoop share queue who₀).Step (idle (is :: cs) w) (.take t) (busy cs t is w) :=
      Team.Loop.Step.take (s := idle (is :: cs) w) rfl rfl
    refine (System.Path.step .refl trivial (Team.Loop.next_iff.mpr hstep)).trans (busy_leads.trans ?_)
    convert ih (fun is his => hconst is (List.mem_cons_of_mem _ his)) using 2
    funext i
    rw [List.flatten_cons]
    by_cases hi : i ∈ is <;> by_cases hcs : i ∈ cs.flatten <;> simp [hi, hcs, ht]

omit [Nonempty τ] in
/-- Idle threads with no chunks left do not change the data any more. -/
theorem idle_ends {w : ℕ → τ} : ∃ s, Leads (whoLoop share queue who₀) (idle [] w) s ∧
    (∀ a, (whoLoop share queue who₀).system.next s a = none) ∧ s.data = w := by
  obtain ⟨s, hp, hq⟩ := (whoLoop share queue who₀).exists_quiet (idle [] w)
  refine ⟨s, hp, hq, ?_⟩
  have hinv := hp.inv (I := fun s => s.queue = [] ∧ (∀ t, s.todo t = []) ∧ s.data = w) ⟨rfl, fun _ => rfl, rfl⟩ ?_
  · exact hinv.2.2
  · rintro s a s' - - ha ⟨hq, ht, hd⟩
    cases Team.Loop.next_iff.mp ha with
    | take _ hc => rw [hq] at hc; cases hc
    | exec hi => rw [ht] at hi; cases hi
    | leave => exact ⟨hq, ht, hd⟩

/-- With the static schedule the end of every run is the same. With the dynamic
one the iterations of a chunk are run by one thread, and every choice of a thread
for each chunk is what some run ends with. -/
theorem for_loop_results (hc : 0 < c) {share : τ → List ℕ}
    (hshare : total (fun is : List ℕ => (is : Multiset ℕ)) share = Multiset.range N) :
    (∀ s, (forStatic share who₀).system.Reach s → (∀ a, (forStatic share who₀).system.next s a = none) →
      ∀ t, ∀ i ∈ share t, s.data i = t) ∧
    ∀ who : ℕ → τ, (∃ s, (forDynamic N c who₀).system.Reach s ∧ (∀ a, (forDynamic N c who₀).system.next s a = none) ∧
      ∀ i < N, s.data i = who i) ↔ ∀ i j, i < N → j < N → i / c = j / c → who i = who j := by
  refine ⟨fun s hs hq t i hi => static_who hs hshare (Team.Loop.ended_of_quiet hq) hi, fun who => ⟨?_, fun hconst => ?_⟩⟩
  · rintro ⟨s, hs, hq, hwho⟩ i j hi hj hij
    rw [← hwho i hi, ← hwho j hj]
    exact dynamic_who hc hs (Team.Loop.ended_of_quiet hq) hi hj hij
  · have hchunk : ∀ is ∈ chunks N c, ∃ t, ∀ i ∈ is, who i = t := by
      intro is his
      obtain ⟨k, -, rfl⟩ := mem_chunks.mp his
      refine ⟨who (c * k), fun i hi => ?_⟩
      obtain ⟨hi, hik⟩ := (mem_chunk hc).mp hi
      have hk : c * k ≤ i := by rw [← hik]; exact Nat.mul_div_le i c
      exact hconst i (c * k) hi (hk.trans_lt hi) (by rw [hik, Nat.mul_div_cancel_left k hc])
    obtain ⟨s, hp, hq, hd⟩ : ∃ s, Leads (forDynamic N c who₀)
        (idle [] fun i => if i ∈ (chunks N c).flatten then who i else who₀ i) s ∧
        (∀ a, (forDynamic N c who₀).system.next s a = none) ∧ s.data = _ := idle_ends
    refine ⟨s, (idle_leads hchunk).trans hp, hq, fun i hi => ?_⟩
    · rw [hd]
      exact if_pos (List.mem_flatten.mpr ⟨_, chunk_mem hc hi, (mem_chunk hc).mpr ⟨hi, rfl⟩⟩)

/-- Three threads that take six chunks in turn. -/
theorem for_loop_results_three : ∃ s, (forDynamic 12 2 fun _ => (0 : Fin 3)).system.Reach s ∧
    (∀ a, (forDynamic 12 2 fun _ => (0 : Fin 3)).system.next s a = none) ∧
    ∀ i < 12, s.data i = Fin.ofNat 3 (i / 2) := by
  have hshare : total (fun is : List ℕ => (is : Multiset ℕ)) (fun t : Fin 3 => List.range' (4 * t) 4) =
      Multiset.range 12 := by decide +kernel
  exact ((for_loop_results (by decide) hshare).2 fun i => Fin.ofNat 3 (i / 2)).mpr fun i j _ _ h => by rw [h]

end TKH.OpenMP
