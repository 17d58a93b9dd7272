import ThreadingKnowHows.CallOnce.Model
import ThreadingKnowHows.Framework.Shuffle
import ThreadingKnowHows.Framework.Total
import ThreadingKnowHows.Framework.Turns

/-!
# What the workers see

What a worker has printed is what its control point says (`Reported`), so in the
output of a finished run there is a line of each of them, though the pieces of
other lines may be in between; `init` has printed first, and all have seen
what it wrote. These are the outputs there are.
-/

namespace TKH.CallOnce

variable {T : Type} [DecidableEq T] {s s' : Once.State T (Data T) Pc}

/-- Whose insertion it is, and which one. -/
def Piece.source : Piece T → Option (T × ℕ)
  | init => none
  | text t k => some (t, k)
  | gData t _ => some (t, 3)

omit [DecidableEq T] in
theorem source_insertion (t : T) (k : ℕ) (g : String) : (insertion t k g).source = some (t, k) := by
  unfold insertion
  split
  · rename_i h
    rw [h]; rfl
  · rfl

/-- How many insertions a worker has made. -/
def Pc.printed : Pc → ℕ
  | print k => k
  | done => insertions
  | _ => 0

theorem printed_inserted {k : ℕ} (hk : k ≤ insertions) : (inserted k).printed = k := by
  unfold inserted
  split
  · rfl
  · exact Nat.le_antisymm (Nat.le_of_not_lt ‹_›) hk

/-- Each worker has made the insertions that its control point says. -/
structure Reported (s : Once.State T (Data T) Pc) : Prop where
  bound : ∀ t k, s.pc t = .print k → k < insertions
  journal : ∀ t, journal t (s.data.out.filterMap Piece.source) = List.range (s.pc t).printed

theorem inserted_bound {i k : ℕ} (h : inserted i = .print k) : k < insertions := by
  unfold inserted at h
  split at h <;> cases h
  assumption

/-- A step of `t` that prints nothing of its line. -/
theorem Reported.goto (h : Reported s) {t : T} {k : Pc} {flag : Once.Flag T} {d : Data T}
    (hd : d.out.filterMap Piece.source = s.data.out.filterMap Piece.source) (hk : ∀ i, k = .print i → i < insertions)
    (ht : k.printed = (s.pc t).printed) : Reported { s.goto t k with flag := flag, data := d } where
  bound := (Function.forall_update_iff s.pc fun _ k => ∀ i, k = .print i → i < insertions).mpr
    ⟨hk, fun u _ => h.bound u⟩
  journal := by
    rw [hd]
    exact (Function.forall_update_iff s.pc fun u k =>
      TKH.journal u (s.data.out.filterMap Piece.source) = List.range k.printed).mpr
      ⟨by rw [ht]; exact h.journal t, fun u _ => h.journal u⟩

theorem reported_step {a : T × Unit} (hs : (callOnce T).Step s a s') (h : Reported s) : Reported s' := by
  have hzero : (inserted 0).printed = 0 := printed_inserted (Nat.zero_le _)
  cases hs with
  | @begin t c r k hc hf =>
    cases hl : s.pc t <;> rw [hl] at hc <;> cases hc
    exact h.goto rfl nofun (by rw [hl]; rfl)
  | @skip t c r k hc hf =>
    cases hl : s.pc t <;> rw [hl] at hc <;> cases hc
    exact h.goto rfl (fun _ => inserted_bound) (by rw [hl]; exact hzero)
  | @finish t c k hc =>
    cases hl : s.pc t <;> rw [hl] at hc <;> cases hc
    exact h.goto rfl (fun _ => inserted_bound) (by rw [hl]; exact hzero)
  | @step t c f d k hc hf =>
    cases hl : s.pc t <;> rw [hl] at hc <;> cases hc <;> cases hf
    · exact h.goto (by simp [Piece.source]) nofun (by rw [hl]; rfl)
    · exact h.goto rfl nofun (by rw [hl]; rfl)
    · -- `t` makes its next insertion
      rename_i i
      have hi := h.bound t i hl
      refine ⟨(Function.forall_update_iff s.pc fun _ k => ∀ i, k = .print i → i < insertions).mpr
        ⟨fun _ => inserted_bound, fun u _ => h.bound u⟩, ?_⟩
      dsimp only
      rw [List.filterMap_append, List.filterMap_cons_some (source_insertion ..), List.filterMap_nil]
      refine (Function.forall_update_iff s.pc fun u k =>
        TKH.journal u (s.data.out.filterMap Piece.source ++ [(t, i)]) = List.range k.printed).mpr ⟨?_, fun u hu => ?_⟩
      · rw [journal_concat, if_pos rfl, h.journal, hl, printed_inserted hi, List.range_succ]
        rfl
      · rw [journal_concat, if_neg hu]
        exact h.journal u

theorem reported (hs : (callOnce T).system.Reach s) : Reported s :=
  hs.inv (I := Reported) ⟨fun _ _ => nofun, fun _ => rfl⟩ fun _ _ ha hi => reported_step (Once.Program.next_iff.mp ha) hi

/-! ## How long a run is -/

def Pc.rank : Pc → ℕ
  | callOnce => insertions + 1
  | printInit => insertions + 3
  | assign => insertions + 2
  | initReturns => insertions + 1
  | print k => insertions - k
  | done => 0

theorem rank_inserted (k : ℕ) : (inserted k).rank = insertions - k := by
  unfold inserted
  split
  · rfl
  · exact (Nat.sub_eq_zero_of_le (Nat.le_of_not_lt ‹_›)).symm

def flagRank : Once.Flag T → ℕ
  | .fresh => 3
  | _ => 0

variable [Fintype T]

def rank (s : Once.State T (Data T) Pc) : ℕ := flagRank s.flag + total Pc.rank s.pc

theorem rank_step {a : T × Unit} (hs : (callOnce T).Step s a s') (ht : Once.Tracked (fun _ => Pc.phase) s)
    (h : Reported s) : rank s' + 1 = rank s := by
  have hmove : ∀ t k, total Pc.rank (Function.update s.pc t k) + (s.pc t).rank = total Pc.rank s.pc + k.rank := fun t k =>
    total_update Pc.rank s.pc t k
  cases hs with
  | @begin t c r k hc hf =>
    cases hl : s.pc t <;> rw [hl] at hc <;> cases hc
    have := hmove t .printInit
    simp only [rank, Once.State.goto, hf, hl, Pc.rank, flagRank] at this ⊢
    omega
  | @skip t c r k hc hf =>
    cases hl : s.pc t <;> rw [hl] at hc <;> cases hc
    have := hmove t (inserted 0)
    rw [rank_inserted, hl] at this
    simp only [rank, Once.State.goto, Pc.rank] at this ⊢
    omega
  | @finish t c k hc =>
    cases hl : s.pc t <;> rw [hl] at hc <;> cases hc
    have hf : s.flag = .running t := (ht t).1.mpr (by rw [hl]; rfl)
    have := hmove t (inserted 0)
    rw [rank_inserted, hl] at this
    simp only [rank, Once.State.goto, hf, Pc.rank, flagRank] at this ⊢
    omega
  | @step t c f d k hc hf =>
    have hmove := hmove t k
    cases hl : s.pc t <;> rw [hl] at hc <;> cases hc <;> cases hf
    · simp only [rank, Once.State.goto, hl, Pc.rank] at hmove ⊢
      omega
    · simp only [rank, Once.State.goto, hl, Pc.rank] at hmove ⊢
      omega
    · have := h.bound t _ hl
      rw [rank_inserted, hl] at hmove
      simp only [rank, Once.State.goto, Pc.rank] at hmove ⊢
      omega

/-! ## The outputs -/

omit [Fintype T] in
theorem done_of_quiet (hs : (callOnce T).system.Reach s) (hq : ∀ a, (callOnce T).system.next s a = none) (t : T) :
    s.pc t = .done := by
  have htotal : ∀ t f, (s.pc t).phase = .inside → (callOnce T).code t (s.pc t) = .step f →
      ∃ c, (f c s.data).isSome = true := fun t f _ hc => by
    cases hl : s.pc t <;> rw [hl] at hc <;> cases hc <;> exact ⟨(), rfl⟩
  rcases (annotated.rests hs htotal hq).2 t with hc | ⟨f, hc, hnone⟩
  · cases hl : s.pc t <;> rw [hl] at hc <;> first | rfl | cases hc
  · cases hl : s.pc t <;> rw [hl] at hc <;> cases hc <;> cases hnone ()

/-- After `init`, when all workers see what it wrote. -/
def initialized (pc : T → Pc) (out : List (Piece T)) : Once.State T (Data T) Pc where
  flag := .done
  data := { gData := "initialized", out := out }
  pc := pc

omit [Fintype T] in
/-- The first worker runs `init`. -/
theorem first_path (t : T) : (callOnce T).system.Path (fun _ _ => True) (callOnce T).system.start
    (initialized (Function.update (fun _ => .callOnce) t (inserted 0)) [.init]) := by
  have hr : (callOnce T).system.run (callOnce T).system.start (List.replicate 4 (t, ())) =
      some (initialized (Function.update (fun _ => .callOnce) t (inserted 0)) [.init]) := by
    simp [System.run, List.replicate, Once.Program.system, Once.Program.next, callOnce, code, Once.State.goto, initialized]
  exact System.path_of_run hr

omit [Fintype T] in
/-- Every other worker goes on. -/
theorem later_path {f : T → Pc} {out : List (Piece T)} {t : T} (ht : f t = .callOnce) :
    (callOnce T).system.Path (fun _ _ => True) (initialized f out) (initialized (Function.update f t (inserted 0)) out) := by
  have hc : (callOnce T).code t (f t) = .callOnce .printInit (inserted 0) := by rw [ht]; rfl
  have hs : (callOnce T).Step (initialized f out) (t, ()) (initialized (Function.update f t (inserted 0)) out) :=
    .skip hc rfl
  exact .step .refl trivial (Once.Program.next_iff.mpr hs)

omit [Fintype T] in
/-- A worker makes its next insertion. -/
theorem insertion_path {f : T → Pc} {out : List (Piece T)} {t : T} {k : ℕ} (hk : k < insertions) (ht : f t = inserted k) :
    (callOnce T).system.Path (fun _ _ => True) (initialized f out)
      (initialized (Function.update f t (inserted (k + 1))) (out ++ [saysInitialized (t, k)])) := by
  rw [inserted, if_pos hk] at ht
  have hc : (callOnce T).code t (f t) = code t (.print k) := by rw [ht]; rfl
  have hs : (callOnce T).Step (initialized f out) (t, ())
      (initialized (Function.update f t (inserted (k + 1))) (out ++ [saysInitialized (t, k)])) := .step hc rfl
  exact .step .refl trivial (Once.Program.next_iff.mpr hs)

/-- Every run ends. What a finished run has printed is the line of `init` and then the
line of each worker, who has seen what `init` wrote, with the pieces of these lines
shuffled; and each such output is possible. -/
theorem call_once_output_iff [Nonempty T] :
    (∀ as s, (callOnce T).system.run (callOnce T).system.start as = some s → as.length ≤ 6 * Fintype.card T + 3) ∧
    ∀ out : List (Piece T), (∃ s, (callOnce T).system.Reach s ∧ (∀ a, (callOnce T).system.next s a = none) ∧
      s.data.out = out) ↔ ∃ l : List (T × ℕ), Shuffle insertions l ∧ out = .init :: l.map saysInitialized := by
  refine ⟨fun as s h => ?_, fun out => ⟨?_, ?_⟩⟩
  · have hle := System.length_add_le (f := rank)
      (fun hs ha => Nat.lt_of_succ_le (rank_step (Once.Program.next_iff.mp ha) (annotated.tracked hs) (reported hs)).le) h
    have hstart : rank (callOnce T).system.start = 3 + Fintype.card T * 6 := by
      simp [rank, flagRank, Once.Program.system, callOnce, total, Pc.rank, insertions]
    omega
  · rintro ⟨s, hs, hq, rfl⟩
    have hdone := done_of_quiet hs hq
    have hflag : s.flag = .done := (annotated.tracked hs (Classical.arbitrary T)).2 (by rw [hdone]; rfl)
    have hsound := annotated.sound hs
    simp only [Once.Sound, hflag] at hsound
    obtain ⟨-, l, hout⟩ := hsound
    have hl : s.data.out.filterMap Piece.source = l := by
      rw [hout, List.filterMap_cons_none rfl, List.filterMap_map]
      refine (List.filterMap_congr fun x _ => ?_).trans List.filterMap_some
      exact source_insertion x.1 x.2 _
    refine ⟨l, fun t => ?_, hout⟩
    rw [← hl, (reported hs).journal, hdone]
    rfl
  · rintro ⟨l, hl, rfl⟩
    obtain ⟨t⟩ := ‹Nonempty T›
    -- all workers get to their lines, and then print them
    have hstart := System.Path.turns (S := (callOnce T).system) (s := fun f (_ : Unit) => initialized f [.init])
      (g := fun _ _ => ()) (fun ht => later_path ht) (l := (Finset.univ.erase t).toList) (Finset.nodup_toList _)
      (f := Function.update (fun _ => .callOnce) t (inserted 0)) (fun u hu => by
        rw [Function.update_of_ne (Finset.ne_of_mem_erase (Finset.mem_toList.mp hu))]) ()
    have hall : (fun u => if u ∈ (Finset.univ.erase t).toList then inserted 0 else
        Function.update (fun _ => Pc.callOnce) t (inserted 0) u) = fun _ => inserted 0 := by
      funext u
      by_cases hu : u = t
      · subst hu; simp
      · rw [if_pos (Finset.mem_toList.mpr (Finset.mem_erase.mpr ⟨hu, Finset.mem_univ u⟩))]
    rw [hall] at hstart
    have hprint := hl.leads (S := (callOnce T).system) (s := initialized) (y := inserted)
      (e := fun t k => saysInitialized (t, k)) (fun hk ht => insertion_path hk ht) [.init]
    exact ⟨_, ((first_path t).trans hstart).trans hprint, fun a => rfl, rfl⟩

/-- Two workers, the second of which prints into the line of the first. -/
theorem call_once_output_iff_two : ∃ s, (callOnce Bool).system.Reach s ∧ (∀ a, (callOnce Bool).system.next s a = none) ∧
    s.data.out = [.init, .text true 0, .text false 0, .text false 1, .text true 1, .text true 2, .gData true "initialized",
      .text true 4, .text false 2, .gData false "initialized", .text false 4] :=
  (call_once_output_iff.2 _).mpr ⟨[(true, 0), (false, 0), (false, 1), (true, 1), (true, 2), (true, 3), (true, 4), (false, 2),
    (false, 3), (false, 4)], by unfold Shuffle; decide, rfl⟩

end TKH.CallOnce
