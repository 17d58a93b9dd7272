import ThreadingKnowHows.Framework.Journal
import ThreadingKnowHows.Publication.Model

/-!
# Readers find what was published

If the store and the load synchronise, the writes of a snapshot are in the view
of each reader that has loaded its pointer, in every run; otherwise some run
has a race (`publishes_iff`). Whatever the orders are, the snapshots that a
reader finds never go back (`Recorded.sorted`).
-/

namespace TKH.Publication

variable {R V : Type*} {O : Orders}

/-- The view that a store carries has the writes before it. -/
def Orders.Releases (O : Orders) : Prop := O.store.releases = true ∨ O.releaseFence = true

/-- What the writer knows, when `n` snapshots are published. -/
def WriterPc.Knows (O : Orders) (n : ℕ) (view fenced : Finset Event) : WriterPc → Prop
  | .build k => k = n
  | .fence k => k = n ∧ .write k ∈ view
  | .store k => k = n ∧ .write k ∈ view ∧ (O.releaseFence = true → .write k ∈ fenced)

/-- What a reader knows. -/
def ReaderPc.Knows (O : Orders) (n : ℕ) (seen pending : Finset Event) : ReaderPc → Prop
  | .load | .done => True
  | .fence k => k < n ∧ .store k ∈ seen ∧ (O.Releases → .write k ∈ seen ∪ pending)
  | .read k => k < n ∧ .store k ∈ seen ∧ (O.Synchronizes → .write k ∈ seen)

theorem ReaderPc.Knows.mono {n n' : ℕ} {seen pending : Finset Event} {k : ReaderPc} (h : k.Knows O n seen pending)
    (hn : n ≤ n') : k.Knows O n' seen pending := by
  cases k with
  | load | done => trivial
  | fence k => exact ⟨h.1.trans_le hn, h.2⟩
  | read k => exact ⟨h.1.trans_le hn, h.2⟩

structure Inv (O : Orders) (s : State R) : Prop where
  message : ∀ (i : ℕ) (m : Message ℕ Event), s.mo[i]? = some m →
    m.value = i ∧ m.event = .store i ∧ .store i ∈ m.view ∧ (O.Releases → .write i ∈ m.view)
  writer : s.writer.Knows O s.mo.length s.view s.fenced
  reader : ∀ t, (s.reader t).Knows O s.mo.length (s.seen t) (s.pending t)

variable [DecidableEq R]

/-- Only the reader `t` moves. -/
theorem Inv.reads {s s' : State R} (h : Inv O s) {t : R} {k : ReaderPc} (hmo : s'.mo = s.mo) (hw : s'.writer = s.writer)
    (hv : s'.view = s.view ∧ s'.fenced = s.fenced) (hr : s'.reader = Function.update s.reader t k)
    (hu : ∀ u ≠ t, s'.seen u = s.seen u ∧ s'.pending u = s.pending u)
    (hk : k.Knows O s.mo.length (s'.seen t) (s'.pending t)) : Inv O s' where
  message := by rw [hmo]; exact h.message
  writer := by rw [hmo, hw, hv.1, hv.2]; exact h.writer
  reader := by
    rw [hr, hmo]
    refine (Function.forall_update_iff s.reader fun u k => k.Knows O s.mo.length (s'.seen u) (s'.pending u)).mpr
      ⟨hk, fun u hut => ?_⟩
    rw [(hu u hut).1, (hu u hut).2]
    exact h.reader u

theorem Inv.store_mem {s : State R} (h : Inv O s) (t : R) {i : ℕ} {m : Message ℕ Event} (hm : s.mo[i]? = some m) :
    .store i ∈ (s.loaded O t m).seen t := by
  obtain ⟨-, hev, hst, -⟩ := h.message i m hm
  simp only [State.loaded, gain_self]
  refine Finset.mem_union_right _ ?_
  split
  · exact hst
  · rw [hev]; exact Finset.mem_singleton_self _

theorem Inv.loaded {s : State R} (h : Inv O s) {t : R} {i : ℕ} {m : Message ℕ Event} (hm : s.mo[i]? = some m) :
    Inv O (s.loaded O t m) := by
  obtain ⟨hval, -, -, hwr⟩ := h.message i m hm
  have hi : i < s.mo.length := (List.getElem?_eq_some_iff.mp hm).1
  have hst := h.store_mem t hm
  refine h.reads rfl rfl ⟨rfl, rfl⟩ rfl (fun u hu => ⟨gain_of_ne hu, ?_⟩) ?_
  · simp only [State.loaded]
    split
    · rfl
    · exact gain_of_ne hu
  · rw [hval]
    split
    · refine ⟨hi, hst, fun hrel => ?_⟩
      simp only [State.loaded, gain_self]
      split
      · exact Finset.mem_union_left _ (Finset.mem_union_right _ (hwr hrel))
      · exact Finset.mem_union_right _ (by rw [gain_self]; exact Finset.mem_union_right _ (hwr hrel))
    · rename_i hf
      refine ⟨hi, hst, fun hs => ?_⟩
      simp only [State.loaded, gain_self, if_pos (hs.2.resolve_right hf)]
      exact Finset.mem_union_right _ (hwr hs.1)

variable [DecidableEq V] {snapshots : List V} {before : ℕ}

theorem Inv.step {s s' : State R} {a : Act R V} (h : Inv O s) (ha : (publish R O snapshots before).next s a = some s') :
    Inv O s' := by
  have hw := h.writer
  cases a with
  | build =>
    simp only [publish] at ha
    split at ha
    · rename_i k hk
      split at ha <;> cases ha
      rw [hk] at hw
      refine ⟨h.message, ?_, h.reader⟩
      dsimp only
      split
      · exact ⟨hw, Finset.mem_insert_self ..⟩
      · rename_i hf
        exact ⟨hw, Finset.mem_insert_self .., fun hf' => absurd hf' hf⟩
    · cases ha
  | releaseFence =>
    simp only [publish] at ha
    split at ha <;> cases ha
    rename_i k hk
    rw [hk] at hw
    exact ⟨h.message, ⟨hw.1, hw.2, fun _ => hw.2⟩, h.reader⟩
  | store =>
    simp only [publish] at ha
    split at ha <;> cases ha
    rename_i k hk
    rw [hk] at hw
    obtain ⟨rfl, hview, hfenced⟩ := hw
    refine ⟨fun i m hm => ?_, ?_, fun t => (h.reader t).mono (by simp)⟩
    · rcases Nat.lt_or_ge i s.mo.length with hi | hi
      · rw [List.getElem?_append_left hi] at hm
        exact h.message i m hm
      · obtain rfl : i = s.mo.length := by
          have := (List.getElem?_eq_some_iff.mp hm).1
          rw [List.length_append, List.length_singleton] at this
          omega
        rw [List.getElem?_concat_length] at hm
        cases hm
        refine ⟨rfl, rfl, Finset.mem_insert_self .., fun hr => Finset.mem_insert_of_mem ?_⟩
        split
        · exact hview
        · rename_i hrel
          exact hfenced (hr.resolve_left hrel)
    · show s.mo.length + 1 = _
      rw [List.length_append, List.length_singleton]
  | load t i =>
    simp only [publish] at ha
    split at ha
    · obtain ⟨r, hr, rfl⟩ := Option.map_eq_some_iff.mp ha
      cases r with
      | none => exact h
      | some m =>
        obtain ⟨j, hj, -⟩ := getElem_of_mayLoad hr
        exact h.loaded hj
    · cases ha
  | acquireFence t =>
    simp only [publish] at ha
    split at ha <;> cases ha
    rename_i k hk
    have hr := h.reader t
    rw [hk] at hr
    have hself : gain s.seen t (s.pending t) t = s.seen t ∪ s.pending t := gain_self
    refine h.reads rfl rfl ⟨rfl, rfl⟩ rfl (fun u hu => ⟨gain_of_ne hu, rfl⟩) ?_
    dsimp only
    rw [hself]
    exact ⟨hr.1, Finset.mem_union_left _ hr.2.1, fun hs => hr.2.2 hs.1⟩
  | read t v =>
    simp only [publish] at ha
    split at ha
    · split at ha <;> cases ha
      exact h.reads rfl rfl ⟨rfl, rfl⟩ rfl (fun u _ => ⟨rfl, rfl⟩) trivial
    · cases ha
  | leave t =>
    simp only [publish] at ha
    split at ha <;> cases ha
    exact h.reads rfl rfl ⟨rfl, rfl⟩ rfl (fun u _ => ⟨rfl, rfl⟩) trivial

theorem inv_start : Inv O (publish R O snapshots before).start where
  message i m hm := by
    rw [publish, List.getElem?_map] at hm
    obtain ⟨k, hk, rfl⟩ := Option.map_eq_some_iff.mp hm
    obtain ⟨hi, rfl⟩ := List.getElem?_eq_some_iff.mp hk
    rw [List.getElem_range]
    refine ⟨rfl, rfl, ?_, fun _ => ?_⟩ <;> simp [prior]
  writer := by simp [publish, WriterPc.Knows]
  reader _ := trivial

theorem inv_of_reach {s : State R} (hs : (publish R O snapshots before).Reach s) : Inv O s :=
  hs.inv (I := Inv O) inv_start fun _ _ ha ih => ih.step ha

/-! ## What the readers find -/

/-- The snapshot that the reader has loaded. -/
def ReaderPc.index : ReaderPc → Option ℕ
  | .fence k | .read k => some k
  | _ => none

/-- What the readers have found so far. -/
structure Recorded (O : Orders) (snapshots : List V) (rs : List (R × ℕ × V)) (s : State R) : Prop where
  seen : ∀ t r, r ∈ journal t rs → r.1 < s.mo.length ∧ .store r.1 ∈ s.seen t
  index : ∀ t r, r ∈ journal t rs → ∀ k ∈ (s.reader t).index, r.1 ≤ k
  sorted : ∀ t, (journal t rs).Pairwise fun r r' => r.1 ≤ r'.1
  found : O.Synchronizes → ∀ r ∈ rs, snapshots[r.2.1]? = some r.2.2

omit [DecidableEq V] in
/-- No reader reads. -/
theorem Recorded.keep {rs : List (R × ℕ × V)} {s s' : State R} (h : Recorded O snapshots rs s)
    (hmo : s.mo.length ≤ s'.mo.length) (hseen : ∀ t, s.seen t ⊆ s'.seen t)
    (hindex : ∀ t, (s'.reader t).index = (s.reader t).index ∨ (s'.reader t).index = none) :
    Recorded O snapshots rs s' where
  seen t r hr := ⟨(h.seen t r hr).1.trans_le hmo, hseen t (h.seen t r hr).2⟩
  index t r hr k hk := by
    rcases hindex t with he | he
    · exact h.index t r hr k (he ▸ hk)
    · rw [he] at hk
      cases hk
  sorted := h.sorted
  found := h.found

theorem Recorded.step {rs : List (R × ℕ × V)} {s s' : State R} {a : Act R V} (h : Recorded O snapshots rs s)
    (hi : Inv O s) (ha : (publish R O snapshots before).next s a = some s') :
    Recorded O snapshots (rs ++ output s a) s' := by
  cases a with
  | build =>
    simp only [publish] at ha
    split at ha
    · split at ha <;> cases ha
      simp only [output, List.append_nil]
      exact h.keep le_rfl (fun _ => subset_rfl) fun _ => .inl rfl
    · cases ha
  | releaseFence =>
    simp only [publish] at ha
    split at ha <;> cases ha
    simp only [output, List.append_nil]
    exact h.keep le_rfl (fun _ => subset_rfl) fun _ => .inl rfl
  | store =>
    simp only [publish] at ha
    split at ha <;> cases ha
    simp only [output, List.append_nil]
    exact h.keep (by simp) (fun _ => subset_rfl) fun _ => .inl rfl
  | load t i =>
    simp only [publish] at ha
    split at ha
    · obtain ⟨r, hr, rfl⟩ := Option.map_eq_some_iff.mp ha
      simp only [output, List.append_nil]
      cases r with
      | none => exact h
      | some m =>
        obtain ⟨j, hj, hlater⟩ := getElem_of_mayLoad hr
        have hval := (hi.message j m hj).1
        have hsub : ∀ u, s.seen u ⊆ (s.loaded O t m).seen u := fun u => by
          by_cases hu : u = t
          · subst hu
            simp only [State.loaded, gain_self]
            exact Finset.subset_union_left
          · simp only [State.loaded, gain_of_ne hu]
            exact subset_rfl
        refine ⟨fun u r hr' => ⟨(h.seen u r hr').1, hsub u (h.seen u r hr').2⟩, fun u r hr' k hk => ?_, h.sorted, h.found⟩
        simp only [State.loaded, State.goto] at hk
        by_cases hu : u = t
        · subst hu
          rw [Function.update_self] at hk
          obtain rfl : j = k := by
            rw [hval] at hk
            split at hk <;> exact Option.some.inj hk
          -- the store of what was found before is not behind the message
          by_contra hlt
          obtain ⟨hlen, hmem⟩ := h.seen u r hr'
          have hm' := List.getElem?_eq_getElem hlen
          refine hlater r.1 _ (Nat.not_le.mp hlt) hm' ?_
          rw [(hi.message r.1 _ hm').2.1]
          exact hmem
        · rw [Function.update_of_ne hu] at hk
          exact h.index u r hr' k hk
    · cases ha
  | acquireFence t =>
    simp only [publish] at ha
    split at ha <;> cases ha
    rename_i k hk
    simp only [output, List.append_nil]
    refine h.keep le_rfl (fun u => ?_) fun u => .inl ?_
    · by_cases hu : u = t
      · subst hu
        dsimp only
        rw [gain_self]
        exact Finset.subset_union_left
      · dsimp only
        rw [gain_of_ne hu]
    · simp only [State.goto]
      by_cases hu : u = t
      · subst hu
        rw [Function.update_self, hk]
        rfl
      · rw [Function.update_of_ne hu]
  | read t v =>
    simp only [publish] at ha
    split at ha
    · rename_i k hk
      split at ha <;> cases ha
      rename_i hv
      have hr := hi.reader t
      rw [hk] at hr
      have hout : output s (.read t v) = [(k, v)].map (Prod.mk t) := by simp [output, hk]
      have hindex : ∀ u, ((s.goto t .load).reader u).index = (s.reader u).index ∨
          ((s.goto t .load).reader u).index = none := fun u => by
        by_cases hu : u = t
        · subst hu; exact .inr (by simp [State.goto, ReaderPc.index])
        · exact .inl (by simp [State.goto, Function.update_of_ne hu])
      have hkeep : Recorded O snapshots rs (s.goto t .load) := h.keep le_rfl (fun _ => subset_rfl) hindex
      have hold : ∀ r ∈ journal t rs, r.1 ≤ k := fun r hr' => h.index t r hr' k (by rw [hk]; rfl)
      refine ⟨fun u r hr' => ?_, fun u r hr' j hj => ?_, fun u => ?_, fun hs r hr' => ?_⟩
      · rw [journal_append, hout] at hr'
        rcases List.mem_append.mp hr' with hr' | hr'
        · exact hkeep.seen u r hr'
        · by_cases hu : u = t
          · subst hu
            rw [journal_self, List.mem_singleton] at hr'
            subst hr'
            exact ⟨hr.1, hr.2.1⟩
          · rw [journal_of_ne hu] at hr'
            cases hr'
      · rw [journal_append, hout] at hr'
        by_cases hu : u = t
        · subst hu
          simp [State.goto, ReaderPc.index] at hj
        · rw [journal_of_ne hu, List.append_nil] at hr'
          exact hkeep.index u r hr' j hj
      · rw [journal_append, hout]
        by_cases hu : u = t
        · subst hu
          rw [journal_self]
          refine List.pairwise_append.mpr ⟨h.sorted u, List.pairwise_singleton _ _, fun r hr' r' hr'' => ?_⟩
          cases List.mem_singleton.mp hr''
          exact hold r hr'
        · rw [journal_of_ne hu, List.append_nil]
          exact h.sorted u
      · rw [hout] at hr'
        rcases List.mem_append.mp hr' with hr' | hr'
        · exact h.found hs r hr'
        · cases List.mem_singleton.mp hr'
          exact hv (hr.2.2 hs)
    · cases ha
  | leave t =>
    simp only [publish] at ha
    split at ha <;> cases ha
    simp only [output, List.append_nil]
    refine h.keep le_rfl (fun _ => subset_rfl) fun u => ?_
    by_cases hu : u = t
    · subst hu; exact .inr (by simp [State.goto, ReaderPc.index])
    · exact .inl (by simp [State.goto, Function.update_of_ne hu])

theorem recorded_run {as : List (Act R V)} {s : State R}
    (h : (publish R O snapshots before).run (publish R O snapshots before).start as = some s) :
    Recorded O snapshots ((publish R O snapshots before).trace output (publish R O snapshots before).start as) s := by
  refine System.trace_inv (I := Recorded O snapshots) h (System.along_true as _) ?_ fun hp _ ha hi =>
    hi.step (inv_of_reach hp) ha
  exact ⟨nofun, nofun, fun _ => List.Pairwise.nil, nofun⟩

/-! ## A race -/

/-- The next snapshot is built and published. -/
def publishActs (O : Orders) : List (Act R V) := [.build] ++ (if O.releaseFence then [.releaseFence] else []) ++ [.store]

/-- `t` loads the snapshot `k` and reads `v`. -/
def readActs (O : Orders) (k : ℕ) (t : R) (v : V) : List (Act R V) :=
  [.load t (some k)] ++ (if O.acquireFence then [.acquireFence t] else []) ++ [.read t v]

theorem run_publishActs (hb : before < snapshots.length) : ∃ s w,
    (publish R O snapshots before).run (publish R O snapshots before).start (publishActs O) = some s ∧
    (publish R O snapshots before).trace output (publish R O snapshots before).start (publishActs O) = [] ∧
    s.mo = ((List.range before).map fun k => ⟨k, prior (k + 1), .store k⟩) ++
      [⟨before, insert (.store before) w, .store before⟩] ∧
    (¬O.Releases → w = ∅) ∧ s.reader = (fun _ => .load) ∧ s.seen = (fun _ => prior before) ∧ s.pending = fun _ => ∅ := by
  cases hf : O.releaseFence with
  | false =>
    refine ⟨_, _, by simp [publishActs, hf, System.run, publish, hb]; rfl, ?_, rfl, fun hn => ?_, rfl, rfl, rfl⟩
    · simp [publishActs, hf, System.trace, publish, hb, output]
    · rw [if_neg fun hr => hn (.inl hr)]
  | true =>
    refine ⟨_, _, by simp [publishActs, hf, System.run, publish, hb]; rfl, ?_, rfl, fun hn => (hn (.inr hf)).elim, rfl, rfl,
      rfl⟩
    simp [publishActs, hf, System.trace, publish, hb, output]

theorem not_mem_prior (k : ℕ) : .write k ∉ prior k := by simp [prior]

variable (snapshots before) in
/-- If the store and the load do not synchronise, the snapshot that is loaded
need not be in the view. -/
theorem run_readActs (hO : ¬O.Synchronizes) {s : State R} {mo : List (Message ℕ Event)} {k : ℕ} {w : Finset Event}
    (hmo : s.mo = mo ++ [⟨k, insert (.store k) w, .store k⟩]) (hlen : mo.length = k) (hw : ¬O.Releases → w = ∅) {t : R}
    (hr : s.reader t = .load) (hs : .write k ∉ s.seen t) (hp : s.pending t = ∅) (v : V) :
    ∃ s', (publish R O snapshots before).run s (readActs O k t v) = some s' ∧
      (publish R O snapshots before).trace output s (readActs O k t v) = [(t, k, v)] := by
  have hload : mayLoad s.mo (s.seen t) (some k) = some (some ⟨k, insert (.store k) w, .store k⟩) := by
    simp [mayLoad, hmo, ← hlen]
  have hnext : (publish R O snapshots before).next s (.load t (some k)) =
      some (s.loaded O t ⟨k, insert (.store k) w, .store k⟩) := by
    simp [publish, hr, hload]
  have hne : Event.write k ∉ insert (Event.store k) (∅ : Finset Event) := by simp
  have hgain : O.load.acquires = true ∨ O.acquireFence = true → w = ∅ := fun h => hw fun hrel => hO ⟨hrel, h⟩
  have hseen : .write k ∉ (s.loaded O t ⟨k, insert (.store k) w, .store k⟩).seen t := by
    simp only [State.loaded, gain_self, Finset.mem_union, not_or]
    refine ⟨hs, ?_⟩
    split
    · rename_i ho
      rw [hgain (.inl ho)]
      exact hne
    · simp
  let s₁ : State R := s.loaded O t ⟨k, insert (.store k) w, .store k⟩
  cases hf : O.acquireFence with
  | false =>
    have hacts : readActs O k t v = [.load t (some k), .read t v] := by simp [readActs, hf]
    have hread : s₁.reader t = .read k := by simp [s₁, State.loaded, State.goto, hf]
    have hn : (publish R O snapshots before).next s₁ (.read t v) = some (s₁.goto t .load) := by
      simp only [publish, hread]
      exact if_pos fun h => absurd h hseen
    rw [hacts, System.trace_cons hnext, System.trace_single, System.run, hnext, Option.bind_some, System.run, hn]
    exact ⟨_, rfl, show output s₁ (.read t v) = _ by simp [output, hread]⟩
  | true =>
    have hacts : readActs O k t v = [.load t (some k), .acquireFence t, .read t v] := by simp [readActs, hf]
    let s₂ : State R := { s₁.goto t (.read k) with seen := gain s₁.seen t (s₁.pending t) }
    have hfence : s₁.reader t = .fence k := by simp [s₁, State.loaded, State.goto, hf]
    have hn₁ : (publish R O snapshots before).next s₁ (.acquireFence t) = some s₂ := by simp only [publish, hfence, s₂]
    have hread : s₂.reader t = .read k := by simp [s₂, State.goto]
    have hpend : .write k ∉ s₁.pending t := by
      simp only [s₁, State.loaded]
      split
      · rw [hp]; exact Finset.notMem_empty _
      · rw [gain_self, hp, hgain (.inr hf), Finset.empty_union]
        exact hne
    have hseen₂ : .write k ∉ s₂.seen t := by
      simp only [s₂, gain_self, Finset.mem_union, not_or]
      exact ⟨hseen, hpend⟩
    have hn₂ : (publish R O snapshots before).next s₂ (.read t v) = some (s₂.goto t .load) := by
      simp only [publish, hread]
      exact if_pos fun h => absurd h hseen₂
    rw [hacts, System.trace_cons hnext, System.trace_cons hn₁, System.trace_single, System.run, hnext, Option.bind_some,
      System.run, hn₁, Option.bind_some, System.run, hn₂]
    exact ⟨_, rfl, show _ ++ (_ ++ output s₂ (.read t v)) = _ by simp [output, hread]⟩

/-- The pointers that a reader loads never go back; and every reader finds in
every run what was published, exactly if the store and the load synchronise. -/
theorem publishes_iff [Nonempty R] [Nontrivial V] (O : Orders) (snapshots : List V) (before : ℕ)
    (hb : before < snapshots.length) :
    (∀ as s, (publish R O snapshots before).run (publish R O snapshots before).start as = some s → ∀ t,
      (journal t ((publish R O snapshots before).trace output (publish R O snapshots before).start as)).Pairwise
        fun r r' => r.1 ≤ r'.1) ∧
    ((∀ as s, (publish R O snapshots before).run (publish R O snapshots before).start as = some s →
      ∀ r ∈ (publish R O snapshots before).trace output (publish R O snapshots before).start as,
        snapshots[r.2.1]? = some r.2.2) ↔ O.Synchronizes) := by
  refine ⟨fun as s h => (recorded_run h).sorted, fun hall => ?_, fun hO as s h => (recorded_run h).found hO⟩
  by_contra hO
  obtain ⟨t⟩ := ‹Nonempty R›
  obtain ⟨v, hv⟩ := exists_ne snapshots[before]
  obtain ⟨s₁, w, hr₁, ht₁, hmo, hw, hreader, hseen, hpend⟩ := run_publishActs (R := R) (O := O) hb
  obtain ⟨s₂, hr₂, ht₂⟩ := run_readActs (t := t) snapshots before hO hmo (by simp) hw (by rw [hreader])
    (by rw [hseen]; exact not_mem_prior before) (by rw [hpend]) v
  have hfound := hall _ s₂ (System.run_trans hr₁ hr₂) (t, before, v) (by
    rw [System.trace_append hr₁, ht₁, ht₂]
    exact List.mem_singleton_self _)
  rw [List.getElem?_eq_getElem hb] at hfound
  exact hv (Option.some.inj hfound).symm

/-- With relaxed accesses and one fence, a reader may miss what was published. -/
theorem publishes_relaxed : ∃ as s, (publish Unit ⟨.relaxed, true, .relaxed, false⟩ [99] 0).run
    (publish Unit ⟨.relaxed, true, .relaxed, false⟩ [99] 0).start as = some s ∧ ∃ r ∈
      (publish Unit ⟨.relaxed, true, .relaxed, false⟩ [99] 0).trace output
        (publish Unit ⟨.relaxed, true, .relaxed, false⟩ [99] 0).start as, [99][r.2.1]? ≠ some r.2.2 := by
  by_contra hno
  have hsync := ((publishes_iff (R := Unit) (V := ℕ) ⟨.relaxed, true, .relaxed, false⟩ [99] 0 Nat.one_pos).2).mp
    fun as s h r hr => by_contra fun hne => hno ⟨as, s, h, r, hr, hne⟩
  rcases hsync.2 with h | h <;> cases h

end TKH.Publication
