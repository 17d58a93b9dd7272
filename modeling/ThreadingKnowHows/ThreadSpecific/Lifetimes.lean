import ThreadingKnowHows.Framework.Amortised
import ThreadingKnowHows.ThreadSpecific.Safety

/-!
# How a run ends

Each step uses up 1 of what the threads have yet to do (`rank_step`), so all runs
end, and as no worker is stuck they end with all workers and `main` (`returned_of_quiet`).
A worker that has ended has no buffer, so nothing is left in memory.
-/

namespace TKH.ThreadSpecific

variable {T A : Type} [DecidableEq T] [DecidableEq A] {tid : T → ℕ} {d d' : Data T A} {t u : T} {k l : Pc A}
  {s s' : Once.State (Option T) (Data T A) (Pc A)}

/-! ## How long a run is -/

def Pc.rank : Pc A → ℕ
  | once false => 11
  | keyCreate _ => 12
  | keyCreated _ => 11
  | getspecific false => 10
  | malloc _ => 9
  | setspecific _ _ => 8
  | snprintf _ _ => 7
  | printScratch _ => 6
  | once true => 5
  | getspecific true => 4
  | strcat _ => 3
  | printNow _ => 2
  | exit => 1
  | printDtor _ => 0
  | free _ => 2
  | done => 0
  | join => 2
  | keyDelete => 1
  | returned => 0

/-- A worker that has not printed that it frees its buffer goes through `exit` twice. -/
def weight (x : Pc A × List (Line A)) : ℕ := (if x.2.length ≤ 2 then 3 else 0) + x.1.rank

def flagRank : Once.Flag (Option T) → ℕ
  | .fresh => 2
  | _ => 0

/-- Where the workers are and what they have printed. -/
def points (s : Once.State (Option T) (Data T A) (Pc A)) (t : T) : Pc A × List (Line A) :=
  (s.pc (some t), journal t s.data.out)

omit [DecidableEq A] in
theorem setspecific_out {v : Option A} (h : d.setspecific t v = some d') : d'.out = d.out := by
  obtain ⟨k, -, h⟩ := Option.bind_eq_some_iff.mp h
  obtain ⟨f, -, rfl⟩ := Option.map_eq_some_iff.mp h
  rfl

/-- A step of a worker uses up 1 of its weight, and prints nothing of the others. -/
theorem Move.weight (hm : Move tid t d l d' k) (hf : Fits tid d t l) :
    weight (k, journal t d'.out) + 1 = weight (l, journal t d.out) ∧
      ∀ u, u ≠ t → journal u d'.out = journal u d.out := by
  have hprint : ∀ x u, u ≠ t → journal u (d.print t x).out = journal u d.out := fun x u hu => by
    rw [journal_print, if_neg hu, List.append_nil]
  cases hm with
  | keyCreate | malloc => exact ⟨rfl, fun _ _ => rfl⟩
  | null hn =>
    rename_i again
    cases again with
    | false => exact ⟨rfl, fun _ _ => rfl⟩
    | true =>
      obtain ⟨b, hb, -⟩ := hf
      rw [value, hn] at hb
      cases hb
  | got hn =>
    rename_i again a
    cases again with
    | false =>
      have hb := hf.1
      rw [value, hn] at hb
      cases hb
    | true => exact ⟨rfl, fun _ _ => rfl⟩
  | snprintf =>
    rename_i again a _
    cases again with
    | false => exact ⟨rfl, fun _ _ => rfl⟩
    | true => exact hf.elim
  | setspecific hs => exact ⟨by rw [setspecific_out hs]; rfl, fun u _ => by rw [setspecific_out hs]⟩
  | printScratch =>
    refine ⟨?_, hprint _⟩
    rw [journal_print, if_pos rfl, hf.2.2]
    rfl
  | strcat => exact ⟨rfl, fun _ _ => rfl⟩
  | printNow =>
    refine ⟨?_, hprint _⟩
    rw [journal_print, if_pos rfl, hf.2.2]
    rfl
  | destroy hn hs =>
    refine ⟨?_, fun u _ => by rw [setspecific_out hs]⟩
    rw [setspecific_out hs]
    rcases hf with ⟨b, -, -, ho⟩ | ⟨hb, -⟩
    · rw [ho]
      rfl
    · rw [value, hn] at hb
      cases hb
  | exit hn =>
    refine ⟨?_, fun _ _ => rfl⟩
    rcases hf with ⟨b, hb, -⟩ | ⟨-, b, ho⟩
    · exact absurd (Option.join_eq_some_iff.mp hb) (hn b)
    · change ThreadSpecific.weight (Pc.done, journal t d.out) + 1 = _
      rw [ho]
      rfl
  | printDtor =>
    refine ⟨?_, hprint _⟩
    rw [journal_print, if_pos rfl, hf.2.2]
    rfl
  | free =>
    refine ⟨?_, fun _ _ => rfl⟩
    change ThreadSpecific.weight (Pc.exit, journal t d.out) + 1 = _
    rw [hf.2.2]
    rfl

omit [DecidableEq A] in
theorem points_goto {f : Once.Flag (Option T)} (hj : ∀ u, u ≠ t → journal u d'.out = journal u s.data.out) :
    points { s.goto (some t) k with flag := f, data := d' } =
      Function.update (points s) t (k, journal t d'.out) := by
  funext u
  by_cases hu : u = t
  · subst hu
    simp [points, Once.State.goto]
  · simp [points, Once.State.goto, hu, hj u hu]

variable [Fintype T]

def rank (s : Once.State (Option T) (Data T A) (Pc A)) : ℕ :=
  flagRank s.flag + (s.pc none).rank + total weight (points s)

omit [DecidableEq A] in
/-- A step of a worker. -/
theorem rank_goto {f : Once.Flag (Option T)} {e : Data T A} (hj : ∀ u, u ≠ t → journal u e.out = journal u s.data.out)
    (hw : flagRank f + weight (k, journal t e.out) + 1 = flagRank s.flag + weight (points s t)) :
    rank { s.goto (some t) k with flag := f, data := e } + 1 = rank s := by
  have htotal := total_update weight (points s) t (k, journal t e.out)
  have hmain : Function.update s.pc (some t) k none = s.pc none := Function.update_of_ne (Option.some_ne_none t).symm ..
  rw [rank, rank, points_goto hj]
  change flagRank f + (Function.update s.pc (some t) k none).rank + _ + 1 = _
  rw [hmain]
  omega

theorem rank_step {a : Option T × A} (hs : (tls tid).Step s a s') (ht : Once.Tracked phase s) (h : Good tid s) :
    rank s' + 1 = rank s := by
  have hweight : ∀ t, weight (points s t) = weight (s.pc (some t), journal t s.data.out) := fun _ => rfl
  cases hs with
  | @begin t c r k hc hf =>
    rcases t with _ | t
    · cases hl : s.pc none <;> rw [hl] at hc <;> cases hc
    · cases hl : s.pc (some t) <;> rw [hl] at hc <;> cases hc
      rename_i again
      cases again with
      | true =>
        have := (ht (some t)).2 (by rw [hl]; rfl)
        rw [hf] at this
        cases this
      | false =>
        refine rank_goto (e := s.data) (fun _ _ => rfl) ?_
        rw [hweight, hl, hf]
        simp only [flagRank, weight, Pc.rank]
        omega
  | @skip t c r k hc hf =>
    rcases t with _ | t
    · cases hl : s.pc none <;> rw [hl] at hc <;> cases hc
    · cases hl : s.pc (some t) <;> rw [hl] at hc <;> cases hc
      rename_i again
      refine rank_goto (f := s.flag) (e := s.data) (fun _ _ => rfl) ?_
      rw [hweight, hl]
      cases again <;> simp only [weight, Pc.rank] <;> omega
  | @finish t c k hc =>
    rcases t with _ | t
    · cases hl : s.pc none <;> rw [hl] at hc <;> cases hc
    · cases hl : s.pc (some t) <;> rw [hl] at hc <;> cases hc
      rename_i again
      have hfits := h.inv.fits t
      simp only [hl] at hfits
      cases again
      case true => exact hfits.elim
      refine rank_goto (e := s.data) (fun _ _ => rfl) ?_
      rw [hweight, hl, (ht (some t)).1.mpr (by rw [hl]; rfl)]
      simp only [flagRank, weight, Pc.rank]
      omega
  | @step t c f d k hc hf =>
    rcases t with _ | t
    · have hpoints : d.out = s.data.out → points { s.goto none k with data := d } = points s := fun ho => by
        funext u
        simp [points, Once.State.goto, ho]
      have hself : Function.update s.pc none k none = k := Function.update_self none k s.pc
      change flagRank s.flag + (Function.update s.pc none k none).rank + _ + 1 = _
      rw [hself, rank]
      change main (s.pc none) = _ at hc
      cases hl : s.pc none <;> rw [hl] at hc <;> cases hc
      · dsimp only at hf
        split at hf <;> cases hf
        rw [hpoints rfl]
        simp only [Pc.rank]
        omega
      · obtain ⟨k', -, hf⟩ := Option.bind_eq_some_iff.mp hf
        obtain ⟨f', -, hf⟩ := Option.map_eq_some_iff.mp hf
        cases hf
        rw [hpoints rfl]
        simp only [Pc.rank]
        omega
    · obtain ⟨hw, hj⟩ := (move_of_step hc hf).weight (h.inv.fits t)
      refine rank_goto (f := s.flag) hj ?_
      rw [hweight]
      omega

/-! ## What is left -/

omit [DecidableEq A] [Fintype T] in
/-- What a worker that has ended leaves. -/
theorem Good.left (h : Good tid s) (hdone : ∀ t, s.pc (some t) = .done) :
    (∀ a, s.data.heap a = none) ∧ ∀ t, ∃ a, journal t s.data.out = lines tid t a := by
  have hfits : ∀ t, value s.data t = none ∧ ∃ a, journal t s.data.out = lines tid t a := fun t => by
    have := h.inv.fits t
    simp only [hdone] at this
    exact this
  refine ⟨fun a => ?_, fun t => (hfits t).2⟩
  by_contra ha
  obtain ⟨t, hbuf⟩ := h.inv.owned a ha
  simp only [hdone] at hbuf
  cases (hfits t).1.symm.trans hbuf

theorem returned_of_quiet [Nonempty T] [Infinite A] (htid : ∀ t, tid t < 2 ^ 64) (hs : (tls tid).system.Reach s)
    (hq : ∀ a, (tls (A := A) tid).system.next s a = none) :
    s.pc none = .returned ∧ s.data.created = 1 ∧ s.data.keys 0 = none ∧ ∀ t, s.pc (some t) = .done := by
  have h := good hs
  have ht := (discipline tid).tracked hs
  have hno : ∀ {a s'}, ¬ (tls (A := A) tid).Step s a s' := fun hstep => by
    cases (Once.Program.next_iff.mpr hstep).symm.trans (hq _)
  -- nobody runs `make_key`
  have hrun : ∀ u, s.flag ≠ .running u := fun u hf => by
    have hin := (ht u).1.mp hf
    rcases u with _ | t
    · cases hin
    · have hne : s.pc (some t) ≠ .done := fun he => by
        rw [he] at hin
        cases hin
      obtain ⟨c, hc⟩ := h.goes_on htid ht hne fun u hu hf' => hu (Once.Flag.running.inj (hf'.symm.trans hf))
      rw [hq] at hc
      cases hc
  have hdone : ∀ t, s.pc (some t) = .done := fun t => by
    by_contra hne
    obtain ⟨c, hc⟩ := h.goes_on htid ht hne fun u _ => hrun u
    rw [hq] at hc
    cases hc
  have hflag : s.flag = .done := (ht (some (Classical.arbitrary T))).2 (by rw [hdone]; rfl)
  have hkeyed := h.keyed
  simp only [Keyed, hflag] at hkeyed
  obtain ⟨a₀, -⟩ := h.inv.unused
  have hreturned : s.pc none = .returned := by
    rcases h.main with hl | ⟨hl | hl, -⟩
    · refine (hno (a := (none, a₀)) (.step (d := s.data) (k := .keyDelete) (by change main _ = _; rw [hl]; rfl) ?_)).elim
      exact if_pos fun t => (h.exited t).mpr (hdone t)
    · have hlive := hkeyed.resolve_left fun hr => by
        rw [hr.1] at hl
        cases hl
      obtain ⟨f, hf⟩ := Option.ne_none_iff_exists'.mp hlive.2.2
      refine (hno (a := (none, a₀)) (.step (d := { s.data with keys := Function.update s.data.keys 0 none })
        (k := .returned) (by change main _ = _; rw [hl]; rfl) ?_)).elim
      simp [hlive.2.1, hf]
    · exact hl
  exact ⟨hreturned, hkeyed.elim And.right And.left, h.deleted hreturned, hdone⟩

/-- What holds in each state: a buffer is the one of a single worker, nothing else is
in memory, and a worker that has not ended can go on or waits for the one that
runs `make_key`. At the end nothing is in memory, the key is deleted, and each
worker has printed its text, the same text touched, and that it frees its buffer. -/
structure Safe (tid : T → ℕ) (s : Once.State (Option T) (Data T A) (Pc A)) : Prop where
  unique : ∀ t u a, buffer s.data t (s.pc (some t)) = some a → buffer s.data u (s.pc (some u)) = some a → t = u
  allocated : ∀ a, s.data.heap a ≠ none ↔ ∃ t, buffer s.data t (s.pc (some t)) = some a
  goes_on : ∀ t, s.pc (some t) = .done ∨ (∃ u, u ≠ some t ∧ s.flag = .running u) ∨
    ∃ c, ((tls tid).system.next s (some t, c)).isSome = true
  finished : (∀ a, (tls tid).system.next s a = none) → s.pc none = .returned ∧ s.data.created = 1 ∧
    s.data.keys 0 = none ∧ (∀ a, s.data.heap a = none) ∧ ∀ t, ∃ a, journal t s.data.out = lines tid t a

/-- Every run ends, and its states are safe. -/
theorem buffers_safe [Nonempty T] [Infinite A] (htid : ∀ t, tid t < 2 ^ 64) :
    (∀ as s, (tls (A := A) tid).system.run (tls tid).system.start as = some s → as.length ≤ 14 * Fintype.card T + 4) ∧
    ∀ s : Once.State (Option T) (Data T A) (Pc A), (tls tid).system.Reach s → Safe tid s := by
  refine ⟨fun as s h => ?_, fun s hs => ⟨?_, fun a => ⟨?_, ?_⟩, fun t => ?_, fun hq => ?_⟩⟩
  · have hle := System.length_add_le (f := rank) (fun hs ha => Nat.lt_of_succ_le
      (rank_step (Once.Program.next_iff.mp ha) ((discipline tid).tracked hs) (good hs)).le) h
    have hstart : rank (tls (A := A) tid).system.start = 4 + Fintype.card T * 14 := by
      simp [rank, flagRank, weight, points, Once.Program.system, tls, total, Pc.rank, journal]
    omega
  · exact (good hs).inv.unique
  · exact (good hs).inv.owned a
  · rintro ⟨t, hbuf⟩
    exact ((good hs).inv.fits t).allocated hbuf
  · by_cases hdone : s.pc (some t) = .done
    · exact .inl hdone
    · by_cases hrun : ∃ u, u ≠ some t ∧ s.flag = .running u
      · exact .inr (.inl hrun)
      · refine .inr (.inr ((good hs).goes_on htid ((discipline tid).tracked hs) hdone fun u hu hf => ?_))
        exact hrun ⟨u, hu, hf⟩
  · obtain ⟨hreturned, hcreated, hdeleted, hdone⟩ := returned_of_quiet htid hs hq
    obtain ⟨hheap, hout⟩ := (good hs).left hdone
    exact ⟨hreturned, hcreated, hdeleted, hheap, hout⟩

/-- Two workers, with the numbers 8 and 7. -/
theorem buffers_safe_two :
    (∀ as s, (tls (A := ℕ) fun t => cond t 7 8).system.run (tls fun t => cond t 7 8).system.start as = some s →
      as.length ≤ 32) ∧
    ∀ s : Once.State (Option Bool) (Data Bool ℕ) (Pc ℕ), (tls fun t => cond t 7 8).system.Reach s →
      Safe (fun t => cond t 7 8) s :=
  ⟨fun as s h => (buffers_safe (by decide)).1 as s h, (buffers_safe (by decide)).2⟩

end TKH.ThreadSpecific
