import Mathlib.Data.Fintype.EquivFin
import Mathlib.Tactic.NormNum
import ThreadingKnowHows.ThreadSpecific.Buffers

/-!
# No thread gets stuck

While the key exists the workers can use it, and it exists from when `make_key`
has created it until `main`, which has joined the workers, deletes it (`Keyed`,
`Ended`). So a worker can always go on, unless it waits for the one that runs
`make_key`: it never uses memory that is not its own, and a buffer is big enough
for what is written to it (`length_text`).
-/

namespace TKH.ThreadSpecific

variable {T A : Type} [DecidableEq T] [DecidableEq A] {tid : T → ℕ} {d d' : Data T A} {t : T} {k l : Pc A}
  {s s' : Once.State (Option T) (Data T A) (Pc A)}

/-- What the flag says of the key. -/
def Keyed (s : Once.State (Option T) (Data T A) (Pc A)) : Prop :=
  match s.flag with
  | .fresh => Unmade s.data
  | .running t => match s.pc t with
    | .keyCreate _ => Unmade s.data
    | _ => Live s.data
  | .done => s.pc none = .returned ∧ s.data.created = 1 ∨ Live s.data

/-- `main` waits for the workers. -/
structure Ended (s : Once.State (Option T) (Data T A) (Pc A)) : Prop where
  main : s.pc none = .join ∨ (s.pc none = .keyDelete ∨ s.pc none = .returned) ∧ ∀ t, s.pc (some t) = .done
  exited : ∀ t, s.data.exited t = true ↔ s.pc (some t) = .done
  deleted : s.pc none = .returned → s.data.keys 0 = none

/-- What a step of a worker does to the key and to those that have ended. -/
theorem Move.keeps (hm : Move tid t d l d' k) (hne : ∀ again, l ≠ .keyCreate again) (hd : Live d) :
    Live d' ∧ ∀ u, d'.exited u = true ↔ if u = t ∧ k = .done then True else d.exited u = true := by
  have hsame : ∀ {l : Pc A}, l ≠ .done → ∀ u, d.exited u = true ↔
      if u = t ∧ l = .done then True else d.exited u = true := fun hl u => by
    rw [if_neg fun h => hl h.2]
  cases hm with
  | keyCreate => exact absurd rfl (hne _)
  | setspecific hs =>
    obtain ⟨d₁, hs₁, hd₁, -, -, he, -⟩ := hd.setspecific t (some _)
    cases hs₁.symm.trans hs
    exact ⟨hd₁, fun u => by rw [he]; exact hsame (l := .snprintf _ _) nofun u⟩
  | destroy _ hs =>
    obtain ⟨d₁, hs₁, hd₁, -, -, he, -⟩ := hd.setspecific t none
    cases hs₁.symm.trans hs
    exact ⟨hd₁, fun u => by rw [he]; exact hsame (l := .printDtor _) nofun u⟩
  | exit =>
    refine ⟨hd, fun u => ?_⟩
    by_cases hu : u = t <;> simp [hu]
  | got | snprintf =>
    rename_i again a _
    exact ⟨hd, hsame (by cases again <;> exact nofun)⟩
  | _ => exact ⟨hd, hsame nofun⟩

/-! ## The invariant -/

structure Good (tid : T → ℕ) (s : Once.State (Option T) (Data T A) (Pc A)) : Prop extends Ended s where
  keyed : Keyed s
  inv : Inv tid s.data fun t => s.pc (some t)

omit [DecidableEq A] in
theorem update_some (pc : Option T → Pc A) (t : T) (k : Pc A) :
    (fun u => Function.update pc (some t) k (some u)) = Function.update (fun u => pc (some u)) t k :=
  Function.update_comp_eq_of_injective pc (Option.some_injective T) t k

/-- A step of a worker that has not ended. -/
theorem Ended.goto (h : Ended s) {f : Once.Flag (Option T)} {e : Data T A} (ht : s.pc (some t) ≠ .done)
    (hd : ∀ u, e.exited u = true ↔ if u = t ∧ k = .done then True else s.data.exited u = true) :
    Ended { s.goto (some t) k with flag := f, data := e } := by
  have hjoin : Function.update s.pc (some t) k none = .join := by
    rw [Function.update_of_ne (Option.some_ne_none t).symm]
    exact h.main.resolve_right fun hm => ht (hm.2 t)
  refine ⟨.inl hjoin, fun u => ?_, fun hr => ?_⟩
  · change e.exited u = true ↔ Function.update s.pc (some t) k (some u) = .done
    rw [hd]
    by_cases hu : u = t
    · subst hu
      have := mt (h.exited u).mp ht
      by_cases hk : k = .done <;> simp [hk, this]
    · rw [Function.update_of_ne (by simpa using hu), if_neg fun h => hu h.1]
      exact h.exited u
  · cases hjoin.symm.trans hr

/-- A worker that the flag lets go on. -/
theorem Good.pass (h : Good tid s) {f : Once.Flag (Option T)} (ht : s.pc (some t) ≠ .done) (hk : k ≠ .done)
    (hfits : Fits tid s.data t k) (hbuf : buffer s.data t k = buffer s.data t (s.pc (some t)))
    (hkeyed : Keyed { s.goto (some t) k with flag := f }) : Good tid { s.goto (some t) k with flag := f } where
  toEnded := h.toEnded.goto (e := s.data) ht fun u => by rw [if_neg fun h => hk h.2]
  keyed := hkeyed
  inv := by
    change Inv tid s.data fun u => Function.update s.pc (some t) k (some u)
    rw [update_some]
    exact h.inv.stay hfits (fun _ _ => rfl) (fun _ _ => rfl) rfl hbuf

variable [Fintype T]

omit [DecidableEq A] in
/-- A step of `main`. -/
theorem Good.main_step (h : Good tid s) (ht : Once.Tracked phase s) {c : A}
    {f : A → Data T A → Option (Data T A × Pc A)} (hc : main (s.pc none) = .step f) (hf : f c s.data = some (d', k)) :
    Good tid { s.goto none k with data := d' } := by
  have hrun : s.flag ≠ .running none := fun hr => by cases (ht none).1.mp hr
  have hself : ∀ k, Function.update s.pc none k none = k := fun k => Function.update_self none k s.pc
  have hsome : ∀ u, Function.update s.pc none k (some u) = s.pc (some u) := fun u =>
    Function.update_of_ne (Option.some_ne_none u) _ _
  have hkeyed := h.keyed
  cases hl : s.pc none <;> rw [hl] at hc <;> cases hc
  · -- `join`
    dsimp only at hf
    split at hf <;> cases hf
    rename_i hall
    refine ⟨⟨.inr ⟨.inl (hself _), fun u => ?_⟩, fun u => ?_, fun hr => ?_⟩, ?_, ?_⟩
    · exact (hsome u).trans ((h.exited u).mp (hall u))
    · exact (h.exited u).trans (by rw [← hsome u]; rfl)
    · cases (hself _).symm.trans hr
    · cases hflag : s.flag with
      | fresh => simpa only [Keyed, Once.State.goto, hflag] using hkeyed
      | running u =>
        rcases u with _ | u
        · exact absurd hflag hrun
        · simpa only [Keyed, Once.State.goto, hflag, hsome] using hkeyed
      | done =>
        simp only [Keyed, hflag, hl] at hkeyed
        simp only [Keyed, Once.State.goto, hflag]
        exact .inr (hkeyed.resolve_left fun hr => by cases hr.1)
    · change Inv tid s.data fun u => Function.update s.pc none .keyDelete (some u)
      simp only [hsome]
      exact h.inv
  · -- `keyDelete`: all workers have ended
    obtain ⟨k', hk', hf⟩ := Option.bind_eq_some_iff.mp hf
    obtain ⟨f', -, hf⟩ := Option.map_eq_some_iff.mp hf
    cases hf
    have hdone : ∀ u, s.pc (some u) = .done := (h.main.resolve_left fun hj => by rw [hl] at hj; cases hj).2
    have hflag : s.flag = .done := by
      cases hflag : s.flag with
      | fresh =>
        simp only [Keyed, hflag] at hkeyed
        rw [hkeyed.2] at hk'
        cases hk'
      | running u =>
        rcases u with _ | u
        · exact absurd hflag hrun
        · have := (ht (some u)).1.mp hflag
          rw [hdone] at this
          cases this
      | done => rfl
    have hvalue : ∀ u, value { s.data with keys := Function.update s.data.keys k' none } u = none := fun u => by
      simp [value, Data.getspecific, hk']
    simp only [Keyed, hflag, hl] at hkeyed
    obtain ⟨hcreated, hkey, -⟩ := hkeyed.resolve_left fun hr => by cases hr.1
    cases hkey.symm.trans hk'
    have hdeleted : Function.update s.data.keys 0 none 0 = none := by rw [Function.update_self]
    refine ⟨⟨.inr ⟨.inr (hself _), fun u => (hsome u).trans (hdone u)⟩, fun u => ?_, fun _ => hdeleted⟩, ?_, ?_⟩
    · exact (h.exited u).trans (by rw [← hsome u]; rfl)
    · simp only [Keyed, Once.State.goto, hflag]
      exact .inl ⟨hself _, hcreated⟩
    · change Inv tid _ fun u => Function.update s.pc none .returned (some u)
      simp only [hsome, hdone]
      refine ⟨fun u => ⟨hvalue u, ?_⟩, fun a ha => ?_, fun u v a hu _ => by cases (hvalue u).symm.trans hu⟩
      · have hfits := h.inv.fits u
        simp only [hdone] at hfits
        exact hfits.2
      · obtain ⟨u, hu⟩ := h.inv.owned a ha
        have hfits := h.inv.fits u
        simp only [hdone] at hfits hu
        cases hfits.1.symm.trans hu

omit [Fintype T] [DecidableEq A] in
/-- A worker that has got past `pthread_once` can use the key. -/
theorem Good.live (h : Good tid s) (ht : Once.Tracked phase s) (hne : s.pc (some t) ≠ .done)
    (hafter : phase (some t) (s.pc (some t)) = .after) : Live s.data := by
  have hkeyed := h.keyed
  simp only [Keyed, (ht (some t)).2 hafter] at hkeyed
  refine hkeyed.resolve_left fun hr => ?_
  rcases h.main with hj | hj
  · rw [hr.1] at hj
    cases hj
  · exact hne (hj.2 t)

omit [Fintype T] in
/-- A step of a worker. -/
theorem Good.worker_step (h : Good tid s) (ht : Once.Tracked phase s) (hm : Move tid t s.data (s.pc (some t)) d' k) :
    Good tid { s.goto (some t) k with data := d' } := by
  have hkeyed := h.keyed
  have hne : s.pc (some t) ≠ .done := fun he => by
    rw [he] at hm
    cases hm
  have hinv : ∀ (hun : ∀ again, s.pc (some t) = .keyCreate again → Unmade s.data)
      (hlive : (∀ again, s.pc (some t) ≠ .keyCreate again) → Live s.data),
      Inv tid d' fun u => Function.update s.pc (some t) k (some u) := fun hun hlive => by
    rw [update_some]
    exact hm.inv h.inv hun hlive
  by_cases hcreate : ∃ again, s.pc (some t) = .keyCreate again
  · obtain ⟨again, hl⟩ := hcreate
    have hflag : s.flag = .running (some t) := (ht (some t)).1.mpr (by rw [hl]; rfl)
    simp only [Keyed, hflag, hl] at hkeyed
    have hinv := hinv (fun _ _ => hkeyed) fun hn => absurd hl (hn again)
    rw [hl] at hm
    cases hm
    refine ⟨h.toEnded.goto (f := s.flag) hne fun u => by rw [if_neg nofun], ?_, hinv⟩
    simp only [Keyed, Once.State.goto, hflag, Function.update_self]
    exact ⟨by rw [hkeyed.1], by rw [hkeyed.1], by simp [hkeyed.1]⟩
  · have hcreate : ∀ again, s.pc (some t) ≠ .keyCreate again := fun again he => hcreate ⟨again, he⟩
    have hafter : phase (some t) (s.pc (some t)) = .after := by
      generalize s.pc (some t) = l at hm hcreate
      cases hm with
      | keyCreate => exact absurd rfl (hcreate _)
      | _ => rfl
    have hflag := (ht (some t)).2 hafter
    have hlive := h.live ht hne hafter
    obtain ⟨hlive', hexited⟩ := hm.keeps hcreate hlive
    refine ⟨h.toEnded.goto (f := s.flag) hne hexited, ?_, hinv (fun again he => absurd he (hcreate again)) fun _ => hlive⟩
    simp only [Keyed, Once.State.goto, hflag]
    exact .inr hlive'

theorem good_step {a : Option T × A} (hs : (tls tid).Step s a s') (ht : Once.Tracked phase s) (h : Good tid s) :
    Good tid s' := by
  have hkeyed := h.keyed
  cases hs with
  | @begin t c r k hc hf =>
    rcases t with _ | t
    · cases hl : s.pc none <;> rw [hl] at hc <;> cases hc
    · cases hl : s.pc (some t) <;> rw [hl] at hc <;> cases hc
      rename_i again
      have hfits := h.inv.fits t
      simp only [hl] at hfits
      cases again with
      | true =>
        have := (ht (some t)).2 (by rw [hl]; rfl)
        rw [hf] at this
        cases this
      | false =>
        refine h.pass (by simp [hl]) (by simp) hfits (by rw [hl]; rfl) ?_
        simp only [Keyed, hf] at hkeyed
        simpa only [Keyed, Once.State.goto, Function.update_self] using hkeyed
  | @skip t c r k hc hf =>
    rcases t with _ | t
    · cases hl : s.pc none <;> rw [hl] at hc <;> cases hc
    · cases hl : s.pc (some t) <;> rw [hl] at hc <;> cases hc
      rename_i again
      have hfits := h.inv.fits t
      simp only [hl] at hfits
      refine h.pass (f := s.flag) (by simp [hl]) (by simp) (by cases again <;> exact hfits) (by rw [hl]; rfl) ?_
      simp only [Keyed, hf] at hkeyed
      simpa only [Keyed, Once.State.goto, hf, Function.update_of_ne (Option.some_ne_none t).symm] using hkeyed
  | @finish t c k hc =>
    rcases t with _ | t
    · cases hl : s.pc none <;> rw [hl] at hc <;> cases hc
    · cases hl : s.pc (some t) <;> rw [hl] at hc <;> cases hc
      rename_i again
      have hfits := h.inv.fits t
      simp only [hl] at hfits
      cases again
      case true => exact hfits.elim
      refine h.pass (by simp [hl]) (by simp) hfits (by rw [hl]; rfl) (.inr ?_)
      simp only [Keyed, (ht (some t)).1.mpr (by rw [hl]; rfl), hl] at hkeyed
      exact hkeyed
  | @step t c f d k hc hf =>
    rcases t with _ | t
    · exact h.main_step ht hc hf
    · exact h.worker_step ht (move_of_step hc hf)

theorem good (hs : (tls tid).system.Reach s) : Good tid s := by
  refine hs.inv (I := Good tid) ⟨⟨.inl rfl, fun t => ?_, nofun⟩, ⟨rfl, rfl⟩, fun t => ⟨rfl, rfl⟩, nofun, nofun⟩
    fun hr _ ha hi => good_step (Once.Program.next_iff.mp ha) ((discipline tid).tracked hr) hi
  exact iff_of_false Bool.false_ne_true nofun

/-! ## What is possible -/

theorem length_name (n : ℕ) : (name n).length = (Nat.toDigits 10 n).length + 16 := by
  have hl : "thread ".toList.length = 7 := rfl
  have hr : "'s buffer".toList.length = 9 := rfl
  unfold name
  rw [List.length_append, List.length_append]
  omega

omit [DecidableEq T] [Fintype T] in
theorem length_text (ht : tid t < 2 ^ 64) : (text tid t).length ≤ 36 := by
  have hdigits : (Nat.toDigits 10 (tid t)).length ≤ 20 :=
    (Nat.length_toDigits_le_iff (by decide) (by decide)).mpr (ht.trans (by norm_num))
  rw [text, List.length_take, length_name]
  omega

theorem length_touched : touched.length = 10 := rfl

omit [DecidableEq A] in
/-- There is memory left: a worker has one buffer at most. -/
theorem Inv.unused [Infinite A] {pc : T → Pc A} (h : Inv tid d pc) : ∃ a, d.heap a = none := by
  by_contra hall
  push Not at hall
  choose f hf using fun a => h.owned a (hall a)
  have hinj : Function.Injective f := fun a b hab => by
    have := hf a
    rw [hab, hf b] at this
    exact (Option.some.inj this).symm
  exact not_finite_iff_infinite.mpr ‹_› (Finite.of_injective f hinj)

/-- A worker can go on, unless another one runs `make_key`. -/
theorem Good.goes_on [Infinite A] (htid : ∀ t, tid t < 2 ^ 64) (h : Good tid s) (ht : Once.Tracked phase s)
    (hne : s.pc (some t) ≠ .done) (hrun : ∀ u, u ≠ some t → s.flag ≠ .running u) :
    ∃ c, ((tls tid).system.next s (some t, c)).isSome = true := by
  obtain ⟨a₀, ha₀⟩ := h.inv.unused
  have hfits := h.inv.fits t
  have hlive := h.live ht hne
  cases hl : s.pc (some t) with
  | once again =>
    refine ⟨a₀, ?_⟩
    cases hf : s.flag with
    | fresh | done => simp [Once.Program.system, Once.Program.next, tls, worker, hl, hf]
    | running u =>
      by_cases hu : u = some t
      · subst hu
        have := (ht (some t)).1.mp hf
        rw [hl] at this
        cases again <;> cases this
      · exact absurd hf (hrun u hu)
  | keyCreate again | keyCreated again | printDtor a =>
    exact ⟨a₀, by simp [Once.Program.system, Once.Program.next, tls, worker, hl]⟩
  | getspecific again =>
    refine ⟨a₀, ?_⟩
    simp [Once.Program.system, Once.Program.next, tls, worker, hl, (hlive (by rw [hl]; rfl)).getspecific]
  | malloc again =>
    exact ⟨a₀, by simp [Once.Program.system, Once.Program.next, tls, worker, hl, ha₀]⟩
  | setspecific again a =>
    obtain ⟨d', hs, -⟩ := (hlive (by rw [hl]; rfl)).setspecific t (some a)
    exact ⟨a₀, by simp [Once.Program.system, Once.Program.next, tls, worker, hl, hs]⟩
  | snprintf again a =>
    simp only [hl] at hfits
    cases again
    case true => exact hfits.elim
    exact ⟨a₀, by simp [Once.Program.system, Once.Program.next, tls, worker, hl, hfits.2.1]⟩
  | printScratch a | printNow a | free a =>
    simp only [hl] at hfits
    exact ⟨a₀, by simp [Once.Program.system, Once.Program.next, tls, worker, hl, Data.text, hfits.2.1]⟩
  | strcat a =>
    simp only [hl] at hfits
    have hfit : (text tid t).length + touched.length < size := by
      have := length_text (htid t)
      rw [length_touched, size]
      omega
    exact ⟨a₀, by simp [Once.Program.system, Once.Program.next, tls, worker, hl, Data.text, hfits.2.1, hfit]⟩
  | exit =>
    refine ⟨a₀, ?_⟩
    have hget := (hlive (by rw [hl]; rfl)).getspecific t
    cases hv : value s.data t with
    | none => simp [Once.Program.system, Once.Program.next, tls, worker, hl, hget, hv]
    | some a =>
      obtain ⟨d', hs, -⟩ := (hlive (by rw [hl]; rfl)).setspecific t none
      simp [Once.Program.system, Once.Program.next, tls, worker, hl, hget, hv, hs]
  | done => exact absurd hl hne
  | join | keyDelete | returned =>
    simp only [hl] at hfits
    exact hfits.elim

end TKH.ThreadSpecific
