import ThreadingKnowHows.Framework.Journal
import ThreadingKnowHows.ThreadSpecific.Model

/-!
# Every buffer has one owner

The buffer of a thread is the value of its key, or the pointer it holds in between
(`buffer`). What is allocated are the buffers, no two threads have the same one,
and what a thread has printed and what is in its buffer is what its control point
says (`Fits`). So no thread is ever stuck, and nothing is left at the end
(`buffers_safe`).
-/

namespace TKH.ThreadSpecific

variable {T A : Type} [DecidableEq T] [DecidableEq A] {tid : T → ℕ} {d d' : Data T A} {t u : T} {k l : Pc A} {a : A}

/-! ## The key -/

def Unmade (d : Data T A) : Prop := d.created = 0 ∧ d.key = none

/-- The key has been created, and not deleted. -/
def Live (d : Data T A) : Prop := d.created = 1 ∧ d.key = some 0 ∧ d.keys 0 ≠ none

/-- The value of the key in `t`. -/
def value (d : Data T A) (t : T) : Option A := (d.getspecific t).join

omit [DecidableEq T] [DecidableEq A] in
theorem Live.getspecific (h : Live d) (t : T) : d.getspecific t = some (value d t) := by
  obtain ⟨f, hf⟩ := Option.ne_none_iff_exists'.mp h.2.2
  simp [value, Data.getspecific, h.2.1, hf]

omit [DecidableEq A] in
theorem Live.setspecific (h : Live d) (t : T) (v : Option A) : ∃ d', d.setspecific t v = some d' ∧ Live d' ∧
    d'.heap = d.heap ∧ d'.out = d.out ∧ d'.exited = d.exited ∧ value d' = Function.update (value d) t v := by
  obtain ⟨f, hf⟩ := Option.ne_none_iff_exists'.mp h.2.2
  refine ⟨{ d with keys := Function.update d.keys 0 (some (Function.update f t v)) },
    by simp [Data.setspecific, h.2.1, hf], ⟨h.1, h.2.1, by simp⟩, rfl, rfl, rfl, ?_⟩
  funext u
  by_cases hu : u = t
  · subst hu; simp [value, Data.getspecific, h.2.1]
  · simp [value, Data.getspecific, h.2.1, hf, hu]

/-! ## What a thread has -/

def text (tid : T → ℕ) (t : T) : List Char := (name (tid t)).take (size - 1)

/-- What `t` prints. -/
def lines (tid : T → ℕ) (t : T) (a : A) : List (Line A) :=
  [.scratch (text tid t), .now (text tid t ++ touched), .dtor a]

def buffer (d : Data T A) (t : T) : Pc A → Option A
  | .setspecific _ a | .snprintf _ a | .printScratch a | .strcat a | .printNow a | .printDtor a | .free a => some a
  | _ => value d t

/-- The value of the key in `t`, the buffer of `t` and what `t` has printed are right for a control point. -/
def Fits (tid : T → ℕ) (d : Data T A) (t : T) : Pc A → Prop
  | .once false | .keyCreate false | .keyCreated false | .getspecific false | .malloc false =>
    value d t = none ∧ journal t d.out = []
  | .setspecific false a => value d t = none ∧ d.heap a = some none ∧ journal t d.out = []
  | .snprintf false a => value d t = some a ∧ d.heap a = some none ∧ journal t d.out = []
  | .printScratch a => value d t = some a ∧ d.heap a = some (some (text tid t)) ∧ journal t d.out = []
  | .once true | .getspecific true => ∃ a, value d t = some a ∧ d.heap a = some (some (text tid t)) ∧
    journal t d.out = (lines tid t a).take 1
  | .strcat a => value d t = some a ∧ d.heap a = some (some (text tid t)) ∧
    journal t d.out = (lines tid t a).take 1
  | .printNow a => value d t = some a ∧ d.heap a = some (some (text tid t ++ touched)) ∧
    journal t d.out = (lines tid t a).take 1
  | .exit => (∃ a, value d t = some a ∧ d.heap a = some (some (text tid t ++ touched)) ∧
    journal t d.out = (lines tid t a).take 2) ∨ value d t = none ∧ ∃ a, journal t d.out = lines tid t a
  | .printDtor a => value d t = none ∧ d.heap a = some (some (text tid t ++ touched)) ∧
    journal t d.out = (lines tid t a).take 2
  | .free a => value d t = none ∧ d.heap a = some (some (text tid t ++ touched)) ∧ journal t d.out = lines tid t a
  | .done => value d t = none ∧ ∃ a, journal t d.out = lines tid t a
  | _ => False

omit [DecidableEq A] in
/-- The buffer of a thread is allocated. -/
theorem Fits.allocated (h : Fits tid d t l) (ha : buffer d t l = some a) : d.heap a ≠ none := by
  have hsome : ∀ {x : Option (List Char)}, d.heap a = some x → d.heap a ≠ none := fun hx => by
    rw [hx]
    exact nofun
  cases l with
  | once again | getspecific again =>
    cases again with
    | false => cases h.1.symm.trans ha
    | true =>
      obtain ⟨b, hv, hb, -⟩ := h
      cases hv.symm.trans ha
      exact hsome hb
  | keyCreate again | keyCreated again | malloc again =>
    cases again
    · cases h.1.symm.trans ha
    · exact h.elim
  | setspecific again b | snprintf again b =>
    cases ha
    cases again
    · exact hsome h.2.1
    · exact h.elim
  | printScratch b | strcat b | printNow b | printDtor b | free b =>
    cases ha
    exact hsome h.2.1
  | exit =>
    rcases h with ⟨b, hv, hb, -⟩ | ⟨hv, -⟩
    · cases hv.symm.trans ha
      exact hsome hb
    · cases hv.symm.trans ha
  | done => cases h.1.symm.trans ha
  | join | keyDelete | returned => exact h.elim

omit [DecidableEq A] in
/-- What `Fits` reads. -/
theorem Fits.congr (h : Fits tid d t l) (hv : value d' t = value d t) (hj : journal t d'.out = journal t d.out)
    (hh : ∀ a, buffer d t l = some a → d'.heap a = d.heap a) : Fits tid d' t l := by
  cases l with
  | once again | getspecific again =>
    cases again with
    | false => exact ⟨hv.trans h.1, hj.trans h.2⟩
    | true =>
      obtain ⟨b, hb, hx, ho⟩ := h
      exact ⟨b, hv.trans hb, (hh b hb).trans hx, hj.trans ho⟩
  | keyCreate again | keyCreated again | malloc again =>
    cases again
    · exact ⟨hv.trans h.1, hj.trans h.2⟩
    · exact h.elim
  | setspecific again b | snprintf again b =>
    cases again
    · exact ⟨hv.trans h.1, (hh b rfl).trans h.2.1, hj.trans h.2.2⟩
    · exact h.elim
  | printScratch b | strcat b | printNow b | printDtor b | free b =>
    exact ⟨hv.trans h.1, (hh b rfl).trans h.2.1, hj.trans h.2.2⟩
  | exit =>
    rcases h with ⟨b, hb, hx, ho⟩ | ⟨hb, b, ho⟩
    · exact .inl ⟨b, hv.trans hb, (hh b hb).trans hx, hj.trans ho⟩
    · exact .inr ⟨hv.trans hb, b, hj.trans ho⟩
  | done =>
    obtain ⟨hb, b, ho⟩ := h
    exact ⟨hv.trans hb, b, hj.trans ho⟩
  | join | keyDelete | returned => exact h.elim

/-! ## The invariant -/

structure Inv (tid : T → ℕ) (d : Data T A) (pc : T → Pc A) : Prop where
  fits : ∀ t, Fits tid d t (pc t)
  owned : ∀ a, d.heap a ≠ none → ∃ t, buffer d t (pc t) = some a
  unique : ∀ t u a, buffer d t (pc t) = some a → buffer d u (pc u) = some a → t = u

/-- A step of `t` that may change what is at its buffer `a`, or at an address that
is not in use. -/
theorem Inv.move {pc : T → Pc A} (h : Inv tid d pc) (hfits : Fits tid d' t k)
    (hv : ∀ u, u ≠ t → value d' u = value d u) (hj : ∀ u, u ≠ t → journal u d'.out = journal u d.out)
    (ha : buffer d t (pc t) = some a ∨ d.heap a = none) (hh : ∀ b, b ≠ a → d'.heap b = d.heap b)
    (hb : ∀ b, buffer d t (pc t) = some b → b = a) (hk : buffer d' t k = if d'.heap a = none then none else some a) :
    Inv tid d' (Function.update pc t k) := by
  -- the other threads have other buffers
  have hne : ∀ u, u ≠ t → buffer d u (pc u) ≠ some a := fun u hu hbuf => by
    rcases ha with ha | ha
    · exact hu (h.unique u t a hbuf ha)
    · exact (h.fits u).allocated hbuf ha
  have hbuf : ∀ u, u ≠ t → buffer d' u (pc u) = buffer d u (pc u) := fun u hu => by
    cases pc u <;> simp only [buffer, hv u hu]
  refine ⟨(Function.forall_update_iff pc fun u l => Fits tid d' u l).mpr ⟨hfits, fun u hu => ?_⟩, fun b hb' => ?_,
    fun u v b hu hv => ?_⟩
  · refine (h.fits u).congr (hv u hu) (hj u hu) fun b hub => hh b ?_
    rintro rfl
    exact hne u hu hub
  · by_cases hba : b = a
    · subst hba
      exact ⟨t, by rw [Function.update_self, hk, if_neg hb']⟩
    · rw [hh b hba] at hb'
      obtain ⟨u, hu⟩ := h.owned b hb'
      have hut : u ≠ t := by
        rintro rfl
        exact hba (hb b hu)
      exact ⟨u, by rw [Function.update_of_ne hut, hbuf u hut]; exact hu⟩
  · have hat : ∀ b, buffer d' t (Function.update pc t k t) = some b → b = a := fun b hb' => by
      rw [Function.update_self, hk] at hb'
      split at hb' <;> cases hb'
      rfl
    have hrest : ∀ w, w ≠ t → ∀ b, buffer d' w (Function.update pc t k w) = some b →
        buffer d w (pc w) = some b := fun w hw b hb' => by
      rwa [Function.update_of_ne hw, hbuf w hw] at hb'
    by_cases hut : u = t <;> by_cases hvt : v = t
    · rw [hut, hvt]
    · subst hut
      exact absurd (hat b hu ▸ hrest v hvt b hv) (hne v hvt)
    · subst hvt
      exact absurd (hat b hv ▸ hrest u hut b hu) (hne u hut)
    · exact h.unique u v b (hrest u hut b hu) (hrest v hvt b hv)

/-- A step of `t` that keeps the buffers. -/
theorem Inv.stay {pc : T → Pc A} (h : Inv tid d pc) (hfits : Fits tid d' t k)
    (hv : ∀ u, u ≠ t → value d' u = value d u) (hj : ∀ u, u ≠ t → journal u d'.out = journal u d.out)
    (hh : d'.heap = d.heap) (hk : buffer d' t k = buffer d t (pc t)) : Inv tid d' (Function.update pc t k) := by
  cases hb : buffer d t (pc t) with
  | some a =>
    have ha := (h.fits t).allocated hb
    refine h.move (a := a) hfits hv hj (.inl hb) (fun b _ => congrFun hh b) (fun b hb' => ?_) ?_
    · exact Option.some.inj (hb'.symm.trans hb)
    · rw [hk, hb, hh, if_neg ha]
  | none =>
    have hbuf : ∀ u, buffer d' u (Function.update pc t k u) = buffer d u (pc u) := fun u => by
      by_cases hu : u = t
      · subst hu; rw [Function.update_self, hk]
      · rw [Function.update_of_ne hu]
        cases pc u <;> simp only [buffer, hv u hu]
    refine ⟨(Function.forall_update_iff pc fun u l => Fits tid d' u l).mpr ⟨hfits, fun u hu => ?_⟩, fun b hb' => ?_,
      fun u v b hu hv => ?_⟩
    · exact (h.fits u).congr (hv u hu) (hj u hu) fun b _ => congrFun hh b
    · rw [hh] at hb'
      obtain ⟨u, hu⟩ := h.owned b hb'
      exact ⟨u, (hbuf u).trans hu⟩
    · exact h.unique u v b ((hbuf u).symm.trans hu) ((hbuf v).symm.trans hv)

/-! ## What a step of a worker keeps -/

omit [DecidableEq A] in
theorem journal_print (d : Data T A) (t u : T) (x : Line A) :
    journal u (d.print t x).out = journal u d.out ++ if u = t then [x] else [] := by
  rw [Data.print, journal_append]
  by_cases hu : u = t
  · subst hu; simp [journal]
  · simp [journal, hu, Ne.symm hu]

omit [DecidableEq T] [DecidableEq A] in
theorem text_eq {x y : List Char} (h : d.heap a = some (some x)) (hy : d.text a = some y) : y = x := by
  rw [Data.text, h] at hy
  exact (Option.some.inj hy).symm

theorem Move.inv {pc : T → Pc A} (h : Inv tid d pc) (hm : Move tid t d (pc t) d' k)
    (hun : ∀ again, pc t = .keyCreate again → Unmade d) (hlive : (∀ again, pc t ≠ .keyCreate again) → Live d) :
    Inv tid d' (Function.update pc t k) := by
  have hf := h.fits t
  have hget : (∀ again, pc t ≠ .keyCreate again) → d.getspecific t = some (value d t) := fun hne =>
    (hlive hne).getspecific t
  have hprint : ∀ x, ∀ u, u ≠ t → journal u (d.print t x).out = journal u d.out := fun x u hu => by
    rw [journal_print, if_neg hu, List.append_nil]
  have hwrite : ∀ (a : A) v, ∀ b, b ≠ a → Function.update d.heap a v b = d.heap b := fun a v b hb =>
    Function.update_of_ne hb _ _
  generalize hl : pc t = l at hm hf hun hlive hget
  cases hm with
  | keyCreate =>
    rename_i again
    cases again
    case true => exact hf.elim
    have hd := hun _ rfl
    have hv : ∀ u, value d u = none := fun u => by simp [value, Data.getspecific, hd.2]
    have hv' : ∀ u, value { d with
        key := some d.created
        created := d.created + 1
        keys := Function.update d.keys d.created (some fun _ => none) } u = none := fun u => by
      simp [value, Data.getspecific]
    exact h.stay ⟨hv' t, hf.2⟩ (fun u _ => (hv' u).trans (hv u).symm) (fun _ _ => rfl) rfl
      (by rw [hl]; exact (hv' t).trans (hv t).symm)
  | null hn =>
    rename_i again
    have hv : value d t = none := Option.some.inj ((hget nofun).symm.trans hn)
    cases again with
    | true =>
      obtain ⟨b, hb, -⟩ := hf
      cases hb.symm.trans hv
    | false => exact h.stay hf (fun _ _ => rfl) (fun _ _ => rfl) rfl (by rw [hl]; rfl)
  | got hn =>
    rename_i again a
    have hv : value d t = some a := Option.some.inj ((hget nofun).symm.trans hn)
    cases again with
    | true =>
      obtain ⟨b, hb, hx, ho⟩ := hf
      cases hb.symm.trans hv
      exact h.stay (k := .strcat a) ⟨hv, hx, ho⟩ (fun _ _ => rfl) (fun _ _ => rfl) rfl (by rw [hl]; exact hv.symm)
    | false => cases hf.1.symm.trans hv
  | malloc ha =>
    rename_i again a
    cases again
    case true => exact hf.elim
    refine h.move (a := a) ⟨hf.1, Function.update_self .., hf.2⟩ (fun _ _ => rfl) (fun _ _ => rfl) (.inr ha)
      (hwrite a _) (fun b hb => ?_) (by simp [buffer])
    rw [hl] at hb
    cases hf.1.symm.trans hb
  | setspecific hs =>
    rename_i again a
    cases again
    case true => exact hf.elim
    obtain ⟨d₁, hs₁, -, hheap, hout, -, hv⟩ := (hlive nofun).setspecific t (some a)
    cases hs₁.symm.trans hs
    refine h.stay ⟨?_, ?_, ?_⟩ (fun u hu => ?_) (fun u _ => by rw [hout]) hheap (by rw [hl]; rfl)
    · rw [hv, Function.update_self]
    · rw [hheap]; exact hf.2.1
    · rw [hout]; exact hf.2.2
    · rw [hv, Function.update_of_ne hu]
  | snprintf ha =>
    rename_i again a
    cases again
    case true => exact hf.elim
    refine h.move (a := a) (k := .printScratch a) ⟨hf.1, Function.update_self .., hf.2.2⟩ (fun _ _ => rfl)
      (fun _ _ => rfl) (.inl (by rw [hl]; rfl)) (hwrite a _) (fun b hb => ?_) (by simp [buffer, Data.write])
    rw [hl] at hb
    exact (Option.some.inj hb).symm
  | printScratch hx =>
    rename_i a x
    cases text_eq hf.2.1 hx
    refine h.stay ⟨a, hf.1, hf.2.1, ?_⟩ (fun _ _ => rfl) (hprint _) rfl (by rw [hl]; exact hf.1)
    rw [journal_print, if_pos rfl, hf.2.2]
    rfl
  | strcat hx hlen =>
    rename_i a x
    cases text_eq hf.2.1 hx
    refine h.move (a := a) ⟨hf.1, Function.update_self .., hf.2.2⟩ (fun _ _ => rfl) (fun _ _ => rfl)
      (.inl (by rw [hl]; rfl)) (hwrite a _) (fun b hb => ?_) (by simp [buffer, Data.write])
    rw [hl] at hb
    exact (Option.some.inj hb).symm
  | printNow hx =>
    rename_i a x
    cases text_eq hf.2.1 hx
    refine h.stay (.inl ⟨a, hf.1, hf.2.1, ?_⟩) (fun _ _ => rfl) (hprint _) rfl (by rw [hl]; exact hf.1)
    rw [journal_print, if_pos rfl, hf.2.2]
    rfl
  | destroy hn hs =>
    rename_i a
    have hv : value d t = some a := Option.some.inj ((hget nofun).symm.trans hn)
    obtain ⟨d₁, hs₁, -, hheap, hout, -, hv'⟩ := (hlive nofun).setspecific t none
    cases hs₁.symm.trans hs
    rcases hf with ⟨b, hb, hx, ho⟩ | ⟨hb, -⟩
    · cases hb.symm.trans hv
      refine h.stay ⟨?_, ?_, ?_⟩ (fun u hu => ?_) (fun u _ => by rw [hout]) hheap (by rw [hl]; exact hv.symm)
      · rw [hv', Function.update_self]
      · rw [hheap]; exact hx
      · rw [hout]; exact ho
      · rw [hv', Function.update_of_ne hu]
    · cases hb.symm.trans hv
  | exit hn =>
    rcases hf with ⟨b, hb, -⟩ | ⟨hb, ho⟩
    · exact absurd ((hget nofun).trans (congrArg some hb)) (hn b)
    · exact h.stay ⟨hb, ho⟩ (fun _ _ => rfl) (fun _ _ => rfl) rfl (by rw [hl]; rfl)
  | printDtor =>
    rename_i a
    refine h.stay ⟨hf.1, hf.2.1, ?_⟩ (fun _ _ => rfl) (hprint _) rfl (by rw [hl]; rfl)
    rw [journal_print, if_pos rfl, hf.2.2]
    rfl
  | free ha =>
    rename_i a
    refine h.move (a := a) (.inr ⟨hf.1, a, hf.2.2⟩) (fun _ _ => rfl) (fun _ _ => rfl) (.inl (by rw [hl]; rfl))
      (hwrite a _) (fun b hb => ?_) ?_
    · rw [hl] at hb
      exact (Option.some.inj hb).symm
    · rw [if_pos (Function.update_self ..)]
      exact hf.1

end TKH.ThreadSpecific
