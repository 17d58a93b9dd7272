import ThreadingKnowHows.Framework.Lock
import ThreadingKnowHows.Framework.Total
import ThreadingKnowHows.Framework.Trace

/-!
# Journals

The commands of a program output something, `out t l d` when the thread `t`
executes the one at `l` with the data `d` (`outputs`). The journal of a thread
is its part of the trace. If each command leads from `R t l`, what holds of the
journal of `t` at `l`, to the one where it goes on (`Cmd.Records`), then that
is so in every run (`Journal.holds`). All journals together are the trace
(`coe_filterMap_eq_total`).
-/

namespace TKH

variable {τ C D L β : Type*}

/-- What a step outputs, and who. -/
def outputs (out : τ → L → D → List β) (s : State τ C D L) : Act τ L → List (τ × β)
  | .exec t => match s.th t with
    | .run l => (out t l s.data).map (Prod.mk t)
    | _ => []
  | _ => []

/-- The command of `t` at `l` leads from journals that satisfy `R` to such
journals; only an `act` has an output. -/
def Cmd.Records (out : τ → L → D → List β) (R : τ → L → List β → Prop) (t : τ) (l : L) : Cmd τ C D L → Prop
  | .act f => ∀ d es, R t l es → R t (f d).2 (es ++ out t l d)
  | .lock k | .unlock k | .wait _ k | .notifyOne _ k | .notifyAll _ k | .join _ k =>
    (∀ d, out t l d = []) ∧ ∀ es, R t l es → R t k es
  | .pick ok => ∀ d k es, ok d k → R t l es → R t k es
  | .ext _ ok => ∀ k es, ok k → R t l es → R t k es
  | .halt => True

structure Journal (P : Program τ C D L) (out : τ → L → D → List β) (R : τ → L → List β → Prop) : Prop where
  entries : ∀ t, R t (P.entry t) []
  records : ∀ t l, (P.code t l).Records out R t l

variable [DecidableEq τ]

/-- What `t` has output. -/
def journal (t : τ) (es : List (τ × β)) : List β := es.filterMap fun e => if e.1 = t then some e.2 else none

theorem journal_append (t : τ) (es fs : List (τ × β)) : journal t (es ++ fs) = journal t es ++ journal t fs :=
  List.filterMap_append

@[simp] theorem journal_self (t : τ) (os : List β) : journal t (os.map (Prod.mk t)) = os := by
  simp [journal, List.filterMap_map]

theorem journal_of_ne {t u : τ} (h : u ≠ t) (os : List β) : journal u (os.map (Prod.mk t)) = [] := by
  simp [journal, List.filterMap_map, h.symm]

theorem mem_journal {t : τ} {b : β} {es : List (τ × β)} : b ∈ journal t es ↔ (t, b) ∈ es := by
  simp [journal, List.mem_filterMap]

theorem journal_eq (t : τ) (es : List (τ × β)) : journal t es = (es.filter fun e => e.1 = t).map Prod.snd := by
  induction es with
  | nil => rfl
  | cons e es ih => by_cases h : e.1 = t <;> simp [journal, h] <;> simpa [journal] using ih

/-- What a trace says is what the journals say. -/
theorem coe_filterMap_eq_total {γ : Type*} [Fintype τ] (f : β → Option γ) (es : List (τ × β)) :
    (((es.map Prod.snd).filterMap f : List γ) : Multiset γ) = ∑ t, ((journal t es).filterMap f : Multiset γ) := by
  induction es with
  | nil => simp [journal]
  | cons e es ih =>
    have hj : ∀ t, ((journal t (e :: es)).filterMap f : Multiset γ) =
        (if e.1 = t then (([e.2].filterMap f : List γ) : Multiset γ) else 0) + (journal t es).filterMap f := by
      intro t
      by_cases h : e.1 = t
      · simp only [journal, List.filterMap_cons, h, if_true, List.filterMap_nil]
        cases f e.2 <;> simp
      · simp only [journal, List.filterMap_cons, h, if_false, zero_add]
    rw [Finset.sum_congr rfl fun t _ => hj t, Finset.sum_add_distrib, ← ih, Finset.sum_ite_eq,
      if_pos (Finset.mem_univ _), Multiset.coe_add, ← List.filterMap_append]
    rfl

theorem length_eq_sum_journal [Fintype τ] (es : List (τ × β)) : es.length = ∑ t, (journal t es).length := by
  have := congrArg Multiset.card (coe_filterMap_eq_total some es)
  simpa [List.filterMap_some] using this

/-- More is output if each thread outputs more. -/
theorem coe_le_of_journal [DecidableEq β] {es fs : List (τ × β)} (h : ∀ t, (journal t es : Multiset β) ≤ journal t fs) :
    (es : Multiset (τ × β)) ≤ fs := by
  have hcount : ∀ (gs : List (τ × β)) (e : τ × β),
      (gs : Multiset (τ × β)).count e = (journal e.1 gs : Multiset β).count e.2 := by
    intro gs e
    induction gs with
    | nil => rfl
    | cons g gs ih =>
      obtain ⟨t, b⟩ := g
      obtain ⟨u, c⟩ := e
      rw [← Multiset.cons_coe, Multiset.count_cons, ih]
      by_cases ht : t = u
      · subst ht
        simp [journal, ← Multiset.cons_coe, Multiset.count_cons]
      · simp [journal, ht, Ne.symm ht]
  refine Multiset.le_iff_count.mpr fun e => ?_
  rw [hcount, hcount]
  exact Multiset.le_iff_count.mp (h e.1) e.2

/-- Those of what is output that `f` is for, with who did it. -/
def tagged {γ : Type*} (f : β → Option γ) (es : List (τ × β)) : List (τ × γ) :=
  es.filterMap fun e => (f e.2).map (Prod.mk e.1)

omit [DecidableEq τ] in
theorem map_snd_tagged {γ : Type*} (f : β → Option γ) (es : List (τ × β)) :
    (tagged f es).map Prod.snd = (es.map Prod.snd).filterMap f := by
  rw [tagged, List.map_filterMap, List.filterMap_map]
  congr 1
  funext e
  cases h : f e.2 <;> simp [h]

omit [DecidableEq τ] in
theorem mem_tagged {γ : Type*} {f : β → Option γ} {es : List (τ × β)} {t : τ} {c : γ} :
    (t, c) ∈ tagged f es ↔ ∃ b, (t, b) ∈ es ∧ f b = some c := by
  simp [tagged, List.mem_filterMap]

theorem journal_tagged {γ : Type*} (t : τ) (f : β → Option γ) (es : List (τ × β)) :
    journal t (tagged f es) = (journal t es).filterMap f := by
  rw [journal, journal, tagged, List.filterMap_filterMap, List.filterMap_filterMap]
  congr 1
  funext e
  by_cases ht : e.1 = t <;> cases h : f e.2 <;> simp [ht, h]

variable [DecidableEq C] [Fintype τ] {P : Program τ C D L} {out : τ → L → D → List β} {R : τ → L → List β → Prop}
  {s s' : State τ C D L} {a : Act τ L}

omit [DecidableEq τ] [DecidableEq C] [Fintype τ] in
theorem Journal.records_at (h : Journal P out R) {t : τ} {l : L} {c : Cmd τ C D L} (hc : P.code t l = c) :
    c.Records out R t l := by
  rw [← hc]
  exact h.records t l

omit [Fintype τ] in
theorem Journal.step (h : Journal P out R) (hs : P.Step s a s') {es : List (τ × β)}
    (hi : ∀ t, R t (s.th t).point (journal t es)) :
    ∀ t, R t (s'.th t).point (journal t (es ++ outputs out s a)) := by
  -- a step of `t` that outputs `os` and goes on at `x`
  have hmove : ∀ {f : τ → Status C L} {t x} (os : List β), (∀ u, (f u).point = (s.th u).point) →
      R t x.point (journal t es ++ os) →
      ∀ u, R u (Function.update f t x u).point (journal u (es ++ os.map (Prod.mk t))) := by
    intro f t x os hf hx u
    rw [journal_append]
    by_cases hu : u = t
    · subst hu
      rwa [Function.update_self, journal_self]
    · rw [Function.update_of_ne hu, journal_of_ne hu, List.append_nil, hf]
      exact hi u
  have hsilent : ∀ {f : τ → Status C L} {t x}, (∀ u, (f u).point = (s.th u).point) → R t x.point (journal t es) →
      ∀ u, R u (Function.update f t x u).point (journal u (es ++ [])) := fun {f t x} hf hx =>
    hmove [] hf (by rwa [List.append_nil])
  have hat : ∀ {t l}, s.th t = .run l → R t l (journal t es) := fun {t l} hl => by
    have := hi t; rwa [hl] at this
  have hout : ∀ {t l}, s.th t = .run l → outputs out s (.exec t) = (out t l s.data).map (Prod.mk t) := fun hl => by
    simp only [outputs, hl]
  have hnone : ∀ {t l}, s.th t = .run l → (∀ d, out t l d = []) → outputs out s (.exec t) = [] := fun hl ho => by
    rw [hout hl, ho, List.map_nil]
  have hwake : ∀ {w c k}, s.th w = .asleep c k → ∀ u, (Function.update s.th w (.woken k) u).point = (s.th u).point := by
    intro w c k hw u
    by_cases hu : u = w
    · subst hu; simp [hw]
    · rw [Function.update_of_ne hu]
  cases hs with
  | @act t l f hl hc =>
    rw [hout hl]
    exact hmove _ (fun _ => rfl) (h.records_at hc s.data _ (hat hl))
  | @lock t l k hl hc | @unlock t l k hl hc | @wait t l _ k hl hc | @notifyNone t l _ k hl hc | @join t l _ k hl hc =>
    have hg := h.records_at hc
    rw [hnone hl hg.1]
    exact hsilent (fun _ => rfl) (hg.2 _ (hat hl))
  | @notifyOne t w l _ k k' hl hc hw =>
    have hg := h.records_at hc
    exact hsilent (hwake hw) (hg.2 _ (hat hl))
  | @notifyAll t l _ k hl hc =>
    have hg := h.records_at hc
    rw [hnone hl hg.1]
    exact hsilent (fun u => Status.point_rouse ..) (hg.2 _ (hat hl))
  | pick hl hc hk => exact hsilent (fun _ => rfl) (h.records_at hc _ _ _ hk (hat hl))
  | ext hl hc _ hk => exact hsilent (fun _ => rfl) (h.records_at hc _ _ hk (hat hl))
  | @relock t k hk | @spurious t _ k hk =>
    refine hsilent (fun _ => rfl) ?_
    have := hi t
    rwa [hk] at this

/-- What the code records is so in every run. -/
theorem Journal.holds (h : Journal P out R) {as : List (Act τ L)} (hr : P.system.run P.system.start as = some s)
    (t : τ) : R t (s.th t).point (journal t (P.system.trace (outputs out) P.system.start as)) :=
  System.trace_inv (I := fun es s => ∀ t, R t (s.th t).point (journal t es)) hr (System.along_true _ _) h.entries
    (fun _ _ ha hi => h.step (Program.step_of_next ha) hi) t

end TKH
