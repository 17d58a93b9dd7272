import ThreadingKnowHows.Framework.Lock

/-!
# Local assertions

What a thread may rely on at a control point, whether it holds the mutex or
not: `loc t l` holds of the data while `t` is at `l`. The thread's own
commands have to lead from one assertion to the next, and what another thread
does to the data must not make it false (`Cmd.Asserts`).
-/

namespace TKH

variable {τ C D L : Type*}

/-- The command of `t` at `l` leads to what `loc` says at its end, and leaves
the assertions of the other threads true. -/
def Cmd.Asserts (held : L → Bool) (pre : L → D → Prop) (loc : τ → L → D → Prop) (t : τ) (l : L) :
    Cmd τ C D L → Prop
  | .act f => ∀ d, (held l = true → pre l d) → loc t l d →
      loc t (f d).2 (f d).1 ∧ ∀ u k, u ≠ t → loc u k d → loc u k (f d).1
  | .lock k => ∀ d, loc t l d → loc t k d
  | .unlock k => ∀ d, loc t l d → loc t k d
  | .wait _ k => ∀ d, loc t l d → loc t k d
  | .notifyOne _ k => ∀ d, loc t l d → loc t k d
  | .notifyAll _ k => ∀ d, loc t l d → loc t k d
  | .join _ k => ∀ d, loc t l d → loc t k d
  | .pick ok => ∀ d k, ok d k → loc t l d → loc t k d
  | .ext _ ok => ∀ d k, ok k → loc t l d → loc t k d
  | .halt => True

/-- Nothing is asserted where a thread never is. -/
theorem Cmd.asserts_of_not {held : L → Bool} {pre : L → D → Prop} {loc : τ → L → D → Prop} {t : τ} {l : L}
    (h : ∀ d, ¬ loc t l d) (c : Cmd τ C D L) : c.Asserts held pre loc t l := by
  cases c with
  | act f => exact fun d _ hl => (h d hl).elim
  | pick | ext => exact fun d _ _ hl => (h d hl).elim
  | halt => trivial
  | _ => exact fun d hl => (h d hl).elim

structure Local (P : Program τ C D L) (held : L → Bool) (inv : D → Prop) (pre : L → D → Prop)
    (loc : τ → L → D → Prop) : Prop extends Annotation P held inv pre where
  entries : ∀ t, loc t (P.entry t) P.init
  asserts : ∀ t l, (P.code t l).Asserts held pre loc t l

variable [DecidableEq τ] [DecidableEq C] [Fintype τ] {P : Program τ C D L} {held : L → Bool}
  {inv : D → Prop} {pre : L → D → Prop} {loc : τ → L → D → Prop}

omit [DecidableEq τ] [DecidableEq C] [Fintype τ] in
theorem Local.asserts_at (h : Local P held inv pre loc) {t : τ} {l : L} {c : Cmd τ C D L} (hc : P.code t l = c) :
    c.Asserts held pre loc t l := by
  rw [← hc]
  exact h.asserts t l

omit [Fintype τ] in
theorem Local.assert_step (h : Local P held inv pre loc) {s s' : State τ C D L} {a : Act τ L}
    (hs : P.Step s a s') (hsound : Sound held inv pre s)
    (hi : ∀ t, loc t (s.th t).point s.data) : ∀ t, loc t (s'.th t).point s'.data := by
  -- a step that moves `t` to `x` and leaves the data
  have hmove : ∀ {f : τ → Status C L} {t x}, (∀ u, loc u (f u).point s.data) → loc t x.point s.data →
      ∀ u, loc u (Function.update f t x u).point s.data := by
    intro f t x hf hx
    exact (Function.forall_update_iff f fun u x => loc u x.point s.data).mpr ⟨hx, fun u _ => hf u⟩
  have hat : ∀ {t l}, s.th t = .run l → loc t l s.data := fun {t l} hl => by
    have := hi t; rwa [hl] at this
  cases hs with
  | @act t l f hl hc =>
    obtain ⟨ht, ho⟩ := h.asserts_at hc s.data (fun hh => hsound.holds t l hl hh) (hat hl)
    exact (Function.forall_update_iff s.th fun u x => loc u x.point (f s.data).1).mpr
      ⟨ht, fun u hu => ho u _ hu (hi u)⟩
  | lock hl hc | unlock hl hc | wait hl hc | notifyNone hl hc | join hl hc =>
    exact hmove hi (h.asserts_at hc _ (hat hl))
  | pick hl hc hk => exact hmove hi (h.asserts_at hc _ _ hk (hat hl))
  | ext hl hc _ hk => exact hmove hi (h.asserts_at hc _ _ hk (hat hl))
  | @notifyOne t w l c k k' hl hc hw =>
    exact hmove (fun u => by rw [Status.point_wake hw]; exact hi u) (h.asserts_at hc _ (hat hl))
  | @notifyAll t l c k hl hc =>
    exact hmove (fun u => by rw [Status.point_rouse]; exact hi u) (h.asserts_at hc _ (hat hl))
  | @relock t k hk _ => refine hmove hi ?_; have := hi t; rwa [hk] at this
  | spurious hk => exact fun u => by rw [Status.point_wake hk]; exact hi u

/-- Local assertions hold in every run. -/
theorem Local.assert (h : Local P held inv pre loc) {s : State τ C D L} (hs : P.system.Reach s) (t : τ) :
    loc t (s.th t).point s.data :=
  hs.inv (I := fun s => ∀ t, loc t (s.th t).point s.data) h.entries
    (fun hr _ ha hi => h.assert_step (P.step_of_next ha) (h.sound hr) hi) t

end TKH
