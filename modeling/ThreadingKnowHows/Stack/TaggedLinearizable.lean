import Mathlib.Data.Nat.ModEq
import ThreadingKnowHows.Stack.Tagged

/-!
# The tagged stack is immune to ABA

The tag is the number of successful compare-and-swaps modulo `2 ^ w`. If fewer
than `2 ^ w` of them come between a read of `head_` and a compare-and-swap
that succeeds, there was none (`Fresh.seen_eq`), so that the node on top was
not taken, not freed and not written to since, and the `next` that was read
from it is still its successor. A node is at any time in the stack, owned by
one thread (`Pc.owns`), or free.
-/

namespace TKH.Stack.Tagged

variable {τ A T : Type*} {w : ℕ}

/-! ## Owners and versions -/

/-- The node that this thread has made and not pushed, or popped and not
returned from. -/
def Pc.owns : Pc A T w → Option A
  | pushLoad _ n | pushLink _ n _ _ | pushCas _ n _ _ => some n
  | popValue a => some a
  | popRet _ a => a
  | _ => none

namespace State

/-- `cur` is what `head_` was after `seen` compare-and-swaps. -/
structure Fresh (s : State τ A T w) (cur : TaggedPtr A w) (seen : ℕ) : Prop where
  le : seen ≤ s.ver
  tag : cur.tag = BitVec.ofNat w seen
  same : seen = s.ver → s.head = cur

/-- What a thread relies on at a control point. -/
def knows (s : State τ A T w) : Pc A T w → Prop
  | .pushLoad v n => s.value n = some v
  | .pushLink v n cur seen => s.value n = some v ∧ s.Fresh cur seen
  | .pushCas v n cur seen => s.value n = some v ∧ s.Fresh cur seen ∧ s.next n = cur.ptr
  | .popNext a tag seen => (s.heap a).isSome = true ∧ s.Fresh ⟨some a, tag⟩ seen
  | .popCas a tag seen nx =>
    (s.heap a).isSome = true ∧ s.Fresh ⟨some a, tag⟩ seen ∧ (seen = s.ver → s.next a = nx)
  | .popValue a => (s.heap a).isSome = true
  | _ => True

/-- `a` is allocated and no thread owns it. -/
structure Unowned (s : State τ A T w) (a : A) : Prop where
  live : s.live a = true
  heap : (s.heap a).isSome = true
  free : ∀ t, (s.pc t).owns ≠ some a

end State

structure Inv (s : State τ A T w) : Prop where
  tag : s.head.tag = BitVec.ofNat w s.ver
  linked : Linked s.next s.head.ptr s.nodes
  stacked : ∀ a ∈ s.nodes, s.Unowned a
  knows : ∀ t, s.knows (s.pc t)
  live : ∀ t a, (s.pc t).owns = some a → s.live a = true
  apart : ∀ t u a, (s.pc t).owns = some a → (s.pc u).owns = some a → t = u

/-- A step of `t` leaves the nodes in the stack and those of the others as they
are, and changes the head only together with the version. -/
structure Keeps (t : τ) (s s' : State τ A T w) : Prop where
  stacked : ∀ a ∈ s.nodes, s'.heap a = s.heap a
  owned : ∀ u a, u ≠ t → (s.pc u).owns = some a → s'.heap a = s.heap a
  allocated : ∀ a, (s.heap a).isSome = true → (s'.heap a).isSome = true
  head : (s'.ver = s.ver ∧ s'.head = s.head) ∨ s'.ver = s.ver + 1

variable {s s' : State τ A T w} {t u : τ} {k : Pc A T w}

/-- No compare-and-swap succeeded since `cur` was read. -/
theorem State.Fresh.seen_eq {cur : TaggedPtr A w} {seen : ℕ} (h : s.Fresh cur seen) (hi : Inv s)
    (hrecent : s.ver < seen + 2 ^ w) (hhead : s.head = cur) : seen = s.ver := by
  have htag : BitVec.ofNat w seen = BitVec.ofNat w s.ver := by rw [← h.tag, ← hhead, hi.tag]
  have hmod : seen % 2 ^ w = s.ver % 2 ^ w := by simpa using congrArg BitVec.toNat htag
  have hdvd : 2 ^ w ∣ s.ver - seen := (Nat.modEq_iff_dvd' h.le).mp hmod
  have hle := h.le
  have := Nat.eq_zero_of_dvd_of_lt hdvd (by omega)
  omega

theorem Keeps.fresh (h : Keeps t s s') {cur : TaggedPtr A w} {seen : ℕ} (hf : s.Fresh cur seen) :
    s'.Fresh cur seen := by
  have hle := hf.le
  rcases h.head with ⟨hv, hh⟩ | hv
  · exact ⟨by omega, hf.tag, fun he => hh.trans (hf.same (he.trans hv))⟩
  · exact ⟨by omega, hf.tag, fun he => by omega⟩

/-- What the other threads know stays true. -/
theorem Keeps.knows (h : Keeps t s s') (hi : Inv s) (hu : u ≠ t) : s'.knows (s.pc u) := by
  have hk := hi.knows u
  have howned := h.owned u
  generalize s.pc u = k at hk howned
  cases k with
  | pushLoad v n =>
    simp only [State.knows, State.value, howned n hu rfl] at hk ⊢; exact hk
  | pushLink v n cur seen =>
    refine ⟨?_, h.fresh hk.2⟩
    simp only [State.knows, State.value, howned n hu rfl] at hk ⊢; exact hk.1
  | pushCas v n cur seen =>
    refine ⟨?_, h.fresh hk.2.1, ?_⟩
    · simp only [State.knows, State.value, howned n hu rfl] at hk ⊢; exact hk.1
    · simp only [State.knows, State.next, howned n hu rfl] at hk ⊢; exact hk.2.2
  | popNext a tag seen => exact ⟨h.allocated a hk.1, h.fresh hk.2⟩
  | popCas a tag seen nx =>
    refine ⟨h.allocated a hk.1, h.fresh hk.2.1, fun he => ?_⟩
    -- as long as no compare-and-swap succeeds, the node is on top
    have hv : s'.ver = s.ver := by
      have hle := hk.2.1.le
      rcases h.head with ⟨hv, -⟩ | hv <;> omega
    have htop := hk.2.1.same (he.trans hv)
    have hl := hi.linked
    rw [htop] at hl
    obtain ⟨bs, hbs, -⟩ := linked_some hl
    rw [State.next, h.stacked a (by simp [hbs])]
    exact hk.2.2 (he.trans hv)
  | popValue a => exact h.allocated a hk
  | _ => trivial

variable [DecidableEq τ]

theorem State.Unowned.move {a : A} (h : s.Unowned a) (hpc : s'.pc = Function.update s.pc t k)
    (hlive : s'.live a = s.live a) (hheap : (s.heap a).isSome = true → (s'.heap a).isSome = true)
    (hk : k.owns ≠ some a) : s'.Unowned a where
  live := hlive.trans h.live
  heap := hheap h.heap
  free := by
    rw [hpc]
    exact (Function.forall_update_iff s.pc fun _ x => x.owns ≠ some a).mpr ⟨hk, fun u _ => h.free u⟩

theorem Inv.move (h : Inv s) (hkeeps : Keeps t s s') (hpc : s'.pc = Function.update s.pc t k)
    (hk : s'.knows k)
    (howns : ∀ a, k.owns = some a → s'.live a = true ∧ ∀ u, u ≠ t → (s.pc u).owns ≠ some a)
    (hlive : ∀ u a, u ≠ t → (s.pc u).owns = some a → s'.live a = true)
    (htag : s'.head.tag = BitVec.ofNat w s'.ver) (hlinked : Linked s'.next s'.head.ptr s'.nodes)
    (hstacked : ∀ a ∈ s'.nodes, s'.Unowned a) : Inv s' where
  tag := htag
  linked := hlinked
  stacked := hstacked
  knows := by
    rw [hpc]
    exact (Function.forall_update_iff s.pc fun _ x => s'.knows x).mpr ⟨hk, fun u hu => hkeeps.knows h hu⟩
  live := by
    rw [hpc]
    exact (Function.forall_update_iff s.pc fun _ x => ∀ a, x.owns = some a → s'.live a = true).mpr
      ⟨fun a ha => (howns a ha).1, fun u hu a => hlive u a hu⟩
  apart := by
    rw [hpc]
    exact single_owner_update h.apart fun a ha => (howns a ha).2

/-- `s'` differs from `s` only in where `t` is, and in the history. -/
structure Moves (t : τ) (k : Pc A T w) (s s' : State τ A T w) : Prop where
  pc : s'.pc = Function.update s.pc t k
  heap : s'.heap = s.heap
  live : s'.live = s.live
  head : s'.head = s.head
  ver : s'.ver = s.ver
  nodes : s'.nodes = s.nodes

theorem Moves.keeps (h : Moves t k s s') : Keeps t s s' where
  stacked a _ := by rw [h.heap]
  owned _ a _ _ := by rw [h.heap]
  allocated a ha := by rw [h.heap]; exact ha
  head := .inl ⟨h.ver, h.head⟩

theorem Moves.inv (h : Moves t k s s') (hi : Inv s) (hk : s'.knows k)
    (howns : ∀ a, k.owns = some a → (s.pc t).owns = some a) : Inv s' := by
  refine hi.move h.keeps h.pc hk (fun a ha => ⟨?_, fun u hu hu' => ?_⟩) (fun u a _ ha => ?_) ?_ ?_ fun a ha => ?_
  · rw [h.live]; exact hi.live t a (howns a ha)
  · exact hu (hi.apart u t a hu' (howns a ha))
  · rw [h.live]; exact hi.live u a ha
  · rw [h.head, h.ver]; exact hi.tag
  · rw [h.head, h.nodes]
    exact hi.linked.congr fun a _ => by simp only [State.next, h.heap]
  · have hu := hi.stacked a (h.nodes ▸ ha)
    exact hu.move h.pc (by rw [h.live]) (by rw [h.heap]; exact id) fun hk' => hu.free t (howns a hk')

omit [DecidableEq τ] in
/-- What `head_` is now. -/
theorem Inv.fresh_head (h : Inv s) : s.Fresh s.head s.ver := ⟨le_rfl, h.tag, fun _ => rfl⟩

theorem moves_goto : Moves t k s (s.goto t k) := ⟨rfl, rfl, rfl, rfl, rfl, rfl⟩

/-! ## Steps -/

variable [DecidableEq A]

theorem keeps_new {v : T} {n : A} (hi : Inv s) (hn : s.live n = false) : Keeps t s (s.new t v n) where
  stacked a ha := by
    refine Function.update_of_ne (fun he => ?_) ..
    subst he
    exact absurd (hi.stacked a ha).live (by simp [hn])
  owned u a _ ha := by
    refine Function.update_of_ne (fun he => ?_) ..
    subst he
    exact absurd (hi.live u a ha) (by simp [hn])
  allocated a ha := by
    by_cases he : a = n
    · subst he; simp [State.new, State.goto]
    · simpa [State.new, State.goto, Function.update_of_ne he] using ha
  head := .inl ⟨rfl, rfl⟩

theorem keeps_link {n : A} (v : T) (cur : TaggedPtr A w) (seen : ℕ) (node : Node A T) (hi : Inv s)
    (hn : (s.pc t).owns = some n) : Keeps t s (s.link t v n cur seen node) where
  stacked a ha := by
    refine Function.update_of_ne (fun he => ?_) ..
    subst he
    exact (hi.stacked a ha).free t hn
  owned u a hu ha := by
    refine Function.update_of_ne (fun he => ?_) ..
    subst he
    exact hu (hi.apart u t a ha hn)
  allocated a ha := by
    by_cases he : a = n
    · subst he; simp [State.link, State.goto]
    · simpa [State.link, State.goto, Function.update_of_ne he] using ha
  head := .inl ⟨rfl, rfl⟩

omit [DecidableEq A] in
theorem keeps_pushOk (t : τ) (v : T) (n : A) (s : State τ A T w) : Keeps t s (s.pushOk t v n s.head) :=
  ⟨fun _ _ => rfl, fun _ _ _ _ => rfl, fun _ => id, .inr rfl⟩

omit [DecidableEq A] in
theorem keeps_popOk (t : τ) (a : A) (tag : BitVec w) (nx : Option A) (s : State τ A T w) :
    Keeps t s (s.popOk t a tag nx) :=
  ⟨fun _ _ => rfl, fun _ _ _ _ => rfl, fun _ => id, .inr rfl⟩

theorem keeps_free (t : τ) (a : A) (s : State τ A T w) : Keeps t s ((s.free (some a)).goto t .out) :=
  ⟨fun _ _ => rfl, fun _ _ _ _ => rfl, fun _ => id, .inl ⟨rfl, rfl⟩⟩

theorem succ_tag {x : BitVec w} {v : ℕ} (h : x = BitVec.ofNat w v) : x + 1 = BitVec.ofNat w (v + 1) := by
  rw [h, BitVec.ofNat_add]; rfl

omit [DecidableEq τ] [DecidableEq A] in
theorem Inv.linked_of_keeps (h : Inv s) (hkeeps : Keeps t s s') : Linked s'.next s.head.ptr s.nodes :=
  h.linked.congr fun a ha => by simp only [State.next, hkeeps.stacked a ha]

theorem Step.inv {a : Act τ A T} (h : Step s a s') (hi : Inv s) (hok : Recent s a) : Inv s' := by
  cases h with
  | @call t op =>
    exact moves_goto.inv hi (by cases op <;> trivial) (by cases op <;> exact nofun)
  | @pushNew t v n hpc hn =>
    have hkeeps := keeps_new (t := t) (v := v) hi hn
    refine hi.move hkeeps rfl ?_ (fun b hb => ?_) (fun u b _ hb => ?_) hi.tag (hi.linked_of_keeps hkeeps)
      fun b hb => ?_
    · simp [State.knows, State.value, State.new, State.goto]
    · cases hb
      refine ⟨by simp [State.new, State.goto], fun u _ hu => ?_⟩
      exact absurd (hi.live u n hu) (by simp [hn])
    · by_cases he : b = n
      · subst he; simp [State.new, State.goto]
      · simpa [State.new, State.goto, Function.update_of_ne he] using hi.live u b hb
    · have hb := hi.stacked b hb
      have he : b ≠ n := fun he => absurd hb.live (by simp [he, hn])
      refine hb.move rfl ?_ (hkeeps.allocated b) fun hk => he (by cases hk; rfl)
      exact Function.update_of_ne he ..
  | @pushLoad t v n hpc =>
    have hk := hi.knows t
    rw [hpc] at hk
    exact moves_goto.inv hi ⟨hk, moves_goto.keeps.fresh hi.fresh_head⟩ (by rw [hpc]; exact fun _ => id)
  | @pushLink t v n cur seen node hpc hn =>
    have hk := hi.knows t
    rw [hpc] at hk
    have howns : (s.pc t).owns = some n := by rw [hpc]; rfl
    have hkeeps := keeps_link v cur seen node hi howns
    refine hi.move hkeeps rfl ⟨?_, hkeeps.fresh hk.2, ?_⟩ (fun b hb => ?_) (fun u b _ hb => hi.live u b hb)
      hi.tag (hi.linked_of_keeps hkeeps) fun b hb => ?_
    · simpa [State.value, State.link, State.goto, hn] using hk.1
    · simp [State.next, State.link, State.goto]
    · cases hb
      exact ⟨hi.live t n howns, fun u hu hu' => hu (hi.apart u t n hu' howns)⟩
    · have hb := hi.stacked b hb
      exact hb.move rfl rfl (hkeeps.allocated b) fun hk' => hb.free t (howns.trans hk')
  | @pushOk t v n cur seen hpc hh =>
    subst hh
    have hk := hi.knows t
    rw [hpc] at hk
    have howns : (s.pc t).owns = some n := by rw [hpc]; rfl
    have hkeeps := keeps_pushOk t v n s
    refine hi.move hkeeps rfl trivial nofun (fun u b _ hb => hi.live u b hb) (succ_tag hi.tag)
      ⟨rfl, hk.2.2 ▸ hi.linked_of_keeps hkeeps⟩ fun b hb => ?_
    rcases List.mem_cons.mp hb with rfl | hb
    · obtain ⟨node, hn, -⟩ := Option.map_eq_some_iff.mp hk.1
      refine ⟨hi.live t b howns, by simp [State.pushOk, State.goto, State.commit, hn], fun u => ?_⟩
      by_cases hu : u = t
      · subst hu; simp [State.pushOk, State.goto, Pc.owns]
      · simp only [State.pushOk, State.goto, State.commit, Function.update_of_ne hu]
        exact fun hu' => hu (hi.apart u t b hu' howns)
    · exact (hi.stacked b hb).move rfl rfl id nofun
  | @pushFail t v n cur seen _ hpc _ =>
    have hk := hi.knows t
    rw [hpc] at hk
    exact moves_goto.inv hi ⟨hk.1, moves_goto.keeps.fresh hi.fresh_head⟩ (by rw [hpc]; exact fun _ => id)
  | @popTest t _ hpc _ =>
    cases hh : s.head.ptr with
    | none =>
      simp only [State.test, hh]
      have hm : Moves t (.popRet none none) s ((s.commit t .pop (.popped none)).goto t (.popRet none none)) :=
        ⟨rfl, rfl, rfl, rfl, rfl, rfl⟩
      exact hm.inv hi trivial nofun
    | some b =>
      simp only [State.test, hh]
      obtain ⟨bs, hbs, -⟩ := linked_some (hh ▸ hi.linked)
      have hhead : s.head = ⟨some b, s.head.tag⟩ := by rw [← hh]
      have hfresh : s.Fresh ⟨some b, s.head.tag⟩ s.ver := hhead ▸ hi.fresh_head
      exact moves_goto.inv hi ⟨(hi.stacked b (by simp [hbs])).heap, moves_goto.keeps.fresh hfresh⟩ nofun
  | @popNext t b tag seen node hpc hn =>
    have hk := hi.knows t
    rw [hpc] at hk
    exact moves_goto.inv hi ⟨hk.1, moves_goto.keeps.fresh hk.2, fun _ => by simp [State.next, State.goto, hn]⟩
      nofun
  | @popOk t b tag seen nx hpc hh =>
    have hk := hi.knows t
    rw [hpc] at hk
    obtain ⟨-, hfresh, hnext⟩ := hk
    have hrecent := hok seen (by rw [hpc]; rfl)
    obtain rfl := hnext (hfresh.seen_eq hi hrecent hh)
    have hl := hi.linked
    rw [hh] at hl
    obtain ⟨bs, hbs, hl⟩ := linked_some hl
    have hb := hi.stacked b (by simp [hbs])
    have htail : (s.popOk t b tag (s.next b)).nodes = bs := by simp [State.popOk, State.goto, State.commit, hbs]
    have htag : tag = BitVec.ofNat w s.ver := by rw [← hi.tag, hh]
    have hkeeps := keeps_popOk t b tag (s.next b) s
    refine hi.move hkeeps rfl hb.heap (fun c hc => ?_) (fun u c _ hc => hi.live u c hc) (succ_tag htag)
      (by rw [htail]; exact hl) fun c hc => ?_
    · cases hc; exact ⟨hb.live, fun u _ => hb.free u⟩
    · rw [htail] at hc
      have hne : c ≠ b := by
        rintro rfl
        have := hi.linked.nodup
        rw [hbs] at this
        exact (List.nodup_cons.mp this).1 hc
      refine (hi.stacked c (by simp [hbs, hc])).move rfl rfl id fun he => hne ?_
      cases he; rfl
  | @popValue t b node hpc hn => exact moves_goto.inv hi trivial (by rw [hpc]; exact fun _ => id)
  | @pushRet t v hpc => exact moves_goto.inv hi trivial nofun
  | @popRet t r b hpc =>
    cases b with
    | none => exact moves_goto.inv hi trivial nofun
    | some b =>
      have howns : (s.pc t).owns = some b := by rw [hpc]; rfl
      refine hi.move (keeps_free t b s) rfl trivial nofun (fun u c hu hc => ?_) hi.tag hi.linked fun c hc => ?_
      · have hne : c ≠ b := by rintro rfl; exact hu (hi.apart u t c hc howns)
        simpa [State.free, State.goto, Function.update_of_ne hne] using hi.live u c hc
      · have hu : s.Unowned c := hi.stacked c hc
        have hne : c ≠ b := by rintro rfl; exact hu.free t howns
        exact hu.move rfl (by simp [State.free, State.goto, Function.update_of_ne hne]) id nofun

theorem inv_of_reach (h : (stack τ A T w).ReachBy Recent s) : Inv s :=
  h.inv ⟨rfl, rfl, nofun, fun _ => trivial, nofun, nofun⟩ fun _ hok ha hi => (step_of_next ha).inv hi hok

/-! ## Linearization -/

/-- Where a thread is in its call. A pop that has swapped has the value of its
node, which it is about to read. -/
def phase (s : State τ A T w) : Pc A T w → Phase (Op T) (Ret T)
  | .out => .idle
  | .pushNew v | .pushLoad v _ | .pushLink v _ _ _ | .pushCas v _ _ _ => .pending (.push v)
  | .pushRet v => .done (.push v) .pushed
  | .popLoad | .popNext _ _ _ | .popCas _ _ _ _ => .pending .pop
  | .popValue a => .done .pop (.popped (s.value a))
  | .popRet r _ => .done .pop (.popped r)

/-- The stack as a shared LIFO stack: the values of its nodes. -/
def abs (s : State τ A T w) : Shared (List T) τ (Op T) (Ret T) :=
  ⟨s.nodes.filterMap s.value, fun t => phase s (s.pc t), s.hist⟩

omit [DecidableEq τ] [DecidableEq A] in
theorem Keeps.phase (h : Keeps t s s') (hu : u ≠ t) : phase s' (s.pc u) = Tagged.phase s (s.pc u) := by
  have howned := h.owned u
  generalize s.pc u = k at howned
  cases k with
  | popValue a => simp only [Tagged.phase, State.value, howned a hu rfl]
  | _ => rfl

omit [DecidableEq τ] [DecidableEq A] in
theorem Keeps.values (h : Keeps t s s') : s.nodes.filterMap s'.value = s.nodes.filterMap s.value :=
  List.filterMap_congr fun a ha => by simp only [State.value, h.stacked a ha]

omit [DecidableEq A] in
/-- A step that moves `t` and may let an operation take effect. -/
theorem Keeps.abs_move (h : Keeps t s s') (hpc : s'.pc = Function.update s.pc t k) :
    abs s' = ⟨s'.nodes.filterMap s'.value, Function.update (abs s).phase t (Tagged.phase s' k), s'.hist⟩ := by
  simp only [abs, Shared.mk.injEq, true_and, and_true]
  rw [hpc]
  refine Function.eq_update_iff.mpr ⟨by rw [Function.update_self], fun u hu => ?_⟩
  rw [Function.update_of_ne hu, h.phase hu]

omit [DecidableEq A] in
/-- A step in which nothing takes effect. -/
theorem Keeps.abs_stutter (h : Keeps t s s') (hpc : s'.pc = Function.update s.pc t k)
    (hnodes : s'.nodes = s.nodes) (hhist : s'.hist = s.hist) (hk : Tagged.phase s' k = Tagged.phase s (s.pc t)) :
    abs s' = abs s := by
  rw [h.abs_move hpc, hnodes, hhist, h.values, hk]
  simp only [abs, Shared.mk.injEq, true_and, and_true]
  exact Function.update_eq_self t _

omit [DecidableEq A] in
theorem Inv.pushOk_obj (h : Inv s) {v : T} {n : A} {cur : TaggedPtr A w} {seen : ℕ}
    (hpc : s.pc t = .pushCas v n cur seen) : (abs (s.pushOk t v n cur)).obj = v :: (abs s).obj := by
  have hk := h.knows t
  rw [hpc] at hk
  exact List.filterMap_cons_some hk.1

omit [DecidableEq A] in
/-- A successful pop takes the value on top. -/
theorem Inv.popOk_obj (h : Inv s) {b : A} {tag : BitVec w} (nx : Option A) (hh : s.head = ⟨some b, tag⟩) :
    ∃ v, s.value b = some v ∧ (abs s).obj = v :: (abs (s.popOk t b tag nx)).obj := by
  have hl := h.linked
  rw [hh] at hl
  obtain ⟨bs, hbs, -⟩ := linked_some hl
  obtain ⟨node, hn⟩ := Option.isSome_iff_exists.mp (h.stacked b (by simp [hbs])).heap
  have hv : s.value b = some node.value := by simp [State.value, hn]
  refine ⟨node.value, hv, ?_⟩
  have htail : (s.popOk t b tag nx).nodes = bs := by simp [State.popOk, State.goto, State.commit, hbs]
  simp only [abs, htail, hbs, List.filterMap_cons_some hv]
  rfl

theorem Step.linearizes {a : Act τ A T} (h : Step s a s') (hi : Inv s) :
    (a.visible = false ∧ abs s' = abs s) ∨
      ∃ e : Event τ (Op T), e.visible = a.visible ∧ (atomic (lifo T)).next (abs s) e = some (abs s') := by
  have hgoto : ∀ {t k}, Tagged.phase (s.goto t k) k = Tagged.phase s (s.pc t) → abs (s.goto t k) = abs s :=
    fun hk => moves_goto.keeps.abs_stutter rfl rfl rfl hk
  cases h with
  | @call t op hpc =>
    refine .inr ⟨.call t op, rfl, ?_⟩
    have hp : (abs s).phase t = .idle := by simp [abs, hpc, phase]
    rw [atomic_call_next hp, moves_goto.keeps.abs_move rfl]
    cases op <;> rfl
  | @pushNew t v n hpc hn =>
    exact .inl ⟨rfl, (keeps_new hi hn).abs_stutter rfl rfl rfl (by rw [hpc]; rfl)⟩
  | @pushLoad t v n hpc => exact .inl ⟨rfl, hgoto (by rw [hpc]; rfl)⟩
  | @pushLink t v n cur seen node hpc hn =>
    have howns : (s.pc t).owns = some n := by rw [hpc]; rfl
    exact .inl ⟨rfl, (keeps_link v cur seen node hi howns).abs_stutter rfl rfl rfl (by rw [hpc]; rfl)⟩
  | @pushOk t v n cur seen hpc hh =>
    subst hh
    refine .inr ⟨.commit t, rfl, ?_⟩
    have hp : (abs s).phase t = .pending (.push v) := by simp [abs, hpc, phase]
    rw [atomic_commit_next hp rfl, ← hi.pushOk_obj hpc, (keeps_pushOk t v n s).abs_move rfl]
    rfl
  | @pushFail t v n cur seen _ hpc hv => exact .inl ⟨hv, hgoto (by rw [hpc]; rfl)⟩
  | @popTest t _ hpc hv =>
    have hp : (abs s).phase t = .pending .pop := by
      rcases hpc with hpc | ⟨old, tag, seen, nx, hpc⟩ <;> simp [abs, hpc, phase]
    cases hh : s.head.ptr with
    | none =>
      -- the stack is empty now, so that the pop takes effect here
      have he : s.nodes = [] := linked_none (hh ▸ hi.linked)
      refine .inr ⟨.commit t, hv.symm, ?_⟩
      simp only [State.test, hh]
      have hm : Moves t (.popRet none none) s ((s.commit t .pop (.popped none)).goto t (.popRet none none)) :=
        ⟨rfl, rfl, rfl, rfl, rfl, rfl⟩
      have ha : (lifo T).apply (abs s).obj .pop = some (.popped none, []) := by simp [abs, he, lifo]
      rw [atomic_commit_next hp ha, hm.keeps.abs_move rfl]
      simp [State.goto, State.commit, he, phase, abs]
    | some b =>
      refine .inl ⟨hv, ?_⟩
      simp only [State.test, hh]
      exact hgoto hp.symm
  | @popNext t b tag seen node hpc hn => exact .inl ⟨rfl, hgoto (by rw [hpc]; rfl)⟩
  | @popOk t b tag seen nx hpc hh =>
    refine .inr ⟨.commit t, rfl, ?_⟩
    have hp : (abs s).phase t = .pending .pop := by simp [abs, hpc, phase]
    obtain ⟨v, hv, hobj⟩ := hi.popOk_obj (t := t) nx hh
    have ha : (lifo T).apply (abs s).obj .pop = some (.popped (some v), (abs (s.popOk t b tag nx)).obj) := by
      rw [hobj]; rfl
    rw [atomic_commit_next hp ha, (keeps_popOk t b tag nx s).abs_move rfl]
    simp only [phase, show (s.popOk t b tag nx).value b = some v from hv]
    simp [State.popOk, State.goto, State.commit, hv, abs]
  | @popValue t b node hpc hn =>
    exact .inl ⟨rfl, hgoto (by rw [hpc]; simp [phase, State.value, hn])⟩
  | @pushRet t v hpc =>
    have hp : (abs s).phase t = .done (.push v) .pushed := by simp [abs, hpc, phase]
    refine .inr ⟨.ret t, rfl, ?_⟩
    rw [atomic_ret_next hp, moves_goto.keeps.abs_move rfl]
    rfl
  | @popRet t r b hpc =>
    have hp : (abs s).phase t = .done .pop (.popped r) := by simp [abs, hpc, phase]
    refine .inr ⟨.ret t, rfl, ?_⟩
    cases b with
    | none =>
      rw [atomic_ret_next hp, show s.free none = s from rfl, moves_goto.keeps.abs_move rfl]
      rfl
    | some b =>
      rw [atomic_ret_next hp, (keeps_free t b s).abs_move rfl]
      rfl

theorem stack_linearizes : Linearizes (stack τ A T w) Recent (lifo T) abs Act.visible where
  start := rfl
  step hr _ ha := (step_of_next ha).linearizes (inv_of_reach hr)

/-- The operations in the order in which they took effect. -/
def history (s : State τ A T w) : List (Op T × Ret T) := s.hist.map Prod.snd

/-- The head changes only together with the version. -/
theorem Step.head {a : Act τ A T} (h : Step s a s') :
    (s'.ver = s.ver ∧ s'.head = s.head) ∨ s'.ver = s.ver + 1 := by
  cases h with
  | pushOk | popOk => exact .inr rfl
  | @popTest t =>
    simp only [State.test]
    split <;> exact .inl ⟨rfl, rfl⟩
  | @popRet t r b => cases b <;> exact .inl ⟨rfl, rfl⟩
  | _ => exact .inl ⟨rfl, rfl⟩

/-- The tagged stack is immune to ABA: a compare-and-swap succeeds only if the
head has not changed since it was read, a successful pop removes the node on
top and installs its successor, and the stack is a linearizable LIFO stack. -/
theorem tagged_immune :
    Linearizes (stack τ A T w) Recent (lifo T) abs Act.visible ∧
    ∀ {s : State τ A T w}, (stack τ A T w).ReachBy Recent s →
      (∀ a s', (stack τ A T w).next s a = some s' →
        (s'.ver = s.ver ∧ s'.head = s.head) ∨ s'.ver = s.ver + 1) ∧
      (∀ t v n cur seen, s.pc t = .pushCas v n cur seen → s.ver < seen + 2 ^ w → s.head = cur →
        seen = s.ver ∧ ∃ s', (stack τ A T w).next s (.step t) = some s' ∧
          s'.hist = s.hist ++ [(t, .push v, .pushed)] ∧ (abs s').obj = v :: (abs s).obj) ∧
      (∀ t a tag seen nx, s.pc t = .popCas a tag seen nx → s.ver < seen + 2 ^ w → s.head = ⟨some a, tag⟩ →
        seen = s.ver ∧ ∃ rest v s', s.nodes = a :: rest ∧ (stack τ A T w).next s (.step t) = some s' ∧
          s'.nodes = rest ∧ s'.head.ptr = s.next a ∧ s'.hist = s.hist ++ [(t, .pop, .popped (some v))] ∧
          (abs s).obj = v :: (abs s').obj) ∧
      (Linked s.next s.head.ptr s.nodes ∧ s.nodes.Nodup) ∧
      (∀ t r b, s.pc t = .popRet r b →
        (s.hist.filter fun x => x.1 = t).getLast? = some (t, .pop, .popped r)) ∧
      (lifo T).Runs [] (history s) (abs s).obj ∧
      (pushed (history s) : Multiset T) = popped (history s) + (abs s).obj := by
  refine ⟨stack_linearizes, fun {s} h => ?_⟩
  have hi := inv_of_reach h
  have hr : (lifo T).Runs [] (history s) (abs s).obj := stack_linearizes.runs h
  refine ⟨fun a s' ha => (step_of_next ha).head, fun t v n cur seen hpc hv hh => ?_,
    fun t a tag seen nx hpc hv hh => ?_, ⟨hi.linked, hi.linked.nodup⟩, fun t r b hpc => ?_, hr, ?_⟩
  · have hk := hi.knows t
    rw [hpc] at hk
    exact ⟨hk.2.1.seen_eq hi hv hh, s.pushOk t v n cur, by simp [stack, next, hpc, hh], rfl, hi.pushOk_obj hpc⟩
  · have hk := hi.knows t
    rw [hpc] at hk
    obtain ⟨-, hfresh, hnext⟩ := hk
    have hseen := hfresh.seen_eq hi hv hh
    obtain rfl := hnext hseen
    obtain ⟨v, hv, hobj⟩ := hi.popOk_obj (t := t) (s.next a) hh
    have hl := hi.linked
    rw [hh] at hl
    obtain ⟨rest, hrest, -⟩ := linked_some hl
    refine ⟨hseen, rest, v, s.popOk t a tag (s.next a), hrest, by simp [stack, next, hpc, hh], ?_, rfl, ?_, hobj⟩
    · simp [State.popOk, State.goto, State.commit, hrest]
    · rw [← hv]; rfl
  · exact atomic_last (stack_linearizes.reach h) (by simp [abs, hpc, phase])
  · simpa using runs_conserve hr

/-- `u` reads the node at 10 as the head; `t` pops it, pushes a node at 11 and
then one at 10 again. The compare-and-swap of `u` fails, and its pop is
retried. -/
def reuse (t u : τ) : List (Act τ ℕ ℕ) :=
  let push (v a : ℕ) : List (Act τ ℕ ℕ) := [.call t (.push v), .new t a, .step t, .step t, .step t, .ret t]
  push 1 10 ++ [.call u .pop, .step u, .step u] ++ [.call t .pop, .step t, .step t, .step t, .step t, .ret t] ++
    push 2 11 ++ push 3 10 ++ [.step u, .step u, .step u, .step u]

theorem tagged_immune_reuse :
    ∃ s, (stack (Fin 2) ℕ ℕ 8).run (stack (Fin 2) ℕ ℕ 8).start (reuse 0 1) = some s ∧
      (s.hist.filter fun x => x.1 = 1).getLast? = some (1, .pop, .popped (some 3)) ∧
      (pushed (history s) : Multiset ℕ) = popped (history s) + (abs s).obj := by
  have hr : ((stack (Fin 2) ℕ ℕ 8).run (stack (Fin 2) ℕ ℕ 8).start (reuse 0 1)).isSome = true := by decide +kernel
  have hs := (Option.some_get hr).symm
  have hok : (stack (Fin 2) ℕ ℕ 8).Along Recent (stack (Fin 2) ℕ ℕ 8).start (reuse 0 1) := by decide +kernel
  obtain ⟨-, h⟩ := tagged_immune (τ := Fin 2) (A := ℕ) (T := ℕ) (w := 8)
  obtain ⟨-, -, -, -, hlast, -, hc⟩ := h (System.path_of_along hs hok)
  exact ⟨_, hs, hlast 1 (some 3) (some 10) rfl, hc⟩

end TKH.Stack.Tagged
