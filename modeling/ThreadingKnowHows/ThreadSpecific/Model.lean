import Mathlib.Data.Fintype.Basic
import Mathlib.Logic.Function.Basic
import ThreadingKnowHows.Framework.Once

/-!
# A buffer for each thread

`01_pthreads/08_thread_specific/01_tls_pthread.c`: any threads `T`, each of which
calls `scratch` twice, and `main`, which joins them and deletes the key. `tid t`
is what `pthread_self` returns in `t`. Calls of the library do not fail, and the
environment chooses what `malloc` returns, among the addresses that are not in use.

What C leaves undefined is a step that is not possible here: a key that has not
been created or has been deleted, memory that is not allocated or not initialised,
a write behind the end of a buffer. A thread that does such a thing is stuck.
-/

namespace TKH.ThreadSpecific

inductive Line (A : Type)
  /-- `[Tt] my scratch -> text` -/
  | scratch (text : List Char)
  | now (text : List Char)
  /-- `[dtor] freeing per-thread buffer a` -/
  | dtor (a : A)

structure Data (T A : Type) where
  key : Option ℕ
  /-- How many keys have been created, and the values of those that have not been deleted. -/
  created : ℕ
  keys : ℕ → Option (T → Option A)
  /-- What is allocated, with what has been written there. -/
  heap : A → Option (Option (List Char))
  exited : T → Bool
  out : List (T × Line A)

/-- The control points; `again` is the second call of `scratch`. -/
inductive Pc (A : Type)
  | once (again : Bool)
  | keyCreate (again : Bool)
  | keyCreated (again : Bool)
  | getspecific (again : Bool)
  | malloc (again : Bool)
  | setspecific (again : Bool) (a : A)
  | snprintf (again : Bool) (a : A)
  | printScratch (a : A)
  | strcat (a : A)
  | printNow (a : A)
  /-- The destructors of the values that are not null. -/
  | exit
  | printDtor (a : A)
  | free (a : A)
  | done
  /-- `main` -/
  | join
  | keyDelete
  | returned
  deriving DecidableEq

variable {T A : Type} [DecidableEq T] [DecidableEq A]

/-- `pthread_getspecific(key)`, in `t`. -/
def Data.getspecific (d : Data T A) (t : T) : Option (Option A) := (d.key.bind d.keys).map fun f => f t

def Data.setspecific (d : Data T A) (t : T) (v : Option A) : Option (Data T A) :=
  d.key.bind fun k => (d.keys k).map fun f =>
    { d with keys := Function.update d.keys k (some (Function.update f t v)) }

/-- The string at `a`. -/
def Data.text (d : Data T A) (a : A) : Option (List Char) := (d.heap a).join

def Data.write (d : Data T A) (a : A) (text : List Char) : Data T A :=
  { d with heap := Function.update d.heap a (some (some text)) }

def Data.print (d : Data T A) (t : T) (x : Line A) : Data T A := { d with out := d.out ++ [(t, x)] }

/-- The size of a buffer. -/
def size : ℕ := 64

/-- What `scratch` writes to a new buffer. -/
def name (tid : ℕ) : List Char := "thread ".toList ++ Nat.toDigits 10 tid ++ "'s buffer".toList

def touched : List Char := " (touched)".toList

/-- Where `scratch` returns `a` to. -/
def back (again : Bool) (a : A) : Pc A := if again then .strcat a else .printScratch a

def worker (tid : T → ℕ) (t : T) : Pc A → Once.Cmd (Data T A) (Pc A) A
  | .once again => .callOnce (.keyCreate again) (.getspecific again)
  | .keyCreate again => .step fun _ d => some ({ d with
      key := some d.created
      created := d.created + 1
      keys := Function.update d.keys d.created (some fun _ => none) }, .keyCreated again)
  | .keyCreated again => .finish (.getspecific again)
  | .getspecific again => .step fun _ d => (d.getspecific t).map fun
    | none => (d, .malloc again)
    | some a => (d, back again a)
  | .malloc again => .step fun a d =>
    if d.heap a = none then some ({ d with heap := Function.update d.heap a (some none) }, .setspecific again a) else none
  | .setspecific again a => .step fun _ d => (d.setspecific t (some a)).map fun d => (d, .snprintf again a)
  | .snprintf again a => .step fun _ d =>
    (d.heap a).map fun _ => (d.write a ((name (tid t)).take (size - 1)), back again a)
  | .printScratch a => .step fun _ d => (d.text a).map fun x => (d.print t (.scratch x), .once true)
  | .strcat a => .step fun _ d => (d.text a).bind fun x =>
    if x.length + touched.length < size then some (d.write a (x ++ touched), .printNow a) else none
  | .printNow a => .step fun _ d => (d.text a).map fun x => (d.print t (.now x), .exit)
  | .exit => .step fun _ d => match d.getspecific t with
    | some (some a) => (d.setspecific t none).map fun d => (d, .printDtor a)
    | _ => some ({ d with exited := Function.update d.exited t true }, .done)
  | .printDtor a => .step fun _ d => some (d.print t (.dtor a), .free a)
  | .free a => .step fun _ d => (d.heap a).map fun _ => ({ d with heap := Function.update d.heap a none }, .exit)
  | _ => .halt

def main [Fintype T] : Pc A → Once.Cmd (Data T A) (Pc A) A
  | .join => .step fun _ d => if ∀ t, d.exited t = true then some (d, .keyDelete) else none
  | .keyDelete => .step fun _ d =>
    d.key.bind fun k => (d.keys k).map fun _ => ({ d with keys := Function.update d.keys k none }, .returned)
  | _ => .halt

/-- `none` is `main`. -/
def tls [Fintype T] (tid : T → ℕ) : Once.Program (Option T) (Data T A) (Pc A) A where
  code
    | some t => worker tid t
    | none => main
  entry
    | some _ => .once false
    | none => .join
  init := {
    key := none
    created := 0
    keys := fun _ => none
    heap := fun _ => none
    exited := fun _ => false
    out := [] }

/-! ## What a worker does -/

/-- The steps of `worker`. -/
inductive Move (tid : T → ℕ) (t : T) (d : Data T A) : Pc A → Data T A → Pc A → Prop
  | keyCreate {again : Bool} : Move tid t d (.keyCreate again) { d with
      key := some d.created
      created := d.created + 1
      keys := Function.update d.keys d.created (some fun _ => none) } (.keyCreated again)
  | null {again : Bool} : d.getspecific t = some none → Move tid t d (.getspecific again) d (.malloc again)
  | got {again : Bool} {a : A} : d.getspecific t = some (some a) → Move tid t d (.getspecific again) d (back again a)
  | malloc {again : Bool} {a : A} : d.heap a = none →
    Move tid t d (.malloc again) { d with heap := Function.update d.heap a (some none) } (.setspecific again a)
  | setspecific {again : Bool} {a : A} {d' : Data T A} : d.setspecific t (some a) = some d' →
    Move tid t d (.setspecific again a) d' (.snprintf again a)
  | snprintf {again : Bool} {a : A} : d.heap a ≠ none →
    Move tid t d (.snprintf again a) (d.write a ((name (tid t)).take (size - 1))) (back again a)
  | printScratch {a : A} {x : List Char} : d.text a = some x →
    Move tid t d (.printScratch a) (d.print t (.scratch x)) (.once true)
  | strcat {a : A} {x : List Char} : d.text a = some x → x.length + touched.length < size →
    Move tid t d (.strcat a) (d.write a (x ++ touched)) (.printNow a)
  | printNow {a : A} {x : List Char} : d.text a = some x → Move tid t d (.printNow a) (d.print t (.now x)) .exit
  | destroy {a : A} {d' : Data T A} : d.getspecific t = some (some a) → d.setspecific t none = some d' →
    Move tid t d .exit d' (.printDtor a)
  | exit : (∀ a, d.getspecific t ≠ some (some a)) →
    Move tid t d .exit { d with exited := Function.update d.exited t true } .done
  | printDtor {a : A} : Move tid t d (.printDtor a) (d.print t (.dtor a)) (.free a)
  | free {a : A} : d.heap a ≠ none → Move tid t d (.free a) { d with heap := Function.update d.heap a none } .exit

theorem move_of_step {tid : T → ℕ} {t : T} {d d' : Data T A} {l k : Pc A} {c : A}
    {f : A → Data T A → Option (Data T A × Pc A)} (hl : worker tid t l = .step f) (h : f c d = some (d', k)) :
    Move tid t d l d' k := by
  cases l <;> cases hl
  case keyCreate => cases h; exact .keyCreate
  case getspecific =>
    obtain ⟨v, hv, h⟩ := Option.map_eq_some_iff.mp h
    cases v <;> cases h
    · exact .null hv
    · exact .got hv
  case malloc =>
    dsimp only at h
    split at h <;> cases h
    exact .malloc ‹_›
  case setspecific =>
    obtain ⟨v, hv, h⟩ := Option.map_eq_some_iff.mp h
    cases h
    exact .setspecific hv
  case snprintf =>
    obtain ⟨v, hv, h⟩ := Option.map_eq_some_iff.mp h
    cases h
    exact .snprintf (by rw [hv]; exact nofun)
  case printScratch =>
    obtain ⟨v, hv, h⟩ := Option.map_eq_some_iff.mp h
    cases h
    exact .printScratch hv
  case strcat =>
    obtain ⟨v, hv, h⟩ := Option.bind_eq_some_iff.mp h
    split at h <;> cases h
    exact .strcat hv ‹_›
  case printNow =>
    obtain ⟨v, hv, h⟩ := Option.map_eq_some_iff.mp h
    cases h
    exact .printNow hv
  case exit =>
    dsimp only at h
    split at h
    · obtain ⟨v, hv, h⟩ := Option.map_eq_some_iff.mp h
      cases h
      exact .destroy ‹_› hv
    · cases h
      exact .exit ‹_›
  case printDtor => cases h; exact .printDtor
  case free =>
    obtain ⟨v, hv, h⟩ := Option.map_eq_some_iff.mp h
    cases h
    exact .free (by rw [hv]; exact nofun)

/-- Where a thread stands with the routine `make_key`. -/
def phase : Option T → Pc A → Once.Phase
  | none, _ | some _, .once false => .before
  | some _, .keyCreate _ | some _, .keyCreated _ => .inside
  | some _, _ => .after

omit [DecidableEq T] [DecidableEq A] in
theorem phase_back (t : T) (again : Bool) (a : A) : phase (some t) (back again a) = .after := by cases again <;> rfl

theorem discipline [Fintype T] (tid : T → ℕ) : Once.Discipline (tls (A := A) tid) phase where
  entry t := by cases t <;> rfl
  code t l := by
    cases t with
    | some t =>
      change (worker tid t l).Keeps (phase (some t)) l
      cases hl : worker tid t l with
      | step f =>
        intro c d d' k h
        cases move_of_step hl h with
        | got | snprintf => exact phase_back t _ _
        | _ => rfl
      | callOnce r k' =>
        cases l <;> cases hl
        rename_i again
        exact ⟨by cases again <;> exact nofun, rfl, rfl⟩
      | finish k' =>
        cases l <;> cases hl
        exact ⟨rfl, rfl⟩
      | halt => cases l <;> cases hl <;> exact nofun
    | none =>
      change (main l).Keeps (phase none) l
      cases l with
      | join | keyDelete => exact fun _ _ _ _ _ => rfl
      | _ => exact nofun

end TKH.ThreadSpecific
