import ThreadingKnowHows.Framework.Mutexes

/-!
# Transfers between accounts

`transfer` of `02_cpp11_threads/02_mutex/04_scoped_lock.cpp`, called by any
threads for any lists of transfers. Each `-=` and `+=` on a balance is a read
and a write; a balance is an integer.
-/

namespace TKH.ScopedLock

/-- The arguments of a call of `transfer`. -/
structure Transfer (A : Type) where
  from_ : A
  to_ : A
  amount : ℤ
  distinct : from_ ≠ to_
  deriving DecidableEq

variable {A : Type}

/-- Where a thread is in a transfer, and the transfers that come after it. -/
inductive Pc (A : Type)
  /-- In the constructor or the destructor of the `scoped_lock`. -/
  | lock (x : Transfer A) (rest : List (Transfer A)) (p : Mutexes.Scoped)
  | readFrom (x : Transfer A) (rest : List (Transfer A))
  | writeFrom (x : Transfer A) (rest : List (Transfer A)) (v : ℤ)
  | readTo (x : Transfer A) (rest : List (Transfer A))
  | writeTo (x : Transfer A) (rest : List (Transfer A)) (v : ℤ)
  | done
  deriving DecidableEq

/-- The next transfer. -/
def loop : List (Transfer A) → Pc A
  | [] => .done
  | x :: rest => .lock x rest .begin

variable [DecidableEq A]

def transfer : Pc A → Mutexes.Cmd A (A → ℤ) (Pc A)
  | .lock x rest p => Mutexes.scopedLock x.from_ x.to_ (.lock x rest) (.readFrom x rest) (loop rest) p
  | .readFrom x rest => .act fun b => (b, .writeFrom x rest (b x.from_))
  | .writeFrom x rest v => .act fun b => (Function.update b x.from_ (v - x.amount), .readTo x rest)
  | .readTo x rest => .act fun b => (b, .writeTo x rest (b x.to_))
  | .writeTo x rest v => .act fun b => (Function.update b x.to_ (v + x.amount), .lock x rest .leave)
  | .done => .halt

/-- The threads of `τ`, from the balances `initial`. -/
def bank {τ : Type} (initial : A → ℤ) (transfers : τ → List (Transfer A)) :
    Mutexes.Program τ A (A → ℤ) (Pc A) where
  code _ := transfer
  entry t := loop (transfers t)
  init := initial

/-! ## The mutexes -/

omit [DecidableEq A] in
/-- What a thread holds. -/
def Holds : Pc A → A → Prop
  | .lock x _ p, a => p.Holds x.from_ x.to_ a
  | .readFrom x _, a | .writeFrom x _ _, a | .readTo x _, a | .writeTo x _ _, a => a = x.from_ ∨ a = x.to_
  | .done, _ => False

omit [DecidableEq A] in
theorem not_holds_loop (xs : List (Transfer A)) (a : A) : ¬ Holds (loop xs) a := by
  cases xs <;> exact id

/-- What a thread knows of the balance it has read. -/
def Knows : Pc A → (A → ℤ) → Prop
  | .writeFrom x _ v, b => v = b x.from_
  | .writeTo x _ v, b => v = b x.to_
  | _, _ => True

omit [DecidableEq A] in
theorem knows_loop (xs : List (Transfer A)) (b : A → ℤ) : Knows (loop xs) b := by
  cases xs <;> trivial

variable {τ : Type} {initial : A → ℤ} {transfers : τ → List (Transfer A)}

/-- A thread blocks only when it holds nothing, so that no order of the accounts
is needed. -/
theorem bank_discipline : Mutexes.Discipline (bank initial transfers) (fun _ => Holds) (fun _ => 0) where
  entry t := not_holds_loop (transfers t)
  code t l := by
    cases l with
    | lock x rest p =>
      refine Mutexes.scopedLock_keeps x.distinct ?_ ?_ (not_holds_loop rest) _ p
      · exact fun _ _ => Iff.rfl
      · exact fun _ => Iff.rfl
    | readFrom | writeFrom | readTo | writeTo => exact fun b a => Iff.rfl
    | done => exact fun a => id

/-- A balance that one writes is none that another one, who holds its mutex, has
read. -/
theorem knows_update {l : Pc A} {a : A} (h : ¬ Holds l a) {b : A → ℤ} (hk : Knows l b) (v : ℤ) :
    Knows l (Function.update b a v) := by
  cases l with
  | writeFrom x rest v' => exact hk.trans (Function.update_of_ne (fun he => h (.inl he.symm)) _ _).symm
  | writeTo x rest v' => exact hk.trans (Function.update_of_ne (fun he => h (.inr he.symm)) _ _).symm
  | lock | readFrom | readTo | done => trivial

theorem bank_annotation :
    Mutexes.Annotation (bank initial transfers) (fun _ => Holds) (fun _ => 0) fun _ => Knows where
  toDiscipline := bank_discipline
  entries t := knows_loop (transfers t) initial
  asserts t l := by
    cases l with
    | lock x rest p =>
      refine Mutexes.scopedLock_asserts (X := fun _ => True) (Y := fun _ => True) (fun p b => ?_) (fun _ => id)
        (fun b _ => knows_loop rest b) p
      split <;> exact Iff.rfl
    | readFrom | readTo => exact fun b _ => rfl
    | writeFrom | writeTo => exact fun b _ => trivial
    | done => trivial
  stable {t u l k f b} hc _ hdisjoint _ hk := by
    cases l with
    | lock x rest p => cases p <;> cases hc
    | readFrom | readTo => cases hc; exact hk
    | writeFrom x rest v => cases hc; exact knows_update (hdisjoint x.from_ (.inl rfl)) hk _
    | writeTo x rest v => cases hc; exact knows_update (hdisjoint x.to_ (.inr rfl)) hk _
    | done => cases hc

end TKH.ScopedLock
