import Mathlib.Algebra.Ring.Int.Defs
import Mathlib.Order.Basic
import Mathlib.Order.Lattice
import Mathlib.Data.Int.Order.Basic

/-!
# The type `long`

A `Long` is an integer that a signed word of 64 bits can hold. Addition and
subtraction give nothing when they overflow, which the language leaves
undefined.
-/

namespace TKH

/-- `v` is in the range of `long`. -/
def FitsLong (v : ℤ) : Prop := -2 ^ 63 ≤ v ∧ v < 2 ^ 63

instance (v : ℤ) : Decidable (FitsLong v) := inferInstanceAs (Decidable (_ ∧ _))

structure Long where
  val : ℤ
  fits : FitsLong val
  deriving DecidableEq

namespace Long

/-- `LONG_MAX` and `LONG_MIN`. -/
def maxValue : Long := ⟨2 ^ 63 - 1, by decide⟩

def minValue : Long := ⟨-2 ^ 63, by decide⟩

instance : Zero Long := ⟨⟨0, by decide⟩⟩

def ofInt? (v : ℤ) : Option Long := if h : FitsLong v then some ⟨v, h⟩ else none

def add (a b : Long) : Option Long := ofInt? (a.val + b.val)

def sub (a b : Long) : Option Long := ofInt? (a.val - b.val)

theorem val_injective : Function.Injective val := fun ⟨_, _⟩ ⟨_, _⟩ h => by cases h; rfl

instance : LinearOrder Long := LinearOrder.lift' val val_injective

@[simp] theorem val_zero : (0 : Long).val = 0 := rfl

theorem le_iff {a b : Long} : a ≤ b ↔ a.val ≤ b.val := Iff.rfl

theorem ofInt?_eq_some {v : ℤ} {c : Long} : ofInt? v = some c ↔ c.val = v := by
  obtain ⟨c, hc⟩ := c
  simp only [ofInt?]
  split
  · simp [eq_comm]
  · rename_i h
    refine ⟨fun hn => (by cases hn), ?_⟩
    rintro rfl
    exact absurd hc h

theorem add_eq_some {a b c : Long} : a.add b = some c ↔ c.val = a.val + b.val := ofInt?_eq_some

theorem sub_eq_some {a b c : Long} : a.sub b = some c ↔ c.val = a.val - b.val := ofInt?_eq_some

/-- It gives a result exactly if there is one. -/
theorem exists_ofInt? {v : ℤ} : (∃ c, ofInt? v = some c) ↔ FitsLong v := by
  constructor
  · rintro ⟨c, hc⟩
    rw [← ofInt?_eq_some.mp hc]
    exact c.fits
  · exact fun h => ⟨⟨v, h⟩, ofInt?_eq_some.mpr rfl⟩

end Long

end TKH
