import Mathlib.Algebra.Group.Int.Defs
import Mathlib.Algebra.Group.Nat.Defs
import Mathlib.Tactic.Common

namespace Wrapped

variable {m n : ℤ}

-- The 64-bit result of an exact one.
def wrap (n : ℤ) : ℤ := Int.bmod n (2 ^ 64)

-- How often n wraps, and how far above the smallest 64-bit number its result lies.
def window (n : ℤ) : ℤ := (n + 2 ^ 63) / 2 ^ 64

def place (n : ℤ) : ℤ := (n + 2 ^ 63) % 2 ^ 64

theorem wrap_eq (n : ℤ) : wrap n = place n - 2 ^ 63 := by
  rw [wrap,place,Int.bmod_def]
  split <;> omega

theorem wrap_of_lt (h0 : 0 ≤ n) (h : n < 2 ^ 63) : wrap n = n := by
  rw [wrap_eq,place]
  omega

theorem wrap_le (h0 : 0 ≤ n) : wrap n ≤ n := by
  rw [wrap_eq,place]
  omega

theorem wrap_neg (h0 : 2 ^ 63 ≤ n) (h : n < 2 ^ 64) : wrap n < 0 := by
  rw [wrap_eq,place]
  omega

theorem wrap_add (m n : ℤ) : wrap (wrap m + n) = wrap (m + n) := Int.bmod_add_bmod

theorem wrap_sub (m n : ℤ) : wrap (wrap m - n) = wrap (m - n) := Int.bmod_sub_bmod

-- The wrapped results stand in the order of the exact ones.
def InOrder (m n : ℤ) : Prop :=
  window m = window n ∨ (window m < window n ∧ place m < place n) ∨
    (window n < window m ∧ place n ≤ place m)

end Wrapped
