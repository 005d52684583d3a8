import Mathlib.Logic.Function.Iterate
import Mathlib.Tactic.Ring

/-!
# Linear congruential sequences

The map `x ↦ a * x + c` modulo a power of two goes through all residues when `a` is one more than
a multiple of four and `c` is odd. What is used of this: `2 ^ j` steps turn bit `j` over.
-/

namespace Dlr.Lib.Congruential

def affine (a c x : Nat) : Nat := a * x + c

variable {a c : Nat}

/-- A power of two many steps are one affine map again, with a factor that is 1 and a summand that
is `2 ^ j` up to higher powers. -/
theorem iterate_affine_two_pow (ha : a % 4 = 1) (hc : c % 2 = 1) (j : Nat) :
    ∃ t o, ∀ x, (affine a c)^[2 ^ j] x = (4 * 2 ^ j * t + 1) * x + 2 ^ j * (2 * o + 1) := by
  induction j with
  | zero =>
      refine ⟨a / 4, c / 2, ?_⟩
      intro x
      have hfactor : 4 * 2 ^ 0 * (a / 4) + 1 = a := by omega
      have hsummand : 2 ^ 0 * (2 * (c / 2) + 1) = c := by omega
      rw [hfactor, hsummand, pow_zero, Function.iterate_one, affine]
  | succ j ih =>
      obtain ⟨t, o, hhalf⟩ := ih
      refine ⟨t + 2 * 2 ^ j * (t * t), 2 * 2 ^ j * (t * o) + 2 ^ j * t + o, ?_⟩
      intro x
      rw [pow_succ, Nat.mul_two, Function.iterate_add_apply, hhalf, hhalf]
      ring

/-- Bit `j` is the other one after `2 ^ j` steps. -/
theorem iterate_affine_flips (ha : a % 4 = 1) (hc : c % 2 = 1) (j x : Nat) :
    (affine a c)^[2 ^ j] x / 2 ^ j % 2 ≠ x / 2 ^ j % 2 := by
  obtain ⟨t, o, hform⟩ := iterate_affine_two_pow ha hc j
  have hsum : (4 * 2 ^ j * t + 1) * x + 2 ^ j * (2 * o + 1) =
      x + 2 ^ j * (2 * (2 * t * x + o) + 1) := by ring
  rw [hform, hsum, Nat.add_mul_div_left _ _ (Nat.two_pow_pos j)]
  omega

end Dlr.Lib.Congruential
