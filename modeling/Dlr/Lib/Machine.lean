import Mathlib.Algebra.Group.Nat.Defs
import Mathlib.Data.Nat.Basic

/-!
# Pointer-sized arithmetic

Lengths and offsets are 64-bit unsigned values. The checked operations report
an overflow instead of wrapping, and the saturating ones stop at the largest
representable value.
-/

namespace Dlr.Lib.Machine

/-- The largest pointer-sized value. -/
def usizeMax : Nat := 2 ^ 64 - 1

def checkedAdd (a b : Nat) : Option Nat :=
  if a + b ≤ usizeMax then some (a + b) else none

def checkedMul (a b : Nat) : Option Nat :=
  if a * b ≤ usizeMax then some (a * b) else none

def checkedSub (a b : Nat) : Option Nat := if b ≤ a then some (a - b) else none

def saturatingAdd (a b : Nat) : Nat := min (a + b) usizeMax

/-- Division rounded up. -/
def divCeil (a b : Nat) : Nat := if a % b = 0 then a / b else a / b + 1

theorem checkedAdd_eq_some_iff {a b c : Nat} :
    checkedAdd a b = some c ↔ c = a + b ∧ a + b ≤ usizeMax := by
  unfold checkedAdd
  split
  · rename_i h
    simp [h, eq_comm]
  · rename_i h
    simp [h]

theorem checkedAdd_eq_some {a b c : Nat} (h : checkedAdd a b = some c) : c = a + b :=
  (checkedAdd_eq_some_iff.mp h).1

theorem checkedAdd_of_le {a b : Nat} (h : a + b ≤ usizeMax) :
    checkedAdd a b = some (a + b) := by
  simp [checkedAdd, h]

theorem checkedAdd_eq_none {a b : Nat} (h : usizeMax < a + b) : checkedAdd a b = none := by
  simp [checkedAdd, Nat.not_le.mpr h]

theorem checkedSub_of_le {a b : Nat} (h : b ≤ a) : checkedSub a b = some (a - b) := by
  simp [checkedSub, h]

theorem checkedMul_of_le {a b : Nat} (h : a * b ≤ usizeMax) :
    checkedMul a b = some (a * b) := by
  simp [checkedMul, h]

theorem checkedMul_eq_some {a b c : Nat} (h : checkedMul a b = some c) : c = a * b := by
  unfold checkedMul at h
  split at h
  · exact (Option.some.inj h).symm
  · cases h

theorem le_divCeil_mul (a : Nat) {b : Nat} (hb : 0 < b) : a ≤ divCeil a b * b := by
  have hdiv := Nat.div_add_mod a b
  have hmod := Nat.mod_lt a hb
  unfold divCeil
  split
  · rw [Nat.mul_comm]
    omega
  · rw [Nat.add_mul, Nat.mul_comm]
    omega

theorem divCeil_le {a b c : Nat} (h : a ≤ c * b) : divCeil a b ≤ c := by
  have hdiv : a / b ≤ c := Nat.div_le_of_le_mul (by rwa [Nat.mul_comm])
  unfold divCeil
  split
  · exact hdiv
  · rename_i hmod
    rcases Nat.lt_or_eq_of_le hdiv with hlt | heq
    · exact hlt
    · have hback := Nat.div_add_mod a b
      rw [heq, Nat.mul_comm] at hback
      omega

/-- How a function that checks its input can still fail: with its own error, or
by indexing outside a buffer. -/
inductive Fault (ε : Type*)
  | error (e : ε)
  | panic
  deriving DecidableEq, Repr

end Dlr.Lib.Machine
