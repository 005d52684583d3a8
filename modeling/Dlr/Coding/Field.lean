import Dlr.Coding.Gf256
import Mathlib.Algebra.Field.Basic
import Mathlib.LinearAlgebra.Pi

/-!
# The byte tables form a field

Multiplying by the generator is linear over the bitwise sum, and every product is a
multiplication by a power of the generator. So products distribute over sums, and the bytes
with the program's tables are a field.

A row of bytes is read as a vector over all positions, with zeros behind its end. In that
reading `axpy` and `scalInplace` are the operations of a vector space.
-/

namespace Dlr.Coding

/-! ## Products are iterated doublings -/

theorem nextPower_xor (a b : Nat) : nextPower (a ^^^ b) = nextPower a ^^^ nextPower b := by
  have hbit : ∀ g : Nat, (if g &&& 0x80 ≠ 0 then 0x11B else 0) =
      if g.testBit 7 then 0x11B else 0 := by
    intro g
    rw [show (0x80 : Nat) = 2 ^ 7 from rfl, Nat.and_two_pow]
    cases g.testBit 7 <;> simp
  have hcarry : (if (a ^^^ b).testBit 7 then 0x11B else 0) =
      (if a.testBit 7 then 0x11B else 0) ^^^ (if b.testBit 7 then 0x11B else 0) := by
    rw [Nat.testBit_xor]
    cases a.testBit 7 <;> cases b.testBit 7 <;> rfl
  simp only [nextPower, hbit, hcarry]
  simp only [Nat.shiftLeft_xor_distrib, Nat.and_xor_distrib_right]
  ac_rfl

theorem iterate_nextPower_xor (i a b : Nat) :
    nextPower^[i] (a ^^^ b) = nextPower^[i] a ^^^ nextPower^[i] b := by
  induction i generalizing a b with
  | zero => rfl
  | succ i ih => rw [Function.iterate_succ_apply, nextPower_xor, ih]; rfl

theorem iterate_nextPower_zero (i : Nat) : nextPower^[i] 0 = 0 := by
  induction i with
  | zero => rfl
  | succ i ih => rw [Function.iterate_succ_apply]; exact ih

theorem powers_getD (n g i : Nat) (h : i < n) : (powers n g).getD i 0 = nextPower^[i] g := by
  induction n generalizing g i with
  | zero => omega
  | succ n ih =>
      cases i with
      | zero => rfl
      | succ i => exact ih (nextPower g) i (by omega)

/-- The walk from 1 comes back after 255 steps. -/
theorem iterate_nextPower_one (i : Nat) : nextPower^[i] 1 = nextPower^[i % 255] 1 := by
  have hperiod : nextPower^[255] 1 = 1 := by decide +kernel
  conv_lhs => rw [← Nat.mod_add_div i 255, Function.iterate_add_apply]
  congr 1
  induction i / 255 with
  | zero => rfl
  | succ n ih => rw [Nat.mul_succ, Function.iterate_add_apply, hperiod, ih]

theorem toNat_gfExp_eq {i : Nat} (h : i < 510) : (gfExp i).toNat = nextPower^[i] 1 := by
  rw [toNat_gfExp h, powers_getD _ _ _ (Nat.mod_lt i (by norm_num)), ← iterate_nextPower_one]

/-- A product with a power of the generator is an iterated multiplication by it. -/
theorem toNat_gfMul {a : UInt8} (ha : a ≠ 0) (x : UInt8) :
    (gfMul a x).toNat = nextPower^[gfLog a] x.toNat := by
  by_cases hx : x = 0
  · rw [hx, gfMul_zero]
    exact (iterate_nextPower_zero _).symm
  · have hal := gfLog_lt ha
    have hxl := gfLog_lt hx
    rw [gfMul_eq_gfExp ha hx, toNat_gfExp_eq (by omega), Function.iterate_add_apply,
      ← toNat_gfExp_eq (by omega : gfLog x < 510), gfExp_gfLog hx]

/-- Products distribute over the bitwise sum. -/
theorem gfMul_xor (a x y : UInt8) : gfMul a (x ^^^ y) = gfMul a x ^^^ gfMul a y := by
  by_cases ha : a = 0
  · rw [ha, zero_gfMul, zero_gfMul, zero_gfMul]
    rfl
  · apply UInt8.toNat_inj.mp
    rw [toNat_gfMul ha, UInt8.toNat_xor, UInt8.toNat_xor, iterate_nextPower_xor, toNat_gfMul ha,
      toNat_gfMul ha]

theorem gfMul_comm (a b : UInt8) : gfMul a b = gfMul b a := by
  simp only [gfMul, or_comm, Nat.add_comm]

theorem gfMul_assoc (a b c : UInt8) : gfMul (gfMul a b) c = gfMul a (gfMul b c) := by
  by_cases ha : a = 0
  · simp [ha]
  by_cases hb : b = 0
  · simp [hb]
  by_cases hc : c = 0
  · simp [hc]
  have hal := gfLog_lt ha
  have hbl := gfLog_lt hb
  have hcl := gfLog_lt hc
  have hsum : ((gfLog a + gfLog b) % 255 + gfLog c) % 255 =
      (gfLog a + (gfLog b + gfLog c) % 255) % 255 := by omega
  rw [gfMul_eq_gfExp ha hb, gfMul_eq_gfExp hb hc, gfMul_eq_gfExp (gfExp_ne_zero (by omega)) hc,
    gfMul_eq_gfExp ha (gfExp_ne_zero (by omega)), gfLog_gfExp (by omega), gfLog_gfExp (by omega),
    gfExp_mod (by omega), hsum, ← gfExp_mod (by omega)]

theorem gfMul_gfInv {c : UInt8} (hc : c ≠ 0) : gfMul c (gfInv c) = 1 := by
  have hone := gfInv_gfMul hc 1
  rwa [gfMul_comm c 1, one_gfMul, gfMul_comm] at hone

/-! ## The field -/

/-- A byte with the arithmetic of the program's tables. -/
@[ext] structure Gf256 where
  byte : UInt8
  deriving DecidableEq

namespace Gf256

instance : Zero Gf256 := ⟨⟨0⟩⟩
instance : One Gf256 := ⟨⟨1⟩⟩
instance : Add Gf256 := ⟨fun a b => ⟨a.byte ^^^ b.byte⟩⟩
instance : Neg Gf256 := ⟨fun a => a⟩
instance : Mul Gf256 := ⟨fun a b => ⟨gfMul a.byte b.byte⟩⟩

@[simp] theorem byte_zero : (0 : Gf256).byte = 0 := rfl
@[simp] theorem byte_one : (1 : Gf256).byte = 1 := rfl
@[simp] theorem byte_add (a b : Gf256) : (a + b).byte = a.byte ^^^ b.byte := rfl
@[simp] theorem byte_mul (a b : Gf256) : (a * b).byte = gfMul a.byte b.byte := rfl

theorem byte_ne_zero {a : Gf256} (h : a ≠ 0) : a.byte ≠ 0 :=
  fun hzero => h (Gf256.ext hzero)

instance : CommRing Gf256 where
  nsmul := nsmulRec
  zsmul := zsmulRec
  add_assoc a b c := Gf256.ext (UInt8.xor_assoc _ _ _)
  zero_add a := Gf256.ext UInt8.zero_xor
  add_zero a := Gf256.ext UInt8.xor_zero
  add_comm a b := Gf256.ext (UInt8.xor_comm _ _)
  neg_add_cancel a := Gf256.ext UInt8.xor_self
  mul_assoc a b c := Gf256.ext (gfMul_assoc _ _ _)
  one_mul a := Gf256.ext (one_gfMul _)
  mul_one a := Gf256.ext ((gfMul_comm _ 1).trans (one_gfMul _))
  left_distrib a b c := Gf256.ext (gfMul_xor _ _ _)
  right_distrib a b c := Gf256.ext (by
    simp only [byte_mul, byte_add]
    rw [gfMul_comm, gfMul_xor, gfMul_comm c.byte, gfMul_comm c.byte])
  zero_mul a := Gf256.ext (zero_gfMul a.byte)
  mul_zero a := Gf256.ext (gfMul_zero a.byte)
  mul_comm a b := Gf256.ext (gfMul_comm _ _)

instance : Field Gf256 where
  inv a := ⟨gfInv a.byte⟩
  exists_pair_ne := ⟨0, 1, by decide⟩
  mul_inv_cancel a ha := Gf256.ext (gfMul_gfInv (byte_ne_zero ha))
  inv_zero := rfl
  nnqsmul := _
  nnqsmul_def := fun _ _ => rfl
  qsmul := _
  qsmul_def := fun _ _ => rfl

@[simp] theorem byte_inv (a : Gf256) : a⁻¹.byte = gfInv a.byte := rfl

theorem add_self (a : Gf256) : a + a = 0 := Gf256.ext UInt8.xor_self

end Gf256

/-! ## Rows as vectors -/

/-- A row of bytes as a vector, with zeros behind its end. -/
def vec (row : List UInt8) : Nat → Gf256 := fun p => ⟨row.getD p 0⟩

theorem vec_apply (row : List UInt8) (p : Nat) : vec row p = ⟨row.getD p 0⟩ := rfl

/-- `axpy` adds a multiple of a row that is not longer. -/
theorem vec_axpy {dst src : List UInt8} (a : UInt8) (h : src.length ≤ dst.length) :
    vec (axpy dst a src) = vec dst + (⟨a⟩ : Gf256) • vec src := by
  funext p
  exact Gf256.ext (getD_axpy dst a src p h)

theorem vec_scalInplace (row : List UInt8) (a : UInt8) :
    vec (scalInplace row a) = (⟨a⟩ : Gf256) • vec row := by
  funext p
  exact Gf256.ext (getD_scalInplace row a p)

/-- Rows of one length are equal when their vectors are. -/
theorem eq_of_vec_eq {row row' : List UInt8} (hlen : row.length = row'.length)
    (h : vec row = vec row') : row = row' := by
  apply List.ext_getElem hlen
  intro p hp hp'
  have hbyte := congrArg Gf256.byte (congrFun h p)
  simpa [vec, hp, hp'] using hbyte

end Dlr.Coding
