import Dlr.Lib.Machine
import Mathlib.Data.List.Basic
import Mathlib.Data.Nat.Bitwise

/-!
# Bits in a byte buffer

The bits of a buffer, lowest first within each byte, as one list. Setting a bit of the buffer sets
it in the list, and writing bits into a part that is still zero appends them.
-/

namespace Dlr.Lib.BitBuffer

open Machine

def byteBits (b : UInt8) : List Bool := (List.range 8).map b.toNat.testBit

def bitsOf (buf : List UInt8) : List Bool := buf.flatMap byteBits

/-- Set the bit at an index. -/
def setBit (buf : List UInt8) (i : Nat) : List UInt8 :=
  buf.modify (i >>> 3) fun b => b ||| 1 <<< UInt8.ofNat (i &&& 7)

/-- Set the ones among some bits, the first of which belongs at an index. -/
def writeBits (buf : List UInt8) (i : Nat) : List Bool → List UInt8
  | [] => buf
  | b :: rest => writeBits (if b then setBit buf i else buf) (i + 1) rest

/-- The bytes of some bits, filled up with zeros. -/
def pack (bits : List Bool) : List UInt8 :=
  writeBits (List.replicate (divCeil bits.length 8) 0) 0 bits

@[simp] theorem length_byteBits (b : UInt8) : (byteBits b).length = 8 := by
  rw [byteBits, List.length_map, List.length_range]

theorem bitsOf_cons (b : UInt8) (rest : List UInt8) :
    bitsOf (b :: rest) = byteBits b ++ bitsOf rest := List.flatMap_cons

theorem bitsOf_append (l l' : List UInt8) : bitsOf (l ++ l') = bitsOf l ++ bitsOf l' :=
  List.flatMap_append

@[simp] theorem length_bitsOf (buf : List UInt8) : (bitsOf buf).length = 8 * buf.length := by
  induction buf with
  | nil => rfl
  | cons b rest ih =>
      rw [bitsOf_cons, List.length_append, ih, length_byteBits, List.length_cons]
      omega

theorem bitsOf_replicate (n : Nat) :
    bitsOf (List.replicate n 0) = List.replicate (8 * n) false := by
  induction n with
  | zero => rfl
  | succ n ih =>
      have hzero : byteBits 0 = List.replicate 8 false := by decide
      rw [List.replicate_succ, bitsOf_cons, ih, hzero, List.replicate_append_replicate,
        Nat.add_comm 8, Nat.mul_succ]

theorem getElem?_bitsOf (buf : List UInt8) (i : Nat) :
    (bitsOf buf)[i]? = buf[i / 8]?.map fun b => b.toNat.testBit (i % 8) := by
  induction buf generalizing i with
  | nil => rfl
  | cons b rest ih =>
      rw [bitsOf_cons]
      by_cases hi : i < 8
      · rw [List.getElem?_append_left (by simpa using hi), Nat.div_eq_of_lt hi,
          Nat.mod_eq_of_lt hi, byteBits, List.getElem?_map, List.getElem?_range hi]
        rfl
      · have hdiv : i / 8 = (i - 8) / 8 + 1 := by omega
        have hmod : (i - 8) % 8 = i % 8 := by omega
        rw [List.getElem?_append_right (by simpa using hi), length_byteBits, ih, hdiv,
          List.getElem?_cons_succ, hmod]

theorem testBit_or_shift (b : UInt8) {r : Nat} (hr : r < 8) (k : Nat) :
    (b ||| 1 <<< UInt8.ofNat r).toNat.testBit k = (b.toNat.testBit k || decide (r = k)) := by
  have hpow : 2 ^ r < 2 ^ 8 := Nat.pow_lt_pow_right (by decide) hr
  have hshift : (1 <<< UInt8.ofNat r : UInt8).toNat = 2 ^ r := by
    have hr' : (UInt8.ofNat r).toNat % 8 = r := by
      rw [UInt8.toNat_ofNat']
      omega
    rw [UInt8.toNat_shiftLeft, hr']
    simpa [Nat.shiftLeft_eq] using hpow
  rw [UInt8.toNat_or, hshift, Nat.testBit_or, Nat.testBit_two_pow]

/-- Setting a bit of the buffer sets it among its bits. -/
theorem bitsOf_setBit (buf : List UInt8) (i : Nat) :
    bitsOf (setBit buf i) = (bitsOf buf).set i true := by
  apply List.ext_getElem?
  intro k
  have hshift : i >>> 3 = i / 8 := Nat.shiftRight_eq_div_pow i 3
  have hand : i &&& 7 = i % 8 := Nat.and_two_pow_sub_one_eq_mod i 3
  rw [getElem?_bitsOf, setBit, List.getElem?_modify, List.getElem?_set, hshift, hand,
    getElem?_bitsOf, length_bitsOf]
  by_cases hbyte : i / 8 = k / 8
  · simp only [hbyte, if_true]
    cases hb : buf[k / 8]? with
    | none =>
        have hlen := List.getElem?_eq_none_iff.mp hb
        have hk : ¬ i < 8 * buf.length := by omega
        simp [hk]
    | some b =>
        have hlen := (List.getElem?_eq_some_iff.mp hb).1
        have hi : i < 8 * buf.length := by omega
        simp only [Option.map_eq_map, Option.map_some,
          testBit_or_shift b (Nat.mod_lt i (by decide))]
        by_cases hik : i = k
        · simp [hik ▸ hi, hik]
        · have hmod : i % 8 ≠ k % 8 := by omega
          simp [hik, hmod]
  · have hik : i ≠ k := by
      rintro rfl
      exact hbyte rfl
    simp [hbyte, hik]

/-- Bits that are written into zeros come after the bits before. -/
theorem bitsOf_writeBits {buf : List UInt8} {pre bits rest : List Bool}
    (h : bitsOf buf = pre ++ List.replicate bits.length false ++ rest) :
    bitsOf (writeBits buf pre.length bits) = pre ++ bits ++ rest := by
  induction bits generalizing buf pre with
  | nil => simpa [writeBits] using h
  | cons b tail ih =>
      have hnext : bitsOf (if b then setBit buf pre.length else buf) =
          (pre ++ [b]) ++ List.replicate tail.length false ++ rest := by
        cases b with
        | false => simpa [List.replicate_succ] using h
        | true =>
            rw [if_pos rfl, bitsOf_setBit, h]
            simp [List.replicate_succ]
      have hstep := ih hnext
      rw [List.length_append, List.length_singleton] at hstep
      rw [writeBits, hstep, List.append_assoc pre, List.singleton_append]

theorem bitsOf_pack (bits : List Bool) :
    ∃ k, bitsOf (pack bits) = bits ++ List.replicate k false := by
  have hle := le_divCeil_mul bits.length (b := 8) (by decide)
  refine ⟨8 * divCeil bits.length 8 - bits.length, ?_⟩
  have hzero : bitsOf (List.replicate (divCeil bits.length 8) 0) =
      [] ++ List.replicate bits.length false ++
        List.replicate (8 * divCeil bits.length 8 - bits.length) false := by
    rw [bitsOf_replicate, List.nil_append, List.replicate_append_replicate]
    congr 1
    omega
  exact bitsOf_writeBits hzero

/-- The number of zeros above the highest one. -/
def highZeros (bits : List Bool) : Nat := (bits.reverse.takeWhile fun b => !b).length

theorem highZeros_append_replicate (bits : List Bool) (k : Nat) :
    highZeros (bits ++ List.replicate k false) = k + highZeros bits := by
  have hall : ∀ b ∈ List.replicate k false, (!b) = true := by
    intro b hb
    rw [List.eq_of_mem_replicate hb]
    rfl
  rw [highZeros, List.reverse_append, List.reverse_replicate, List.takeWhile_append_of_pos hall,
    List.length_append, List.length_replicate, highZeros]

theorem highZeros_concat_true (bits : List Bool) : highZeros (bits ++ [true]) = 0 := by
  rw [highZeros, List.reverse_append]
  rfl

end Dlr.Lib.BitBuffer
