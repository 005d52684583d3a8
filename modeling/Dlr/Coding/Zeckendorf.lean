import Dlr.Lib.BitBuffer
import Dlr.Lib.FibonacciCode

/-!
# Zeckendorf varints

A positive number is written as its Fibonacci digits, lowest first, and a terminating one. A
stream packs the codewords of shifted numbers bit by bit, and the decoder looks for the next two
adjacent ones.

## Implementation notes

A failed assertion has no result. Numbers are 64-bit words: the decoder adds digits with
wrap-around. Subtracting the shift from a zero has no result, for a debug build panics there.
Bytes are changed at indices inside the buffer, so that the change of a byte cannot fail.
-/

namespace Dlr.Coding.Zeckendorf

open Lib Lib.BitBuffer Lib.FibonacciCode Lib.Machine

def u64Max : UInt64 := 0xFFFFFFFFFFFFFFFF

/-- Extend the table while its last number is at most half of the largest one. -/
def growTable : Nat → List UInt64 → List UInt64
  | 0, f => f
  | fuel + 1, f =>
      let n := f.length
      if f.getD (n - 1) 0 ≤ u64Max / 2 then
        growTable fuel (f ++ [f.getD (n - 1) 0 + f.getD (n - 2) 0])
      else f

@[irreducible] def fibTable : List UInt64 := growTable 128 [1, 2]

/-- The bit at an index, zero outside of the buffer. -/
def bitAt (buf : List UInt8) (i : Nat) : Nat :=
  if i >>> 3 ≥ buf.length then 0
  else ((buf.getD (i >>> 3) 0 >>> UInt8.ofNat (i &&& 7)) &&& 1).toNat

/-- Set the digits below an index, the highest first. -/
def encodeDigits : Nat → UInt64 → List UInt8 → List UInt8
  | 0, _, out => out
  | idx + 1, rem, out =>
      if fibTable.getD idx 0 ≤ rem then
        encodeDigits idx (rem - fibTable.getD idx 0) (setBit out idx)
      else encodeDigits idx rem out

/-- The number of table entries that are at most `n`. -/
def countUpTo (n : UInt64) : Nat := (fibTable.takeWhile fun f => f ≤ n).length

def zeckEncode (n : UInt64) : Option (List UInt8) :=
  if n = 0 then none
  else
    let hi := countUpTo n
    let nbits := hi + 1
    let out := List.replicate (divCeil nbits 8) 0
    some (setBit (encodeDigits hi n out) hi)

/-- The index of the second of the first two adjacent ones from an index on. -/
def findTerm (bits : List UInt8) (i : Nat) : Option Nat :=
  if i >>> 3 ≥ bits.length then none
  else if bitAt bits i = 1 ∧ bitAt bits (i + 1) = 1 then some (i + 1)
  else findTerm bits (i + 1)
termination_by 8 * bits.length - i
decreasing_by
  rw [Nat.shiftRight_eq_div_pow] at *
  omega

/-- The wrapping sum of the table entries of the ones in a range of bits. -/
def digitSum (bits : List UInt8) (start term : Nat) : UInt64 :=
  (List.range' start (term - start)).foldl (fun val j =>
    if bitAt bits j ≠ 0 then
      let fibIdx := j - start
      if fibIdx < fibTable.length then val + fibTable.getD fibIdx 0 else val
    else val) 0

def decodeAt (bits : List UInt8) (start : Nat) : Option (UInt64 × Nat) :=
  match findTerm bits start with
  | none => none
  | some term =>
      let nData := term - start
      if nData = 0 then some (0, term + 1 - start)
      else some (digitSum bits start term, term + 1 - start)

def zeckDecode (bits : List UInt8) : Option (UInt64 × Nat) := decodeAt bits 0

theorem findTerm_lt {bits : List UInt8} {i term : Nat} (h : findTerm bits i = some term) :
    i < 8 * bits.length ∧ i < term := by
  fun_induction findTerm bits i with
  | case1 => cases h
  | case2 i hin hpair =>
      cases h
      rw [Nat.shiftRight_eq_div_pow] at hin
      omega
  | case3 i hin hpair ih =>
      rw [Nat.shiftRight_eq_div_pow] at hin
      have hnext := ih h
      omega

theorem decodeAt_lt {bits : List UInt8} {start : Nat} {v : UInt64} {used : Nat}
    (h : decodeAt bits start = some (v, used)) : start < 8 * bits.length ∧ 0 < used := by
  unfold decodeAt at h
  cases hterm : findTerm bits start with
  | none =>
      rw [hterm] at h
      cases h
  | some term =>
      obtain ⟨hstart, hlt⟩ := findTerm_lt hterm
      rw [hterm] at h
      have hused : term + 1 - start = used := by
        dsimp only at h
        split_ifs at h
        · exact congrArg Prod.snd (Option.some.inj h)
        · exact congrArg Prod.snd (Option.some.inj h)
      omega

def leadingZeros (b : UInt8) : Nat := if b = 0 then 8 else 7 - b.toNat.log2

/-- The meaningful bits of a codeword: the index of its highest one, plus one. -/
def codewordNbits (cw : List UInt8) : Nat :=
  match cw.zipIdx.reverse.find? fun e => e.1 ≠ 0 with
  | some (byte, bi) => bi * 8 + 8 - leadingZeros byte
  | none => 0

structure ZeckStream where
  buf : List UInt8 := []
  bits : Nat := 0

namespace ZeckStream

def new : ZeckStream := {}

/-- Append the codeword of `n + 1`. The sum wraps to zero at the largest number, which a debug
build refuses at the addition and a release build at the assertion. -/
def push (s : ZeckStream) (n : UInt64) : Option ZeckStream := do
  let cw ← zeckEncode (n + 1)
  let nbits := codewordNbits cw
  let need := divCeil (s.bits + nbits) 8
  let buf := if s.buf.length < need then s.buf ++ List.replicate (need - s.buf.length) 0 else s.buf
  let buf := (List.range nbits).foldl
    (fun buf j => if bitAt cw j = 1 then setBit buf (s.bits + j) else buf) buf
  return ⟨buf, s.bits + nbits⟩

def finish (s : ZeckStream) : List UInt8 := s.buf

def pushAll (s : ZeckStream) : List UInt64 → Option ZeckStream
  | [] => some s
  | n :: rest => do
      let s ← s.push n
      s.pushAll rest

/-- The numbers from a bit on. -/
def decodeFrom (buf : List UInt8) (i : Nat) : Option (List UInt64) :=
  match h : decodeAt buf i with
  | some (v, used) =>
      if v = 0 then none
      else do
        let rest ← decodeFrom buf (i + used)
        return (v - 1) :: rest
  | none => some []
termination_by 8 * buf.length - i
decreasing_by
  obtain ⟨hi, hused⟩ := decodeAt_lt h
  omega

def decodeAll (buf : List UInt8) : Option (List UInt64) := decodeFrom buf 0

end ZeckStream

/-- One codeword that the decoder finds: where it starts, its value and its length. -/
structure Read where
  start : Nat
  value : UInt64
  used : Nat

/-- The index after the codeword. -/
def Read.stop (r : Read) : Nat := r.start + r.used

/-- All codewords from a bit on, by repeated decoding. -/
def reads (buf : List UInt8) (i : Nat) : List Read :=
  match _h : decodeAt buf i with
  | some (v, used) => ⟨i, v, used⟩ :: reads buf (i + used)
  | none => []
termination_by 8 * buf.length - i
decreasing_by
  obtain ⟨hi, hused⟩ := decodeAt_lt _h
  omega

/-! ## The table -/

theorem fibTable_map_toNat :
    fibTable.map UInt64.toNat = (List.range 92).map fun j => Nat.fib (j + 2) := by
  decide +kernel

@[simp] theorem length_fibTable : fibTable.length = 92 := by
  have hlen := congrArg List.length fibTable_map_toNat
  rwa [List.length_map, List.length_map, List.length_range] at hlen

theorem toNat_fibTable {j : Nat} (h : j < 92) : (fibTable.getD j 0).toNat = Nat.fib (j + 2) := by
  have hj : j < fibTable.length := by rwa [length_fibTable]
  have hentry := congrArg (fun l => l[j]?) fibTable_map_toNat
  rw [List.getElem?_map, List.getElem?_map, List.getElem?_range h,
    List.getElem?_eq_getElem hj] at hentry
  rw [List.getD_eq_getElem _ _ hj]
  exact Option.some.inj hentry

/-- The loop of the table has ended, with the last number that fits in 64 bits. -/
theorem fibTable_complete :
    u64Max / 2 < fibTable.getD (fibTable.length - 1) 0 ∧ 2 ^ 64 ≤ Nat.fib 94 := by
  refine ⟨?_, by decide +kernel⟩
  rw [UInt64.lt_iff_toNat_lt, length_fibTable, toNat_fibTable (by decide)]
  decide +kernel

theorem of_lt_length_takeWhile {α : Type*} {p : α → Bool} {l : List α} {j : Nat} {x : α}
    (h : j < (l.takeWhile p).length) (hx : l[j]? = some x) : p x = true := by
  induction l generalizing j with
  | nil => cases hx
  | cons a rest ih =>
      by_cases ha : p a = true
      · rw [List.takeWhile_cons_of_pos ha, List.length_cons] at h
        cases j with
        | zero => exact Option.some.inj hx ▸ ha
        | succ j => exact ih (Nat.lt_of_succ_lt_succ h) hx
      · rw [List.takeWhile_cons_of_neg ha] at h
        cases h

theorem not_of_length_takeWhile {α : Type*} {p : α → Bool} {l : List α} {x : α}
    (hx : l[(l.takeWhile p).length]? = some x) : ¬ p x = true := by
  induction l with
  | nil => cases hx
  | cons a rest ih =>
      by_cases ha : p a = true
      · rw [List.takeWhile_cons_of_pos ha, List.length_cons, List.getElem?_cons_succ] at hx
        exact ih hx
      · rw [List.takeWhile_cons_of_neg ha] at hx
        exact Option.some.inj hx ▸ ha

theorem countUpTo_le (n : UInt64) : countUpTo n ≤ 92 := by
  have hlen : countUpTo n ≤ fibTable.length := (List.takeWhile_prefix _).length_le
  rwa [length_fibTable] at hlen

theorem fibTable_getElem? {j : Nat} (h : j < 92) : fibTable[j]? = some (fibTable.getD j 0) := by
  have hj : j < fibTable.length := by rwa [length_fibTable]
  rw [List.getD_eq_getElem _ _ hj, List.getElem?_eq_getElem hj]

theorem fib_le_of_lt_countUpTo {n : UInt64} {j : Nat} (h : j < countUpTo n) :
    Nat.fib (j + 2) ≤ n.toNat := by
  have hj : j < 92 := h.trans_le (countUpTo_le n)
  have hle : decide (fibTable.getD j 0 ≤ n) = true :=
    of_lt_length_takeWhile (p := fun f => f ≤ n) h (fibTable_getElem? hj)
  rw [← toNat_fibTable hj]
  exact UInt64.le_iff_toNat_le.mp (of_decide_eq_true hle)

theorem lt_fib_countUpTo (n : UInt64) : n.toNat < Nat.fib (countUpTo n + 2) := by
  by_cases hall : countUpTo n = 92
  · rw [hall]
    exact n.toNat_lt.trans_le fibTable_complete.2
  · have hlt : countUpTo n < 92 := lt_of_le_of_ne (countUpTo_le n) hall
    have hnot : ¬ decide (fibTable.getD (countUpTo n) 0 ≤ n) = true :=
      not_of_length_takeWhile (p := fun f => f ≤ n) (fibTable_getElem? hlt)
    rwa [decide_eq_true_eq, UInt64.le_iff_toNat_le, Nat.not_le, toNat_fibTable hlt] at hnot

theorem countUpTo_pos {n : UInt64} (h : n ≠ 0) : 0 < countUpTo n := by
  apply Nat.pos_of_ne_zero
  intro hzero
  have hlt := lt_fib_countUpTo n
  rw [hzero] at hlt
  apply h
  apply UInt64.toNat_inj.mp
  exact Nat.lt_one_iff.mp hlt

/-! ## Codewords -/

/-- The digits of a number. -/
def digits (n : UInt64) : List Bool := greedy (countUpTo n) n.toNat

theorem value_digits (n : UInt64) : value (digits n) = n.toNat := value_greedy (lt_fib_countUpTo n)

theorem length_digits (n : UInt64) : (digits n).length = countUpTo n := length_greedy _ _

theorem isWord_digits {n : UInt64} (h : n ≠ 0) : IsWord (digits n) := by
  have hpos := countUpTo_pos h
  refine ⟨noAdjacent_greedy (lt_fib_countUpTo n), ?_⟩
  obtain ⟨k, hk⟩ := Nat.exists_eq_add_one_of_ne_zero hpos.ne'
  have hle := fib_le_of_lt_countUpTo (n := n) (j := k) (by omega)
  rw [digits, hk, greedy, if_pos hle]
  simp

/-- The loop leaves the greedy digits below its index. -/
theorem bitsOf_encodeDigits {idx : Nat} {rem : UInt64} {out : List UInt8} {rest : List Bool}
    (hidx : idx ≤ 92) (h : bitsOf out = List.replicate idx false ++ rest) :
    bitsOf (encodeDigits idx rem out) = greedy idx rem.toNat ++ rest := by
  induction idx generalizing rem out rest with
  | zero => exact h
  | succ idx ih =>
      have hfib := toNat_fibTable (j := idx) (by omega)
      have hle : fibTable.getD idx 0 ≤ rem ↔ Nat.fib (idx + 2) ≤ rem.toNat := by
        rw [UInt64.le_iff_toNat_le, hfib]
      rw [List.replicate_succ', List.append_assoc, List.singleton_append] at h
      rw [encodeDigits, greedy]
      by_cases htake : fibTable.getD idx 0 ≤ rem
      · have hset : bitsOf (setBit out idx) = List.replicate idx false ++ true :: rest := by
          rw [bitsOf_setBit, h]
          simp
        have hsub : (rem - fibTable.getD idx 0).toNat = rem.toNat - Nat.fib (idx + 2) := by
          rw [UInt64.toNat_sub_of_le _ _ htake, hfib]
        rw [if_pos htake, if_pos (hle.mp htake), ih (by omega) hset, hsub, List.append_assoc,
          List.singleton_append]
      · rw [if_neg htake, if_neg (mt hle.mpr htake), ih (by omega) h, List.append_assoc,
          List.singleton_append]

theorem codewordNbits_concat (cw : List UInt8) (b : UInt8) :
    codewordNbits (cw ++ [b]) =
      if b ≠ 0 then cw.length * 8 + 8 - leadingZeros b else codewordNbits cw := by
  unfold codewordNbits
  rw [List.zipIdx_append, List.reverse_append]
  by_cases hb : b = 0
  · simp [hb]
  · simp [hb]

/-- The meaningful bits of a byte end with its highest one. -/
theorem byteBits_eq (b : UInt8) (hb : b ≠ 0) :
    byteBits b = (byteBits b).take (7 - leadingZeros b) ++ [true] ++
      List.replicate (leadingZeros b) false := by
  have hall : ∀ k : Fin 256, UInt8.ofNat k ≠ 0 →
      byteBits (UInt8.ofNat k) =
        (byteBits (UInt8.ofNat k)).take (7 - leadingZeros (UInt8.ofNat k)) ++ [true] ++
          List.replicate (leadingZeros (UInt8.ofNat k)) false := by
    decide +kernel
  have hbyte := hall ⟨b.toNat, b.toNat_lt⟩
  rw [UInt8.ofNat_toNat] at hbyte
  exact hbyte hb

/-- The meaningful bits are all but the zeros above the highest one. -/
theorem codewordNbits_add_highZeros (cw : List UInt8) :
    codewordNbits cw + highZeros (bitsOf cw) = 8 * cw.length := by
  induction cw using List.reverseRecOn with
  | nil => rfl
  | append_singleton cw b ih =>
      have hone : bitsOf [b] = byteBits b := by
        rw [bitsOf_cons, bitsOf, List.flatMap_nil, List.append_nil]
      rw [codewordNbits_concat, bitsOf_append, hone, List.length_append, List.length_singleton]
      by_cases hb : b = 0
      · have hzero : byteBits 0 = List.replicate 8 false := by decide
        rw [if_neg (by simpa using hb), hb, hzero, highZeros_append_replicate]
        omega
      · have hle : leadingZeros b ≤ 8 := by
          unfold leadingZeros
          split_ifs
          all_goals omega
        rw [if_pos hb, byteBits_eq b hb, ← List.append_assoc, highZeros_append_replicate,
          ← List.append_assoc, highZeros_concat_true]
        omega

theorem codewordNbits_eq {cw : List UInt8} {d : List Bool} {k : Nat}
    (h : bitsOf cw = d ++ true :: List.replicate k false) : codewordNbits cw = d.length + 1 := by
  have hsum := codewordNbits_add_highZeros cw
  have hlen := congrArg List.length h
  rw [← List.singleton_append, ← List.append_assoc] at h
  rw [h, highZeros_append_replicate, highZeros_concat_true] at hsum
  rw [length_bitsOf, List.length_append, List.length_cons, List.length_replicate] at hlen
  omega

/-- A codeword is the digits of its number, the terminator and zeros. -/
theorem zeckEncode_eq {n : UInt64} (h : n ≠ 0) :
    ∃ cw k, zeckEncode n = some cw ∧ bitsOf cw = digits n ++ true :: List.replicate k false ∧
      codewordNbits cw = countUpTo n + 1 := by
  set hi := countUpTo n with hhi
  have hroom := le_divCeil_mul (hi + 1) (b := 8) (by decide)
  have hzero : bitsOf (List.replicate (divCeil (hi + 1) 8) 0) = List.replicate hi false ++
      false :: List.replicate (8 * divCeil (hi + 1) 8 - (hi + 1)) false := by
    rw [bitsOf_replicate, ← List.replicate_succ, List.replicate_append_replicate]
    congr 1
    omega
  have hdigits : bitsOf (encodeDigits hi n (List.replicate (divCeil (hi + 1) 8) 0)) = _ :=
    bitsOf_encodeDigits (countUpTo_le n) hzero
  have hbits : bitsOf (setBit (encodeDigits hi n (List.replicate (divCeil (hi + 1) 8) 0)) hi) =
      digits n ++ true :: List.replicate (8 * divCeil (hi + 1) 8 - (hi + 1)) false := by
    rw [bitsOf_setBit, hdigits, digits, ← hhi]
    have hlen := length_greedy hi n.toNat
    conv_lhs => rw [List.set_append_right _ _ hlen.le, hlen, Nat.sub_self]
    rfl
  refine ⟨_, _, ?_, hbits, ?_⟩
  · rw [zeckEncode, if_neg h]
  · rw [codewordNbits_eq hbits, length_digits]

end Dlr.Coding.Zeckendorf
