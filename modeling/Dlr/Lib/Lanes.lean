import Mathlib.Algebra.Group.Nat.Defs
import Mathlib.Data.List.Basic
import Mathlib.Data.Nat.Bitwise

/-!
# Byte registers and strided loops

A vector register is a function from its lanes to bytes, lane 0 being the byte at the lowest
address. The instructions are defined by what they do to each lane. A loop over a buffer in steps
of one register changes the bytes in front of the last full step, each by itself.

## Implementation notes

A load or store outside of the buffer fails. Sixteen-bit lanes are little-endian pairs of bytes,
and a byte shuffle picks inside every group of sixteen lanes.
-/

namespace Dlr.Lib.Lanes

/-! ## Registers -/

abbrev Reg (w : Nat) := Fin w → UInt8

section Instructions

variable {w : Nat}

/-- A lane by its number, zero past the last one. -/
def lane (x : Reg w) (i : Nat) : UInt8 := if h : i < w then x ⟨i, h⟩ else 0

def load (w : Nat) (s : List UInt8) (i : Nat) : Option (Reg w) :=
  if i + w ≤ s.length then some fun j => s.getD (i + j.val) 0 else none

def store (s : List UInt8) (i : Nat) (r : Reg w) : Option (List UInt8) :=
  if i + w ≤ s.length then some (s.take i ++ (List.ofFn r ++ s.drop (i + w))) else none

def set1 (b : UInt8) : Reg w := fun _ => b

def andBytes (x y : Reg w) : Reg w := fun j => x j &&& y j

def xorBytes (x y : Reg w) : Reg w := fun j => x j ^^^ y j

/-- Shift every sixteen-bit lane right by `k` bits. -/
def srliEpi16 (k : Nat) (x : Reg w) : Reg w := fun j =>
  let word := (lane x (2 * (j.val / 2))).toNat + 256 * (lane x (2 * (j.val / 2) + 1)).toNat
  UInt8.ofNat ((word >>> k) >>> (8 * (j.val % 2)))

/-- Pick bytes of `x` inside every group of sixteen lanes; an index with its top bit set picks
zero. -/
def shuffleEpi8 (x index : Reg w) : Reg w := fun j =>
  if index j &&& 0x80 ≠ 0 then 0 else lane x (16 * (j.val / 16) + (index j &&& 0x0f).toNat)

/-- The same sixteen lanes twice. -/
def broadcastsi128 (x : Reg 16) : Reg 32 := fun j => lane x (j.val % 16)

/-- Shift every byte right by `k` bits. -/
def vshrqNU8 (k : Nat) (x : Reg w) : Reg w := fun j => UInt8.ofNat ((x j).toNat >>> k)

/-- Pick bytes of `x`; an index past its lanes picks zero. -/
def vqtbl1qU8 (x index : Reg w) : Reg w := fun j => lane x (index j).toNat

theorem lane_of_lt (x : Reg w) {i : Nat} (h : i < w) : lane x i = x ⟨i, h⟩ := dif_pos h

theorem lane_val (x : Reg w) (j : Fin w) : lane x j.val = x j := lane_of_lt x j.isLt

theorem load_of_le {s : List UInt8} {i : Nat} (h : i + w ≤ s.length) :
    load w s i = some fun j => s.getD (i + j.val) 0 := if_pos h

theorem toNat_and_0x0f (b : UInt8) : (b &&& 0x0f).toNat = b.toNat % 16 := by
  rw [UInt8.toNat_and]
  exact Nat.and_two_pow_sub_one_eq_mod b.toNat 4

/-- Masking after a shift of pairs leaves the high half of every byte. -/
theorem toNat_srliEpi16_and (x : Reg w) (j : Fin w) :
    (andBytes (srliEpi16 4 x) (set1 0x0f) j).toNat = (x j).toNat / 16 := by
  have hmask : andBytes (srliEpi16 4 x) (set1 0x0f) j = srliEpi16 4 x j &&& 0x0f := rfl
  rw [hmask, toNat_and_0x0f, srliEpi16]
  rw [UInt8.toNat_ofNat', Nat.shiftRight_eq_div_pow, Nat.shiftRight_eq_div_pow]
  have hbyte := (x j).toNat_lt
  rcases Nat.mod_two_eq_zero_or_one j.val with heven | hodd
  · have hindex : 2 * (j.val / 2) = j.val := by omega
    rw [heven, hindex, lane_val]
    omega
  · have hindex : 2 * (j.val / 2) + 1 = j.val := by omega
    have hlow := (lane x (2 * (j.val / 2))).toNat_lt
    rw [hodd, hindex, lane_val]
    omega

theorem toNat_vshrqNU8_and (x : Reg w) (j : Fin w) :
    (andBytes (vshrqNU8 4 x) (set1 0x0f) j).toNat = (x j).toNat / 16 := by
  have hmask : andBytes (vshrqNU8 4 x) (set1 0x0f) j = vshrqNU8 4 x j &&& 0x0f := rfl
  have hbyte := (x j).toNat_lt
  rw [hmask, toNat_and_0x0f, vshrqNU8, UInt8.toNat_ofNat', Nat.shiftRight_eq_div_pow]
  omega

/-- An index below sixteen picks in its own group. -/
theorem shuffleEpi8_of_lt (x index : Reg w) (j : Fin w) (h : (index j).toNat < 16) :
    shuffleEpi8 x index j = lane x (16 * (j.val / 16) + (index j).toNat) := by
  have htop : index j &&& 0x80 = 0 := by
    apply UInt8.toNat_inj.mp
    rw [UInt8.toNat_and]
    change (index j).toNat &&& 2 ^ 7 = 0
    rw [Nat.and_two_pow, Nat.testBit_lt_two_pow (by omega)]
    rfl
  rw [shuffleEpi8, if_neg (by simp [htop]), toNat_and_0x0f, Nat.mod_eq_of_lt h]

end Instructions

/-! ## Changing a range -/

section Range

variable {α : Type*}

/-- Every element of a range by itself. -/
def updateRange (f : Nat → α → α) (lo hi : Nat) (s : List α) : List α :=
  s.mapIdx fun j a => if lo ≤ j ∧ j < hi then f j a else a

@[simp] theorem length_updateRange (f : Nat → α → α) (lo hi : Nat) (s : List α) :
    (updateRange f lo hi s).length = s.length := List.length_mapIdx

theorem getElem?_updateRange (f : Nat → α → α) (lo hi : Nat) (s : List α) (j : Nat) :
    (updateRange f lo hi s)[j]? = s[j]?.map fun a => if lo ≤ j ∧ j < hi then f j a else a :=
  List.getElem?_mapIdx

theorem updateRange_empty (f : Nat → α → α) {lo hi : Nat} (h : hi ≤ lo) (s : List α) :
    updateRange f lo hi s = s := by
  apply List.ext_getElem?
  intro j
  have hout : ¬ (lo ≤ j ∧ j < hi) := by omega
  rw [getElem?_updateRange]
  simp only [hout, if_false, Option.map_id']

theorem updateRange_of_id {f : Nat → α → α} (hf : ∀ j a, f j a = a) (lo hi : Nat) (s : List α) :
    updateRange f lo hi s = s := by
  apply List.ext_getElem?
  intro j
  simp [getElem?_updateRange, hf]

/-- The range of one element. -/
theorem set_eq_updateRange (f : Nat → α → α) {s : List α} {j : Nat} {a : α}
    (hj : s[j]? = some a) : s.set j (f j a) = updateRange f j (j + 1) s := by
  have hlt := (List.getElem?_eq_some_iff.mp hj).1
  apply List.ext_getElem?
  intro i
  rw [getElem?_updateRange]
  rcases eq_or_ne j i with rfl | hne
  · rw [List.getElem?_set_self hlt, hj, Option.map_some, if_pos ⟨le_refl j, Nat.lt_succ_self j⟩]
  · have hout : ¬ (j ≤ i ∧ i < j + 1) := by omega
    rw [List.getElem?_set_ne hne]
    simp only [hout, if_false, Option.map_id']

/-- The range of all elements. -/
theorem updateRange_all (f : Nat → α → α) (s : List α) :
    updateRange f 0 s.length s = s.mapIdx f := by
  apply List.ext_getElem?
  intro j
  rw [getElem?_updateRange, List.getElem?_mapIdx]
  rcases Nat.lt_or_ge j s.length with hj | hj
  · simp [hj]
  · rw [List.getElem?_eq_none hj]
    rfl

/-- Two adjacent ranges one after the other. -/
theorem updateRange_updateRange (f : Nat → α → α) {lo mid hi : Nat} (hlo : lo ≤ mid)
    (hhi : mid ≤ hi) (s : List α) :
    updateRange f mid hi (updateRange f lo mid s) = updateRange f lo hi s := by
  apply List.ext_getElem?
  intro j
  rw [getElem?_updateRange, getElem?_updateRange, getElem?_updateRange, Option.map_map]
  congr 1
  funext a
  rw [Function.comp_apply]
  rcases Nat.lt_or_ge j mid with hj | hj
  · have hout : ¬ (mid ≤ j ∧ j < hi) := by omega
    have hsame : (lo ≤ j ∧ j < mid) ↔ (lo ≤ j ∧ j < hi) := by omega
    simp only [hout, hsame, if_false]
  · have hout : ¬ (lo ≤ j ∧ j < mid) := by omega
    have hsame : (mid ≤ j ∧ j < hi) ↔ (lo ≤ j ∧ j < hi) := by omega
    simp only [hout, hsame, if_false]

theorem store_eq_updateRange {w : Nat} (f : Nat → UInt8 → UInt8) {s : List UInt8} {i : Nat}
    {r : Reg w} (hfit : i + w ≤ s.length)
    (hr : ∀ j : Fin w, r j = f (i + j.val) (s.getD (i + j.val) 0)) :
    store s i r = some (updateRange f i (i + w) s) := by
  rw [store, if_pos hfit]
  congr 1
  apply List.ext_getElem?
  intro j
  have hlen : (s.take i).length = i := by
    rw [List.length_take]
    omega
  rw [getElem?_updateRange]
  rcases Nat.lt_or_ge j i with hj | hj
  · have hout : ¬ (i ≤ j ∧ j < i + w) := by omega
    rw [List.getElem?_append_left (by omega), List.getElem?_take_of_lt hj]
    simp only [hout, if_false, Option.map_id']
  · rw [List.getElem?_append_right (by omega), hlen]
    rcases Nat.lt_or_ge j (i + w) with hj' | hj'
    · have hin : i ≤ j ∧ j < i + w := ⟨hj, hj'⟩
      have hsub : i + (j - i) = j := by omega
      rw [List.getElem?_append_left (by rw [List.length_ofFn]; omega), List.getElem?_ofFn, dif_pos (by omega), hr,
        List.getElem?_eq_getElem (by omega), Option.map_some, if_pos hin, hsub,
        List.getD_eq_getElem _ _ (by omega)]
    · have hout : ¬ (i ≤ j ∧ j < i + w) := by omega
      have hsub : i + w + (j - i - w) = j := by omega
      rw [List.getElem?_append_right (by rw [List.length_ofFn]; omega), List.length_ofFn, List.getElem?_drop, hsub]
      simp only [hout, if_false, Option.map_id']

/-! ## Loops -/

/-- The loop `while i + w <= n { body(i); i += w }`. -/
def strides {σ : Type*} (w n : Nat) (body : Nat → σ → Option σ) : Nat → Nat → σ → Option σ
  | 0, _, s => some s
  | fuel + 1, i, s =>
      if i + w ≤ n then do
        let s ← body i s
        strides w n body fuel (i + w) s
      else some s

/-- Steps that each change their own elements change all elements up to the last full step. -/
theorem strides_eq_updateRange (f : Nat → α → α) {w n : Nat} (hw : 0 < w)
    {body : Nat → List α → Option (List α)} {s : List α}
    (hbody : ∀ i t, i + w ≤ n → t.length = s.length →
      body i t = some (updateRange f i (i + w) t))
    (fuel c : Nat) (hc : c * w ≤ n) (hfuel : n ≤ fuel + c * w) :
    strides w n body fuel (c * w) s = some (updateRange f (c * w) (n - n % w) s) := by
  induction fuel generalizing c s with
  | zero =>
      have hn : n = c * w := by omega
      rw [strides, updateRange_empty f (by omega)]
  | succ fuel ih =>
      rw [strides]
      split
      · rename_i hmore
        have hsucc : c * w + w = (c + 1) * w := (Nat.succ_mul c w).symm
        have hlast : (c + 1) * w ≤ n - n % w := by
          have hmul : n - n % w = n / w * w := by
            have hdiv := Nat.div_add_mod' n w
            omega
          rw [hmul]
          exact Nat.mul_le_mul_right w ((Nat.le_div_iff_mul_le hw).mpr (by omega))
        rw [hbody _ _ hmore rfl, Option.bind_eq_bind, Option.bind_some, hsucc,
          ih (fun i t hi ht => hbody i t hi (by simpa using ht)) _ (by omega) (by omega),
          updateRange_updateRange f (by omega) hlast]
      · rename_i hdone
        have hmod : n % w = n - c * w := by
          have hsplit : n = n - c * w + w * c := by rw [Nat.mul_comm w c]; omega
          rw [hsplit, Nat.add_mul_mod_self_left, Nat.mod_eq_of_lt (by omega), ← hsplit]
        rw [updateRange_empty f (by omega)]

end Range

end Dlr.Lib.Lanes
