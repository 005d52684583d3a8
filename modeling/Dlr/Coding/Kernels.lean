import Dlr.Coding.Field
import Dlr.Lib.Lanes

/-!
# Vector kernels of the field

A coefficient times a byte is the sum of two table entries, one for each half of the byte. The
kernels look the halves of a whole register up at once, and the bytes behind the last full
register go through the multiplication table one by one.

## Implementation notes

Which kernel runs depends on the machine, so that is an argument. Every access to a buffer can
fail: an index that is out of range panics, a load or store outside of it is undefined.
-/

namespace Dlr.Coding

open Lib.Lanes

/-- What the build and the feature detection find out about the processor. -/
inductive Cpu
  | x86 (avx2 ssse3 : Bool)
  | aarch64
  | other
  deriving DecidableEq

/-- The products of `a` with the low halves of bytes, then with the high halves. -/
def mulNibbleTables (a : UInt8) : List UInt8 :=
  ((List.range 16).map fun i => gfMul a (UInt8.ofNat i)) ++
    (List.range 16).map fun i => gfMul a (UInt8.ofNat (i <<< 4))

/-- `dst[j] = f(dst[j])` with its bounds check. -/
def modifyAt (dst : List UInt8) (j : Nat) (f : UInt8 → Option UInt8) : Option (List UInt8) := do
  let d ← dst[j]?
  let d ← f d
  return dst.set j d

section Kernels

variable {w : Nat}

/-- The products of a register, on x86. -/
def mulShuffle (lo hi x : Reg w) : Reg w :=
  let mask := set1 0x0f
  let xl := andBytes x mask
  let xh := andBytes (srliEpi16 4 x) mask
  xorBytes (shuffleEpi8 lo xl) (shuffleEpi8 hi xh)

/-- The products of a register, on aarch64. -/
def mulTbl (lo hi x : Reg 16) : Reg 16 :=
  let mask := set1 0x0f
  let xl := andBytes x mask
  let xh := andBytes (vshrqNU8 4 x) mask
  xorBytes (vqtbl1qU8 lo xl) (vqtbl1qU8 hi xh)

/-- Add the products of one register of the source to the destination. -/
def axpyReg (mul : Reg w → Reg w) (src : List UInt8) (i : Nat) (dst : List UInt8) :
    Option (List UInt8) := do
  let x ← load w src i
  let d ← load w dst i
  store dst i (xorBytes d (mul x))

/-- Replace one register by its products. -/
def scalReg (mul : Reg w → Reg w) (i : Nat) (dst : List UInt8) : Option (List UInt8) := do
  let x ← load w dst i
  store dst i (mul x)

def axpyRegs (mul : Reg w → Reg w) (src dst : List UInt8) (n : Nat) : Option (List UInt8) :=
  strides w n (axpyReg mul src) n 0 dst

def scalRegs (mul : Reg w → Reg w) (dst : List UInt8) (n : Nat) : Option (List UInt8) :=
  strides w n (scalReg mul) n 0 dst

end Kernels

def axpyAvx2 (tabs src dst : List UInt8) (n : Nat) : Option (List UInt8) := do
  let lo ← load 16 tabs 0
  let hi ← load 16 tabs 16
  axpyRegs (mulShuffle (broadcastsi128 lo) (broadcastsi128 hi)) src dst n

def axpySsse3 (tabs src dst : List UInt8) (n : Nat) : Option (List UInt8) := do
  let lo ← load 16 tabs 0
  let hi ← load 16 tabs 16
  axpyRegs (mulShuffle lo hi) src dst n

def axpyNeon (tabs src dst : List UInt8) (n : Nat) : Option (List UInt8) := do
  let lo ← load 16 tabs 0
  let hi ← load 16 tabs 16
  axpyRegs (mulTbl lo hi) src dst n

def scalAvx2 (tabs dst : List UInt8) (n : Nat) : Option (List UInt8) := do
  let lo ← load 16 tabs 0
  let hi ← load 16 tabs 16
  scalRegs (mulShuffle (broadcastsi128 lo) (broadcastsi128 hi)) dst n

def scalSsse3 (tabs dst : List UInt8) (n : Nat) : Option (List UInt8) := do
  let lo ← load 16 tabs 0
  let hi ← load 16 tabs 16
  scalRegs (mulShuffle lo hi) dst n

def scalNeon (tabs dst : List UInt8) (n : Nat) : Option (List UInt8) := do
  let lo ← load 16 tabs 0
  let hi ← load 16 tabs 16
  scalRegs (mulTbl lo hi) dst n

/-- `for j in i..n { dst[j] ^= a * src[j] }`. -/
def axpyTail (a : UInt8) (src dst : List UInt8) (i n : Nat) : Option (List UInt8) :=
  strides 1 n (fun j dst => modifyAt dst j fun d => do return d ^^^ gfMul a (← src[j]?)) n i dst

/-- `for j in i..n { dst[j] = a * dst[j] }`. -/
def scalTail (a : UInt8) (dst : List UInt8) (i n : Nat) : Option (List UInt8) :=
  strides 1 n (fun j dst => modifyAt dst j fun d => some (gfMul a d)) n i dst

def gfAxpySlice (cpu : Cpu) (a : UInt8) (src dst : List UInt8) : Option (List UInt8) :=
  let n := min src.length dst.length
  if a = 0 ∨ n = 0 then some dst
  else if a = 1 then
    strides 1 n (fun i dst => modifyAt dst i fun d => do return d ^^^ (← src[i]?)) n 0 dst
  else
    let tabs := mulNibbleTables a
    match cpu with
    | .x86 true _ => do
        let dst ← axpyAvx2 tabs src dst n
        axpyTail a src dst (n - n % 32) n
    | .x86 false true => do
        let dst ← axpySsse3 tabs src dst n
        axpyTail a src dst (n - n % 16) n
    | .aarch64 => do
        let dst ← axpyNeon tabs src dst n
        axpyTail a src dst (n - n % 16) n
    | .x86 false false | .other => axpyTail a src dst 0 n

def gfScalSlice (cpu : Cpu) (a : UInt8) (dst : List UInt8) : Option (List UInt8) :=
  let n := dst.length
  if n = 0 then some dst
  else if a = 0 then some (dst.map fun _ => 0)
  else if a = 1 then some dst
  else
    let tabs := mulNibbleTables a
    match cpu with
    | .x86 true _ => do
        let dst ← scalAvx2 tabs dst n
        scalTail a dst (n - n % 32) n
    | .x86 false true => do
        let dst ← scalSsse3 tabs dst n
        scalTail a dst (n - n % 16) n
    | .aarch64 => do
        let dst ← scalNeon tabs dst n
        scalTail a dst (n - n % 16) n
    | .x86 false false | .other => scalTail a dst 0 n

/-! ## Products of halves -/

theorem load_mulNibbleTables_low (a : UInt8) :
    load 16 (mulNibbleTables a) 0 = some fun j => gfMul a (UInt8.ofNat j.val) := by
  rw [mulNibbleTables, load_of_le (by simp)]
  congr 1
  funext j
  have hj := j.isLt
  rw [Nat.zero_add, List.getD_append _ _ _ _ (by simp), List.getD_eq_getElem _ _ (by simp)]
  simp

theorem load_mulNibbleTables_high (a : UInt8) :
    load 16 (mulNibbleTables a) 16 = some fun j => gfMul a (UInt8.ofNat (j.val <<< 4)) := by
  rw [mulNibbleTables, load_of_le (by simp)]
  congr 1
  funext j
  have hj := j.isLt
  rw [List.getD_append_right _ _ _ _ (by simp), List.getD_eq_getElem _ _ (by simp)]
  simp

/-- Products distribute over the two halves of a byte. -/
theorem gfMul_halves (a x : UInt8) :
    gfMul a (UInt8.ofNat (x.toNat % 16)) ^^^ gfMul a (UInt8.ofNat ((x.toNat / 16) <<< 4)) =
      gfMul a x := by
  have hhalves : ∀ v : Fin 256, (v.val % 16) ^^^ ((v.val / 16) <<< 4) = v.val := by decide +kernel
  rw [← gfMul_xor, ← UInt8.ofNat_xor, hhalves ⟨x.toNat, x.toNat_lt⟩, UInt8.ofNat_toNat]

/-- In every group of sixteen lanes the register holds the values of `g`. -/
def IsTable {w : Nat} (t : Reg w) (g : Nat → UInt8) : Prop :=
  ∀ j < w, ∀ v < 16, lane t (16 * (j / 16) + v) = g v

theorem isTable_sixteen (g : Nat → UInt8) : IsTable (fun j : Fin 16 => g j.val) g := by
  intro j hj v hv
  have hindex : 16 * (j / 16) + v = v := by omega
  rw [hindex, lane_of_lt _ hv]

theorem isTable_broadcast (g : Nat → UInt8) :
    IsTable (broadcastsi128 fun j : Fin 16 => g j.val) g := by
  intro j hj v hv
  have hindex : (16 * (j / 16) + v) % 16 = v := by omega
  rw [lane_of_lt _ (by omega), broadcastsi128, hindex, lane_of_lt _ hv]

section Registers

variable {w : Nat} {a : UInt8} {lo hi : Reg w}

theorem mulShuffle_apply (hlo : IsTable lo fun v => gfMul a (UInt8.ofNat v))
    (hhi : IsTable hi fun v => gfMul a (UInt8.ofNat (v <<< 4))) (x : Reg w) (j : Fin w) :
    mulShuffle lo hi x j = gfMul a (x j) := by
  have hlow : (andBytes x (set1 0x0f) j).toNat = (x j).toNat % 16 := toNat_and_0x0f (x j)
  have hhigh := toNat_srliEpi16_and x j
  have hbyte := (x j).toNat_lt
  have hsum : mulShuffle lo hi x j = shuffleEpi8 lo (andBytes x (set1 0x0f)) j ^^^
      shuffleEpi8 hi (andBytes (srliEpi16 4 x) (set1 0x0f)) j := rfl
  rw [hsum, shuffleEpi8_of_lt _ _ _ (by omega), shuffleEpi8_of_lt _ _ _ (by omega), hlow, hhigh,
    hlo j.val j.isLt _ (by omega), hhi j.val j.isLt _ (by omega), gfMul_halves]

theorem mulTbl_apply {lo hi : Reg 16} (hlo : IsTable lo fun v => gfMul a (UInt8.ofNat v))
    (hhi : IsTable hi fun v => gfMul a (UInt8.ofNat (v <<< 4))) (x : Reg 16) (j : Fin 16) :
    mulTbl lo hi x j = gfMul a (x j) := by
  have hlow : (andBytes x (set1 0x0f) j).toNat = (x j).toNat % 16 := toNat_and_0x0f (x j)
  have hhigh := toNat_vshrqNU8_and x j
  have hbyte := (x j).toNat_lt
  have hsum : mulTbl lo hi x j = lane lo (andBytes x (set1 0x0f) j).toNat ^^^
      lane hi (andBytes (vshrqNU8 4 x) (set1 0x0f) j).toNat := rfl
  have hgroup : 16 * (0 / 16) = 0 := rfl
  have hlo0 := hlo 0 (by omega) ((x j).toNat % 16) (by omega)
  have hhi0 := hhi 0 (by omega) ((x j).toNat / 16) (by omega)
  rw [hgroup, Nat.zero_add] at hlo0 hhi0
  rw [hsum, hlow, hhigh, hlo0, hhi0, gfMul_halves]

/-- The products of the three kernels, with the tables as they are loaded. -/
theorem mulShuffle_broadcast (a : UInt8) (x : Reg 32) (j : Fin 32) :
    mulShuffle (broadcastsi128 fun v => gfMul a (UInt8.ofNat v.val))
      (broadcastsi128 fun v => gfMul a (UInt8.ofNat (v.val <<< 4))) x j = gfMul a (x j) :=
  mulShuffle_apply (isTable_broadcast fun v => gfMul a (UInt8.ofNat v))
    (isTable_broadcast fun v => gfMul a (UInt8.ofNat (v <<< 4))) x j

theorem mulShuffle_sixteen (a : UInt8) (x : Reg 16) (j : Fin 16) :
    mulShuffle (fun v => gfMul a (UInt8.ofNat v.val))
      (fun v => gfMul a (UInt8.ofNat (v.val <<< 4))) x j = gfMul a (x j) :=
  mulShuffle_apply (isTable_sixteen fun v => gfMul a (UInt8.ofNat v))
    (isTable_sixteen fun v => gfMul a (UInt8.ofNat (v <<< 4))) x j

theorem mulTbl_sixteen (a : UInt8) (x : Reg 16) (j : Fin 16) :
    mulTbl (fun v => gfMul a (UInt8.ofNat v.val))
      (fun v => gfMul a (UInt8.ofNat (v.val <<< 4))) x j = gfMul a (x j) :=
  mulTbl_apply (isTable_sixteen fun v => gfMul a (UInt8.ofNat v))
    (isTable_sixteen fun v => gfMul a (UInt8.ofNat (v <<< 4))) x j

/-! ## Loops over buffers -/

/-- What an `axpy` does to the byte at one position. -/
def addProduct (a : UInt8) (src : List UInt8) (j : Nat) (d : UInt8) : UInt8 :=
  d ^^^ gfMul a (src.getD j 0)

theorem axpyRegs_eq (hw : 0 < w) {mul : Reg w → Reg w} (hmul : ∀ x j, mul x j = gfMul a (x j))
    {src dst : List UInt8} {n : Nat} (hsrc : n ≤ src.length) (hdst : n ≤ dst.length) :
    axpyRegs mul src dst n = some (updateRange (addProduct a src) 0 (n - n % w) dst) := by
  have hstep : ∀ i t, i + w ≤ n → t.length = dst.length →
      axpyReg mul src i t = some (updateRange (addProduct a src) i (i + w) t) := by
    intro i t hi ht
    rw [axpyReg, load_of_le (by omega), load_of_le (by omega)]
    apply store_eq_updateRange _ (by omega)
    intro j
    rw [xorBytes, hmul, addProduct]
  have hloop := strides_eq_updateRange (addProduct a src) hw hstep n 0 (by omega) (by omega)
  rwa [Nat.zero_mul] at hloop

theorem scalRegs_eq (hw : 0 < w) {mul : Reg w → Reg w} (hmul : ∀ x j, mul x j = gfMul a (x j))
    {dst : List UInt8} {n : Nat} (hdst : n ≤ dst.length) :
    scalRegs mul dst n = some (updateRange (fun _ => gfMul a) 0 (n - n % w) dst) := by
  have hstep : ∀ i t, i + w ≤ n → t.length = dst.length →
      scalReg mul i t = some (updateRange (fun _ => gfMul a) i (i + w) t) := by
    intro i t hi ht
    rw [scalReg, load_of_le (by omega)]
    apply store_eq_updateRange _ (by omega)
    intro j
    rw [hmul]
  have hloop := strides_eq_updateRange (fun _ => gfMul a) hw hstep n 0 (by omega) (by omega)
  rwa [Nat.zero_mul] at hloop

end Registers

section Slices

variable {a : UInt8} {src dst : List UInt8} {n : Nat}

theorem modifyAt_eq_updateRange (g : Nat → UInt8 → UInt8) {f : UInt8 → Option UInt8} {j : Nat}
    (hj : j < dst.length) (hf : ∀ d, f d = some (g j d)) :
    modifyAt dst j f = some (updateRange g j (j + 1) dst) := by
  rw [modifyAt, List.getElem?_eq_getElem hj]
  simp only [Option.bind_eq_bind, Option.bind_some, hf]
  exact congrArg some (set_eq_updateRange g (List.getElem?_eq_getElem hj))

/-- A loop over single bytes. -/
theorem strides_modifyAt (g : Nat → UInt8 → UInt8) {f : Nat → UInt8 → Option UInt8}
    (hdst : n ≤ dst.length) (hf : ∀ j < n, ∀ d, f j d = some (g j d)) {i : Nat} (hi : i ≤ n) :
    strides 1 n (fun j dst => modifyAt dst j (f j)) n i dst = some (updateRange g i n dst) := by
  have hstep : ∀ j t, j + 1 ≤ n → t.length = dst.length →
      modifyAt t j (f j) = some (updateRange g j (j + 1) t) := by
    intro j t hj ht
    exact modifyAt_eq_updateRange g (by omega) (hf j hj)
  have hloop := strides_eq_updateRange g Nat.one_pos hstep n i (by omega) (by omega)
  rwa [Nat.mul_one, Nat.mod_one, Nat.sub_zero] at hloop

theorem axpyTail_eq (hsrc : n ≤ src.length) (hdst : n ≤ dst.length) {i : Nat} (hi : i ≤ n) :
    axpyTail a src dst i n = some (updateRange (addProduct a src) i n dst) := by
  apply strides_modifyAt (addProduct a src) hdst _ hi
  intro j hj d
  rw [addProduct, List.getElem?_eq_getElem (by omega), List.getD_eq_getElem _ _ (by omega)]
  rfl

theorem scalTail_eq (hdst : n ≤ dst.length) {i : Nat} (hi : i ≤ n) :
    scalTail a dst i n = some (updateRange (fun _ => gfMul a) i n dst) :=
  strides_modifyAt (fun _ => gfMul a) hdst (fun _ _ _ => rfl) hi

/-- Whole registers and then single bytes. -/
theorem axpyRegs_axpyTail {w : Nat} (hw : 0 < w) {mul : Reg w → Reg w}
    (hmul : ∀ x j, mul x j = gfMul a (x j)) (hsrc : n ≤ src.length) (hdst : n ≤ dst.length) :
    (axpyRegs mul src dst n >>= fun dst => axpyTail a src dst (n - n % w) n) =
      some (updateRange (addProduct a src) 0 n dst) := by
  rw [axpyRegs_eq hw hmul hsrc hdst, Option.bind_eq_bind, Option.bind_some,
    axpyTail_eq hsrc (by simpa using hdst) (Nat.sub_le _ _),
    updateRange_updateRange _ (Nat.zero_le _) (Nat.sub_le _ _)]

theorem scalRegs_scalTail {w : Nat} (hw : 0 < w) {mul : Reg w → Reg w}
    (hmul : ∀ x j, mul x j = gfMul a (x j)) (hdst : n ≤ dst.length) :
    (scalRegs mul dst n >>= fun dst => scalTail a dst (n - n % w) n) =
      some (updateRange (fun _ => gfMul a) 0 n dst) := by
  rw [scalRegs_eq hw hmul hdst, Option.bind_eq_bind, Option.bind_some,
    scalTail_eq (by simpa using hdst) (Nat.sub_le _ _),
    updateRange_updateRange _ (Nat.zero_le _) (Nat.sub_le _ _)]

/-- Every path of the machine adds the products up to the shorter length. -/
theorem gfAxpySlice_eq (cpu : Cpu) (a : UInt8) (src dst : List UInt8) :
    gfAxpySlice cpu a src dst =
      some (updateRange (addProduct a src) 0 (min src.length dst.length) dst) := by
  have hsrc := Nat.min_le_left src.length dst.length
  have hdst := Nat.min_le_right src.length dst.length
  unfold gfAxpySlice
  dsimp only
  split_ifs with hnone hone
  · rcases hnone with rfl | hempty
    · rw [updateRange_of_id]
      intro j d
      rw [addProduct, zero_gfMul, UInt8.xor_zero]
    · rw [updateRange_empty _ (by omega)]
  · subst hone
    apply strides_modifyAt (addProduct 1 src) hdst _ (Nat.zero_le _)
    intro j hj d
    rw [addProduct, one_gfMul, List.getElem?_eq_getElem (by omega),
      List.getD_eq_getElem _ _ (by omega)]
    rfl
  · cases cpu with
    | x86 avx2 ssse3 =>
        cases avx2 with
        | true =>
            simp only [axpyAvx2, load_mulNibbleTables_low, load_mulNibbleTables_high,
              Option.bind_eq_bind, Option.bind_some]
            exact axpyRegs_axpyTail (by decide) (mulShuffle_broadcast a) hsrc hdst
        | false =>
            cases ssse3 with
            | true =>
                simp only [axpySsse3, load_mulNibbleTables_low, load_mulNibbleTables_high,
                  Option.bind_eq_bind, Option.bind_some]
                exact axpyRegs_axpyTail (by decide) (mulShuffle_sixteen a) hsrc hdst
            | false => exact axpyTail_eq hsrc hdst (Nat.zero_le _)
    | aarch64 =>
        simp only [axpyNeon, load_mulNibbleTables_low, load_mulNibbleTables_high,
          Option.bind_eq_bind, Option.bind_some]
        exact axpyRegs_axpyTail (by decide) (mulTbl_sixteen a) hsrc hdst
    | other => exact axpyTail_eq hsrc hdst (Nat.zero_le _)

/-- Every path of the machine multiplies all bytes. -/
theorem gfScalSlice_eq (cpu : Cpu) (a : UInt8) (dst : List UInt8) :
    gfScalSlice cpu a dst = some (dst.map (gfMul a)) := by
  have hall : updateRange (fun _ => gfMul a) 0 dst.length dst = dst.map (gfMul a) := by
    rw [updateRange_all, List.mapIdx_eq_iff]
    intro j
    exact List.getElem?_map
  unfold gfScalSlice
  dsimp only
  split_ifs with hempty hzero hone
  · rw [List.length_eq_zero_iff.mp hempty]
    rfl
  · congr 1
    apply List.map_congr_left
    intro d _
    rw [hzero, zero_gfMul]
  · congr 1
    rw [hone]
    exact (List.map_id'' one_gfMul dst).symm
  · rw [← hall]
    cases cpu with
    | x86 avx2 ssse3 =>
        cases avx2 with
        | true =>
            simp only [scalAvx2, load_mulNibbleTables_low, load_mulNibbleTables_high,
              Option.bind_eq_bind, Option.bind_some]
            exact scalRegs_scalTail (by decide) (mulShuffle_broadcast a) (le_refl _)
        | false =>
            cases ssse3 with
            | true =>
                simp only [scalSsse3, load_mulNibbleTables_low, load_mulNibbleTables_high,
                  Option.bind_eq_bind, Option.bind_some]
                exact scalRegs_scalTail (by decide) (mulShuffle_sixteen a) (le_refl _)
            | false => exact scalTail_eq (le_refl _) (Nat.zero_le _)
    | aarch64 =>
        simp only [scalNeon, load_mulNibbleTables_low, load_mulNibbleTables_high,
          Option.bind_eq_bind, Option.bind_some]
        exact scalRegs_scalTail (by decide) (mulTbl_sixteen a) (le_refl _)
    | other => exact scalTail_eq (le_refl _) (Nat.zero_le _)

end Slices

/-! ## The scalar loops -/

/-- The kernels do what the scalar `axpy` does. -/
theorem gfAxpySlice_eq_axpy (cpu : Cpu) (a : UInt8) (src dst : List UInt8) :
    gfAxpySlice cpu a src dst = some (axpy dst a src) := by
  have hzip : updateRange (addProduct a src) 0 (min src.length dst.length) dst =
      dst.zipWith (fun d s => d ^^^ gfMul a s) src ++ dst.drop src.length := by
    apply List.ext_getElem?
    intro j
    rw [getElem?_updateRange]
    have hlen : (dst.zipWith (fun d s => d ^^^ gfMul a s) src).length =
        min dst.length src.length := List.length_zipWith
    rcases Nat.lt_or_ge j (min dst.length src.length) with hj | hj
    · have hin : 0 ≤ j ∧ j < min src.length dst.length := ⟨Nat.zero_le j, by omega⟩
      rw [List.getElem?_append_left (by omega), List.getElem?_zipWith,
        List.getElem?_eq_getElem (by omega : j < dst.length),
        List.getElem?_eq_getElem (by omega : j < src.length), Option.map_some, if_pos hin,
        addProduct, List.getD_eq_getElem _ _ (by omega)]
    · have hout : ¬ (0 ≤ j ∧ j < min src.length dst.length) := by omega
      rw [List.getElem?_append_right (by omega), hlen, List.getElem?_drop]
      simp only [hout, if_false, Option.map_id']
      rcases Nat.lt_or_ge j dst.length with hjd | hjd
      · congr 1
        omega
      · rw [List.getElem?_eq_none hjd, List.getElem?_eq_none (by omega)]
  rw [gfAxpySlice_eq, axpy]
  congr 1
  split_ifs with hzero hone
  · subst hzero
    rw [updateRange_of_id]
    intro j d
    rw [addProduct, zero_gfMul, UInt8.xor_zero]
  · subst hone
    rw [hzip]
    simp only [one_gfMul]
  · exact hzip

theorem gfScalSlice_eq_scalInplace (cpu : Cpu) (a : UInt8) (dst : List UInt8) :
    gfScalSlice cpu a dst = some (scalInplace dst a) := by
  rw [gfScalSlice_eq, scalInplace]
  congr 1
  split_ifs with hzero hone
  · apply List.map_congr_left
    intro d _
    rw [hzero, zero_gfMul]
  · rw [hone]
    exact List.map_id'' one_gfMul dst
  · rfl

/-- On every machine, for all coefficients and lengths, the kernels compute the scalar formula and
stay inside their buffers. -/
theorem kernels_eq_scalar (cpu : Cpu) (a : UInt8) (src dst : List UInt8) :
    (∃ out, gfAxpySlice cpu a src dst = some out ∧
      (∀ (i : Nat) (d s : UInt8), dst[i]? = some d → src[i]? = some s →
        out[i]? = some (d ^^^ gfMul a s)) ∧
      ∀ i : Nat, min src.length dst.length ≤ i → out[i]? = dst[i]?) ∧
    gfScalSlice cpu a dst = some (dst.map (gfMul a)) := by
  refine ⟨⟨_, gfAxpySlice_eq cpu a src dst, ?_, ?_⟩, gfScalSlice_eq cpu a dst⟩
  · intro i d s hd hs
    obtain ⟨hdlt, rfl⟩ := List.getElem?_eq_some_iff.mp hd
    obtain ⟨hslt, rfl⟩ := List.getElem?_eq_some_iff.mp hs
    have hin : 0 ≤ i ∧ i < min src.length dst.length := ⟨Nat.zero_le i, by omega⟩
    rw [getElem?_updateRange, hd, Option.map_some, if_pos hin, addProduct,
      List.getD_eq_getElem _ _ hslt]
  · intro i hi
    have hout : ¬ (0 ≤ i ∧ i < min src.length dst.length) := by omega
    rw [getElem?_updateRange]
    simp only [hout, if_false, Option.map_id']

end Dlr.Coding
