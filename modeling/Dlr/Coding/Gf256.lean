import Mathlib.Data.Finset.Card
import Mathlib.Data.Nat.Bitwise
import Mathlib.Order.Interval.Finset.Nat

/-!
# GF(2^8) arithmetic

The field with reducing polynomial `0x11B`. Products go through logarithms to
the generator 3: `log` is read off the list of powers, and `exp` repeats that
list so that a sum of two logarithms needs no reduction.

## Implementation notes

The scalar loops are modelled here; that the vectorised kernels of the program
compute the same bytes is shown where these are. That the powers of 3 reach every
nonzero byte is checked once, by collecting them in a bit mask.
-/

namespace Dlr.Coding

/-- Multiply by the generator 3: one doubling, reduced, plus the value itself. -/
def nextPower (g : Nat) : Nat :=
  let g2 := (g <<< 1) ^^^ (if g &&& 0x80 ≠ 0 then 0x11B else 0)
  (g2 ^^^ g) &&& 0xFF

/-- The first `n` values of the walk that starts at `g`. -/
def powers : Nat → Nat → List Nat
  | 0, _ => []
  | n + 1, g => g :: powers n (nextPower g)

/-- The exponential table: entry `255 + i` repeats entry `i` for `i < 256`, and
the last of the 512 entries keeps its initial zero. -/
def expTable : List Nat := powers 255 1 ++ powers 255 1 ++ [1, 0]

def gfExp (i : Nat) : UInt8 := UInt8.ofNat (expTable.getD i 0)

/-- The logarithm of a nonzero byte; the table holds zero for the zero byte. -/
def gfLog (a : UInt8) : Nat := if a = 0 then 0 else (powers 255 1).idxOf a.toNat

/-- One entry of the multiplication table. -/
def gfMul (a b : UInt8) : UInt8 :=
  if a = 0 ∨ b = 0 then 0 else gfExp (gfLog a + gfLog b)

def gfInv (a : UInt8) : UInt8 := if a = 0 then 0 else gfExp (255 - gfLog a)

/-- `dst[i] ^= a * src[i]` for every `i` below both lengths. -/
def axpy (dst : List UInt8) (a : UInt8) (src : List UInt8) : List UInt8 :=
  if a = 0 then dst
  else if a = 1 then dst.zipWith (· ^^^ ·) src ++ dst.drop src.length
  else dst.zipWith (fun d s => d ^^^ gfMul a s) src ++ dst.drop src.length

/-- `dst[i] = a * dst[i]`. -/
def scalInplace (dst : List UInt8) (a : UInt8) : List UInt8 :=
  if a = 0 then dst.map fun _ => 0
  else if a = 1 then dst
  else dst.map (gfMul a)

/-- The rows from `rank` on, searched for one with a nonzero entry in `col`. -/
def findPivot (mat : List (List UInt8)) (rank col : Nat) : Option Nat :=
  (List.range' rank (mat.length - rank)).find? fun r => (mat.getD r []).getD col 0 ≠ 0

/-- Exchange two rows. -/
def swapRows (mat : List (List UInt8)) (i j : Nat) : List (List UInt8) :=
  (mat.set i (mat.getD j [])).set j (mat.getD i [])

/-- Clear column `col` in every row but `rank`, using the normalised pivot row. -/
def eliminateColumn (mat : List (List UInt8)) (rank col : Nat) (prow : List UInt8) :
    List (List UInt8) :=
  mat.mapIdx fun r row => if r = rank then row else
    if row.getD col 0 = 0 then row else axpy row (row.getD col 0) prow

/-- The elimination loop over the columns `col .. k`. -/
def gaussColumns (mat : List (List UInt8)) (rank : Nat) : List Nat → Nat × List (List UInt8)
  | [] => (rank, mat)
  | col :: cols =>
      match findPivot mat rank col with
      | none => gaussColumns mat rank cols
      | some p =>
          let mat := swapRows mat rank p
          let row := mat.getD rank []
          let prow := scalInplace row (gfExp (255 - gfLog (row.getD col 0)))
          let mat := eliminateColumn (mat.set rank prow) rank col prow
          if rank + 1 = mat.length then (rank + 1, mat) else gaussColumns mat (rank + 1) cols

/-- Gaussian elimination on a list of rows of equal length; the first `k` columns
are the system and the rest its right-hand side. Returns the rank. -/
def gfGaussEliminate (mat : List (List UInt8)) (rowLen k : Nat) : Nat × List (List UInt8) :=
  if rowLen = 0 then (0, mat) else gaussColumns mat 0 (List.range k)

/-! ## Exponentials and logarithms are inverse -/

@[simp] theorem length_powers (n g : Nat) : (powers n g).length = n := by
  induction n generalizing g with
  | zero => rfl
  | succ n ih => simp [powers, ih]

private def collect (acc : Nat) (gs : List Nat) : Nat :=
  gs.foldl (fun acc g => acc ||| 1 <<< g) acc

private theorem testBit_collect (gs : List Nat) (acc a : Nat) :
    (collect acc gs).testBit a = (acc.testBit a || gs.contains a) := by
  induction gs generalizing acc with
  | nil => simp [collect]
  | cons g rest ih =>
      have hstep : collect acc (g :: rest) = collect (acc ||| 1 <<< g) rest := rfl
      rw [hstep, ih, Nat.testBit_or, Nat.one_shiftLeft, Nat.testBit_two_pow,
        List.contains_cons, Bool.or_assoc]
      congr 2
      exact (decide_eq_decide.mpr eq_comm)

/-- Every nonzero byte is a power of the generator. -/
private theorem mem_powers {a : Nat} (h0 : 0 < a) (h : a < 256) : a ∈ powers 255 1 := by
  have hmask : collect 1 (powers 255 1) = 2 ^ 256 - 1 := by decide +kernel
  have hbit := testBit_collect (powers 255 1) 1 a
  have hone : Nat.testBit 1 a = false := by
    rw [← Bool.not_eq_true, Nat.testBit_one_eq_true_iff_self_eq_zero]
    omega
  rw [hmask, Nat.testBit_two_pow_sub_one, decide_eq_true h, hone, Bool.false_or] at hbit
  exact List.contains_iff_mem.mp hbit.symm

/-- The 255 powers are pairwise distinct, because they reach 255 values. -/
private theorem nodup_powers : (powers 255 1).Nodup := by
  have hsub : Finset.Icc 1 255 ⊆ (powers 255 1).toFinset := by
    intro a ha
    rw [Finset.mem_Icc] at ha
    exact List.mem_toFinset.mpr (mem_powers (by omega) (by omega))
  have hcard : (powers 255 1).length ≤ (powers 255 1).toFinset.card := by
    calc (powers 255 1).length = (Finset.Icc 1 255).card := by simp
      _ ≤ _ := Finset.card_le_card hsub
  rw [List.card_toFinset] at hcard
  have heq : (powers 255 1).dedup = powers 255 1 :=
    (List.dedup_sublist _).eq_of_length_le hcard
  exact heq ▸ List.nodup_dedup _

theorem gfLog_lt {a : UInt8} (h : a ≠ 0) : gfLog a < 255 := by
  have hpos : 0 < a.toNat := by
    rcases Nat.eq_zero_or_pos a.toNat with h0 | h0
    · exact absurd (UInt8.toNat_inj.mp h0) h
    · exact h0
  have hmem := mem_powers hpos a.toNat_lt
  rw [gfLog, if_neg h]
  simpa using List.idxOf_lt_length_of_mem hmem

/-- Below 510 the table has period 255. -/
private theorem expTable_getD {i : Nat} (h : i < 510) :
    expTable.getD i 0 = (powers 255 1).getD (i % 255) 0 := by
  unfold expTable
  rcases Nat.lt_or_ge i 255 with hi | hi
  · rw [List.append_assoc, List.getD_append _ _ _ _ (by simpa using hi), Nat.mod_eq_of_lt hi]
  · have hmod : i % 255 = i - 255 := by omega
    rw [List.append_assoc, List.getD_append_right _ _ _ _ (by simpa using hi),
      List.getD_append _ _ _ _ (by simp only [length_powers]; omega), length_powers, hmod]

private theorem pos_of_mem_powers {a : Nat} (h : a ∈ powers 255 1) : 0 < a ∧ a < 256 := by
  have hall : (powers 255 1).all (fun a => 0 < a && a < 256) = true := by decide +kernel
  simpa using List.all_eq_true.mp hall a h

theorem gfExp_gfLog {a : UInt8} (h : a ≠ 0) : gfExp (gfLog a) = a := by
  have hlt := gfLog_lt h
  unfold gfExp
  rw [expTable_getD (by omega), Nat.mod_eq_of_lt hlt]
  simp only [gfLog, if_neg h] at hlt ⊢
  rw [List.getD_eq_getElem _ _ (by simpa using hlt), List.getElem_idxOf]
  exact UInt8.ofNat_toNat

theorem gfExp_mod {i : Nat} (h : i < 510) : gfExp i = gfExp (i % 255) := by
  unfold gfExp
  rw [expTable_getD h, expTable_getD (by omega), Nat.mod_mod]

theorem toNat_gfExp {i : Nat} (h : i < 510) :
    (gfExp i).toNat = (powers 255 1).getD (i % 255) 0 := by
  unfold gfExp
  rw [expTable_getD h, UInt8.toNat_ofNat']
  have hi : i % 255 < (powers 255 1).length := by simp only [length_powers]; omega
  rw [List.getD_eq_getElem _ _ hi]
  exact Nat.mod_eq_of_lt (pos_of_mem_powers (List.getElem_mem hi)).2

theorem gfExp_ne_zero {i : Nat} (h : i < 510) : gfExp i ≠ 0 := by
  intro h0
  have hnat := toNat_gfExp h
  have hi : i % 255 < (powers 255 1).length := by simp only [length_powers]; omega
  rw [h0, List.getD_eq_getElem _ _ hi] at hnat
  exact absurd hnat.symm (Nat.ne_of_gt (pos_of_mem_powers (List.getElem_mem hi)).1)

theorem gfLog_gfExp {i : Nat} (h : i < 510) : gfLog (gfExp i) = i % 255 := by
  have hi : i % 255 < (powers 255 1).length := by simp only [length_powers]; omega
  rw [gfLog, if_neg (gfExp_ne_zero h), toNat_gfExp h, List.getD_eq_getElem _ _ hi]
  exact nodup_powers.idxOf_getElem _ hi

/-! ## Products -/

@[simp] theorem gfMul_zero (a : UInt8) : gfMul a 0 = 0 := by simp [gfMul]

@[simp] theorem zero_gfMul (b : UInt8) : gfMul 0 b = 0 := by simp [gfMul]

@[simp] theorem one_gfMul (b : UInt8) : gfMul 1 b = b := by
  by_cases hb : b = 0
  · simp [hb]
  · have hlog : gfLog 1 = 0 := rfl
    simp [gfMul, hb, hlog, gfExp_gfLog hb]

theorem gfMul_eq_gfExp {a b : UInt8} (ha : a ≠ 0) (hb : b ≠ 0) :
    gfMul a b = gfExp (gfLog a + gfLog b) := by
  simp [gfMul, ha, hb]

/-- Scaling by a nonzero coefficient is undone by its inverse. -/
theorem gfInv_gfMul {c : UInt8} (hc : c ≠ 0) (x : UInt8) : gfMul (gfInv c) (gfMul c x) = x := by
  by_cases hx : x = 0
  · simp [hx]
  have hcl := gfLog_lt hc
  have hxl := gfLog_lt hx
  have hinv : gfInv c = gfExp (255 - gfLog c) := by simp [gfInv, hc]
  have hprod : gfMul c x = gfExp (gfLog c + gfLog x) := gfMul_eq_gfExp hc hx
  have hsum : ((255 - gfLog c) % 255 + (gfLog c + gfLog x) % 255) % 255 = gfLog x := by
    omega
  rw [hinv, hprod, gfMul_eq_gfExp (gfExp_ne_zero (by omega)) (gfExp_ne_zero (by omega)),
    gfLog_gfExp (by omega), gfLog_gfExp (by omega), gfExp_mod (by omega), hsum]
  exact gfExp_gfLog hx

/-! ## Vectors -/

@[simp] theorem length_axpy (dst : List UInt8) (a : UInt8) (src : List UInt8) :
    (axpy dst a src).length = dst.length := by
  unfold axpy
  split_ifs <;> simp <;> omega

@[simp] theorem length_scalInplace (dst : List UInt8) (a : UInt8) :
    (scalInplace dst a).length = dst.length := by
  unfold scalInplace
  split_ifs <;> simp

private theorem getD_zipWith_drop (f : UInt8 → UInt8 → UInt8) (hf : ∀ d, f d 0 = d)
    (dst src : List UInt8) (p : Nat) (hlen : src.length ≤ dst.length) :
    (dst.zipWith f src ++ dst.drop src.length).getD p 0 = f (dst.getD p 0) (src.getD p 0) := by
  have hz : (dst.zipWith f src).length = src.length := by simp [hlen]
  rcases Nat.lt_or_ge p src.length with hp | hp
  · rw [List.getD_append _ _ _ _ (by omega), List.getD_eq_getElem _ _ (by omega),
      List.getD_eq_getElem _ _ (by omega), List.getD_eq_getElem _ _ hp, List.getElem_zipWith]
  · rw [List.getD_append_right _ _ _ _ (by omega), hz, List.getD_eq_default src _ hp, hf]
    simp only [List.getD_eq_getElem?_getD, List.getElem?_drop]
    congr 2
    omega

/-- Every byte of an `axpy` is the scalar formula, whichever coefficient path ran. -/
theorem getD_axpy (dst : List UInt8) (a : UInt8) (src : List UInt8) (p : Nat)
    (hlen : src.length ≤ dst.length) :
    (axpy dst a src).getD p 0 = dst.getD p 0 ^^^ gfMul a (src.getD p 0) := by
  unfold axpy
  split_ifs with h0 h1
  · simp [h0]
  · rw [getD_zipWith_drop _ (by simp) _ _ _ hlen, h1, one_gfMul]
  · rw [getD_zipWith_drop _ (by simp) _ _ _ hlen]

theorem getD_scalInplace (dst : List UInt8) (a : UInt8) (p : Nat) :
    (scalInplace dst a).getD p 0 = gfMul a (dst.getD p 0) := by
  unfold scalInplace
  split_ifs with h0 h1
  · rcases Nat.lt_or_ge p dst.length with hp | hp
    · rw [List.getD_eq_getElem _ _ (by simpa using hp), List.getElem_map, h0, zero_gfMul]
    · rw [List.getD_eq_default _ _ (by simpa using hp), h0, zero_gfMul]
  · rw [h1, one_gfMul]
  · rcases Nat.lt_or_ge p dst.length with hp | hp
    · rw [List.getD_eq_getElem _ _ (by simpa using hp), List.getElem_map,
        List.getD_eq_getElem _ _ hp]
    · rw [List.getD_eq_default _ _ (by simpa using hp), List.getD_eq_default _ _ hp, gfMul_zero]

end Dlr.Coding
