import Dlr.Coding.Field
import Dlr.Lib.Elimination

/-!
# Gaussian elimination brings the rows into echelon form

The elimination of the program exchanges rows so that the pivot rows come first, and stops
early when every row has a pivot. Whatever it does, the rows span the same space afterwards
and are in reduced echelon form on the columns of the system.
-/

namespace Dlr.Coding

open Lib.Elimination

/-- Clear column `col` of a row with the pivot row. -/
def clearColumn (col : Nat) (prow row : List UInt8) : List UInt8 :=
  if row.getD col 0 = 0 then row else axpy row (row.getD col 0) prow

@[simp] theorem length_clearColumn (col : Nat) (prow row : List UInt8) :
    (clearColumn col prow row).length = row.length := by
  unfold clearColumn
  split_ifs <;> simp

theorem vec_clearColumn {col : Nat} {prow row : List UInt8} (h : prow.length ≤ row.length) :
    vec (clearColumn col prow row) = vec row + vec row col • vec prow := by
  unfold clearColumn
  split_ifs with hzero
  · have hcoeff : vec row col = 0 := Gf256.ext hzero
    rw [hcoeff, zero_smul, add_zero]
  · exact vec_axpy _ h

/-- A row scaled to have a 1 in column `col`. -/
def normalized (col : Nat) (row : List UInt8) : List UInt8 :=
  scalInplace row (gfInv (row.getD col 0))

@[simp] theorem length_normalized (col : Nat) (row : List UInt8) :
    (normalized col row).length = row.length := length_scalInplace _ _

theorem vec_normalized (col : Nat) (row : List UInt8) :
    vec (normalized col row) = (vec row col)⁻¹ • vec row := vec_scalInplace _ _

theorem normalized_col {col : Nat} {row : List UInt8} (h : vec row col ≠ 0) :
    vec (normalized col row) col = 1 := by
  rw [vec_normalized, Pi.smul_apply, smul_eq_mul, inv_mul_cancel₀ h]

theorem smul_normalized {col : Nat} {row : List UInt8} (h : vec row col ≠ 0) :
    vec row col • vec (normalized col row) = vec row := by
  rw [vec_normalized, smul_smul, mul_inv_cancel₀ h, one_smul]

/-- A cleared row has a 0 in the column. -/
theorem clearColumn_col {col : Nat} {prow row : List UInt8} (h : prow.length ≤ row.length)
    (hone : vec prow col = 1) : vec (clearColumn col prow row) col = 0 := by
  rw [vec_clearColumn h, Pi.add_apply, Pi.smul_apply, hone, smul_eq_mul, mul_one, Gf256.add_self]

/-! ## One column -/

section Column

variable {mat : List (List UInt8)} {len rank col p : Nat}

/-- The matrix after the column `col` with the pivot found in row `p`. -/
def pivotStep (mat : List (List UInt8)) (rank col p : Nat) : List (List UInt8) :=
  let mat := swapRows mat rank p
  let row := mat.getD rank []
  let prow := scalInplace row (gfExp (255 - gfLog (row.getD col 0)))
  eliminateColumn (mat.set rank prow) rank col prow

theorem gaussColumns_none {cols : List Nat} (h : findPivot mat rank col = none) :
    gaussColumns mat rank (col :: cols) = gaussColumns mat rank cols := by
  simp only [gaussColumns, h]

theorem gaussColumns_some {cols : List Nat} (h : findPivot mat rank col = some p) :
    gaussColumns mat rank (col :: cols) =
      if rank + 1 = (pivotStep mat rank col p).length then (rank + 1, pivotStep mat rank col p)
      else gaussColumns (pivotStep mat rank col p) (rank + 1) cols := by
  simp only [gaussColumns, h]
  rfl

theorem findPivot_none (h : findPivot mat rank col = none) :
    ∀ j row, rank ≤ j → mat[j]? = some row → vec row col = 0 := by
  intro j row hj hrow
  obtain ⟨hlt, rfl⟩ := List.getElem?_eq_some_iff.mp hrow
  have hzero := List.find?_eq_none.mp h j (List.mem_range'_1.mpr ⟨hj, by omega⟩)
  rw [List.getD_eq_getElem _ _ hlt] at hzero
  exact Gf256.ext (by simpa [vec] using hzero)

theorem findPivot_some (h : findPivot mat rank col = some p) :
    rank ≤ p ∧ ∃ row, mat[p]? = some row ∧ vec row col ≠ 0 := by
  obtain ⟨hle, hlt⟩ := List.mem_range'_1.mp (List.mem_of_find?_eq_some h)
  have hp : p < mat.length := by omega
  have hne := List.find?_some h
  rw [List.getD_eq_getElem _ _ hp] at hne
  refine ⟨hle, mat[p], List.getElem?_eq_getElem hp, ?_⟩
  intro hzero
  have hbyte : mat[p].getD col 0 = 0 := congrArg Gf256.byte hzero
  rw [hbyte] at hne
  simp at hne

theorem getElem?_swapRows {i j : Nat} (hi : i < mat.length) (hj : j < mat.length) (x : Nat) :
    (swapRows mat i j)[x]? = mat[if x = i then j else if x = j then i else x]? := by
  unfold swapRows
  rw [List.getElem?_set, List.length_set, List.getD_eq_getElem _ _ hi,
    List.getD_eq_getElem _ _ hj]
  by_cases hxj : j = x
  · subst hxj
    rw [if_pos rfl, if_pos hj]
    by_cases hji : j = i
    · subst hji
      rw [if_pos rfl]
      exact (List.getElem?_eq_getElem hj).symm
    · rw [if_neg hji, if_pos rfl]
      exact (List.getElem?_eq_getElem hi).symm
  · rw [if_neg hxj, List.getElem?_set, if_neg (Ne.symm hxj)]
    split_ifs with hix hxi hxi
    · exact (List.getElem?_eq_getElem hj).symm
    · exact absurd hix.symm hxi
    · exact absurd hxi.symm hix
    · rfl

theorem getD_swapRows {row : List UInt8} (hrank : rank < mat.length) (hp : mat[p]? = some row) :
    (swapRows mat rank p).getD rank [] = row := by
  rw [List.getD_eq_getElem?_getD,
    getElem?_swapRows hrank (List.getElem?_eq_some_iff.mp hp).1, if_pos rfl, hp]
  rfl

theorem getElem?_pivotStep {row : List UInt8} (hrank : rank < mat.length)
    (hp : mat[p]? = some row) (hne : vec row col ≠ 0) (j : Nat) :
    (pivotStep mat rank col p)[j]? =
      if j = rank then some (normalized col row)
      else (mat[if j = p then rank else j]?).map (clearColumn col (normalized col row)) := by
  have hplt := (List.getElem?_eq_some_iff.mp hp).1
  have hbyte : row.getD col 0 ≠ 0 := fun hzero => hne (Gf256.ext hzero)
  have hinv : gfExp (255 - gfLog (row.getD col 0)) = gfInv (row.getD col 0) := by
    rw [gfInv, if_neg hbyte]
  simp only [pivotStep, getD_swapRows hrank hp, hinv, eliminateColumn, List.getElem?_mapIdx]
  rw [show scalInplace row (gfInv (row.getD col 0)) = normalized col row from rfl]
  by_cases hj : j = rank
  · subst hj
    simp [swapRows, hrank]
  · rw [if_neg hj, List.getElem?_set_ne (Ne.symm hj), getElem?_swapRows hrank hplt, if_neg hj]
    cases mat[if j = p then rank else j]? with
    | none => rfl
    | some w => simp only [Option.map_some, if_neg hj, clearColumn]

@[simp] theorem length_pivotStep (mat : List (List UInt8)) (rank col p : Nat) :
    (pivotStep mat rank col p).length = mat.length := by
  simp [pivotStep, eliminateColumn, swapRows]

/-- Every row after the step is the pivot row, or a row from before with the column cleared. -/
theorem mem_pivotStep {row row' : List UInt8} (hrank : rank < mat.length)
    (hp : mat[p]? = some row) (hne : vec row col ≠ 0) (h : row' ∈ pivotStep mat rank col p) :
    row' = normalized col row ∨ ∃ w ∈ mat, row' = clearColumn col (normalized col row) w := by
  obtain ⟨j, hj⟩ := List.getElem?_of_mem h
  rw [getElem?_pivotStep hrank hp hne] at hj
  split_ifs at hj with hjr
  · exact Or.inl (Option.some.inj hj).symm
  all_goals
    obtain ⟨w, hw, hclear⟩ := Option.map_eq_some_iff.mp hj
    exact Or.inr ⟨w, List.mem_of_getElem? hw, hclear.symm⟩

/-- The row space does not change. -/
theorem rowSpace_pivotStep {row : List UInt8} (hlen : ∀ w ∈ mat, w.length = len)
    (hrank : rank < mat.length) (hp : mat[p]? = some row) (hne : vec row col ≠ 0) :
    rowSpace ((pivotStep mat rank col p).map vec) = rowSpace (mat.map vec) := by
  have hsize : ∀ w ∈ mat, (normalized col row).length ≤ w.length := by
    intro w hw
    rw [length_normalized, hlen w hw, hlen row (List.mem_of_getElem? hp)]
  apply rowSpace_pivot (vec (normalized col row)) (c := vec row col)
  · rw [smul_normalized hne]
    exact List.mem_map_of_mem (List.mem_of_getElem? hp)
  · exact hne
  · apply List.mem_map_of_mem
    apply List.mem_of_getElem? (i := rank)
    rw [getElem?_pivotStep hrank hp hne, if_pos rfl]
  · intro row' hrow'
    obtain ⟨w', hw', rfl⟩ := List.mem_map.mp hrow'
    obtain rfl | ⟨w, hw, rfl⟩ := mem_pivotStep hrank hp hne hw'
    · exact Or.inl rfl
    · exact Or.inr ⟨vec w, List.mem_map_of_mem hw, _, vec_clearColumn (hsize w hw)⟩
  · intro row' hrow'
    obtain ⟨w, hw, rfl⟩ := List.mem_map.mp hrow'
    obtain ⟨i, hi⟩ := List.getElem?_of_mem hw
    by_cases hip : i = p
    · -- the row that was chosen
      subst hip
      obtain rfl := Option.some.inj (hp.symm.trans hi)
      exact Or.inl (smul_normalized hne).symm
    · -- the row at `rank` has moved to `p`, every other row is where it was
      refine Or.inr ⟨vec w col, ?_⟩
      rw [← vec_clearColumn (hsize w hw)]
      apply List.mem_map_of_mem
      apply List.mem_of_getElem? (i := if i = rank then p else i)
      rw [getElem?_pivotStep hrank hp hne]
      by_cases hir : i = rank
      · subst hir
        rw [if_pos rfl, if_neg (Ne.symm hip), if_pos rfl, hi]
        rfl
      · rw [if_neg hir, if_neg hir, if_neg hip, hi]
        rfl

/-- One more column is in echelon form. -/
theorem echelon_pivotStep {row : List UInt8} {pivots : List Nat}
    (hlen : ∀ w ∈ mat, w.length = len) (h : Echelon (mat.map vec) pivots col)
    (hrank : pivots.length < mat.length) (hle : pivots.length ≤ p) (hp : mat[p]? = some row)
    (hne : vec row col ≠ 0) :
    Echelon ((pivotStep mat pivots.length col p).map vec) (pivots ++ [col]) (col + 1) := by
  have hsize : ∀ w ∈ mat, (normalized col row).length ≤ w.length := by
    intro w hw
    rw [length_normalized, hlen w hw, hlen row (List.mem_of_getElem? hp)]
  apply h.step (vec (normalized col row))
  · simp
  · rw [List.getElem?_map, getElem?_pivotStep hrank hp hne, if_pos rfl]
    rfl
  · exact normalized_col hne
  · intro c hc
    rw [vec_normalized, Pi.smul_apply, h.rest p (vec row) hle (by rw [List.getElem?_map, hp]; rfl)
      c hc, smul_zero]
  · intro j row' hj hrow'
    rw [List.getElem?_map, getElem?_pivotStep hrank hp hne, if_neg hj, Option.map_map] at hrow'
    obtain ⟨w, hw, rfl⟩ := Option.map_eq_some_iff.mp hrow'
    have hfits := hsize w (List.mem_of_getElem? hw)
    refine ⟨clearColumn_col hfits (normalized_col hne), _, vec w, vec w col,
      by rw [List.getElem?_map, hw]; rfl, vec_clearColumn hfits, ?_, ?_⟩
    · intro hlt
      rw [if_neg (by omega)]
    · intro hgt
      split_ifs <;> omega

end Column

/-! ## The whole elimination -/

/-- What an elimination of the columns below `done` leaves. -/
structure Eliminated (mat : List (List UInt8)) (done : Nat) (rank : Nat)
    (mat' : List (List UInt8)) (pivots : List Nat) : Prop where
  echelon : Echelon (mat'.map vec) pivots done
  rank : rank = pivots.length
  rowSpace : rowSpace (mat'.map vec) = rowSpace (mat.map vec)
  length : mat'.length = mat.length
  rows : ∀ len, (∀ row ∈ mat, row.length = len) → ∀ row ∈ mat', row.length = len

theorem Eliminated.init (mat : List (List UInt8)) : Eliminated mat 0 0 mat [] :=
  ⟨Echelon.init _, rfl, rfl, rfl, fun _ hrows => hrows⟩

section Sweep

variable {mat₀ mat : List (List UInt8)} {len col rank p : Nat} {pivots : List Nat}

/-- A column in which no row without a pivot has an entry. -/
theorem Eliminated.skip (h : Eliminated mat₀ col rank mat pivots)
    (hfind : findPivot mat rank col = none) : Eliminated mat₀ (col + 1) rank mat pivots := by
  refine ⟨h.echelon.skip ?_, h.rank, h.rowSpace, h.length, h.rows⟩
  intro j row hj hrow
  rw [List.getElem?_map] at hrow
  obtain ⟨w, hw, rfl⟩ := Option.map_eq_some_iff.mp hrow
  exact findPivot_none hfind j w (h.rank ▸ hj) hw

/-- A column with a pivot. -/
theorem Eliminated.step (hlen : ∀ row ∈ mat₀, row.length = len)
    (h : Eliminated mat₀ col rank mat pivots) (hfind : findPivot mat rank col = some p) :
    Eliminated mat₀ (col + 1) (rank + 1) (pivotStep mat rank col p) (pivots ++ [col]) := by
  obtain ⟨hle, row, hp, hne⟩ := findPivot_some hfind
  have hrank : rank < mat.length := hle.trans_lt (List.getElem?_eq_some_iff.mp hp).1
  have hrows := h.rows len hlen
  have hechelon : Echelon ((pivotStep mat rank col p).map vec) (pivots ++ [col]) (col + 1) := by
    have hstep := echelon_pivotStep hrows h.echelon (h.rank ▸ hrank) (h.rank ▸ hle) hp hne
    rwa [← h.rank] at hstep
  refine ⟨hechelon, by simp [h.rank], (rowSpace_pivotStep hrows hrank hp hne).trans h.rowSpace,
    (length_pivotStep _ _ _ _).trans h.length, ?_⟩
  intro len' hlen' w hw
  obtain rfl | ⟨w₀, hw₀, rfl⟩ := mem_pivotStep hrank hp hne hw
  · rw [length_normalized]
    exact h.rows len' hlen' _ (List.mem_of_getElem? hp)
  · rw [length_clearColumn]
    exact h.rows len' hlen' _ hw₀

/-- The elimination of `n` more columns. -/
theorem gaussColumns_spec (hlen : ∀ row ∈ mat₀, row.length = len)
    (h : Eliminated mat₀ col rank mat pivots) (n : Nat) :
    ∃ pivots', Eliminated mat₀ (col + n) (gaussColumns mat rank (List.range' col n)).1
      (gaussColumns mat rank (List.range' col n)).2 pivots' := by
  induction n generalizing mat pivots col rank with
  | zero => exact ⟨pivots, h⟩
  | succ n ih =>
      rw [List.range'_succ, show col + (n + 1) = col + 1 + n by omega]
      cases hfind : findPivot mat rank col with
      | none =>
          rw [gaussColumns_none hfind]
          exact ih (h.skip hfind)
      | some p =>
          have hstep := h.step hlen hfind
          rw [gaussColumns_some hfind]
          split_ifs with hfull
          · -- every row has its pivot, so the loop stops before the last column
            refine ⟨pivots ++ [col], hstep.echelon.extend ?_ (by omega), hstep.rank,
              hstep.rowSpace, hstep.length, hstep.rows⟩
            rw [List.length_map, ← hfull, hstep.rank]
          · exact ih hstep

end Sweep

/-- The elimination keeps the row space and brings the first `k` columns into reduced echelon
form; the number it returns is the number of pivots. -/
theorem gfGaussEliminate_spec {mat : List (List UInt8)} {rowLen k : Nat}
    (hlen : ∀ row ∈ mat, row.length = rowLen) (hk : k ≤ rowLen) :
    ∃ pivots, Eliminated mat k (gfGaussEliminate mat rowLen k).1
      (gfGaussEliminate mat rowLen k).2 pivots := by
  unfold gfGaussEliminate
  split_ifs with hzero
  · obtain rfl : k = 0 := by omega
    exact ⟨[], Eliminated.init mat⟩
  · have hspec := gaussColumns_spec hlen (Eliminated.init mat) k
    rwa [Nat.zero_add, ← List.range_eq_range'] at hspec

section Outcome

variable {mat₀ mat : List (List UInt8)} {done rank : Nat} {pivots : List Nat}

/-- Whatever subspace the given rows lie in, the eliminated ones lie in it too. -/
theorem Eliminated.mem_of_rows (h : Eliminated mat₀ done rank mat pivots)
    {W : Submodule Gf256 (Nat → Gf256)} (hrows : ∀ row ∈ mat₀, vec row ∈ W) :
    ∀ row ∈ mat, vec row ∈ W := by
  have hle : Lib.Elimination.rowSpace (mat.map vec) ≤ W := by
    rw [h.rowSpace, rowSpace_le]
    intro v hv
    obtain ⟨row, hrow, rfl⟩ := List.mem_map.mp hv
    exact hrows row hrow
  intro row hrow
  exact hle (mem_rowSpace (List.mem_map_of_mem hrow))

theorem Eliminated.rank_le (h : Eliminated mat₀ done rank mat pivots) : rank ≤ mat₀.length := by
  have hlength := h.echelon.length_le
  rw [List.length_map, h.length] at hlength
  exact h.rank.trans_le hlength

/-- The given rows span the columns done so far exactly when each of these has its pivot. -/
theorem Eliminated.spans_iff (h : Eliminated mat₀ done rank mat pivots) :
    Spans done (mat₀.map vec) ↔ rank = done := by
  have hiff := h.echelon.spans_iff
  rw [Spans, h.rowSpace] at hiff
  rw [h.rank]
  exact hiff

end Outcome

/-! ## Reading a solution off -/

/-- The rows that are true equations about the symbols `x`: what stands behind the first `k`
columns is the combination of the symbols with these columns as coefficients. -/
def equations (k : Nat) (x : List (List UInt8)) : Submodule Gf256 (Nat → Gf256) where
  carrier := {row | ∀ p, row (k + p) = ∑ j ∈ Finset.range k, row j * vec (x.getD j []) p}
  zero_mem' := by simp
  add_mem' := by
    intro a b ha hb p
    simp only [Pi.add_apply, ha p, hb p, add_mul, Finset.sum_add_distrib]
  smul_mem' := by
    intro c a ha p
    simp only [Pi.smul_apply, smul_eq_mul, ha p, Finset.mul_sum, mul_assoc]

theorem mem_equations {k : Nat} {x : List (List UInt8)} {row : Nat → Gf256} :
    row ∈ equations k x ↔
      ∀ p, row (k + p) = ∑ j ∈ Finset.range k, row j * vec (x.getD j []) p := Iff.rfl

theorem vec_drop (row : List UInt8) (k p : Nat) : vec (row.drop k) p = vec row (k + p) := by
  simp [vec, List.getD_eq_getElem?_getD, List.getElem?_drop]

theorem vec_append {row : List UInt8} {k : Nat} (h : row.length = k) (tail : List UInt8) (p : Nat) :
    vec (row ++ tail) p = if p < k then vec row p else vec tail (p - k) := by
  split_ifs with hp
  · simp [vec, List.getD_eq_getElem?_getD, List.getElem?_append_left (h ▸ hp)]
  · simp [vec, List.getD_eq_getElem?_getD, List.getElem?_append_right (by omega : row.length ≤ p), h]

/-- Coefficients and the combination they give make a true equation. -/
theorem append_mem_equations {k : Nat} {x : List (List UInt8)} {coeffs payload : List UInt8}
    (hlen : coeffs.length = k)
    (h : vec payload = ∑ j ∈ Finset.range k, vec coeffs j • vec (x.getD j [])) :
    vec (coeffs ++ payload) ∈ equations k x := by
  rw [mem_equations]
  intro p
  rw [vec_append hlen, if_neg (by omega), Nat.add_sub_cancel_left, h, Finset.sum_apply]
  apply Finset.sum_congr rfl
  intro j hj
  rw [vec_append hlen, if_pos (Finset.mem_range.mp hj)]
  rfl

/-- A loop that adds multiples of symbols, skipping the zero coefficients. -/
theorem vec_foldl_axpy (js : List Nat) (coeff : Nat → UInt8) (symbol : Nat → List UInt8)
    (out : List UInt8) (h : ∀ j ∈ js, (symbol j).length ≤ out.length) :
    vec (js.foldl (fun out j => if coeff j = 0 then out else axpy out (coeff j) (symbol j)) out) =
      vec out + (js.map fun j => (⟨coeff j⟩ : Gf256) • vec (symbol j)).sum := by
  induction js generalizing out with
  | nil => simp
  | cons j rest ih =>
      rw [List.foldl_cons, List.map_cons, List.sum_cons, ← add_assoc]
      split_ifs with hzero
      · have hcoeff : (⟨coeff j⟩ : Gf256) = 0 := Gf256.ext hzero
        rw [hcoeff, zero_smul, add_zero]
        exact ih out fun i hi => h i (List.mem_cons_of_mem _ hi)
      · rw [ih, vec_axpy _ (h j List.mem_cons_self)]
        intro i hi
        rw [length_axpy]
        exact h i (List.mem_cons_of_mem _ hi)

theorem length_foldl_axpy (js : List Nat) (coeff : Nat → UInt8) (symbol : Nat → List UInt8)
    (out : List UInt8) :
    (js.foldl (fun out j => if coeff j = 0 then out else axpy out (coeff j) (symbol j))
      out).length = out.length := by
  induction js generalizing out with
  | nil => rfl
  | cons j rest ih =>
      rw [List.foldl_cons, ih]
      split_ifs <;> simp

theorem vec_replicate_zero (n : Nat) : vec (List.replicate n 0) = 0 := by
  ext1 p
  apply Gf256.ext
  simp only [vec, List.getD_eq_getElem?_getD, List.getElem?_replicate]
  split_ifs <;> rfl

/-- The combination that a loop over the first `k` symbols computes. -/
theorem vec_combination {k size : Nat} (coeff : Nat → UInt8) {x : List (List UInt8)}
    (h : ∀ j < k, (x.getD j []).length ≤ size) :
    vec ((List.range k).foldl
      (fun out j => if coeff j = 0 then out else axpy out (coeff j) (x.getD j []))
      (List.replicate size 0)) =
      ∑ j ∈ Finset.range k, (⟨coeff j⟩ : Gf256) • vec (x.getD j []) := by
  rw [vec_foldl_axpy, vec_replicate_zero, zero_add]
  · rfl
  · intro j hj
    rw [List.length_replicate]
    exact h j (List.mem_range.mp hj)

/-- A true equation with a single coefficient 1 holds the symbol itself. -/
theorem drop_of_unit {k p : Nat} {x : List (List UInt8)} {row : List UInt8}
    (hlen : row.length = k + (x.getD p []).length) (hp : p < k)
    (hunit : ∀ c < k, vec row c = if c = p then 1 else 0) (heq : vec row ∈ equations k x) :
    row.drop k = x.getD p [] := by
  apply eq_of_vec_eq
  · rw [List.length_drop, hlen]
    omega
  · ext1 q
    have hsum : ∑ j ∈ Finset.range k, vec row j * vec (x.getD j []) q = vec (x.getD p []) q := by
      rw [Finset.sum_eq_single p]
      · rw [hunit p hp, if_pos rfl, one_mul]
      · intro j hj hne
        rw [hunit j (Finset.mem_range.mp hj), if_neg hne, zero_mul]
      · intro habs
        exact absurd (Finset.mem_range.mpr hp) habs
    rw [vec_drop, heq q, hsum]

/-- After entries have been written to their places, a place holds one of the entries written to
it, or what it held before. -/
theorem getElem?_foldl_set {α : Type} (items : List (Nat × α)) (out : List α) {c : Nat}
    (hc : c < out.length) :
    (c ∉ items.map Prod.fst ∧ (items.foldl (fun out e => out.set e.1 e.2) out)[c]? = out[c]?) ∨
      ∃ e ∈ items, e.1 = c ∧ (items.foldl (fun out e => out.set e.1 e.2) out)[c]? = some e.2 := by
  induction items generalizing out with
  | nil => exact Or.inl ⟨by simp, rfl⟩
  | cons e rest ih =>
      rw [List.foldl_cons]
      rcases ih (out.set e.1 e.2) (by rwa [List.length_set]) with ⟨hnot, hsame⟩ | ⟨e', he', hval⟩
      · by_cases hce : e.1 = c
        · refine Or.inr ⟨e, List.mem_cons_self, hce, ?_⟩
          rw [hsame, hce, List.getElem?_set_self hc]
        · refine Or.inl ⟨?_, ?_⟩
          · rw [List.map_cons, List.mem_cons, not_or]
            exact ⟨Ne.symm hce, hnot⟩
          · rw [hsame, List.getElem?_set_ne hce]
      · exact Or.inr ⟨e', List.mem_cons_of_mem _ he', hval⟩

theorem length_foldl_set {α : Type} (items : List (Nat × α)) (out : List α) :
    (items.foldl (fun out e => out.set e.1 e.2) out).length = out.length := by
  induction items generalizing out with
  | nil => rfl
  | cons e rest ih => rw [List.foldl_cons, ih, List.length_set]

/-- Writing every entry of a list to its place, in any order, gives the list. -/
theorem foldl_set_eq {α : Type} {x : List α} (items : List (Nat × α)) (out : List α)
    (hlen : out.length = x.length) (hval : ∀ e ∈ items, x[e.1]? = some e.2)
    (hall : ∀ c < x.length, c ∈ items.map Prod.fst ∨ out[c]? = x[c]?) :
    items.foldl (fun out e => out.set e.1 e.2) out = x := by
  apply List.ext_getElem?
  intro c
  by_cases hc : c < x.length
  · rcases getElem?_foldl_set items out (hlen ▸ hc) with ⟨hnot, hsame⟩ | ⟨e, he, rfl, hset⟩
    · rw [hsame]
      exact (hall c hc).resolve_left hnot
    · rw [hset, hval e he]
  · rw [List.getElem?_eq_none (by rw [length_foldl_set]; omega), List.getElem?_eq_none (by omega)]

end Dlr.Coding
