import Dlr.Coding.Gauss
import Dlr.Coding.Kernels
import Dlr.Lib.FlatMatrix

/-!
# Gaussian elimination in one buffer

The elimination works in place on a row-major buffer: rows are exchanged through two halves of it,
and the normalised pivot row is copied out before it is added to the others. On a buffer of whole
rows it does to them what the elimination on a list of rows does, on every machine.

## Implementation notes

An index or a slice that is out of range is a panic. The products and sums of offsets stay below
the length of the buffer, so they do not overflow.
-/

namespace Dlr.Coding.Flat

open Lib.Elimination Lib.FlatMatrix Lib.Lanes

/-- The first of the rows `rs` with a nonzero entry in `col`. -/
def findPivot (mat : List UInt8) (rowLen col : Nat) : List Nat → Option (Option Nat)
  | [] => some none
  | r :: rs => do
      let entry ← mat[r * rowLen + col]?
      if entry ≠ 0 then some (some r) else findPivot mat rowLen col rs

/-- Exchange row `rank` with the row `p` behind it, which is split off for that. -/
def swapRows (mat : List UInt8) (rowLen rank p : Nat) : Option (List UInt8) :=
  if rank ≠ p then
    if p * rowLen ≤ mat.length then do
      let lo := mat.take (p * rowLen)
      let hi := mat.drop (p * rowLen)
      let upper ← slice lo (rank * rowLen) rowLen
      let lower ← slice hi 0 rowLen
      let lo ← writeSlice lo (rank * rowLen) lower
      let hi ← writeSlice hi 0 upper
      return lo ++ hi
    else none
  else some mat

/-- Clear column `col` in row `r`, unless that is the pivot row. -/
def eliminateRow (cpu : Cpu) (rowLen rank col : Nat) (prow mat : List UInt8) (r : Nat) :
    Option (List UInt8) :=
  if r = rank then some mat
  else do
    let f ← mat[r * rowLen + col]?
    if f = 0 then some mat
    else
      let row ← slice mat (r * rowLen) rowLen
      let row ← gfAxpySlice cpu f prow row
      writeSlice mat (r * rowLen) row

/-- Normalise the pivot row and clear its column in all others. -/
def eliminateColumn (cpu : Cpu) (rowLen n rank col : Nat) (mat : List UInt8) :
    Option (List UInt8) := do
  let pv ← mat[rank * rowLen + col]?
  let inv := gfExp (255 - gfLog pv)
  let row ← slice mat (rank * rowLen) rowLen
  let row ← gfScalSlice cpu inv row
  let mat ← writeSlice mat (rank * rowLen) row
  let prow ← slice mat (rank * rowLen) rowLen
  (List.range n).foldlM (eliminateRow cpu rowLen rank col prow) mat

def gaussColumns (cpu : Cpu) (rowLen n : Nat) (mat : List UInt8) (rank : Nat) :
    List Nat → Option (Nat × List UInt8)
  | [] => some (rank, mat)
  | col :: cols => do
      match ← findPivot mat rowLen col (List.range' rank (n - rank)) with
      | none => gaussColumns cpu rowLen n mat rank cols
      | some p =>
          let mat ← swapRows mat rowLen rank p
          let mat ← eliminateColumn cpu rowLen n rank col mat
          if rank + 1 = n then return (rank + 1, mat)
          else gaussColumns cpu rowLen n mat (rank + 1) cols

def gfGaussEliminate (cpu : Cpu) (mat : List UInt8) (rowLen k : Nat) : Option (Nat × List UInt8) :=
  if rowLen = 0 then some (0, mat)
  else gaussColumns cpu rowLen (mat.length / rowLen) mat 0 (List.range k)

/-! ## The buffer and its rows -/

section Rows

variable {rows : List (List UInt8)} {rowLen col rank p : Nat}

theorem getElem?_entry (h : ∀ row ∈ rows, row.length = rowLen) (hcol : col < rowLen) {r : Nat}
    {row : List UInt8} (hr : rows[r]? = some row) :
    rows.flatten[r * rowLen + col]? = some (row.getD col 0) := by
  have hlen := length_of_getElem? h hr
  rw [getElem?_flatten_of_rows h hr hcol, List.getElem?_eq_getElem (by omega),
    List.getD_eq_getElem _ _ (by omega)]

theorem findPivot_flatten (h : ∀ row ∈ rows, row.length = rowLen) (hcol : col < rowLen) :
    findPivot rows.flatten rowLen col (List.range' rank (rows.length - rank)) =
      some (Coding.findPivot rows rank col) := by
  have hall : ∀ rs : List Nat, (∀ r ∈ rs, r < rows.length) →
      findPivot rows.flatten rowLen col rs =
        some (rs.find? fun r => (rows.getD r []).getD col 0 ≠ 0) := by
    intro rs hrs
    induction rs with
    | nil => rfl
    | cons r rest ih =>
        have hr := hrs r List.mem_cons_self
        rw [findPivot, getElem?_entry h hcol (List.getElem?_eq_getElem hr), Option.bind_eq_bind,
          Option.bind_some, List.find?_cons, List.getD_eq_getElem rows [] hr]
        split_ifs with hentry
        · rw [decide_eq_true hentry]
        · rw [decide_eq_false hentry]
          exact ih fun x hx => hrs x (List.mem_cons_of_mem r hx)
  apply hall
  intro r hr
  have hmem := List.mem_range'_1.mp hr
  omega

theorem swapRows_flatten (h : ∀ row ∈ rows, row.length = rowLen) (hle : rank ≤ p)
    (hp : p < rows.length) :
    swapRows rows.flatten rowLen rank p = some (Coding.swapRows rows rank p).flatten := by
  have hrank : rank < rows.length := by omega
  unfold swapRows Coding.swapRows
  rw [List.getD_eq_getElem rows [] hrank, List.getD_eq_getElem rows [] hp]
  split_ifs with hne hfit
  · -- the row to be moved up is the first one of the split-off half
    have hlo : ∀ row ∈ rows.take p, row.length = rowLen := fun w hw => h w (List.mem_of_mem_take hw)
    have hhi : ∀ row ∈ rows.drop p, row.length = rowLen := fun w hw => h w (List.mem_of_mem_drop hw)
    have hupper : (rows.take p)[rank]? = some rows[rank] := by
      rw [List.getElem?_take_of_lt (by omega), List.getElem?_eq_getElem hrank]
    have hlower : (rows.drop p)[0]? = some rows[p] := by
      rw [List.getElem?_drop, Nat.add_zero, List.getElem?_eq_getElem hp]
    have hsliceHi := slice_flatten hhi hlower
    have hwriteLo := writeSlice_flatten hlo (List.getElem?_eq_some_iff.mp hupper).1
      (h rows[p] (List.getElem_mem hp))
    have hwriteHi := writeSlice_flatten hhi (List.getElem?_eq_some_iff.mp hlower).1
      (h rows[rank] (List.getElem_mem hrank))
    rw [Nat.zero_mul] at hsliceHi hwriteHi
    rw [take_flatten h hp, drop_flatten h hp]
    dsimp only
    rw [slice_flatten hlo hupper, hsliceHi]
    simp only [Option.bind_eq_bind, Option.bind_some]
    rw [hwriteLo, Option.bind_some, hwriteHi, Option.bind_some, ← List.flatten_append]
    congr 2
    have hsplit : ∀ w, rows.set rank w = (rows.take p).set rank w ++ rows.drop p := by
      intro w
      conv_lhs => rw [← List.take_append_drop p rows]
      rw [List.set_append_left _ _ (List.getElem?_eq_some_iff.mp hupper).1]
    have hlength : ((rows.take p).set rank rows[p]).length = p := by
      rw [List.length_set, List.length_take, Nat.min_eq_left hp.le]
    rw [hsplit, List.set_append_right _ _ hlength.le, hlength, Nat.sub_self]
  · have hle' : p * rowLen ≤ rows.length * rowLen := Nat.mul_le_mul_right rowLen hp.le
    rw [length_flatten_of_rows h] at hfit
    exact absurd hle' hfit
  · obtain rfl : rank = p := not_not.mp hne
    rw [List.set_getElem_self, List.set_getElem_self]

/-- What the elimination of a column does to row `r`. -/
def cleared (rank col : Nat) (prow : List UInt8) (r : Nat) (row : List UInt8) : List UInt8 :=
  if r = rank then row else clearColumn col prow row

theorem length_cleared (rank col : Nat) (prow : List UInt8) (r : Nat) (row : List UInt8) :
    (cleared rank col prow r row).length = row.length := by
  unfold cleared
  split_ifs <;> simp

theorem length_updateRange_cleared (h : ∀ row ∈ rows, row.length = rowLen) (rank col : Nat)
    (prow : List UInt8) (lo hi : Nat) : ∀ row ∈ updateRange (cleared rank col prow) lo hi rows, row.length = rowLen := by
  intro row hrow
  obtain ⟨j, hj⟩ := List.getElem?_of_mem hrow
  rw [getElem?_updateRange] at hj
  obtain ⟨w, hw, rfl⟩ := Option.map_eq_some_iff.mp hj
  have hlen := length_of_getElem? h hw
  split_ifs
  · rw [length_cleared, hlen]
  · exact hlen

theorem eliminateRow_flatten (cpu : Cpu) (h : ∀ row ∈ rows, row.length = rowLen)
    (hcol : col < rowLen) (prow : List UInt8) {r : Nat} (hr : r < rows.length) :
    eliminateRow cpu rowLen rank col prow rows.flatten r =
      some (updateRange (cleared rank col prow) r (r + 1) rows).flatten := by
  have hrow := List.getElem?_eq_getElem hr
  rw [← set_eq_updateRange _ hrow, eliminateRow, cleared]
  split_ifs with hpivot
  · rw [List.set_getElem_self]
  · rw [getElem?_entry h hcol hrow, Option.bind_eq_bind, Option.bind_some, clearColumn]
    split_ifs with hzero
    · rw [List.set_getElem_self]
    · have hlen : (axpy rows[r] (rows[r].getD col 0) prow).length = rowLen := by
        rw [length_axpy]
        exact h _ (List.getElem_mem hr)
      rw [slice_flatten h hrow, Option.bind_eq_bind, Option.bind_some, gfAxpySlice_eq_axpy,
        Option.bind_some, writeSlice_flatten h hr hlen]

theorem foldlM_eliminateRow (cpu : Cpu) (h : ∀ row ∈ rows, row.length = rowLen) (rank : Nat)
    (hcol : col < rowLen) (prow : List UInt8) {m : Nat} (hm : m ≤ rows.length) :
    (List.range m).foldlM (eliminateRow cpu rowLen rank col prow) rows.flatten =
      some (updateRange (cleared rank col prow) 0 m rows).flatten := by
  induction m with
  | zero =>
      rw [updateRange_empty _ (le_refl 0)]
      rfl
  | succ m ih =>
      have hrows := length_updateRange_cleared h rank col prow 0 m
      rw [List.range_succ, List.foldlM_append, ih (by omega), Option.bind_eq_bind,
        Option.bind_some, List.foldlM_cons,
        eliminateRow_flatten cpu hrows hcol prow (by rw [length_updateRange]; omega),
        updateRange_updateRange _ (Nat.zero_le m) (Nat.le_succ m)]
      rfl

theorem eliminateColumn_flatten (cpu : Cpu) (h : ∀ row ∈ rows, row.length = rowLen)
    (hcol : col < rowLen) {row : List UInt8} (hrow : rows[rank]? = some row) :
    eliminateColumn cpu rowLen rows.length rank col rows.flatten =
      some (Coding.eliminateColumn
        (rows.set rank (scalInplace row (gfExp (255 - gfLog (row.getD col 0))))) rank col
        (scalInplace row (gfExp (255 - gfLog (row.getD col 0))))).flatten := by
  have hrank := (List.getElem?_eq_some_iff.mp hrow).1
  unfold eliminateColumn
  rw [getElem?_entry h hcol hrow, Option.bind_eq_bind, Option.bind_some]
  dsimp only
  generalize gfExp (255 - gfLog (row.getD col 0)) = inv
  have hlen : (scalInplace row inv).length = rowLen := by
    rw [length_scalInplace, length_of_getElem? h hrow]
  have hset := forall_mem_set h rank hlen
  have hpivot : (rows.set rank (scalInplace row inv))[rank]? = some (scalInplace row inv) :=
    List.getElem?_set_self hrank
  have hall := foldlM_eliminateRow cpu hset rank hcol (scalInplace row inv) (le_refl _)
  rw [updateRange_all, List.length_set] at hall
  rw [slice_flatten h hrow]
  simp only [Option.bind_eq_bind, Option.bind_some]
  rw [gfScalSlice_eq_scalInplace, Option.bind_some, writeSlice_flatten h hrank hlen,
    Option.bind_some, slice_flatten hset hpivot, Option.bind_some, hall]
  rfl

theorem pivotStep_flatten (cpu : Cpu) (h : ∀ row ∈ rows, row.length = rowLen)
    (hcol : col < rowLen) (hle : rank ≤ p) (hp : p < rows.length) :
    (swapRows rows.flatten rowLen rank p >>= eliminateColumn cpu rowLen rows.length rank col) =
      some (pivotStep rows rank col p).flatten := by
  have hrank : rank < rows.length := by omega
  have hswap : ∀ row ∈ Coding.swapRows rows rank p, row.length = rowLen := by
    intro row hmem
    obtain ⟨j, hj⟩ := List.getElem?_of_mem hmem
    rw [getElem?_swapRows hrank hp] at hj
    exact length_of_getElem? h hj
  have hlength : (Coding.swapRows rows rank p).length = rows.length := by
    rw [Coding.swapRows, List.length_set, List.length_set]
  have hpivot := getElem?_swapRows hrank hp rank
  rw [if_pos rfl, List.getElem?_eq_getElem hp] at hpivot
  have hstep := eliminateColumn_flatten cpu hswap hcol hpivot
  rw [hlength] at hstep
  rw [swapRows_flatten h hle hp, Option.bind_eq_bind, Option.bind_some, hstep, pivotStep,
    getD_swapRows hrank (List.getElem?_eq_getElem hp)]

/-- The loop over the columns is the one over rows. -/
theorem gaussColumns_flatten (cpu : Cpu) (h : ∀ row ∈ rows, row.length = rowLen) (cols : List Nat)
    (hcols : ∀ c ∈ cols, c < rowLen) :
    gaussColumns cpu rowLen rows.length rows.flatten rank cols =
      some ((Coding.gaussColumns rows rank cols).1,
        (Coding.gaussColumns rows rank cols).2.flatten) := by
  induction cols generalizing rows rank with
  | nil => rfl
  | cons col cols ih =>
      have hcol := hcols col List.mem_cons_self
      have hrest : ∀ c ∈ cols, c < rowLen := fun c hc => hcols c (List.mem_cons_of_mem col hc)
      rw [gaussColumns, findPivot_flatten h hcol]
      cases hfind : Coding.findPivot rows rank col with
      | none =>
          rw [gaussColumns_none hfind]
          exact ih h hrest
      | some p =>
          obtain ⟨hle, row, hp, hne⟩ := findPivot_some hfind
          have hplt := (List.getElem?_eq_some_iff.mp hp).1
          have hstep := pivotStep_flatten cpu h hcol hle hplt
          have hrows : ∀ w ∈ pivotStep rows rank col p, w.length = rowLen := by
            intro w hw
            obtain rfl | ⟨w₀, hw₀, rfl⟩ := mem_pivotStep (hle.trans_lt hplt) hp hne hw
            · rw [length_normalized, length_of_getElem? h hp]
            · rw [length_clearColumn, h w₀ hw₀]
          have hnext := @ih _ (rank + 1) hrows hrest
          rw [length_pivotStep] at hnext
          rw [gaussColumns_some hfind, length_pivotStep]
          simp only [Option.bind_eq_bind, Option.bind_some] at hstep ⊢
          rw [← Option.bind_assoc, hstep, Option.bind_some]
          split_ifs with hfull
          · rfl
          · exact hnext

end Rows

/-- The elimination in one buffer is the elimination of its rows. -/
theorem gfGaussEliminate_flatten (cpu : Cpu) {rows : List (List UInt8)} {rowLen k : Nat}
    (h : ∀ row ∈ rows, row.length = rowLen) (hpos : 0 < rowLen) (hk : k ≤ rowLen) :
    gfGaussEliminate cpu rows.flatten rowLen k =
      some ((Coding.gfGaussEliminate rows rowLen k).1,
        (Coding.gfGaussEliminate rows rowLen k).2.flatten) := by
  have hcount : rows.flatten.length / rowLen = rows.length := by
    rw [length_flatten_of_rows h, Nat.mul_div_cancel _ hpos]
  rw [gfGaussEliminate, Coding.gfGaussEliminate, if_neg hpos.ne', if_neg hpos.ne', hcount]
  apply gaussColumns_flatten cpu h
  intro c hc
  exact (List.mem_range.mp hc).trans_le hk

/-- On a buffer of whole rows the elimination returns the rank of the leading columns, keeps the
row space, and leaves the rows in reduced echelon form on these columns: there are as many pivots
as the rank, and the rows behind them are zero there. -/
theorem gfGaussEliminate_correct (cpu : Cpu) {rowLen k m : Nat} {mat : List UInt8}
    (hmat : mat.length = m * rowLen) (hk : k ≤ rowLen) :
    ∃ rank out pivots, gfGaussEliminate cpu mat rowLen k = some (rank, out) ∧
      out.length = mat.length ∧ rank = leadingRank k ((rowsOf rowLen mat).map vec) ∧
      rowSpace ((rowsOf rowLen out).map vec) = rowSpace ((rowsOf rowLen mat).map vec) ∧
      pivots.length = rank ∧ Echelon ((rowsOf rowLen out).map vec) pivots k := by
  rcases Nat.eq_zero_or_pos rowLen with rfl | hpos
  · obtain rfl := Nat.le_zero.mp hk
    have hechelon := Echelon.init ((rowsOf 0 mat).map vec)
    exact ⟨0, mat, [], rfl, rfl, hechelon.finrank_eq.symm, rfl, rfl, hechelon⟩
  · obtain ⟨hflat, hcount, hrows⟩ := flatten_rowsOf hpos hmat
    obtain ⟨pivots, helim⟩ := gfGaussEliminate_spec hrows hk
    have hout := rowsOf_flatten (helim.rows rowLen hrows) hpos
    have hrun := gfGaussEliminate_flatten cpu hrows hpos hk
    rw [hflat] at hrun
    refine ⟨_, _, pivots, hrun, ?_, ?_, ?_, helim.rank.symm, ?_⟩
    · rw [length_flatten_of_rows (helim.rows rowLen hrows), helim.length, hcount, hmat]
    · rw [leadingRank, ← helim.rowSpace, helim.echelon.finrank_eq, helim.rank]
    · rw [hout, helim.rowSpace]
    · rw [hout]
      exact helim.echelon

theorem gfGaussEliminate_correct_two_rows : ∃ rank out pivots,
    gfGaussEliminate (.x86 true true) [0, 2, 3, 1, 1, 1] 3 2 = some (rank, out) ∧
      out.length = 6 ∧ rank = leadingRank 2 ((rowsOf 3 [0, 2, 3, 1, 1, 1]).map vec) ∧
      rowSpace ((rowsOf 3 out).map vec) = rowSpace ((rowsOf 3 [0, 2, 3, 1, 1, 1]).map vec) ∧
      pivots.length = rank ∧ Echelon ((rowsOf 3 out).map vec) pivots 2 :=
  @gfGaussEliminate_correct (.x86 true true) 3 2 2 [0, 2, 3, 1, 1, 1] rfl (by decide)

end Dlr.Coding.Flat
