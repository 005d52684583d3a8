import Mathlib.Data.List.Basic
import Mathlib.Data.List.TakeDrop

/-!
# Matrices in one buffer

A buffer of whole rows is the concatenation of its rows. Reading, overwriting and exchanging rows
through their offsets is the same as doing so in the list of rows.
-/

namespace Dlr.Lib.FlatMatrix

variable {α : Type*}

/-- The elements from `off` on, `len` of them. -/
def slice (s : List α) (off len : Nat) : Option (List α) :=
  if off + len ≤ s.length then some ((s.drop off).take len) else none

/-- Overwrite the elements from `off` on. -/
def writeSlice (s : List α) (off : Nat) (row : List α) : Option (List α) :=
  if off + row.length ≤ s.length then some (s.take off ++ (row ++ s.drop (off + row.length)))
  else none

/-- The whole rows of a buffer. -/
def rowsOf (len : Nat) (s : List α) : List (List α) :=
  (List.range (s.length / len)).map fun r => (s.drop (r * len)).take len

section Flatten

variable {rows : List (List α)} {len : Nat}

theorem length_flatten_of_rows (h : ∀ row ∈ rows, row.length = len) :
    rows.flatten.length = rows.length * len := by
  induction rows with
  | nil => simp
  | cons row rest ih =>
      rw [List.flatten_cons, List.length_append, ih fun w hw => h w (List.mem_cons_of_mem _ hw),
        h row List.mem_cons_self, List.length_cons, Nat.succ_mul, Nat.add_comm]

/-- The buffer around one of its rows. -/
theorem flatten_around (h : ∀ row ∈ rows, row.length = len) {r : Nat} {row : List α}
    (hr : rows[r]? = some row) :
    rows.flatten = (rows.take r).flatten ++ (row ++ (rows.drop (r + 1)).flatten) ∧
      (rows.take r).flatten.length = r * len := by
  obtain ⟨hlt, rfl⟩ := List.getElem?_eq_some_iff.mp hr
  constructor
  · calc rows.flatten = (rows.take r ++ rows.drop r).flatten := by rw [List.take_append_drop]
      _ = (rows.take r).flatten ++ (rows[r] ++ (rows.drop (r + 1)).flatten) := by
          rw [List.flatten_append, List.drop_eq_getElem_cons hlt, List.flatten_cons]
  · rw [length_flatten_of_rows fun w hw => h w (List.mem_of_mem_take hw), List.length_take,
      Nat.min_eq_left (Nat.le_of_lt hlt)]

theorem length_of_getElem? (h : ∀ row ∈ rows, row.length = len) {r : Nat} {row : List α}
    (hr : rows[r]? = some row) : row.length = len :=
  h row (List.mem_of_getElem? hr)

theorem forall_mem_set (h : ∀ row ∈ rows, row.length = len) (r : Nat) {row : List α}
    (hrow : row.length = len) : ∀ w ∈ rows.set r row, w.length = len := by
  intro w hw
  rcases List.mem_or_eq_of_mem_set hw with hmem | rfl
  · exact h w hmem
  · exact hrow

theorem take_flatten (h : ∀ row ∈ rows, row.length = len) {r : Nat} (hr : r < rows.length) :
    rows.flatten.take (r * len) = (rows.take r).flatten := by
  obtain ⟨haround, hbefore⟩ := flatten_around h (List.getElem?_eq_getElem hr)
  rw [haround, List.take_left' hbefore]

theorem drop_flatten (h : ∀ row ∈ rows, row.length = len) {r : Nat} (hr : r < rows.length) :
    rows.flatten.drop (r * len) = (rows.drop r).flatten := by
  obtain ⟨haround, hbefore⟩ := flatten_around h (List.getElem?_eq_getElem hr)
  rw [haround, List.drop_left' hbefore, List.drop_eq_getElem_cons hr, List.flatten_cons]

theorem slice_flatten (h : ∀ row ∈ rows, row.length = len) {r : Nat} {row : List α}
    (hr : rows[r]? = some row) : slice rows.flatten (r * len) len = some row := by
  obtain ⟨haround, hbefore⟩ := flatten_around h hr
  have hlen := length_of_getElem? h hr
  have hfit : r * len + len ≤ rows.flatten.length := by
    rw [haround, List.length_append, List.length_append]
    omega
  rw [slice, if_pos hfit, haround, List.drop_left' hbefore, List.take_left' hlen]

theorem writeSlice_flatten (h : ∀ row ∈ rows, row.length = len) {r : Nat} (hr : r < rows.length)
    {row : List α} (hrow : row.length = len) :
    writeSlice rows.flatten (r * len) row = some (rows.set r row).flatten := by
  obtain ⟨haround, hbefore⟩ := flatten_around h (List.getElem?_eq_getElem hr)
  have hlen := length_of_getElem? h (List.getElem?_eq_getElem hr)
  have hfit : r * len + row.length ≤ rows.flatten.length := by
    rw [haround, List.length_append, List.length_append]
    omega
  have hdrop : rows.flatten.drop (r * len + row.length) = (rows.drop (r + 1)).flatten := by
    rw [← List.drop_drop, haround, List.drop_left' hbefore, List.drop_left' (hlen.trans hrow.symm)]
  rw [writeSlice, if_pos hfit, hdrop, take_flatten h hr, List.set_eq_take_append_cons_drop, if_pos hr,
    List.flatten_append, List.flatten_cons]

theorem getElem?_flatten_of_rows (h : ∀ row ∈ rows, row.length = len) {r c : Nat} {row : List α}
    (hr : rows[r]? = some row) (hc : c < len) : rows.flatten[r * len + c]? = row[c]? := by
  obtain ⟨haround, hbefore⟩ := flatten_around h hr
  have hlen := length_of_getElem? h hr
  rw [haround, List.getElem?_append_right (by omega), hbefore, Nat.add_sub_cancel_left,
    List.getElem?_append_left (by omega)]

/-- The rows of a concatenation of rows. -/
theorem rowsOf_flatten (h : ∀ row ∈ rows, row.length = len) (hlen : 0 < len) :
    rowsOf len rows.flatten = rows := by
  have hcount : rows.flatten.length / len = rows.length := by
    rw [length_flatten_of_rows h, Nat.mul_div_cancel _ hlen]
  apply List.ext_getElem
  · rw [rowsOf, List.length_map, List.length_range, hcount]
  · intro r hr hr'
    have hslice := slice_flatten h (List.getElem?_eq_getElem hr')
    rw [slice] at hslice
    split_ifs at hslice
    simpa [rowsOf] using hslice

end Flatten

/-- A buffer of whole rows is the concatenation of its rows. -/
theorem flatten_rowsOf {len m : Nat} (hlen : 0 < len) {s : List α} (hs : s.length = m * len) :
    (rowsOf len s).flatten = s ∧ (rowsOf len s).length = m ∧
      ∀ row ∈ rowsOf len s, row.length = len := by
  have hcount : s.length / len = m := by rw [hs, Nat.mul_div_cancel _ hlen]
  have hrows : ∀ row ∈ rowsOf len s, row.length = len := by
    intro row hrow
    rw [rowsOf, hcount] at hrow
    obtain ⟨r, hr, rfl⟩ := List.mem_map.mp hrow
    have hle : (r + 1) * len ≤ m * len := Nat.mul_le_mul_right len (List.mem_range.mp hr)
    rw [Nat.succ_mul] at hle
    rw [List.length_take, List.length_drop]
    omega
  refine ⟨?_, by rw [rowsOf, List.length_map, List.length_range, hcount], hrows⟩
  have hprefix : ∀ j ≤ m, ((List.range j).map fun r => (s.drop (r * len)).take len).flatten =
      s.take (j * len) := by
    intro j hj
    induction j with
    | zero => simp
    | succ j ih =>
        rw [List.range_succ, List.map_append, List.flatten_append, ih (by omega), List.map_singleton,
          List.flatten_singleton, Nat.succ_mul, List.take_add]
  rw [rowsOf, hcount, hprefix m (Nat.le_refl m), ← hs, List.take_length]

end Dlr.Lib.FlatMatrix
