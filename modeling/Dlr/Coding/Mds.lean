import Dlr.Coding.ReedSolomon

/-!
# Which symbols determine the data

Up to 256 data symbols the head of the Vandermonde matrix has distinct points, so its inversion
succeeds and every row of the generator, the unit rows included, is a Vandermonde row times the
same invertible matrix. Then `k` rows determine the data exactly when their points differ. The
points are bytes: rows that are 256 apart share theirs.
-/

namespace Dlr.Coding.Rs

open Lib.Elimination Lib.Machine

/-! ## The Vandermonde rows -/

/-- The point of row `i`. -/
def point (i : Nat) : Gf256 := ⟨UInt8.ofNat (i + 1)⟩

theorem point_eq_iff {i j : Nat} : point i = point j ↔ i % 256 = j % 256 := by
  unfold point
  rw [Gf256.mk.injEq, ← UInt8.toNat_inj, UInt8.toNat_ofNat', UInt8.toNat_ofNat']
  omega

@[simp] theorem length_powerRow (alpha : UInt8) (n : Nat) (pow : UInt8) :
    (powerRow alpha n pow).length = n := by
  induction n generalizing pow with
  | zero => rfl
  | succ n ih => simp [powerRow, ih]

theorem vec_powerRow (alpha : UInt8) {n j : Nat} (pow : UInt8) (h : j < n) :
    vec (powerRow alpha n pow) j = (⟨pow⟩ : Gf256) * (⟨alpha⟩ : Gf256) ^ j := by
  induction n generalizing pow j with
  | zero => omega
  | succ n ih =>
      cases j with
      | zero =>
          rw [pow_zero, mul_one]
          rfl
      | succ j =>
          have hnext : vec (powerRow alpha (n + 1) pow) (j + 1) =
              vec (powerRow alpha n (gfMul pow alpha)) j := rfl
          rw [hnext, ih (gfMul pow alpha) (by omega), pow_succ', ← mul_assoc]
          rfl

theorem vec_vandermondeRow {k i j : Nat} (h : j < k) :
    vec (vandermondeRow k i) j = point i ^ j := by
  rw [vandermondeRow, vec_powerRow _ _ h]
  exact one_mul _

/-- The Vandermonde rows at these indices. -/
def vandermonde (k : Nat) (indices : List Nat) : List (Nat → Gf256) :=
  indices.map fun i => vec (vandermondeRow k i)

theorem headMatrix_vandermonde {k : Nat} {indices : List Nat} (hlen : indices.length = k) :
    headMatrix k (vandermonde k indices) =
      Matrix.vandermonde fun i : Fin k => point (indices.getD i 0) := by
  ext1 i c
  have hi : i.val < indices.length := by omega
  rw [headMatrix, vandermonde, List.getD_eq_getElem _ _ (by simpa using hi), List.getElem_map,
    vec_vandermondeRow c.isLt, Matrix.vandermonde_apply, List.getD_eq_getElem _ _ hi]

theorem vandermonde_spans_iff {k : Nat} {indices : List Nat} (hlen : indices.length = k) :
    Spans k (vandermonde k indices) ↔ (indices.map (· % 256)).Nodup := by
  rw [spans_iff_det (by simpa [vandermonde] using hlen), headMatrix_vandermonde hlen,
    Matrix.det_vandermonde_ne_zero_iff, List.Nodup, List.pairwise_map,
    List.pairwise_iff_getElem]
  constructor
  · intro hinj i j hi hj hij heq
    have hpoint : point (indices.getD i 0) = point (indices.getD j 0) := by
      rw [List.getD_eq_getElem _ _ hi, List.getD_eq_getElem _ _ hj]
      exact point_eq_iff.mpr heq
    have hfin := @hinj ⟨i, by omega⟩ ⟨j, by omega⟩ hpoint
    rw [Fin.mk.injEq] at hfin
    omega
  · intro hdistinct i j hpoint
    have hi : i.val < indices.length := by omega
    have hj : j.val < indices.length := by omega
    simp only [List.getD_eq_getElem _ _ hi, List.getD_eq_getElem _ _ hj, point_eq_iff] at hpoint
    apply Fin.ext
    rcases Nat.lt_trichotomy i.val j.val with hlt | heq | hgt
    · exact absurd hpoint (hdistinct i j hi hj hlt)
    · exact heq
    · exact absurd hpoint.symm (hdistinct j i hj hi hgt)

/-! ## The inverse of the head -/

/-- A column with a pivot is treated as in the elimination. -/
theorem invertColumn_some {rows : List (List UInt8)} {r p : Nat}
    (h : findPivot rows r r = some p) : invertColumn rows r = pivotStep rows r r p := by
  obtain ⟨hle, row, hp, hne⟩ := findPivot_some h
  have hr : r < rows.length := hle.trans_lt (List.getElem?_eq_some_iff.mp hp).1
  have hbyte : row.getD r 0 ≠ 0 := fun hzero => hne (Gf256.ext hzero)
  have hinv : gfExp (255 - gfLog (row.getD r 0)) = gfInv (row.getD r 0) := by
    rw [gfInv, if_neg hbyte]
  rw [invertColumn, h]
  simp only [pivotStep, getD_swapRows hr hp, hinv]

/-- As long as the rows span everything, every column finds its pivot. -/
theorem foldl_invertColumn {rows : List (List UInt8)} {k len : Nat}
    (hlen : ∀ row ∈ rows, row.length = len) (hspans : Spans k (rows.map vec)) {r : Nat}
    (hr : r ≤ k) :
    Eliminated rows r r ((List.range r).foldl invertColumn rows) (List.range r) := by
  induction r with
  | zero => exact Eliminated.init rows
  | succ r ih =>
      have hspec := ih (by omega)
      rw [List.range_succ, List.foldl_append, List.foldl_cons, List.foldl_nil]
      set mat := (List.range r).foldl invertColumn rows with hmat
      cases hfind : findPivot mat r r with
      | none =>
          exfalso
          have hskip := hspec.skip hfind
          have hall : Spans k (mat.map vec) := by
            unfold Spans at hspans ⊢
            rw [hspec.rowSpace]
            exact hspans
          have hcount := hskip.echelon.spans_iff.mp (hall.mono hr)
          rw [List.length_range] at hcount
          omega
      | some p =>
          rw [invertColumn_some hfind]
          exact hspec.step hlen hfind

/-- Rows whose left part is the right part times the Vandermonde head. -/
def inverted (k : Nat) : Submodule Gf256 (Nat → Gf256) where
  carrier := {row | ∀ c < k, row c = ∑ t ∈ Finset.range k, row (k + t) * point t ^ c}
  zero_mem' := by simp
  add_mem' := by
    intro a b ha hb c hc
    simp only [Pi.add_apply, ha c hc, hb c hc, add_mul, Finset.sum_add_distrib]
  smul_mem' := by
    intro r a ha c hc
    simp only [Pi.smul_apply, smul_eq_mul, ha c hc, Finset.mul_sum, mul_assoc]

/-- The head of the Vandermonde matrix and its computed inverse. -/
def headRows (k : Nat) : List (List UInt8) := (List.range k).map (vandermondeRow k)

def augmented (k : Nat) : List (List UInt8) :=
  (headRows k).mapIdx fun i row => row ++ unitRow k i

theorem mem_augmented {k : Nat} {row : List UInt8} (h : row ∈ augmented k) :
    ∃ i < k, row = vandermondeRow k i ++ unitRow k i := by
  rw [augmented, List.mem_mapIdx] at h
  obtain ⟨i, hi, rfl⟩ := h
  simp only [headRows, List.length_map, List.length_range] at hi
  exact ⟨i, hi, by simp [headRows]⟩

theorem length_vandermondeRow (k i : Nat) : (vandermondeRow k i).length = k :=
  length_powerRow _ _ _

theorem augmented_inverted {k : Nat} {row : List UInt8} (h : row ∈ augmented k) :
    vec row ∈ inverted k := by
  obtain ⟨i, hi, rfl⟩ := mem_augmented h
  intro c hc
  rw [vec_append (length_vandermondeRow k i), if_pos hc, vec_vandermondeRow hc,
    Finset.sum_eq_single i]
  · rw [vec_append (length_vandermondeRow k i), if_neg (by omega), Nat.add_sub_cancel_left,
      vec_unitRow hi, if_pos rfl, one_mul]
  · intro t _ hne
    rw [vec_append (length_vandermondeRow k i), if_neg (by omega), Nat.add_sub_cancel_left,
      vec_unitRow hi, if_neg hne, zero_mul]
  · intro habs
    exact absurd (Finset.mem_range.mpr hi) habs

/-- Up to 256 rows the head of the Vandermonde matrix has distinct points. -/
theorem augmented_spans {k : Nat} (hk : k ≤ 256) : Spans k ((augmented k).map vec) := by
  have hnodup : ((List.range k).map (· % 256)).Nodup := by
    apply List.Nodup.map_on _ List.nodup_range
    intro i hi j hj heq
    rw [List.mem_range] at hi hj
    omega
  have hhead := (vandermonde_spans_iff (List.length_range (n := k))).mpr hnodup
  apply (spans_congr _).mp hhead
  rw [List.forall₂_iff_get]
  refine ⟨by simp [vandermonde, augmented, headRows], ?_⟩
  intro i hi hi' c hc
  simp only [vandermonde, augmented, headRows, List.get_eq_getElem, List.getElem_map,
    List.getElem_mapIdx, List.getElem_range]
  rw [vec_append (length_vandermondeRow k i), if_pos hc]

/-- The inverse of the head as a matrix. -/
def inverseMatrix (k : Nat) : Matrix (Fin k) (Fin k) Gf256 :=
  fun i t => vec ((invertMatrix (headRows k) k).getD i []) t

theorem inverse_mul_vandermonde {k : Nat} (hk : k ≤ 256) :
    inverseMatrix k * Matrix.vandermonde (fun i : Fin k => point i) = 1 := by
  have hlen : ∀ row ∈ augmented k, row.length = k + k := by
    intro row hrow
    obtain ⟨i, -, rfl⟩ := mem_augmented hrow
    rw [List.length_append, length_vandermondeRow, length_unitRow]
  have hspec := foldl_invertColumn hlen (augmented_spans hk) le_rfl
  set mat := (List.range k).foldl invertColumn (augmented k) with hmat
  have hcount : mat.length = k := by
    rw [hspec.length]
    simp [augmented, headRows]
  ext i c
  have hi : i.val < mat.length := by omega
  have hinv : ∀ t, vec ((invertMatrix (headRows k) k).getD i []) t = vec mat[i.val] (k + t) := by
    intro t
    have hrows : invertMatrix (headRows k) k = mat.map fun row => row.drop k := rfl
    rw [hrows, List.getD_eq_getElem _ _ (by simpa using hi), List.getElem_map, vec_drop]
  have hmem : vec mat[i.val] ∈ inverted k :=
    hspec.mem_of_rows (fun _ => augmented_inverted) _ (List.getElem_mem hi)
  have hunit : vec mat[i.val] c = if c.val = i.val then 1 else 0 := by
    apply hspec.echelon.unit_row
    · simp
    · rw [List.getElem?_range i.isLt]
    · rw [List.getElem?_map, List.getElem?_eq_getElem hi]
      rfl
    · simp
  rw [Matrix.mul_apply]
  simp only [inverseMatrix, hinv, Matrix.vandermonde_apply]
  rw [Fin.sum_univ_eq_sum_range (fun t => vec mat[i.val] (k + t) * point t ^ c.val) k,
    ← hmem c c.isLt, hunit, Matrix.one_apply]
  simp only [Fin.ext_iff, eq_comm]

/-! ## Any `k` rows with distinct points -/

theorem parityEntry_eq (k : Nat) (row : List UInt8) (inv : List (List UInt8)) (j : Nat) :
    (⟨parityEntry k row inv j⟩ : Gf256) =
      ∑ t ∈ Finset.range k, vec row t * vec (inv.getD t []) j := by
  unfold parityEntry
  induction k with
  | zero => rfl
  | succ k ih =>
      rw [List.range_succ, List.foldl_append, Finset.sum_range_succ, ← ih]
      rfl

/-- Every row of the generator is its Vandermonde row times the inverse of the head. -/
theorem vec_generator {k m i : Nat} (hk : k ≤ 256) (hi : i < k + m) (j : Fin k) :
    vec ((generator k m).getD i []) j = ∑ t : Fin k, point i ^ t.val * inverseMatrix k t j := by
  rcases Nat.lt_or_ge i k with hlt | hge
  · have hone : Matrix.vandermonde (fun i : Fin k => point i) * inverseMatrix k = 1 :=
      mul_eq_one_comm.mp (inverse_mul_vandermonde hk)
    have hmul := congrFun (congrFun hone ⟨i, hlt⟩) j
    rw [Matrix.mul_apply] at hmul
    simp only [Matrix.vandermonde_apply] at hmul
    rw [hmul, generator_head hlt, vec_unitRow hlt, Matrix.one_apply]
    simp only [Fin.ext_iff, eq_comm]
  · have hrow : (generator k m).getD i [] = (List.range k).map
        (parityEntry k (vandermondeRow k i) (invertMatrix (headRows k) k)) := by
      rw [generator, buildGenerator, List.getD_append_right _ _ _ _ (by simpa using hge),
        List.length_map, List.length_range, List.getD_eq_getElem _ _ (by simp; omega),
        List.getElem_map, List.getElem_range, show k + (i - k) = i by omega]
      rfl
    have hentry : vec ((generator k m).getD i []) j =
        ⟨parityEntry k (vandermondeRow k i) (invertMatrix (headRows k) k) j⟩ := by
      rw [hrow, vec_apply, List.getD_eq_getElem _ _ (by simp), List.getElem_map,
        List.getElem_range]
    rw [hentry, parityEntry_eq, ← Fin.sum_univ_eq_sum_range
      (fun t => vec (vandermondeRow k i) t * vec ((invertMatrix (headRows k) k).getD t []) j)]
    apply Finset.sum_congr rfl
    intro t _
    rw [vec_vandermondeRow t.isLt]
    rfl

/-- Up to 256 data symbols, `k` rows determine the data exactly when no two of them have the
same index modulo 256. -/
theorem determined_iff {k m : Nat} (hk : k ≤ 256) {indices : List Nat}
    (hlen : indices.length = k) (hidx : ∀ i ∈ indices, i < k + m) :
    Determined k m indices ↔ (indices.map (· % 256)).Nodup := by
  have hfactor : headMatrix k (indices.map fun i => vec ((generator k m).getD i [])) =
      headMatrix k (vandermonde k indices) * inverseMatrix k := by
    ext1 i j
    have hi : i.val < indices.length := by omega
    rw [headMatrix_vandermonde hlen, Matrix.mul_apply, headMatrix,
      List.getD_eq_getElem _ _ (by simpa using hi), List.getElem_map,
      vec_generator hk (hidx _ (List.getElem_mem hi)) j]
    simp only [Matrix.vandermonde_apply, List.getD_eq_getElem _ _ hi]
  have hunit : (inverseMatrix k).det ≠ 0 := by
    have hdet := congrArg Matrix.det (inverse_mul_vandermonde hk)
    rw [Matrix.det_mul, Matrix.det_one] at hdet
    exact left_ne_zero_of_mul_eq_one hdet
  rw [Determined, spans_iff_det (by simpa using hlen), hfactor, Matrix.det_mul,
    ← vandermonde_spans_iff hlen, spans_iff_det (by simpa [vandermonde] using hlen)]
  exact ⟨left_ne_zero_of_mul, fun h => mul_ne_zero h hunit⟩

/-! ## The code is MDS -/

/-- Data of the right shape is encoded: verbatim, with parity symbols behind it. -/
theorem encode_of_sizes {k m size : Nat} (hk : 0 < k) {data : List (List UInt8)}
    (hdata : data.length = k) (hsize : ∀ d ∈ data, d.length = size) :
    ∃ enc parity, RsEncoder.new k m size = .ok enc ∧ enc.encode data = .ok (data ++ parity) := by
  have hfind : data.find? (fun d => d.length ≠ size) = none := by
    apply List.find?_eq_none.mpr
    intro d hd
    simpa using hsize d hd
  set enc : RsEncoder := ⟨generator k m, k, k + m, size⟩ with henc
  refine ⟨enc, (List.range' enc.k (enc.n - enc.k)).map (enc.paritySymbol data), ?_, ?_⟩
  · rw [RsEncoder.new, if_neg (by omega)]
  · rw [RsEncoder.encode, if_neg (not_not.mpr hdata)]
    simp only [henc, hfind]

/-- With at most 256 symbols in all, any `k` of them in any order give the data back. -/
theorem decode_any_k {k m size : Nat} (hk : 1 ≤ k) (hn : k + m ≤ 256) (hpos : 1 ≤ size)
    {data : List (List UInt8)} (hdata : data.length = k) (hsize : ∀ d ∈ data, d.length = size) :
    ∃ enc codeword, RsEncoder.new k m size = .ok enc ∧ enc.encode data = .ok codeword ∧
      codeword.length = k + m ∧ data <+: codeword ∧
      ∀ survived : List (Nat × List UInt8), k ≤ survived.length →
        (∀ e ∈ survived.take k, e.1 < k + m ∧ codeword[e.1]? = some e.2) →
        ((survived.take k).map Prod.fst).Nodup → decode k m size survived = .ok data := by
  obtain ⟨enc, parity, hnew, hencode⟩ := encode_of_sizes (m := m) hk hdata hsize
  obtain ⟨-, -, hlength, hcodeword⟩ := encode_codeword hnew hencode
  refine ⟨enc, data ++ parity, hnew, hencode, hlength, List.prefix_append _ _, ?_⟩
  intro survived hlen hmem hnodup
  apply (decode_codewords hpos hdata hsize hlen ?_).mpr
  · apply (determined_iff (m := m) (by omega) (by simpa using hlen) ?_).mpr
    · -- indices below 256 are their own remainders
      apply List.Nodup.map_on _ hnodup
      intro i hi j hj heq
      obtain ⟨e, he, rfl⟩ := List.mem_map.mp hi
      obtain ⟨f, hf, rfl⟩ := List.mem_map.mp hj
      have hlt := (hmem e he).1
      have hlt' := (hmem f hf).1
      omega
    · intro i hi
      obtain ⟨e, he, rfl⟩ := List.mem_map.mp hi
      exact (hmem e he).1
  · intro e he
    obtain ⟨hlt, hget⟩ := hmem e he
    have hsymbol : (data ++ parity).getD e.1 [] = e.2 := by
      rw [List.getD_eq_getElem?_getD, hget, Option.getD_some]
    rw [← hsymbol]
    exact hcodeword e.1 hlt

/-- The parity symbol and the first of two data symbols, in this order. -/
theorem decode_any_k_parity_first :
    ∃ enc codeword, RsEncoder.new 2 1 1 = .ok enc ∧ enc.encode [[7], [9]] = .ok codeword ∧
      decode 2 1 1 [(2, codeword.getD 2 []), (0, [7])] = .ok [[7], [9]] := by
  have hdata : ([[7], [9]] : List (List UInt8)).length = 2 := rfl
  have hsize : ∀ d ∈ ([[7], [9]] : List (List UInt8)), d.length = 1 := by decide
  obtain ⟨enc, codeword, hnew, hencode, hlength, ⟨parity, rfl⟩, hdecode⟩ :=
    decode_any_k (m := 1) (by decide) (by decide) (by decide) hdata hsize
  refine ⟨enc, _, hnew, hencode, hdecode _ (by simp) ?_ (by simp)⟩
  intro e he
  rcases List.mem_pair.mp he with rfl | rfl
  · refine ⟨Nat.lt_succ_self 2, ?_⟩
    rw [List.getD_eq_getElem _ _ (by omega)]
    exact List.getElem?_eq_getElem (by omega)
  · exact ⟨Nat.succ_pos 2, rfl⟩

end Dlr.Coding.Rs
