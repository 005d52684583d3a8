import Mathlib.LinearAlgebra.Dimension.Constructions
import Mathlib.LinearAlgebra.Dimension.OrzechProperty
import Mathlib.LinearAlgebra.FiniteDimensional.Lemmas
import Mathlib.LinearAlgebra.Matrix.NonsingularInverse

/-!
# Gauss-Jordan elimination over a field

A matrix is a list of rows, and a row a function on columns. Whatever order an elimination
takes its pivots in, and whether it works on a whole matrix or on one row after another, every
step of it does the same thing: it scales one row to have a 1 in a column and adds multiples of
it to the others until they have a 0 there. The lemmas below say what such a step keeps.
-/

namespace Dlr.Lib.Elimination

variable {K ι : Type*} [Field K]

/-! ## The row space -/

/-- The space that the rows of a matrix span. -/
def rowSpace (mat : List (ι → K)) : Submodule K (ι → K) := Submodule.span K {row | row ∈ mat}

theorem mem_rowSpace {mat : List (ι → K)} {row : ι → K} (h : row ∈ mat) : row ∈ rowSpace mat :=
  Submodule.subset_span h

theorem rowSpace_le {mat : List (ι → K)} {W : Submodule K (ι → K)} :
    rowSpace mat ≤ W ↔ ∀ row ∈ mat, row ∈ W :=
  Submodule.span_le

theorem rowSpace_append (mat mat' : List (ι → K)) :
    rowSpace (mat ++ mat') = rowSpace mat ⊔ rowSpace mat' := by
  rw [rowSpace, rowSpace, rowSpace, ← Submodule.span_union]
  congr 1
  ext row
  exact List.mem_append

/-- A further row may be exchanged for one that differs by what the other rows span. -/
theorem rowSpace_append_congr {mat mat' : List (ι → K)} (h : rowSpace mat = rowSpace mat')
    {row row' : ι → K}
    (hrow : ∀ W : Submodule K (ι → K), rowSpace mat ≤ W → (row ∈ W ↔ row' ∈ W)) :
    rowSpace (mat ++ [row]) = rowSpace (mat' ++ [row']) := by
  have hle : ∀ (w : ι → K) (W : Submodule K (ι → K)), rowSpace [w] ≤ W ↔ w ∈ W := by
    intro w W
    simp [rowSpace_le]
  apply le_antisymm
  · rw [rowSpace_append, rowSpace_append, h, sup_le_iff, hle, hrow _ (h ▸ le_sup_left), ← hle]
    exact ⟨le_sup_left, le_sup_right⟩
  · rw [rowSpace_append, rowSpace_append, ← h, sup_le_iff, hle, ← hrow _ le_sup_left, ← hle]
    exact ⟨le_sup_left, le_sup_right⟩

/-- A step that scales one row to the pivot row and adds multiples of the pivot row to the
others keeps the row space. -/
theorem rowSpace_pivot {mat mat' : List (ι → K)} (pivot : ι → K) {c : K}
    (hchosen : c • pivot ∈ mat) (hc : c ≠ 0) (hpivot : pivot ∈ mat')
    (hnew : ∀ row' ∈ mat', row' = pivot ∨ ∃ row ∈ mat, ∃ a : K, row' = row + a • pivot)
    (hold : ∀ row ∈ mat, row = c • pivot ∨ ∃ a : K, row + a • pivot ∈ mat') :
    rowSpace mat' = rowSpace mat := by
  have hmem : pivot ∈ rowSpace mat := by
    have hscaled := Submodule.smul_mem _ c⁻¹ (mem_rowSpace hchosen)
    rwa [smul_smul, inv_mul_cancel₀ hc, one_smul] at hscaled
  apply le_antisymm
  · rw [rowSpace_le]
    intro row' hrow'
    obtain rfl | ⟨row, hrow, a, rfl⟩ := hnew row' hrow'
    · exact hmem
    · exact Submodule.add_mem _ (mem_rowSpace hrow) (Submodule.smul_mem _ a hmem)
  · rw [rowSpace_le]
    intro row hrow
    obtain rfl | ⟨a, hrow'⟩ := hold row hrow
    · exact Submodule.smul_mem _ c (mem_rowSpace hpivot)
    · have hback := Submodule.sub_mem _ (mem_rowSpace hrow')
        (Submodule.smul_mem _ a (mem_rowSpace hpivot))
      rwa [add_sub_cancel_right] at hback

/-- A row may lose a multiple of another row. -/
theorem rowSpace_set {mat : List (ι → K)} {i j : Nat} (pivot row : ι → K) {a : K} (hij : i ≠ j)
    (hi : mat[i]? = some pivot) (hj : mat[j]? = some (row + a • pivot)) :
    rowSpace (mat.set j row) = rowSpace mat := by
  have hjlt := (List.getElem?_eq_some_iff.mp hj).1
  have hset : (mat.set j row)[j]? = some row := List.getElem?_set_self hjlt
  have hpivot : (mat.set j row)[i]? = some pivot := by
    rw [List.getElem?_set_ne (Ne.symm hij)]
    exact hi
  apply le_antisymm
  · rw [rowSpace_le]
    intro w hw
    rcases List.mem_or_eq_of_mem_set hw with hold | rfl
    · exact mem_rowSpace hold
    · have hback := Submodule.sub_mem _ (mem_rowSpace (List.mem_of_getElem? hj))
        (Submodule.smul_mem _ a (mem_rowSpace (List.mem_of_getElem? hi)))
      rwa [add_sub_cancel_right] at hback
  · rw [rowSpace_le]
    intro w hw
    obtain ⟨n, hn⟩ := List.getElem?_of_mem hw
    by_cases hnj : n = j
    · obtain rfl := Option.some.inj ((hnj ▸ hn).symm.trans hj)
      exact Submodule.add_mem _ (mem_rowSpace (List.mem_of_getElem? hset))
        (Submodule.smul_mem _ a (mem_rowSpace (List.mem_of_getElem? hpivot)))
    · apply mem_rowSpace
      apply List.mem_of_getElem? (i := n)
      rw [List.getElem?_set_ne (Ne.symm hnj)]
      exact hn

theorem map_rowSpace {κ : Type*} (f : κ → ι) (mat : List (ι → K)) :
    (rowSpace mat).map (LinearMap.funLeft K K f) = rowSpace (mat.map fun row => row ∘ f) := by
  rw [rowSpace, Submodule.map_span, rowSpace]
  congr 1
  ext row
  simp only [Set.mem_image, Set.mem_ofPred_eq, List.mem_map]
  rfl

/-- The rows span everything on the first `k` columns. -/
def Spans (k : Nat) (mat : List (Nat → K)) : Prop :=
  (rowSpace mat).map (LinearMap.funLeft K K (Fin.val : Fin k → Nat)) = ⊤

/-- The rank of the first `k` columns. -/
noncomputable def leadingRank (k : Nat) (mat : List (Nat → K)) : Nat :=
  Module.finrank K ((rowSpace mat).map (LinearMap.funLeft K K (Fin.val : Fin k → Nat)))

/-- Only the first `k` columns matter. -/
theorem spans_congr {k : Nat} {mat mat' : List (Nat → K)}
    (h : List.Forall₂ (fun row row' => ∀ c < k, row c = row' c) mat mat') :
    Spans k mat ↔ Spans k mat' := by
  have heads : (mat.map fun row => row ∘ (Fin.val : Fin k → Nat)) =
      mat'.map fun row => row ∘ (Fin.val : Fin k → Nat) := by
    induction h with
    | nil => rfl
    | cons hrow _ ih =>
        rw [List.map_cons, List.map_cons, ih]
        congr 1
        ext q
        exact hrow q q.isLt
  unfold Spans
  rw [map_rowSpace, map_rowSpace, heads]

/-- A matrix whose first columns span everything does so on fewer columns. -/
theorem Spans.mono {k j : Nat} {mat : List (Nat → K)} (h : Spans k mat) (hjk : j ≤ k) :
    Spans j mat := by
  have hcomp : LinearMap.funLeft K K (Fin.val : Fin j → Nat) =
      (LinearMap.funLeft K K (Fin.castLE hjk)).comp
        (LinearMap.funLeft K K (Fin.val : Fin k → Nat)) := rfl
  unfold Spans at h ⊢
  rw [hcomp, Submodule.map_comp, h, Submodule.map_top, LinearMap.range_eq_top]
  exact LinearMap.funLeft_surjective_of_injective _ _ _ (Fin.castLE_injective hjk)

/-- Where the unit rows of all columns but some are at hand, only those columns matter. -/
theorem spans_iff_of_units {k : Nat} {mat : List (Nat → K)} {cols : List Nat}
    (hlt : ∀ c ∈ cols, c < k) (hnodup : cols.Nodup)
    (hunit : ∀ i < k, i ∉ cols → (Pi.single i 1 : Nat → K) ∈ rowSpace mat) :
    Spans k mat ↔ (rowSpace mat).map (LinearMap.funLeft K K cols.get) = ⊤ := by
  constructor
  · intro h
    have hcomp : LinearMap.funLeft K K cols.get =
        (LinearMap.funLeft K K fun c => (⟨cols.get c, hlt _ (List.get_mem _ _)⟩ : Fin k)).comp
          (LinearMap.funLeft K K (Fin.val : Fin k → Nat)) := rfl
    unfold Spans at h
    rw [hcomp, Submodule.map_comp, h, Submodule.map_top, LinearMap.range_eq_top]
    apply LinearMap.funLeft_surjective_of_injective
    intro a b hab
    exact hnodup.injective_get (congrArg Fin.val hab)
  · intro h
    unfold Spans
    rw [eq_top_iff]
    intro v _
    -- a row that is right on the columns in question, corrected on the others
    obtain ⟨w, hw, hwv⟩ : (fun c => if hc : cols.get c < k then v ⟨_, hc⟩ else 0) ∈
        (rowSpace mat).map (LinearMap.funLeft K K cols.get) := h ▸ Submodule.mem_top
    set fix : Nat → K := ∑ i : Fin k, if i.val ∈ cols then 0
      else (v i - w i) • (Pi.single i.val 1 : Nat → K) with hfix
    have hmem : fix ∈ rowSpace mat := by
      apply Submodule.sum_mem
      intro i _
      split_ifs with hi
      · exact Submodule.zero_mem _
      · exact Submodule.smul_mem _ _ (hunit i i.isLt hi)
    refine ⟨w + fix, Submodule.add_mem _ hw hmem, ?_⟩
    ext j
    have hval : fix j = if j.val ∈ cols then 0 else v j - w j := by
      rw [hfix, Finset.sum_apply, Finset.sum_eq_single j]
      · split_ifs <;> simp
      · intro i _ hij
        split_ifs
        · rfl
        · rw [Pi.smul_apply, Pi.single_eq_of_ne (fun heq => hij (Fin.ext heq.symm)), smul_zero]
      · exact fun habs => absurd (Finset.mem_univ j) habs
    rw [LinearMap.funLeft_apply, Pi.add_apply, hval]
    split_ifs with hj
    · obtain ⟨c, hc⟩ := List.get_of_mem hj
      have hjval := congrFun hwv c
      simp only [LinearMap.funLeft_apply, hc, j.isLt, dif_pos, Fin.eta] at hjval
      rw [hjval, add_zero]
    · rw [add_sub_cancel]

theorem spans_of_units {k : Nat} {mat : List (Nat → K)}
    (hunit : ∀ i < k, (Pi.single i 1 : Nat → K) ∈ rowSpace mat) : Spans k mat := by
  rw [spans_iff_of_units (by simp) (List.nodup_nil (α := Nat)) fun i hi _ => hunit i hi,
    Submodule.eq_top_iff']
  intro v
  have hzero : v = 0 := by
    ext c
    exact c.elim0
  rw [hzero]
  exact Submodule.zero_mem _

/-- Fewer than `k` different rows span less than everything. -/
theorem Spans.le_card {α : Type*} {k : Nat} {mat : List (Nat → K)} (h : Spans k mat)
    (s : Finset α) (f : α → Nat → K) (hmem : ∀ row ∈ mat, ∃ a ∈ s, row = f a) : k ≤ s.card := by
  set b : s → Fin k → K := fun a => f a ∘ Fin.val with hb
  have hspan : Submodule.span K (Set.range b) = ⊤ := by
    rw [eq_top_iff, ← h, map_rowSpace, rowSpace_le]
    intro row hrow
    obtain ⟨w, hw, rfl⟩ := List.mem_map.mp hrow
    obtain ⟨a, ha, rfl⟩ := hmem w hw
    exact Submodule.subset_span ⟨⟨a, ha⟩, rfl⟩
  calc k = (Set.range b).finrank K := by
        rw [Set.finrank, hspan, finrank_top, Module.finrank_fin_fun]
    _ ≤ Fintype.card s := finrank_range_le_card b
    _ = s.card := Fintype.card_coe s

/-- The first `k` columns of the first `k` rows. -/
def headMatrix (k : Nat) (mat : List (Nat → K)) : Matrix (Fin k) (Fin k) K :=
  fun i c => mat.getD i 0 c

/-- As many rows as columns span everything exactly when their determinant is not zero. -/
theorem spans_iff_det {k : Nat} {mat : List (Nat → K)} (hlen : mat.length = k) :
    Spans k mat ↔ (headMatrix k mat).det ≠ 0 := by
  have hspan : (rowSpace mat).map (LinearMap.funLeft K K (Fin.val : Fin k → Nat)) =
      Submodule.span K (Set.range (headMatrix k mat).row) := by
    rw [map_rowSpace, rowSpace]
    congr 1
    ext row
    simp only [Set.mem_ofPred_eq, List.mem_map, Set.mem_range]
    constructor
    · rintro ⟨w, hw, rfl⟩
      obtain ⟨i, hi, rfl⟩ := List.getElem_of_mem hw
      refine ⟨⟨i, by omega⟩, ?_⟩
      ext c
      simp [headMatrix, Matrix.row, hi]
    · rintro ⟨i, rfl⟩
      refine ⟨mat[i.val], List.getElem_mem _, ?_⟩
      ext c
      simp [headMatrix, Matrix.row, hlen]
  rw [← isUnit_iff_ne_zero, ← Matrix.isUnit_iff_isUnit_det,
    ← Matrix.linearIndependent_rows_iff_isUnit, Spans, hspan]
  constructor
  · intro htop
    exact linearIndependent_of_top_le_span_of_card_eq_finrank htop.ge (by simp)
  · intro hindep
    exact hindep.span_eq_top_of_card_eq_finrank' (by simp)

/-! ## Reduced rows -/

/-- The first rows have their pivots in the given columns: a 1 there, and 0 in every other
row of the matrix. -/
structure Reduced (mat : List (ι → K)) (pivots : List ι) : Prop where
  length_le : pivots.length ≤ mat.length
  column : ∀ (i : Nat) (p : ι), pivots[i]? = some p → ∀ (j : Nat) (row : ι → K),
    mat[j]? = some row → row p = if j = i then 1 else 0

namespace Reduced

variable {mat mat' : List (ι → K)} {pivots : List ι}

theorem nil (mat : List (ι → K)) : Reduced mat [] := ⟨Nat.zero_le _, by simp⟩

theorem nodup (h : Reduced mat pivots) : pivots.Nodup := by
  rw [List.nodup_iff_getElem?_ne_getElem?]
  intro i j hij hj heq
  have hlen := h.length_le
  have hp := List.getElem?_eq_getElem hj
  have hi := h.column i _ (heq.trans hp) i _ (List.getElem?_eq_getElem (by omega))
  have hj' := h.column j _ hp i _ (List.getElem?_eq_getElem (by omega))
  rw [if_pos rfl] at hi
  rw [hi, if_neg (by omega)] at hj'
  exact one_ne_zero hj'

/-- A pivot step. Rows above the new pivot stay in place and rows below come from below; the
new pivot row vanishes in the old pivot columns, and every other row in the new one. -/
theorem step (h : Reduced mat pivots) (pivot : ι → K) {col : ι}
    (hlen : mat'.length = mat.length) (hself : mat'[pivots.length]? = some pivot)
    (hone : pivot col = 1) (hzero : ∀ p ∈ pivots, pivot p = 0)
    (hother : ∀ (j : Nat) (row' : ι → K), j ≠ pivots.length → mat'[j]? = some row' → row' col = 0 ∧
      ∃ j' : Nat, ∃ row : ι → K, ∃ a : K, mat[j']? = some row ∧ row' = row + a • pivot ∧
        (j < pivots.length → j' = j) ∧ (pivots.length < j → pivots.length ≤ j')) :
    Reduced mat' (pivots ++ [col]) := by
  have hlt := (List.getElem?_eq_some_iff.mp hself).1
  refine ⟨by simp only [List.length_append, List.length_singleton]; omega, ?_⟩
  intro i p hp j row' hrow'
  rw [List.getElem?_append] at hp
  split_ifs at hp with hi
  · by_cases hj : j = pivots.length
    · rw [hj, hself] at hrow'
      obtain rfl := Option.some.inj hrow'
      rw [hzero p (List.mem_of_getElem? hp), if_neg (by omega)]
    · obtain ⟨-, j', row, a, hrow, rfl, habove, hbelow⟩ := hother j row' hj hrow'
      rw [Pi.add_apply, Pi.smul_apply, hzero p (List.mem_of_getElem? hp), smul_zero, add_zero,
        h.column i p hp j' row hrow]
      rcases Nat.lt_or_gt_of_ne hj with hlt' | hgt
      · rw [habove hlt']
      · have hle := hbelow hgt
        rw [if_neg (by omega), if_neg (by omega)]
  · obtain ⟨hi', rfl⟩ : i = pivots.length ∧ col = p := by
      rw [List.getElem?_singleton] at hp
      split_ifs at hp with hidx
      exact ⟨by omega, Option.some.inj hp⟩
    rw [hi']
    split_ifs with hj
    · rw [hj, hself] at hrow'
      obtain rfl := Option.some.inj hrow'
      exact hone
    · exact (hother j row' hj hrow').1

/-- A further row that vanishes in the pivot columns. -/
theorem append (h : Reduced mat pivots) {row : ι → K} (hzero : ∀ p ∈ pivots, row p = 0) :
    Reduced (mat ++ [row]) pivots := by
  have hlen := h.length_le
  refine ⟨by simp only [List.length_append]; omega, ?_⟩
  intro i p hp j row' hrow'
  rw [List.getElem?_append] at hrow'
  split_ifs at hrow' with hj
  · exact h.column i p hp j row' hrow'
  · have hi := (List.getElem?_eq_some_iff.mp hp).1
    rw [List.getElem?_singleton] at hrow'
    split_ifs at hrow' with hidx
    rw [← Option.some.inj hrow', hzero p (List.mem_of_getElem? hp), if_neg (by omega)]

/-- The pivot rows are independent on any columns that include the pivots. When the other
rows vanish there, the rank on these columns is the number of pivots. -/
theorem finrank_map {κ : Type*} [Finite κ] (h : Reduced mat pivots) (f : κ → ι)
    (hpivots : ∀ p ∈ pivots, p ∈ Set.range f)
    (hrest : ∀ (j : Nat) (row : ι → K), pivots.length ≤ j → mat[j]? = some row →
      ∀ q, row (f q) = 0) :
    Module.finrank K ((rowSpace mat).map (LinearMap.funLeft K K f)) = pivots.length := by
  have hlen := h.length_le
  set v : Fin pivots.length → κ → K := fun i q => mat[i.val] (f q) with hv
  have hindep : LinearIndependent K v := by
    rw [Fintype.linearIndependent_iff]
    intro g hg i
    obtain ⟨q, hq⟩ := hpivots _ (List.getElem_mem i.isLt)
    have hvalue : ∀ j, v j q = if j = i then 1 else 0 := by
      intro j
      rw [hv]
      simp only [hq, h.column i _ (List.getElem?_eq_getElem i.isLt) j _
        (List.getElem?_eq_getElem (by omega)), Fin.ext_iff]
    have hsum := congrFun hg q
    simpa [Finset.sum_apply, hvalue] using hsum
  have hspan : (rowSpace mat).map (LinearMap.funLeft K K f) = Submodule.span K (Set.range v) := by
    rw [rowSpace, Submodule.map_span]
    apply le_antisymm
    · apply Submodule.span_le.mpr
      rintro _ ⟨row, hrow, rfl⟩
      obtain ⟨j, hj, rfl⟩ := List.getElem_of_mem hrow
      by_cases hlt : j < pivots.length
      · exact Submodule.subset_span ⟨⟨j, hlt⟩, rfl⟩
      · have hzero : LinearMap.funLeft K K f mat[j] = 0 := by
          ext q
          exact hrest j _ (by omega) (List.getElem?_eq_getElem hj) q
        rw [hzero]
        exact Submodule.zero_mem _
    · apply Submodule.span_mono
      rintro _ ⟨i, rfl⟩
      exact ⟨mat[i.val], List.getElem_mem _, rfl⟩
  rw [hspan, finrank_span_eq_card hindep, Fintype.card_fin]

/-- As many pivots as there are columns fill all of them. -/
theorem mem_of_lt {mat : List (Nat → K)} {pivots : List Nat} (h : Reduced mat pivots)
    (hbound : ∀ p ∈ pivots, p < pivots.length) {c : Nat} (hc : c < pivots.length) :
    c ∈ pivots := by
  have hall : pivots.toFinset = Finset.range pivots.length := by
    apply Finset.eq_of_subset_of_card_le
    · intro q hq
      rw [Finset.mem_range]
      exact hbound q (List.mem_toFinset.mp hq)
    · rw [Finset.card_range, List.toFinset_card_of_nodup h.nodup]
  rw [← List.mem_toFinset, hall, Finset.mem_range]
  exact hc

/-- With a pivot in every column the pivot rows are unit rows. -/
theorem unit_row {mat : List (Nat → K)} {pivots : List Nat} (h : Reduced mat pivots)
    (hbound : ∀ p ∈ pivots, p < pivots.length) {i p : Nat} {row : Nat → K}
    (hp : pivots[i]? = some p) (hrow : mat[i]? = some row) {c : Nat} (hc : c < pivots.length) :
    row c = if c = p then 1 else 0 := by
  obtain ⟨i', hi'⟩ := List.getElem?_of_mem (h.mem_of_lt hbound hc)
  rw [h.column i' c hi' i row hrow]
  have hiff : i = i' ↔ c = p := by
    constructor
    · rintro rfl
      exact Option.some.inj (hi'.symm.trans hp)
    · rintro rfl
      exact (List.getElem?_inj (List.getElem?_eq_some_iff.mp hp).1 h.nodup).mp
        (hp.trans hi'.symm)
  simp only [hiff]

end Reduced

/-! ## Echelon form -/

/-- Reduced echelon form on the columns below `done`: the pivot columns ascend, every pivot
row starts with its pivot, and the other rows vanish. -/
structure Echelon (mat : List (Nat → K)) (pivots : List Nat) (done : Nat) : Prop
    extends Reduced mat pivots where
  lt_done : ∀ p ∈ pivots, p < done
  sorted : pivots.Pairwise (· < ·)
  leading : ∀ (i p : Nat), pivots[i]? = some p → ∀ row : Nat → K, mat[i]? = some row →
    ∀ c < p, row c = 0
  rest : ∀ (j : Nat) (row : Nat → K), pivots.length ≤ j → mat[j]? = some row →
    ∀ c < done, row c = 0

namespace Echelon

variable {mat mat' : List (Nat → K)} {pivots : List Nat} {done : Nat}

theorem init (mat : List (Nat → K)) : Echelon mat [] 0 :=
  ⟨Reduced.nil mat, by simp, .nil, by simp, by simp⟩

/-- A column without a pivot. -/
theorem skip (h : Echelon mat pivots done)
    (hnone : ∀ (j : Nat) (row : Nat → K), pivots.length ≤ j → mat[j]? = some row → row done = 0) :
    Echelon mat pivots (done + 1) := by
  refine ⟨h.toReduced, fun p hp => Nat.lt_succ_of_lt (h.lt_done p hp), h.sorted, h.leading, ?_⟩
  intro j row hj hrow c hc
  rcases Nat.lt_succ_iff_lt_or_eq.mp hc with hlt | rfl
  · exact h.rest j row hj hrow c hlt
  · exact hnone j row hj hrow

/-- When every row has a pivot there is nothing left to clear. -/
theorem extend (h : Echelon mat pivots done) (hfull : mat.length = pivots.length) {bound : Nat}
    (hle : done ≤ bound) : Echelon mat pivots bound := by
  refine ⟨h.toReduced, fun p hp => (h.lt_done p hp).trans_le hle, h.sorted, h.leading, ?_⟩
  intro j row hj hrow
  have hlt := (List.getElem?_eq_some_iff.mp hrow).1
  omega

/-- A column with a pivot, taken from the rows without one. -/
theorem step (h : Echelon mat pivots done) (pivot : Nat → K)
    (hlen : mat'.length = mat.length) (hself : mat'[pivots.length]? = some pivot)
    (hone : pivot done = 1) (hzero : ∀ c < done, pivot c = 0)
    (hother : ∀ (j : Nat) (row' : Nat → K), j ≠ pivots.length → mat'[j]? = some row' →
      row' done = 0 ∧ ∃ j' : Nat, ∃ row : Nat → K, ∃ a : K, mat[j']? = some row ∧
        row' = row + a • pivot ∧ (j < pivots.length → j' = j) ∧
        (pivots.length < j → pivots.length ≤ j')) :
    Echelon mat' (pivots ++ [done]) (done + 1) := by
  refine ⟨h.toReduced.step pivot hlen hself hone (fun p hp => hzero p (h.lt_done p hp)) hother,
    ?_, ?_, ?_, ?_⟩
  · intro p hp
    rcases List.mem_append.mp hp with hold | hnew
    · exact Nat.lt_succ_of_lt (h.lt_done p hold)
    · rw [List.mem_singleton.mp hnew]
      exact Nat.lt_succ_self done
  · rw [List.pairwise_append]
    refine ⟨h.sorted, List.pairwise_singleton _ _, ?_⟩
    intro p hp q hq
    rw [List.mem_singleton.mp hq]
    exact h.lt_done p hp
  · intro i p hp row' hrow' c hc
    rw [List.getElem?_append] at hp
    split_ifs at hp with hi
    · obtain ⟨-, j', row, a, hrow, rfl, habove, -⟩ := hother i row' (by omega) hrow'
      rw [habove hi] at hrow
      have hlt := (hc.trans (h.lt_done p (List.mem_of_getElem? hp)))
      rw [Pi.add_apply, Pi.smul_apply, hzero c hlt, h.leading i p hp row hrow c hc, smul_zero,
        add_zero]
    · rw [List.getElem?_singleton] at hp
      split_ifs at hp with hidx
      obtain rfl := Option.some.inj hp
      obtain rfl : i = pivots.length := by omega
      obtain rfl := Option.some.inj (hself.symm.trans hrow')
      exact hzero c hc
  · intro j row' hj hrow' c hc
    rw [List.length_append, List.length_singleton] at hj
    obtain ⟨hdone, j', row, a, hrow, rfl, -, hbelow⟩ := hother j row' (by omega) hrow'
    rcases Nat.lt_succ_iff_lt_or_eq.mp hc with hlt | rfl
    · rw [Pi.add_apply, Pi.smul_apply, hzero c hlt, smul_zero, add_zero]
      exact h.rest j' row (hbelow (by omega)) hrow c hlt
    · exact hdone

/-- The rank is the number of pivots. -/
theorem finrank_eq (h : Echelon mat pivots done) :
    Module.finrank K ((rowSpace mat).map (LinearMap.funLeft K K (Fin.val : Fin done → Nat))) =
      pivots.length :=
  h.finrank_map (Fin.val : Fin done → Nat) (fun p hp => ⟨⟨p, h.lt_done p hp⟩, rfl⟩)
    fun j row hj hrow q => h.rest j row hj hrow q q.isLt

/-- The rows span everything exactly when every column has a pivot. -/
theorem spans_iff (h : Echelon mat pivots done) : Spans done mat ↔ pivots.length = done := by
  have hrank := h.finrank_eq
  unfold Spans
  constructor
  · intro htop
    rw [htop, finrank_top, Module.finrank_fin_fun] at hrank
    exact hrank.symm
  · intro hfull
    apply Submodule.eq_top_of_finrank_eq
    rw [hrank, hfull, Module.finrank_fin_fun]

end Echelon

end Dlr.Lib.Elimination
