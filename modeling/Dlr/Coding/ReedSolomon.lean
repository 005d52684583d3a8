import Dlr.Coding.Gauss
import Dlr.Lib.Machine
import Mathlib.LinearAlgebra.Vandermonde

/-!
# The systematic Reed-Solomon code

The generator matrix has the identity on top and below it the rows of a Vandermonde matrix
times the inverse of its head. The points of the Vandermonde rows are the row numbers, counted
from 1 and cut to a byte.

## Implementation notes

The program keeps generator matrices in a cache; a lookup returns what `buildGenerator`
computes. An index behind the code and a symbol of another size make the decoder panic.
-/

namespace Dlr.Coding

open Lib.Elimination Lib.Machine

inductive RsError
  | empty
  | sizeMismatch (a b : Nat)
  | insufficient (have_ need : Nat)
  deriving DecidableEq, Repr

def RsError.toText : RsError → String
  | empty => "empty generation"
  | sizeMismatch a b => "symbol size mismatch: " ++ toString a ++ " vs " ++ toString b
  | insufficient have_ need => "need " ++ toString need ++ " symbols, have " ++ toString have_

namespace Rs

/-! ## The generator matrix -/

/-- `n` successive powers of `alpha`, from `pow` on. -/
def powerRow (alpha : UInt8) : Nat → UInt8 → List UInt8
  | 0, _ => []
  | n + 1, pow => pow :: powerRow alpha n (gfMul pow alpha)

/-- Row `i` of the Vandermonde matrix. -/
def vandermondeRow (k i : Nat) : List UInt8 := powerRow (UInt8.ofNat (i + 1)) k 1

def unitRow (k j : Nat) : List UInt8 := (List.replicate k 0).set j 1

/-- One column of the inversion; a column without a pivot is left as it is. -/
def invertColumn (rows : List (List UInt8)) (r : Nat) : List (List UInt8) :=
  match findPivot rows r r with
  | none => rows
  | some p =>
      let rows := swapRows rows r p
      let row := rows.getD r []
      let prow := scalInplace row (gfInv (row.getD r 0))
      eliminateColumn (rows.set r prow) r r prow

/-- Invert a matrix of `k` rows by elimination beside the identity. -/
def invertMatrix (a : List (List UInt8)) (k : Nat) : List (List UInt8) :=
  let rows := a.mapIdx fun i row => row ++ unitRow k i
  ((List.range k).foldl invertColumn rows).map fun row => row.drop k

/-- Entry `j` of a parity row: the Vandermonde row times the inverse. -/
def parityEntry (k : Nat) (row : List UInt8) (inv : List (List UInt8)) (j : Nat) : UInt8 :=
  (List.range k).foldl (fun acc t => acc ^^^ gfMul (row.getD t 0) ((inv.getD t []).getD j 0)) 0

def buildGenerator (k m : Nat) : List (List UInt8) :=
  let inv := invertMatrix ((List.range k).map (vandermondeRow k)) k
  (List.range k).map (unitRow k) ++ (List.range m).map fun i =>
    (List.range k).map (parityEntry k (vandermondeRow k (k + i)) inv)

def generator (k m : Nat) : List (List UInt8) := buildGenerator k m

end Rs

/-- The encoder of one generation. -/
structure RsEncoder where
  g : List (List UInt8)
  k : Nat
  n : Nat
  symbolSize : Nat
  deriving DecidableEq

namespace RsEncoder

def new (k m symbolSize : Nat) : Except RsError RsEncoder :=
  if k = 0 then .error .empty else .ok ⟨Rs.generator k m, k, k + m, symbolSize⟩

/-- One codeword symbol: the combination of the data that row `i` of the generator gives. -/
def paritySymbol (enc : RsEncoder) (data : List (List UInt8)) (i : Nat) : List UInt8 :=
  (List.range enc.k).foldl
    (fun out j =>
      let c := (enc.g.getD i []).getD j 0
      if c = 0 then out else axpy out c (data.getD j []))
    (List.replicate enc.symbolSize 0)

/-- The data verbatim, then the parity symbols. -/
def encode (enc : RsEncoder) (data : List (List UInt8)) : Except RsError (List (List UInt8)) :=
  if data.length ≠ enc.k then
    .error (.sizeMismatch data.length enc.k)
  else
    match data.find? fun d => d.length ≠ enc.symbolSize with
    | some d => .error (.sizeMismatch d.length enc.symbolSize)
    | none => .ok (data ++ (List.range' enc.k (enc.n - enc.k)).map (enc.paritySymbol data))

end RsEncoder

namespace Rs

/-- Put the symbol of a solved row to the position of its pivot. -/
def placeRow (k symbolSize : Nat) (out : List (List UInt8)) (row : List UInt8) :
    List (List UInt8) :=
  match (List.range k).find? fun c => row.getD c 0 ≠ 0 with
  | none => out
  | some piv => out.set piv ((row.drop k).take symbolSize)

/-- Decode from the first `k` of the surviving symbols. -/
def decode (k m symbolSize : Nat) (survived : List (Nat × List UInt8)) :
    Except (Fault RsError) (List (List UInt8)) :=
  if survived.length < k then
    .error (.error (.insufficient survived.length k))
  else
    let g := generator k m
    let chosen := survived.take k
    if chosen.any fun e => e.1 ≥ g.length ∨ e.2.length ≠ symbolSize then
      .error .panic
    else
      let rows := chosen.map fun e => (g.getD e.1 []).take k ++ e.2
      let (rank, rows) := gfGaussEliminate rows (k + symbolSize) k
      if rank < k then .error (.error (.insufficient rank k))
      else
        let out := rows.foldl (placeRow k symbolSize) (List.replicate k [])
        if out.any List.isEmpty then .error (.error (.insufficient rank k)) else .ok out

/-! ## Codewords are combinations of the data -/

@[simp] theorem length_unitRow (k j : Nat) : (unitRow k j).length = k := by simp [unitRow]

theorem vec_unitRow {k j : Nat} (hj : j < k) (p : Nat) :
    vec (unitRow k j) p = if p = j then 1 else 0 := by
  apply Gf256.ext
  simp only [vec, unitRow, List.getD_eq_getElem?_getD, List.getElem?_set, List.length_replicate,
    List.getElem?_replicate]
  by_cases hpj : p = j
  · subst hpj
    simp [hj]
  · rw [if_neg (Ne.symm hpj), if_neg hpj]
    split_ifs <;> rfl

@[simp] theorem length_generator (k m : Nat) : (generator k m).length = k + m := by
  simp [generator, buildGenerator]

theorem length_of_mem_generator {k m : Nat} {row : List UInt8} (h : row ∈ generator k m) :
    row.length = k := by
  rw [generator, buildGenerator, List.mem_append] at h
  rcases h with hunit | hparity
  · obtain ⟨j, -, rfl⟩ := List.mem_map.mp hunit
    exact length_unitRow k j
  · obtain ⟨j, -, rfl⟩ := List.mem_map.mp hparity
    simp

theorem length_generator_row {k m i : Nat} (h : i < k + m) :
    ((generator k m).getD i []).length = k := by
  rw [List.getD_eq_getElem _ _ (by simpa using h)]
  exact length_of_mem_generator (List.getElem_mem _)

theorem generator_head {k m j : Nat} (h : j < k) : (generator k m).getD j [] = unitRow k j := by
  rw [generator, buildGenerator, List.getD_append _ _ _ _ (by simpa using h),
    List.getD_eq_getElem _ _ (by simpa using h), List.getElem_map, List.getElem_range]

/-- A true equation of the code: a generator row and its codeword symbol. -/
def Codeword (k m size : Nat) (data : List (List UInt8)) (i : Nat) (symbol : List UInt8) : Prop :=
  i < k + m ∧ symbol.length = size ∧
    vec ((generator k m).getD i [] ++ symbol) ∈ equations k data

/-- What the encoder accepts, it turns into true equations. -/
theorem encode_codeword {k m size : Nat} {enc : RsEncoder} {data cw : List (List UInt8)}
    (hnew : RsEncoder.new k m size = .ok enc) (h : enc.encode data = .ok cw) :
    data.length = k ∧ (∀ d ∈ data, d.length = size) ∧ cw.length = k + m ∧
      ∀ i < k + m, Codeword k m size data i (cw.getD i []) := by
  unfold RsEncoder.new at hnew
  split_ifs at hnew with hk
  obtain rfl := Except.ok.inj hnew
  unfold RsEncoder.encode at h
  split_ifs at h with hcount
  simp only [ne_eq, not_not] at hcount
  split at h
  · cases h
  · rename_i hfind
    have hsize : ∀ d ∈ data, d.length = size := by
      intro d hd
      simpa using List.find?_eq_none.mp hfind d hd
    obtain rfl := Except.ok.inj h
    have hget : ∀ j < k, (data.getD j []).length = size := by
      intro j hj
      rw [List.getD_eq_getElem _ _ (by omega)]
      exact hsize _ (List.getElem_mem _)
    refine ⟨hcount, hsize, by simp [hcount], ?_⟩
    intro i hi
    rcases Nat.lt_or_ge i k with hlt | hge
    · rw [List.getD_append _ _ _ _ (by omega)]
      refine ⟨hi, hget i hlt, append_mem_equations (length_generator_row hi) ?_⟩
      rw [generator_head hlt, Finset.sum_eq_single i]
      · rw [vec_unitRow hlt, if_pos rfl, one_smul]
      · intro j _ hne
        rw [vec_unitRow hlt, if_neg hne, zero_smul]
      · intro habs
        exact absurd (Finset.mem_range.mpr hlt) habs
    · rw [List.getD_append_right _ _ _ _ (by omega), hcount,
        List.getD_eq_getElem _ _ (by simp; omega), List.getElem_map, List.getElem_range']
      have hidx : k + 1 * (i - k) = i := by omega
      rw [hidx]
      refine ⟨hi, ?_, append_mem_equations (length_generator_row hi) ?_⟩
      · exact (length_foldl_axpy _ _ _ _).trans (List.length_replicate)
      · exact vec_combination _ fun j hj => (hget j hj).le

/-! ## Decoding -/

/-- The generator rows at these indices span everything, so that the symbols there determine
the data. -/
def Determined (k m : Nat) (indices : List Nat) : Prop :=
  Spans k (indices.map fun i => vec ((generator k m).getD i []))

theorem placeRow_of_unit {k size p : Nat} {data : List (List UInt8)} {row : List UInt8}
    (hlen : row.length = k + size) (hsize : (data.getD p []).length = size) (hp : p < k)
    (hunit : ∀ c < k, vec row c = if c = p then 1 else 0) (heq : vec row ∈ equations k data)
    (out : List (List UInt8)) : placeRow k size out row = out.set p (data.getD p []) := by
  have hbyte : ∀ c < k, row.getD c 0 = if c = p then 1 else 0 := by
    intro c hc
    have h := congrArg Gf256.byte (hunit c hc)
    split_ifs at h ⊢ <;> exact h
  have hfind : ((List.range k).find? fun c => row.getD c 0 ≠ 0) = some p := by
    rw [List.find?_range_eq_some]
    refine ⟨?_, List.mem_range.mpr hp, ?_⟩
    · rw [hbyte p hp, if_pos rfl]
      rfl
    · intro c hc
      rw [hbyte c (hc.trans hp), if_neg (Nat.ne_of_lt hc)]
      rfl
  rw [placeRow, hfind, drop_of_unit (by rw [hsize]; exact hlen) hp hunit heq]
  rw [List.take_of_length_le hsize.le]

/-- Rows with a pivot in every column are put to their places. -/
theorem foldl_placeRow {k size : Nat} {data : List (List UInt8)} (hdata : data.length = k)
    (hsize : ∀ d ∈ data, d.length = size) {mat : List (List UInt8)} {pivots : List Nat}
    (h : Echelon (mat.map vec) pivots k) (hfull : pivots.length = k) (hcount : mat.length = k)
    (hrows : ∀ row ∈ mat, row.length = k + size)
    (heq : ∀ row ∈ mat, vec row ∈ equations k data) :
    mat.foldl (placeRow k size) (List.replicate k []) = data := by
  have hget : ∀ p < k, (data.getD p []).length = size := by
    intro p hp
    rw [List.getD_eq_getElem _ _ (by omega)]
    exact hsize _ (List.getElem_mem _)
  have hbound : ∀ p ∈ pivots, p < pivots.length := fun p hp => hfull ▸ h.lt_done p hp
  have hplace : List.Forall₂ (fun row p => ∀ out, placeRow k size out row =
      out.set p (data.getD p [])) mat pivots := by
    rw [List.forall₂_iff_get]
    refine ⟨by omega, ?_⟩
    intro i hi hi'
    have hmem : mat[i] ∈ mat := List.getElem_mem hi
    have hp : pivots[i] < k := h.lt_done _ (List.getElem_mem hi')
    apply placeRow_of_unit (hrows _ hmem) (hget _ hp) hp _ (heq _ hmem)
    intro c hc
    apply h.unit_row hbound (List.getElem?_eq_getElem hi') _ (by omega)
    rw [List.getElem?_map, List.getElem?_eq_getElem hi]
    rfl
  have hfold : ∀ out, mat.foldl (placeRow k size) out =
      (pivots.map fun p => (p, data.getD p [])).foldl (fun out e => out.set e.1 e.2) out := by
    clear h hcount hrows heq hbound hfull
    induction hplace with
    | nil => exact fun out => rfl
    | cons hrow _ ih =>
        intro out
        rw [List.foldl_cons, List.map_cons, List.foldl_cons, hrow, ih]
  rw [hfold]
  apply foldl_set_eq
  · rw [List.length_replicate, hdata]
  · intro e he
    obtain ⟨p, hp, rfl⟩ := List.mem_map.mp he
    have hlt : p < data.length := by rw [hdata]; exact h.lt_done p hp
    rw [List.getElem?_eq_getElem hlt, List.getD_eq_getElem _ _ hlt]
  · intro c hc
    left
    rw [List.map_map, List.mem_map]
    refine ⟨c, h.mem_of_lt hbound (by omega), rfl⟩

/-- The augmented rows the decoder makes of the symbols it has chosen. -/
def chosenRows (k m : Nat) (chosen : List (Nat × List UInt8)) : List (List UInt8) :=
  chosen.map fun e => ((generator k m).getD e.1 []).take k ++ e.2

section Chosen

variable {k m size : Nat} {data : List (List UInt8)} {chosen : List (Nat × List UInt8)}

theorem take_generator_row {i : Nat} (hi : i < k + m) :
    ((generator k m).getD i []).take k = (generator k m).getD i [] :=
  List.take_of_length_le (length_generator_row hi).le

theorem no_panic_of_codewords (hcw : ∀ e ∈ chosen, Codeword k m size data e.1 e.2) :
    (chosen.any fun e => e.1 ≥ (generator k m).length ∨ e.2.length ≠ size) = false := by
  rw [List.any_eq_false]
  intro e he
  obtain ⟨hidx, hlength, -⟩ := hcw e he
  simp only [length_generator, decide_eq_true_eq]
  omega

theorem chosenRows_equations (hcw : ∀ e ∈ chosen, Codeword k m size data e.1 e.2) :
    ∀ row ∈ chosenRows k m chosen, row.length = k + size ∧ vec row ∈ equations k data := by
  intro row hmem
  obtain ⟨e, he, rfl⟩ := List.mem_map.mp hmem
  obtain ⟨hidx, hlength, heq⟩ := hcw e he
  rw [take_generator_row hidx, List.length_append, length_generator_row hidx, hlength]
  exact ⟨rfl, heq⟩

/-- The symbols behind the first `k` columns play no part in whether the rows span. -/
theorem determined_iff_spans (hcw : ∀ e ∈ chosen, Codeword k m size data e.1 e.2) :
    Determined k m (chosen.map Prod.fst) ↔ Spans k ((chosenRows k m chosen).map vec) := by
  unfold Determined chosenRows
  apply spans_congr
  rw [List.map_map, List.map_map, List.forall₂_map_left_iff, List.forall₂_map_right_iff,
    List.forall₂_same]
  intro e he c hc
  have hidx := (hcw e he).1
  simp only [Function.comp]
  rw [take_generator_row hidx, vec_append (length_generator_row hidx), if_pos hc]

end Chosen

/-- Decoding `k` codeword symbols gives the data exactly when the rows of their indices
determine it. -/
theorem decode_codewords {k m size : Nat} {data : List (List UInt8)} (hpos : 0 < size)
    (hdata : data.length = k) (hsize : ∀ d ∈ data, d.length = size)
    {survived : List (Nat × List UInt8)} (hlen : k ≤ survived.length)
    (hcw : ∀ e ∈ survived.take k, Codeword k m size data e.1 e.2) :
    decode k m size survived = .ok data ↔ Determined k m ((survived.take k).map Prod.fst) := by
  have hrows := chosenRows_equations hcw
  have hcount : (chosenRows k m (survived.take k)).length = k := by
    rw [chosenRows, List.length_map, List.length_take]
    omega
  obtain ⟨pivots, hspec⟩ := gfGaussEliminate_spec (fun row h => (hrows row h).1)
    (Nat.le_add_right k size)
  rw [determined_iff_spans hcw, hspec.spans_iff, decode, if_neg (by omega)]
  simp only [no_panic_of_codewords hcw, Bool.false_eq_true, if_false]
  rw [← chosenRows]
  constructor
  · intro hok
    by_contra hne
    have hle := hspec.rank_le
    rw [if_pos (by omega)] at hok
    cases hok
  · intro hfull
    have hsolved : (gfGaussEliminate (chosenRows k m (survived.take k)) (k + size) k).2.foldl
        (placeRow k size) (List.replicate k []) = data :=
      foldl_placeRow hdata hsize hspec.echelon (hspec.rank ▸ hfull) (hspec.length.trans hcount)
        (hspec.rows _ fun row h => (hrows row h).1)
        (hspec.mem_of_rows fun row h => (hrows row h).2)
    have hfilled : data.any List.isEmpty = false := by
      rw [List.any_eq_false]
      intro d hd
      have hlength := hsize d hd
      cases d with
      | nil => rw [List.length_nil] at hlength; omega
      | cons b rest => simp
    rw [if_neg (by omega), hsolved, hfilled]
    rfl

end Rs

end Dlr.Coding
