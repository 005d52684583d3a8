import Dlr.Coding.RoundTrip

/-!
# Coded symbols on the wire

The wire format has 16 bits for an index and for the number of indices. A generation of at most
65536 sources fits, and every symbol the encoder writes is then a true equation for the decoder.
In a longer generation the indices wrap: a source behind the limit is stored under the index of an
earlier one, and the sources behind the limit are never covered.

## Implementation notes

A degree of exactly 65536 wraps to zero. The decoder ignores such a symbol, so it does no harm.
-/

namespace Dlr.Coding

open Lib.Bytes

/-- A decoder of the generation ignores the wire symbol, or stores an equation that holds. -/
def IsEquation (X : Nat → List UInt8) (k s : Nat) (wire : List UInt8) : Prop :=
  ∀ d : FountainDecoder, d.k = k → d.symbolSize = s →
    d.add wire = .ok (false, d) ∨
      ∃ sym : ParsedSym, sym.Holds X k s ∧ d.add wire = .ok (true, d.extend [sym])

/-- A decoder of the generation stores the wire symbol with the source `i` in its cover. -/
def Covers (k s : Nat) (wire : List UInt8) (i : Nat) : Prop :=
  ∃ sym : ParsedSym, i ∈ sym.cover.map Prod.fst ∧
    (FountainDecoder.new k s).add wire = .ok (true, (FountainDecoder.new k s).extend [sym])

section Encoder

variable [FloatChoices]

/-- The encoders that exist: a constructor has accepted the sources, and symbols may have been
produced since. -/
inductive Accepted : FountainEncoder → Prop
  | new {source : List (List UInt8)} {generation : UInt32} {enc : FountainEncoder}
      (h : FountainEncoder.new source generation = .ok enc) : Accepted enc
  | newShared {buf : List UInt8} {offset stride k : Nat} {generation : UInt32}
      {enc : FountainEncoder}
      (h : FountainEncoder.newShared buf offset stride k generation = .ok enc) : Accepted enc
  | produce {enc : FountainEncoder} (count : Nat) (h : Accepted enc) :
      Accepted (enc.produce count).2

/-- The sources of an encoder: at least one, all of the symbol size. -/
theorem Accepted.sources {enc : FountainEncoder} (h : Accepted enc) :
    0 < enc.source.k ∧ ∀ i < enc.source.k, (enc.source.src i).length = enc.source.symbolSize := by
  induction h with
  | new h =>
      obtain ⟨hne, hsize, rfl⟩ := FountainEncoder.new_eq_ok h
      refine ⟨List.length_pos_iff.mpr hne, ?_⟩
      intro i hi
      simp only [Source.src, List.getD_eq_getElem _ _ hi]
      exact hsize _ (List.getElem_mem hi)
  | @newShared buf offset stride k _ _ h =>
      obtain ⟨hk, -, hfit, -, rfl⟩ := FountainEncoder.newShared_eq_ok h
      refine ⟨hk, ?_⟩
      intro i hi
      have hbound : (i + 1) * stride ≤ k * stride := Nat.mul_le_mul_right _ hi
      rw [Nat.add_mul] at hbound
      simp only [Source.src, Source.symbolSize, List.length_take, List.length_drop]
      omega
  | produce count _ ih =>
      simp only [FountainEncoder.produce, source_repairSymbols]
      exact ih

end Encoder

/-! ## A source on the wire -/

section Systematic

variable {X : Nat → List UInt8} {k s i : Nat} {x : List UInt8}

theorem add_systematic (hx : x.length = s) {d : FountainDecoder} (hdk : d.k = k)
    (hds : d.symbolSize = s) (hi : i % 65536 < k) :
    d.add (FountainEncoder.wireSymbol [(i, 1)] x) =
      .ok (true, d.extend [⟨[(i % 65536, 1)], x⟩]) := by
  subst hdk hds
  have hwire : FountainEncoder.wireSymbol [(i, 1)] x = toLe 2 1 ++ (toLe 2 i ++ 1 :: x) := by
    simp [FountainEncoder.wireSymbol]
  have hcount : (toLe 2 1).length = 2 := length_toLe 2 1
  have hindex : (toLe 2 i).length = 2 := length_toLe 2 i
  have hread : ofLe (toLe 2 i) = i % 65536 := ofLe_toLe_mod 2 i
  have hdrop : (toLe 2 1 ++ (toLe 2 i ++ 1 :: x)).drop 5 = x := by
    rw [show (5 : Nat) = 2 + (2 + 1) from rfl, ← List.drop_drop, List.drop_left' hcount,
      ← List.drop_drop, List.drop_left' hindex, List.drop_succ_cons, List.drop_zero]
  have hcover : parseCover d.k 1 (toLe 2 i ++ 1 :: x) [] = [(i % 65536, 1)] := by
    simp only [parseCover, List.take_left' hindex, hread]
    rw [List.getD_append_right _ _ _ _ (by omega), hindex, show (2 : Nat) - 2 = 0 from rfl,
      List.getD_cons_zero, if_pos ⟨hi, by decide⟩]
    rfl
  unfold FountainDecoder.add
  rw [hwire]
  simp only [List.length_append, List.length_cons, hcount, hindex, hx, List.take_left' hcount,
    show ofLe (toLe 2 1) = 1 from rfl, List.drop_left' hcount, hcover]
  rw [if_neg (by omega), if_neg (by omega), if_neg (List.cons_ne_nil _ _), hdrop,
    List.take_of_length_le hx.le]
  rfl

/-- A source on the wire is a true equation exactly when the source at its wrapped index is the
same. -/
theorem isEquation_systematic_iff (hX : ∀ i < k, (X i).length = s) (hi : i < k) :
    IsEquation X k s (FountainEncoder.wireSymbol [(i, 1)] (X i)) ↔ X i = X (i % 65536) := by
  have hwrap : i % 65536 < k := (Nat.mod_le i 65536).trans_lt hi
  constructor
  · intro h
    have hadd := add_systematic (hX i hi) (d := FountainDecoder.new k s) rfl rfl hwrap
    rcases h (FountainDecoder.new k s) rfl rfl with hskip | ⟨sym, hsym, hstored⟩
    · rw [hskip] at hadd
      cases hadd
    · rw [hstored, Except.ok.injEq] at hadd
      obtain rfl : sym = ⟨[(i % 65536, 1)], X i⟩ := by
        simpa [FountainDecoder.extend] using hadd
      apply List.ext_getElem
      · rw [hX i hi, hX _ hwrap]
      · intro p hp hp'
        have hvalue := hsym.value p
        simpa [comb, hp, hp'] using hvalue
  · intro hsame d hdk hds
    refine Or.inr ⟨⟨[(i % 65536, 1)], X i⟩, ?_, add_systematic (hX i hi) hdk hds hwrap⟩
    rw [hsame]
    exact systematic_holds hwrap (hX _ hwrap)

/-- The covers of a decoder have wrapped indices only. -/
theorem parseCover_lt (n : Nat) (bytes : List UInt8) (cover : List (Nat × UInt8))
    (h : ∀ e ∈ cover, e.1 < 65536) : ∀ e ∈ parseCover k n bytes cover, e.1 < 65536 := by
  induction n generalizing bytes cover with
  | zero => exact h
  | succ n ih =>
      apply ih
      intro e he
      split_ifs at he
      · rcases List.mem_append.mp he with hold | hnew
        · exact h e (List.mem_filter.mp hold).1
        · obtain rfl := List.mem_singleton.mp hnew
          calc ofLe (bytes.take 2) < 256 ^ (bytes.take 2).length := ofLe_lt _
            _ ≤ 256 ^ 2 := Nat.pow_le_pow_right (by norm_num) (List.length_take_le 2 bytes)
            _ = 65536 := by norm_num
      · exact h e he

theorem Covers.lt {wire : List UInt8} (h : Covers k s wire i) : i < 65536 := by
  obtain ⟨sym, hi, hadd⟩ := h
  obtain ⟨e, he, rfl⟩ := List.mem_map.mp hi
  have hcover : sym.cover = parseCover k (ofLe (wire.take 2)) (wire.drop 2) [] := by
    unfold FountainDecoder.add at hadd
    simp only at hadd
    split_ifs at hadd
    · cases hadd
    · simp only [FountainDecoder.extend, Except.ok.injEq, Prod.mk.injEq, true_and,
        FountainDecoder.mk.injEq, List.append_cancel_left_eq, List.cons.injEq, and_true] at hadd
      rw [← hadd]
      rfl
  rw [hcover] at he
  exact parseCover_lt _ _ [] (by simp) e he

end Systematic

/-! ## The symbols of a generation -/

/-- What an encoder writes from a true equation is one. -/
theorem HonestWire.isEquation {X : Nat → List UInt8} {k s : Nat} {wire : List UInt8}
    (hk : k ≤ 65536) (h : HonestWire X k s wire) : IsEquation X k s wire := by
  obtain ⟨sym, hsym, rfl⟩ := h
  intro d hdk hds
  rw [add_wireSymbol hk hsym hdk hds]
  split_ifs
  · exact Or.inl rfl
  · exact Or.inr ⟨sym, hsym, rfl⟩

section Produce

variable [FloatChoices] {enc : FountainEncoder}

theorem mem_produce (enc : FountainEncoder) {count i : Nat} (hi : i < min count enc.source.k) :
    FountainEncoder.wireSymbol [(i, 1)] (enc.source.src i) ∈ (enc.produce count).1 := by
  apply List.mem_append_left
  exact List.mem_map.mpr ⟨i, List.mem_range.mpr hi, rfl⟩

/-- The symbols an encoder produces, seen by a decoder of the generation, are true equations and
the first of them cover every source, exactly when the generation has at most 65536 sources, or
only sources are sent and each of them is the same as the source at its wrapped index. -/
theorem wire_equations_iff (h : Accepted enc) (count : Nat) :
    ((∀ w ∈ (enc.produce count).1,
        IsEquation enc.source.src enc.source.k enc.source.symbolSize w) ∧
      (enc.source.k ≤ count → ∀ i < enc.source.k, ∃ w ∈ (enc.produce count).1.take enc.source.k,
        Covers enc.source.k enc.source.symbolSize w i)) ↔
      enc.source.k ≤ 65536 ∨ (count < enc.source.k ∧
        ∀ i < count, enc.source.src i = enc.source.src (i % 65536)) := by
  obtain ⟨hpos, hsrc⟩ := h.sources
  constructor
  · rintro ⟨hequations, hcovers⟩
    by_contra hnot
    push Not at hnot
    obtain ⟨hlong, hsame⟩ := hnot
    by_cases hall : enc.source.k ≤ count
    · obtain ⟨w, -, hw⟩ := hcovers hall 65536 hlong
      exact absurd hw.lt (lt_irrefl _)
    · obtain ⟨i, hi, hne⟩ := hsame (by omega)
      have hik : i < enc.source.k := by omega
      exact hne ((isEquation_systematic_iff hsrc hik).mp
        (hequations _ (mem_produce enc (by omega))))
  · intro hcond
    constructor
    · intro w hw
      rcases List.mem_append.mp hw with hsys | hrepair
      · obtain ⟨i, hi, rfl⟩ := List.mem_map.mp hsys
        rw [List.mem_range] at hi
        have hik : i < enc.source.k := by omega
        apply (isEquation_systematic_iff hsrc hik).mpr
        rcases hcond with hshort | ⟨-, hsame⟩
        · rw [Nat.mod_eq_of_lt (by omega)]
        · exact hsame i (by omega)
      · rcases hcond with hshort | ⟨hfew, -⟩
        · exact (repairSymbols_honest enc _ hpos hsrc w hrepair).isEquation hshort
        · rw [Nat.sub_eq_zero_of_le hfew.le] at hrepair
          cases hrepair
    · intro hall i hi
      have hshort : enc.source.k ≤ 65536 := by
        rcases hcond with hshort | ⟨hfew, -⟩
        · exact hshort
        · omega
      refine ⟨FountainEncoder.wireSymbol [(i, 1)] (enc.source.src i), ?_, ?_⟩
      · have htake : (enc.produce count).1.take enc.source.k = (List.range enc.source.k).map
            fun i => FountainEncoder.wireSymbol [(i, 1)] (enc.source.src i) := by
          simp only [FountainEncoder.produce, Nat.min_eq_right hall]
          exact List.take_left' (by simp)
        rw [htake]
        exact List.mem_map.mpr ⟨i, List.mem_range.mpr hi, rfl⟩
      · have hwrap : i % 65536 = i := Nat.mod_eq_of_lt (by omega)
        refine ⟨_, ?_, add_systematic (hsrc i hi) rfl rfl (hwrap.symm ▸ hi)⟩
        simp [hwrap]

end Produce

/-- Two sources and two repair symbols. -/
theorem wire_equations_iff_two :
    letI := percentChoices
    ∃ enc, FountainEncoder.new [[7], [9]] 5 = .ok enc ∧
      ∀ w ∈ (enc.produce 4).1, IsEquation enc.source.src 2 1 w := by
  let _ := percentChoices
  have henc : FountainEncoder.new [[7], [9]] 5 =
      .ok { source := .owned [[7], [9]], generation := 5 } := rfl
  exact ⟨_, henc, ((wire_equations_iff (.new henc) 4).mpr (Or.inl (by decide))).1⟩

/-- Sources that differ in the last one. -/
def lastDiffers (n : Nat) : List (List UInt8) := [0] :: (List.replicate n [0] ++ [[1]])

theorem new_lastDiffers (n : Nat) : FountainEncoder.new (lastDiffers n) 0 =
    .ok { source := .owned (lastDiffers n), generation := 0 } := by
  have hfind : (lastDiffers n).find? (fun x => x.length ≠ ([0] : List UInt8).length) = none := by
    apply List.find?_eq_none.mpr
    intro x hx
    obtain rfl | ⟨-, rfl⟩ | rfl : x = [0] ∨ (n ≠ 0 ∧ x = [0]) ∨ x = [1] := by
      simpa [lastDiffers] using hx
    all_goals simp
  rw [lastDiffers, FountainEncoder.new]
  rw [lastDiffers] at hfind
  rw [hfind]

theorem length_lastDiffers (n : Nat) : (lastDiffers n).length = n + 2 := by
  simp [lastDiffers]

theorem getD_lastDiffers (n : Nat) : (lastDiffers n).getD (n + 1) [] = [1] := by
  rw [lastDiffers, List.getD_cons_succ, List.getD_append_right _ _ _ _ (by simp)]
  simp

/-- The source behind the limit is stored as an equation for the first one. -/
theorem wrapped_index_is_no_equation :
    letI := percentChoices
    ∃ enc, FountainEncoder.new (lastDiffers 65535) 0 = .ok enc ∧
      enc.source.k = 65537 ∧ enc.source.symbolSize = 1 ∧ enc.source.src 0 = [0] ∧
      ∃ w ∈ (enc.produce 65537).1, (FountainDecoder.new 65537 1).add w =
        .ok (true, { k := 65537, symbolSize := 1, syms := [⟨[(0, 1)], [1]⟩] }) := by
  let _ := percentChoices
  set enc : FountainEncoder := { source := .owned (lastDiffers 65535), generation := 0 }
  have hk : enc.source.k = 65537 := length_lastDiffers 65535
  have hlast : enc.source.src 65536 = [1] := getD_lastDiffers 65535
  have hlt : 65536 < min 65537 enc.source.k := by
    rw [hk, min_self]
    simp
  have hmem := mem_produce enc hlt
  rw [hlast] at hmem
  exact ⟨enc, new_lastDiffers 65535, hk, rfl, rfl, _, hmem,
    add_systematic rfl rfl rfl (by decide)⟩

end Dlr.Coding
