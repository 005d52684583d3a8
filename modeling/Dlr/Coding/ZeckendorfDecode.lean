import Dlr.Coding.Zeckendorf

/-!
# Decoding Zeckendorf codewords

The decoder cuts the bits of a buffer at the first two adjacent ones. It finds a codeword wherever
it stands, and after garbage it is in step again from the first codeword of two or more on.
-/

namespace Dlr.Coding.Zeckendorf

open Lib Lib.BitBuffer Lib.FibonacciCode Lib.Machine

/-! ## Decoding as cutting -/

theorem toNat_shift_and (b : UInt8) {r : Nat} (hr : r < 8) :
    ((b >>> UInt8.ofNat r) &&& 1).toNat = (b.toNat.testBit r).toNat := by
  have hr' : (UInt8.ofNat r).toNat % 8 = r := by
    rw [UInt8.toNat_ofNat']
    omega
  rw [UInt8.toNat_and, UInt8.toNat_shiftRight, hr', Nat.toNat_testBit, Nat.shiftRight_eq_div_pow]
  exact Nat.and_one_is_mod _

theorem bitAt_eq (buf : List UInt8) (i : Nat) :
    bitAt buf i = ((bitsOf buf)[i]?.getD false).toNat := by
  have hshift : i >>> 3 = i / 8 := Nat.shiftRight_eq_div_pow i 3
  have hand : i &&& 7 = i % 8 := Nat.and_two_pow_sub_one_eq_mod i 3
  rw [bitAt, getElem?_bitsOf, hshift, hand]
  split_ifs with hout
  · rw [List.getElem?_eq_none hout]
    rfl
  · have hin : i / 8 < buf.length := Nat.lt_of_not_le hout
    rw [toNat_shift_and _ (Nat.mod_lt i (by decide)), List.getD_eq_getElem _ _ hin,
      List.getElem?_eq_getElem hin]
    rfl

theorem bitAt_eq_one_iff {buf : List UInt8} {i : Nat} :
    bitAt buf i = 1 ↔ (bitsOf buf)[i]? = some true := by
  rw [bitAt_eq]
  cases (bitsOf buf)[i]? with
  | none => simp
  | some b => cases b <;> simp

/-- The terminator is found where the stream is cut. -/
theorem findTerm_eq (bits : List UInt8) (i : Nat) :
    findTerm bits i = (cut ((bitsOf bits).drop i)).map fun p => i + p.1.length := by
  fun_induction findTerm bits i with
  | case1 i hout =>
      have hlen : (bitsOf bits).length ≤ i := by
        rw [length_bitsOf]
        rw [Nat.shiftRight_eq_div_pow] at hout
        omega
      rw [List.drop_of_length_le hlen]
      rfl
  | case2 i hin hpair =>
      obtain ⟨hi, hget⟩ := List.getElem?_eq_some_iff.mp (bitAt_eq_one_iff.mp hpair.1)
      obtain ⟨hi', hget'⟩ := List.getElem?_eq_some_iff.mp (bitAt_eq_one_iff.mp hpair.2)
      rw [List.drop_eq_getElem_cons hi, List.drop_eq_getElem_cons hi', hget, hget']
      rfl
  | case3 i hin hpair ih =>
      have hi : i < (bitsOf bits).length := by
        rw [length_bitsOf]
        rw [Nat.shiftRight_eq_div_pow] at hin
        omega
      have hnot : ¬ ((bitsOf bits)[i] = true ∧
          ((bitsOf bits).drop (i + 1)).head? = some true) := by
        rintro ⟨hone, htwo⟩
        rw [List.head?_drop] at htwo
        refine hpair ⟨bitAt_eq_one_iff.mpr ?_, bitAt_eq_one_iff.mpr htwo⟩
        rw [List.getElem?_eq_getElem hi, hone]
      rw [ih, List.drop_eq_getElem_cons hi, cut_cons_of_not hnot, Option.map_map]
      congr 1
      funext p
      simp only [Function.comp_apply, List.length_cons]
      omega

/-- The sum of the table entries in a range of bits without wrap-around. -/
def exactSum (bits : List UInt8) (start term : Nat) : Nat :=
  (List.range' start (term - start)).foldl (fun val j =>
    if bitAt bits j ≠ 0 then
      let fibIdx := j - start
      if fibIdx < fibTable.length then val + (fibTable.getD fibIdx 0).toNat else val
    else val) 0

theorem digitSum_eq (bits : List UInt8) (start term : Nat) :
    digitSum bits start term = UInt64.ofNat (exactSum bits start term) := by
  refine List.foldl_hom UInt64.ofNat ?_
  intro val j
  dsimp only
  split_ifs
  · rw [UInt64.ofNat_add, UInt64.ofNat_toNat]
  · rfl
  · rfl

/-- The loop adds up the digits that the table has entries for. -/
theorem exactSum_eq {bits : List UInt8} {start : Nat} {d rest : List Bool}
    (h : (bitsOf bits).drop start = d ++ rest) :
    exactSum bits start (start + d.length) = value (d.take 92) := by
  induction d using List.reverseRecOn generalizing rest with
  | nil => simp [exactSum]
  | append_singleton d b ih =>
      have hd : exactSum bits start (start + d.length) = value (d.take 92) :=
        ih (by rwa [List.append_assoc] at h)
      have hbit : bitAt bits (start + d.length) = b.toNat := by
        have hget : ((bitsOf bits).drop start)[d.length]? = some b := by
          rw [h]
          simp
        rw [List.getElem?_drop] at hget
        rw [bitAt_eq, hget]
        rfl
      have hrange : start + (d ++ [b]).length - start = d.length + 1 := by
        rw [List.length_append, List.length_singleton]
        omega
      rw [exactSum, Nat.add_sub_cancel_left] at hd
      rw [exactSum, hrange, List.range'_1_concat, List.foldl_append, hd, List.foldl_cons,
        List.foldl_nil, hbit, Nat.add_sub_cancel_left, length_fibTable]
      by_cases hlen : d.length < 92
      · have hlen' : (d ++ [b]).length ≤ 92 := by
          rw [List.length_append, List.length_singleton]
          omega
        have htake : (d ++ [b]).take 92 = d.take 92 ++ [b] := by
          rw [List.take_of_length_le hlen', List.take_of_length_le hlen.le]
        have hmin : (d.take 92).length = d.length := by
          rw [List.take_of_length_le hlen.le]
        rw [htake, value_concat, hmin, if_pos hlen, toNat_fibTable hlen]
        cases b <;> simp
      · have htake : (d ++ [b]).take 92 = d.take 92 :=
          List.take_append_of_le_length (Nat.le_of_not_lt hlen)
        rw [htake, if_neg hlen, ite_self]

/-- What the decoder makes of a word. -/
def valueOf (d : List Bool) : UInt64 := UInt64.ofNat (value (d.take 92))

theorem decodeAt_eq (bits : List UInt8) (start : Nat) :
    decodeAt bits start =
      (cut ((bitsOf bits).drop start)).map fun p => (valueOf p.1, p.1.length + 1) := by
  unfold decodeAt
  rw [findTerm_eq]
  cases hcut : cut ((bitsOf bits).drop start) with
  | none => rfl
  | some p =>
      obtain ⟨d, rest⟩ := p
      obtain ⟨hd, heq⟩ := eq_of_cut hcut
      have hne : d.length ≠ 0 := by
        intro hzero
        rw [List.length_eq_zero_iff.mp hzero] at hd
        exact nomatch hd.last
      have hdata : start + d.length - start = d.length := Nat.add_sub_cancel_left _ _
      have hused : start + d.length + 1 - start = d.length + 1 := by omega
      simp only [Option.map_some, hdata, hused, if_neg hne]
      rw [digitSum_eq, exactSum_eq heq, valueOf]

theorem valueOf_of_length_le {d : List Bool} (h : d.length ≤ 92) :
    valueOf d = UInt64.ofNat (value d) := by
  rw [valueOf, List.take_of_length_le h]

theorem valueOf_digits (n : UInt64) : valueOf (digits n) = n := by
  have hlen : (digits n).length ≤ 92 := by
    rw [length_digits]
    exact countUpTo_le n
  rw [valueOf_of_length_le hlen, value_digits, UInt64.ofNat_toNat]

/-- Bits that agree with a word and its terminator from an index on start with it. -/
theorem exists_drop_eq {s t d : List Bool} {p : Nat}
    (h : ∀ j < d.length + 1, s[p + j]?.getD false = t[j]?.getD false) {k : Nat}
    (ht : t = d ++ true :: List.replicate k false) :
    ∃ rest, s.drop p = d ++ true :: rest := by
  subst ht
  -- the terminator is a one, so the bits up to it are inside
  have hlast : s[p + d.length]? = some true := by
    have hone := h d.length (Nat.lt_succ_self _)
    rw [List.getElem?_append_right (le_refl _), Nat.sub_self] at hone
    cases hget : s[p + d.length]? with
    | none =>
        rw [hget] at hone
        cases hone
    | some b =>
        rw [hget] at hone
        exact congrArg some hone
  have hlen : p + d.length < s.length := (List.getElem?_eq_some_iff.mp hlast).1
  have htake : (s.drop p).take (d.length + 1) = d ++ [true] := by
    apply List.ext_getElem?
    intro j
    rw [List.getElem?_take, List.getElem?_drop]
    split_ifs with hj
    · have hbit := h j hj
      have hin : p + j < s.length := by omega
      rw [List.getElem?_eq_getElem hin] at hbit ⊢
      rw [← List.singleton_append, ← List.append_assoc,
        List.getElem?_append_left (by simpa using hj)] at hbit
      have hin' : j < (d ++ [true]).length := by simpa using hj
      rw [List.getElem?_eq_getElem hin'] at hbit ⊢
      exact congrArg some hbit
    · rw [List.getElem?_eq_none]
      simpa using hj
  refine ⟨(s.drop p).drop (d.length + 1), ?_⟩
  rw [← List.singleton_append, ← List.append_assoc, ← htake, List.take_append_drop]

/-- The codeword of a number is decoded wherever its bits stand in a buffer. -/
theorem decodeAt_codeword {n : UInt64} {cw : List UInt8} (hcw : zeckEncode n = some cw)
    {buf : List UInt8} {p : Nat} (hsame : ∀ j < codewordNbits cw, bitAt buf (p + j) = bitAt cw j) :
    decodeAt buf p = some (n, codewordNbits cw) := by
  have h : n ≠ 0 := by
    rintro rfl
    cases hcw
  obtain ⟨cw', k, hcw', hbits, hnbits⟩ := zeckEncode_eq h
  rw [hcw] at hcw'
  cases hcw'
  have hword := isWord_digits h
  obtain ⟨rest, hrest⟩ : ∃ rest, (bitsOf buf).drop p = digits n ++ true :: rest := by
    refine exists_drop_eq (t := bitsOf cw) ?_ hbits
    intro j hj
    have heq := hsame j (by rwa [hnbits, ← length_digits])
    rw [bitAt_eq, bitAt_eq] at heq
    exact Function.LeftInverse.injective Bool.ofNat_toNat heq
  rw [decodeAt_eq, hrest, cut_append_word hword, Option.map_some, valueOf_digits, length_digits,
    hnbits]

theorem zeckDecode_zeckEncode {n : UInt64} {cw : List UInt8} (hcw : zeckEncode n = some cw) :
    zeckDecode cw = some (n, codewordNbits cw) := by
  apply decodeAt_codeword hcw
  intro j _
  rw [Nat.zero_add]

/-- A codeword has its only two adjacent ones at its end, and it is decoded wherever its bits
stand in a buffer. -/
theorem codeword_decodes_anywhere {n : UInt64} (h : n ≠ 0) :
    ∃ cw, zeckEncode n = some cw ∧ 2 ≤ codewordNbits cw ∧
      (∀ j, j + 1 < codewordNbits cw - 1 → ¬ (bitAt cw j = 1 ∧ bitAt cw (j + 1) = 1)) ∧
      (∀ j, (bitAt cw j = 1 ∧ bitAt cw (j + 1) = 1) ↔ j + 2 = codewordNbits cw) ∧
      ∀ (buf : List UInt8) (p : Nat),
        (∀ j < codewordNbits cw, bitAt buf (p + j) = bitAt cw j) →
          decodeAt buf p = some (n, codewordNbits cw) := by
  obtain ⟨cw, k, hcw, hbits, hnbits⟩ := zeckEncode_eq h
  have hword := isWord_digits h
  have hpos := countUpTo_pos h
  have hpair : ∀ j, (bitAt cw j = 1 ∧ bitAt cw (j + 1) = 1) ↔ j + 2 = codewordNbits cw := by
    intro j
    rw [bitAt_eq_one_iff, bitAt_eq_one_iff, hbits, hword.pair_iff, length_digits, hnbits]
    omega
  refine ⟨cw, hcw, by omega, ?_, hpair, ?_⟩
  · intro j hj hone
    have hend := (hpair j).mp hone
    omega
  · exact fun buf p hsame => decodeAt_codeword hcw hsame

/-- The largest number has a codeword of its own. -/
theorem codeword_decodes_anywhere_max :
    ∃ cw, zeckEncode u64Max = some cw ∧ 2 ≤ codewordNbits cw ∧
      (∀ j, j + 1 < codewordNbits cw - 1 → ¬ (bitAt cw j = 1 ∧ bitAt cw (j + 1) = 1)) ∧
      (∀ j, (bitAt cw j = 1 ∧ bitAt cw (j + 1) = 1) ↔ j + 2 = codewordNbits cw) ∧
      ∀ (buf : List UInt8) (p : Nat),
        (∀ j < codewordNbits cw, bitAt buf (p + j) = bitAt cw j) →
          decodeAt buf p = some (u64Max, codewordNbits cw) :=
  codeword_decodes_anywhere (by decide)

/-! ## Repeated decoding -/

/-- The codewords of some words, the first of which starts at an index. -/
def readsOf : Nat → List (List Bool) → List Read
  | _, [] => []
  | i, d :: ds => ⟨i, valueOf d, d.length + 1⟩ :: readsOf (i + (d.length + 1)) ds

/-- A codeword that is decoded is a word of the stream. -/
theorem exists_of_decodeAt {buf : List UInt8} {i : Nat} {v : UInt64} {used : Nat}
    (h : decodeAt buf i = some (v, used)) :
    ∃ d rest, IsWord d ∧ (bitsOf buf).drop i = d ++ true :: rest ∧ v = valueOf d ∧
      used = d.length + 1 ∧ (bitsOf buf).drop (i + used) = rest := by
  rw [decodeAt_eq, Option.map_eq_some_iff] at h
  obtain ⟨⟨d, rest⟩, hcut, hp⟩ := h
  cases hp
  obtain ⟨hd, heq⟩ := eq_of_cut hcut
  refine ⟨d, rest, hd, heq, rfl, rfl, ?_⟩
  rw [← List.drop_drop, heq, ← List.singleton_append, ← List.append_assoc]
  exact List.drop_left' (by simp)

/-- The decoder reads the words of the stream. -/
theorem reads_eq (buf : List UInt8) (i : Nat) :
    reads buf i = readsOf i (words ((bitsOf buf).drop i)) := by
  fun_induction reads buf i with
  | case1 i v used hread ih =>
      obtain ⟨d, rest, hd, heq, rfl, rfl, hrest⟩ := exists_of_decodeAt hread
      rw [ih, hrest, heq, words_append_word hd, readsOf]
  | case2 i hread =>
      rw [decodeAt_eq, Option.map_eq_none_iff] at hread
      rw [words_of_noAdjacent (cut_eq_none_iff.mp hread)]
      rfl

theorem readsOf_append (i : Nat) (ds es : List (List Bool)) :
    readsOf i (ds ++ es) = readsOf i ds ++ readsOf (i + (join ds).length) es := by
  induction ds generalizing i with
  | nil => rfl
  | cons d ds ih =>
      have hnext : i + (d.length + 1) + (join ds).length =
          i + (d.length + ((join ds).length + 1)) := by
        omega
      rw [List.cons_append, readsOf, readsOf, ih, join_cons, List.length_append, List.length_cons,
        hnext, List.cons_append]

theorem map_value_readsOf (i : Nat) (ds : List (List Bool)) :
    (readsOf i ds).map Read.value = ds.map valueOf := by
  induction ds generalizing i with
  | nil => rfl
  | cons d ds ih => rw [readsOf, List.map_cons, ih, List.map_cons]

/-- The last codeword stops at the end of the words. -/
theorem stop_readsOf (i : Nat) {ds : List (List Bool)} (h : ds ≠ []) :
    (readsOf i ds).getLast?.map Read.stop = some (i + (join ds).length) := by
  rcases List.eq_nil_or_concat' ds with rfl | ⟨es, d, rfl⟩
  · exact absurd rfl h
  · have hlen : (join (es ++ [d])).length = (join es).length + (d.length + 1) := by
      simp [join]
    rw [readsOf_append, hlen, ← Nat.add_assoc]
    simp [readsOf, Read.stop]

/-- The meaningful bits of a codeword. -/
def codewordBits (n : UInt64) : List Bool :=
  match zeckEncode n with
  | some cw => (bitsOf cw).take (codewordNbits cw)
  | none => []

theorem codewordBits_eq {n : UInt64} (h : n ≠ 0) : codewordBits n = digits n ++ [true] := by
  obtain ⟨cw, k, hcw, hbits, hnbits⟩ := zeckEncode_eq h
  rw [codewordBits, hcw]
  dsimp only
  rw [hbits, hnbits, ← length_digits, ← List.singleton_append, ← List.append_assoc]
  exact List.take_left' (by simp)

theorem flatMap_codewordBits {vs : List UInt64} (h : ∀ v ∈ vs, v ≠ 0) :
    vs.flatMap codewordBits = join (vs.map digits) := by
  rw [join, List.flatMap_map]
  exact List.flatMap_congr fun v hv => codewordBits_eq (h v hv)

theorem isWord_of_mem_map {vs : List UInt64} (h : ∀ v ∈ vs, v ≠ 0) :
    ∀ d ∈ vs.map digits, IsWord d := by
  intro d hd
  obtain ⟨v, hv, rfl⟩ := List.mem_map.mp hd
  exact isWord_digits (h v hv)

/-- From two on the digits end with a zero and a one. -/
theorem digits_eq_concat {n : UInt64} (h : 2 ≤ n) : ∃ e, digits n = e ++ [false, true] := by
  have htwo : 2 ≤ n.toNat := UInt64.le_iff_toNat_le.mp h
  have hne : n ≠ 0 := by
    rintro rfl
    exact absurd htwo (by decide)
  have hword := isWord_digits hne
  rcases List.eq_nil_or_concat' (digits n) with hnil | ⟨d, b, hd⟩
  · rw [hnil] at hword
    exact nomatch hword.last
  · have hb : b = true := by
      have hlast := hword.last
      rw [hd] at hlast
      simpa using hlast
    rcases List.eq_nil_or_concat' d with rfl | ⟨e, c, rfl⟩
    · -- a single digit counts one
      have hvalue := value_digits n
      rw [hd, hb] at hvalue
      have hone : value ([] ++ [true]) = 1 := by decide
      omega
    · have hc : c = false := by
        have hchain := hword.noAdjacent
        rw [hd, hb] at hchain
        cases c with
        | false => rfl
        | true => exact nomatch (noAdjacent_concat.mp hchain).2 (by simp)
      refine ⟨e, ?_⟩
      rw [hd, hb, hc, List.append_assoc]
      rfl

/-- Whatever comes before some codewords, the decoder stops at the end of each one of two or more,
and reads the following numbers as they are. -/
theorem resynchronises (g : List Bool) {vs : List UInt64} (hvs : ∀ v ∈ vs, v ≠ 0) {i : Nat}
    {v : UInt64} (hi : vs[i]? = some v) (hv : 2 ≤ v) :
    ∃ before after, reads (pack (g ++ vs.flatMap codewordBits)) 0 = before ++ after ∧
      before.getLast?.map Read.stop =
        some (g ++ (vs.take (i + 1)).flatMap codewordBits).length ∧
      after.map Read.value = vs.drop (i + 1) := by
  obtain ⟨hlt, hget⟩ := List.getElem?_eq_some_iff.mp hi
  obtain ⟨e, he⟩ := digits_eq_concat hv
  obtain ⟨k, hk⟩ := bitsOf_pack (g ++ vs.flatMap codewordBits)
  have hne : v ≠ 0 := hvs v (List.mem_of_getElem? hi)
  have hlater : ∀ w ∈ vs.drop (i + 1), w ≠ 0 := fun w hw => hvs w (List.mem_of_mem_drop hw)
  set p := g ++ (vs.take i).flatMap codewordBits ++ e with hp
  set later := (vs.drop (i + 1)).map digits with hlaterdef
  -- the codeword ends with a zero and two ones
  have hupto : g ++ (vs.take (i + 1)).flatMap codewordBits = p ++ [false, true, true] := by
    rw [List.take_add_one, hi, List.flatMap_append]
    simp [codewordBits_eq hne, he, hp]
  have hbits : bitsOf (pack (g ++ vs.flatMap codewordBits)) =
      p ++ [false, true, true] ++ (join later ++ List.replicate k false) := by
    rw [hk, ← hupto, ← flatMap_codewordBits hlater]
    conv_lhs => rw [← List.take_append_drop (i + 1) vs, List.flatMap_append]
    simp only [List.append_assoc]
  obtain ⟨ds, hds, hjoin, hwords⟩ := words_sync p (join later ++ List.replicate k false)
  have hpad : words (join later ++ List.replicate k false) = later := by
    rw [words_join_append (isWord_of_mem_map hlater), words_of_noAdjacent (noAdjacent_replicate k),
      List.append_nil]
  have hsome : ds ≠ [] := by
    rintro rfl
    exact absurd hjoin (by simp [join_nil])
  refine ⟨readsOf 0 ds, readsOf (0 + (join ds).length) later, ?_, ?_, ?_⟩
  · rw [reads_eq, List.drop_zero, hbits, hwords, hpad, readsOf_append]
  · rw [stop_readsOf 0 hsome, hjoin, ← hupto, Nat.zero_add]
  · rw [map_value_readsOf, hlaterdef, List.map_map]
    conv_rhs => rw [← List.map_id (vs.drop (i + 1))]
    exact List.map_congr_left fun w _ => valueOf_digits w

/-- After a stray one and the codeword of one, the decoder is in step from five on. -/
theorem resynchronises_after_five :
    ∃ before after, reads (pack ([true] ++ [1, 5, 8].flatMap codewordBits)) 0 = before ++ after ∧
      before.getLast?.map Read.stop =
        some ([true] ++ ([1, 5, 8].take (1 + 1)).flatMap codewordBits).length ∧
      after.map Read.value = [1, 5, 8].drop (1 + 1) := by
  have hpositive : ∀ v ∈ ([1, 5, 8] : List UInt64), v ≠ 0 := by simp
  exact resynchronises [true] hpositive (v := 5) rfl (by decide)

end Dlr.Coding.Zeckendorf
