import Dlr.Coding.ZeckendorfDecode

/-!
# Zeckendorf streams

A stream holds the codewords of the numbers pushed so far, one after the other. Its buffer is
decoded to these numbers again, and a buffer that is decoded is a stream of the decoded numbers as
long as the words in it fit in 64 bits.
-/

namespace Dlr.Coding.Zeckendorf

open Lib Lib.BitBuffer Lib.FibonacciCode Lib.Machine

/-! ## Pushing numbers -/

namespace ZeckStream

/-- The stream has these bits and zeros after them. -/
structure Holds (s : ZeckStream) (content : List Bool) : Prop where
  bits : s.bits = content.length
  buf : ∃ k, bitsOf s.buf = content ++ List.replicate k false

theorem holds_new : new.Holds [] := ⟨rfl, 0, rfl⟩

theorem Holds.take_eq {s : ZeckStream} {content : List Bool} (h : s.Holds content) :
    (bitsOf s.buf).take s.bits = content := by
  obtain ⟨k, hk⟩ := h.buf
  rw [hk, h.bits, List.take_left]

/-- The loop over the bits of a codeword writes them. -/
theorem foldl_setBit_eq {cw : List UInt8} {w : List Bool} {a : Nat}
    (h : ∀ j < w.length, bitAt cw (a + j) = (w[j]?.getD false).toNat) (pos : Nat)
    (buf : List UInt8) :
    (List.range' a w.length).foldl
        (fun buf j => if bitAt cw j = 1 then setBit buf (pos + j) else buf) buf =
      writeBits buf (pos + a) w := by
  induction w generalizing a buf with
  | nil => rfl
  | cons b rest ih =>
      have hfirst := h 0 (Nat.succ_pos _)
      have hrest : ∀ j < rest.length, bitAt cw (a + 1 + j) = (rest[j]?.getD false).toNat := by
        intro j hj
        have hnext := h (j + 1) (Nat.succ_lt_succ hj)
        rw [List.getElem?_cons_succ] at hnext
        rw [← hnext]
        congr 1
        omega
      rw [List.length_cons, List.range'_succ, List.foldl_cons, ih hrest, writeBits,
        Nat.add_assoc pos]
      congr 1
      have hbit : bitAt cw a = b.toNat := hfirst
      rw [hbit]
      cases b <;> simp

/-- A buffer that is resized has the same bits and more zeros. -/
theorem bitsOf_resize {buf : List UInt8} {content : List Bool} {k : Nat}
    (h : bitsOf buf = content ++ List.replicate k false) (need : Nat) :
    ∃ m, bitsOf (if buf.length < need then buf ++ List.replicate (need - buf.length) 0 else buf) =
      content ++ List.replicate m false ∧ 8 * need ≤ content.length + m := by
  have hlen := congrArg List.length h
  rw [length_bitsOf, List.length_append, List.length_replicate] at hlen
  split_ifs with hshort
  · refine ⟨k + 8 * (need - buf.length), ?_, by omega⟩
    rw [bitsOf_append, bitsOf_replicate, h, List.append_assoc, List.replicate_append_replicate]
  · exact ⟨k, h, by omega⟩

/-- A push appends a codeword. -/
theorem Holds.push {s : ZeckStream} {content : List Bool} (h : s.Holds content) {n : UInt64}
    (hn : n + 1 ≠ 0) :
    ∃ s', s.push n = some s' ∧ s'.Holds (content ++ (digits (n + 1) ++ [true])) := by
  obtain ⟨cw, k, hcw, hbits, hnbits⟩ := zeckEncode_eq hn
  obtain ⟨k', hbuf⟩ := h.buf
  set w := digits (n + 1) ++ [true] with hw
  have hlen : w.length = codewordNbits cw := by
    rw [hnbits, hw, List.length_append, length_digits, List.length_singleton]
  have hbit : ∀ j < w.length, bitAt cw (0 + j) = (w[j]?.getD false).toNat := by
    intro j hj
    rw [bitAt_eq, hbits, Nat.zero_add, ← List.singleton_append, ← List.append_assoc,
      List.getElem?_append_left hj]
  obtain ⟨m, hm, hneed⟩ := bitsOf_resize hbuf (divCeil (s.bits + codewordNbits cw) 8)
  set buf := if s.buf.length < divCeil (s.bits + codewordNbits cw) 8 then
    s.buf ++ List.replicate (divCeil (s.bits + codewordNbits cw) 8 - s.buf.length) 0 else s.buf
  -- the codeword goes where the buffer is zero
  have hzeros : bitsOf buf = content ++ List.replicate w.length false ++
      List.replicate (m - w.length) false := by
    have hroom := le_divCeil_mul (s.bits + codewordNbits cw) (b := 8) (by decide)
    have hle : w.length ≤ m := by
      rw [h.bits] at hroom hneed
      omega
    rw [hm, List.append_assoc, List.replicate_append_replicate, Nat.add_sub_cancel' hle]
  refine ⟨⟨writeBits buf content.length w, s.bits + codewordNbits cw⟩, ?_, ?_, m - w.length, ?_⟩
  · simp only [ZeckStream.push, hcw, Option.bind_eq_bind, Option.bind_some]
    rw [← hlen, List.range_eq_range', foldl_setBit_eq hbit, Nat.add_zero, hlen, ← h.bits]
    rfl
  · rw [h.bits, List.length_append, hlen]
  · exact bitsOf_writeBits hzeros

theorem push_eq_none {s : ZeckStream} {n : UInt64} (hn : n + 1 = 0) : s.push n = none := by
  rw [push, hn]
  rfl

/-- Pushed numbers are held as their codewords. -/
theorem Holds.pushAll {s : ZeckStream} {content : List Bool} (h : s.Holds content)
    {ns : List UInt64} (hns : ∀ n ∈ ns, n + 1 ≠ 0) :
    ∃ s', s.pushAll ns = some s' ∧
      s'.Holds (content ++ join (ns.map fun n => digits (n + 1))) := by
  induction ns generalizing s content with
  | nil =>
      refine ⟨s, rfl, ?_⟩
      rwa [List.map_nil, join_nil, List.append_nil]
  | cons n rest ih =>
      obtain ⟨s₁, hpush, h₁⟩ := h.push (hns n List.mem_cons_self)
      obtain ⟨s₂, hall, h₂⟩ := ih h₁ fun m hm => hns m (List.mem_cons_of_mem n hm)
      refine ⟨s₂, ?_, ?_⟩
      · rw [ZeckStream.pushAll, hpush]
        exact hall
      · rw [List.map_cons, join_cons]
        simpa only [List.append_assoc, List.singleton_append] using h₂

theorem ne_zero_of_pushAll {s s' : ZeckStream} {ns : List UInt64}
    (h : s.pushAll ns = some s') : ∀ n ∈ ns, n + 1 ≠ 0 := by
  induction ns generalizing s with
  | nil => exact fun n hn => nomatch hn
  | cons n rest ih =>
      rw [pushAll] at h
      cases hpush : s.push n with
      | none =>
          rw [hpush] at h
          cases h
      | some s₁ =>
          rw [hpush] at h
          intro m hm hzero
          cases List.mem_cons.mp hm with
          | inl heq =>
              rw [heq] at hzero
              rw [push_eq_none hzero] at hpush
              cases hpush
          | inr hin => exact ih h m hin hzero

/-! ## Decoding a buffer -/

/-- The number that a word stands for in a stream. -/
def unshift (d : List Bool) : Option UInt64 :=
  if valueOf d = 0 then none else some (valueOf d - 1)

theorem decodeFrom_eq (buf : List UInt8) (i : Nat) :
    decodeFrom buf i = (words ((bitsOf buf).drop i)).mapM unshift := by
  fun_induction decodeFrom buf i with
  | case1 i used hread =>
      obtain ⟨d, rest, hd, heq, hvalue, -, -⟩ := exists_of_decodeAt hread
      rw [heq, words_append_word hd, List.mapM_cons, unshift, if_pos hvalue.symm]
      rfl
  | case2 i v used hread hv ih =>
      obtain ⟨d, rest, hd, heq, hvalue, -, hrest⟩ := exists_of_decodeAt hread
      rw [ih, hrest, heq, words_append_word hd, List.mapM_cons, unshift, ← hvalue, if_neg hv]
      rfl
  | case3 i hread =>
      rw [decodeAt_eq, Option.map_eq_none_iff] at hread
      rw [words_of_noAdjacent (cut_eq_none_iff.mp hread)]
      rfl

theorem add_one_eq_zero_iff {n : UInt64} : n + 1 = 0 ↔ n = u64Max := by
  constructor
  · intro h
    have hn : n = n + 1 - 1 := by rw [UInt64.add_sub_cancel]
    rw [hn, h]
    rfl
  · rintro rfl
    rfl

theorem unshift_digits {n : UInt64} (h : n + 1 ≠ 0) : unshift (digits (n + 1)) = some n := by
  rw [unshift, valueOf_digits, if_neg h, UInt64.add_sub_cancel]

theorem isWord_of_mem_shifted {ns : List UInt64} (h : ∀ n ∈ ns, n + 1 ≠ 0) :
    ∀ d ∈ ns.map fun n => digits (n + 1), IsWord d := by
  intro d hd
  obtain ⟨n, hn, rfl⟩ := List.mem_map.mp hd
  exact isWord_digits (h n hn)

theorem mapM_unshift_digits {ns : List UInt64} (h : ∀ n ∈ ns, n + 1 ≠ 0) :
    (ns.map fun n => digits (n + 1)).mapM unshift = some ns := by
  induction ns with
  | nil => rfl
  | cons n rest ih =>
      rw [List.map_cons, List.mapM_cons, unshift_digits (h n List.mem_cons_self),
        ih fun m hm => h m (List.mem_cons_of_mem n hm)]
      rfl

/-- The numbers that are pushed into a stream come out of it again exactly where none of them is
the largest one, whose shift is no positive number. -/
theorem stream_round_trips_iff (ns : List UInt64) :
    (∃ s, new.pushAll ns = some s ∧ decodeAll s.finish = some ns) ↔ u64Max ∉ ns := by
  constructor
  · rintro ⟨s, hpush, -⟩ hmax
    exact ne_zero_of_pushAll hpush u64Max hmax (add_one_eq_zero_iff.mpr rfl)
  · intro hmax
    have hns : ∀ n ∈ ns, n + 1 ≠ 0 := by
      intro n hn hzero
      rw [add_one_eq_zero_iff.mp hzero] at hn
      exact hmax hn
    obtain ⟨s, hpush, hs⟩ := holds_new.pushAll hns
    obtain ⟨k, hk⟩ := hs.buf
    have hwords : words (bitsOf s.buf) = ns.map fun n => digits (n + 1) := by
      rw [hk, List.nil_append, words_join_append (isWord_of_mem_shifted hns),
        words_of_noAdjacent (noAdjacent_replicate k), List.append_nil]
    refine ⟨s, hpush, ?_⟩
    rw [finish, decodeAll, decodeFrom_eq, List.drop_zero, hwords, mapM_unshift_digits hns]

/-- The largest number cannot be pushed. -/
theorem push_max_fails : new.pushAll [u64Max] = none := by
  decide +kernel

/-! ## Buffers from anywhere -/

/-- The number of bits that are decoded. -/
def consumed (buf : List UInt8) : Nat := ((reads buf 0).getLast?.map Read.stop).getD 0

theorem take_consumed (buf : List UInt8) :
    (bitsOf buf).take (consumed buf) = join (words (bitsOf buf)) := by
  obtain ⟨rest, -, heq, -⟩ := exists_eq_join (bitsOf buf)
  have hlen : consumed buf = (join (words (bitsOf buf))).length := by
    rw [consumed, reads_eq, List.drop_zero]
    by_cases hnil : words (bitsOf buf) = []
    · rw [hnil]
      rfl
    · rw [stop_readsOf 0 hnil, Nat.zero_add]
      rfl
  have hinit : join (words (bitsOf buf)) <+: bitsOf buf := ⟨rest, heq.symm⟩
  rw [hlen]
  exact (List.prefix_iff_eq_take.mp hinit).symm

/-- The digits of a codeword that is read are those of a word of the stream. -/
theorem exactSum_of_mem_reads {buf : List UInt8} {i : Nat} {r : Read} (h : r ∈ reads buf i) :
    ∃ d ∈ words ((bitsOf buf).drop i), exactSum buf r.start (r.stop - 1) = value (d.take 92) := by
  fun_induction reads buf i with
  | case1 i v used hread ih =>
      obtain ⟨d, rest, hd, heq, -, rfl, hrest⟩ := exists_of_decodeAt hread
      rw [heq, words_append_word hd]
      cases List.mem_cons.mp h with
      | inl hsame =>
          refine ⟨d, List.mem_cons_self, ?_⟩
          rw [hsame]
          exact exactSum_eq heq
      | inr hlater =>
          obtain ⟨e, he, hsum⟩ := ih hlater
          rw [hrest] at he
          exact ⟨e, List.mem_cons_of_mem d he, hsum⟩
  | case2 i hread => cases h

/-- What decoding a buffer should be: no number is shifted below zero, no sum of digits wraps
around, and the numbers pushed into a new stream give the bits that were read. -/
def Canonical (buf : List UInt8) : Prop :=
  ∃ vs s, decodeAll buf = some vs ∧
    (∀ r ∈ reads buf 0, exactSum buf r.start (r.stop - 1) < 2 ^ 64) ∧
    new.pushAll vs = some s ∧ (bitsOf s.buf).take s.bits = (bitsOf buf).take (consumed buf)

/-- A word within the table and 64 bits is the digits of its value. -/
theorem digits_valueOf {d : List Bool} (hd : IsWord d) (hlen : d.length ≤ 92)
    (hvalue : value d < 2 ^ 64) : valueOf d ≠ 0 ∧ digits (valueOf d) = d := by
  have htoNat : (valueOf d).toNat = value d := by
    rw [valueOf_of_length_le hlen, UInt64.toNat_ofNat', Nat.mod_eq_of_lt hvalue]
  have hne : valueOf d ≠ 0 := by
    intro hzero
    have hpos := hd.value_pos
    rw [← htoNat, hzero] at hpos
    exact absurd hpos (by decide)
  refine ⟨hne, (isWord_digits hne).eq_of_value_eq hd ?_⟩
  rw [value_digits, htoNat]

/-- A buffer is decoded safely exactly where its words have digits in the table only, and sums of
64 bits. -/
theorem canonical_iff (buf : List UInt8) :
    Canonical buf ↔ ∀ d ∈ words (bitsOf buf), d.length ≤ 92 ∧ value d < 2 ^ 64 := by
  obtain ⟨rest, -, -, hwords⟩ := exists_eq_join (bitsOf buf)
  constructor
  · rintro ⟨vs, s, -, -, hpush, hbits⟩ d hd
    have hvs := ne_zero_of_pushAll hpush
    obtain ⟨s', hpush', hs⟩ := holds_new.pushAll hvs
    rw [hpush] at hpush'
    cases hpush'
    rw [hs.take_eq, take_consumed, List.nil_append] at hbits
    -- the words of the stream of the decoded numbers are those of the buffer
    have hsame : vs.map (fun n => digits (n + 1)) = words (bitsOf buf) := by
      rw [← words_join (isWord_of_mem_shifted hvs), hbits, words_join hwords]
    rw [← hsame] at hd
    obtain ⟨n, -, rfl⟩ := List.mem_map.mp hd
    constructor
    · rw [length_digits]
      exact countUpTo_le _
    · rw [value_digits]
      exact UInt64.toNat_lt _
  · intro hfits
    have hdigits : ∀ d ∈ words (bitsOf buf), valueOf d ≠ 0 ∧ digits (valueOf d) = d := fun d hd =>
      digits_valueOf (hwords d hd) (hfits d hd).1 (hfits d hd).2
    set vs := (words (bitsOf buf)).map fun d => valueOf d - 1 with hvs
    have hshift : ∀ n ∈ vs, n + 1 ≠ 0 := by
      intro n hn
      obtain ⟨d, hd, rfl⟩ := List.mem_map.mp hn
      rw [UInt64.sub_add_cancel]
      exact (hdigits d hd).1
    have hback : vs.map (fun n => digits (n + 1)) = words (bitsOf buf) := by
      rw [hvs, List.map_map]
      conv_rhs => rw [← List.map_id (words (bitsOf buf))]
      apply List.map_congr_left
      intro d hd
      rw [Function.comp_apply, UInt64.sub_add_cancel, (hdigits d hd).2, id_eq]
    obtain ⟨s, hpush, hs⟩ := holds_new.pushAll hshift
    refine ⟨vs, s, ?_, ?_, hpush, ?_⟩
    · rw [decodeAll, decodeFrom_eq, List.drop_zero, ← hback, mapM_unshift_digits hshift]
    · intro r hr
      obtain ⟨d, hd, hsum⟩ := exactSum_of_mem_reads hr
      obtain ⟨hlen, hvalue⟩ := hfits d hd
      rwa [hsum, List.take_of_length_le hlen]
    · rw [hs.take_eq, List.nil_append, hback, take_consumed]

/-- A word of ninety-two zeros and a one has no digit in the table. It is decoded to zero, which
cannot be shifted back. -/
theorem decode_all_underflows :
    decodeAll (List.replicate 11 0 ++ [0x30]) = none ∧
      ¬ Canonical (List.replicate 11 0 ++ [0x30]) := by
  have hbits : bitsOf (List.replicate 11 0 ++ [0x30]) =
      (List.replicate 92 false ++ [true]) ++ true :: [false, false] := by
    decide +kernel
  have hword : IsWord (List.replicate 92 false ++ [true]) := by
    refine ⟨noAdjacent_concat.mpr ⟨noAdjacent_replicate 92, ?_⟩, by simp⟩
    intro hlast
    simp at hlast
  have hnone : decodeAll (List.replicate 11 0 ++ [0x30]) = none := by
    have hzero : unshift (List.replicate 92 false ++ [true]) = none := by decide +kernel
    rw [decodeAll, decodeFrom_eq, List.drop_zero, hbits, words_append_word hword, List.mapM_cons,
      hzero]
    rfl
  refine ⟨hnone, ?_⟩
  rintro ⟨vs, s, hsome, -⟩
  rw [hnone] at hsome
  cases hsome

end ZeckStream

end Dlr.Coding.Zeckendorf
