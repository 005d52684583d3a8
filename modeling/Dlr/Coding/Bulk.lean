import Dlr.Coding.RoundTrip

/-!
# Sharding a payload into fountain generations

The payload is padded with zeros to whole generations and every generation is
coded on its own. A generation that is received whole gives its part of the
padded payload back.
-/

namespace Dlr.Coding

open Lib.Machine

inductive BulkError
  | empty
  | generation (gen : Nat) (inner : FountainError)
  | sizeMismatch (a b : Nat)
  deriving DecidableEq, Repr

def BulkError.toText : BulkError → String
  | empty => "empty bulk payload"
  | generation gen inner =>
      "generation " ++ toString gen ++ " decode failed: " ++ inner.toText
  | sizeMismatch a b => "size mismatch: " ++ toString a ++ " vs " ++ toString b

variable [FloatChoices]

structure BulkConfig where
  genSize : Nat
  symbolSize : Nat
  repairFraction : FloatChoices.Fraction
  generations : Nat

namespace Bulk

/-- Pad the payload to whole generations. -/
def padded (payload : List UInt8) (cfg : BulkConfig) : List UInt8 :=
  let totalSyms := max (divCeil payload.length cfg.symbolSize) 1
  let totalFullGens := max (divCeil totalSyms cfg.genSize) 1
  payload ++ List.replicate (totalFullGens * (cfg.genSize * cfg.symbolSize) - payload.length) 0

/-- Code the generation at index `gi` of the padded buffer. -/
def encodeGeneration (buf : List UInt8) (cfg : BulkConfig) (gi : Nat) :
    Except BulkError (List (UInt32 × List UInt8)) :=
  let count := cfg.genSize + FloatChoices.repairCount cfg.genSize cfg.repairFraction
  match FountainEncoder.newShared buf (gi * (cfg.genSize * cfg.symbolSize)) cfg.symbolSize
      cfg.genSize (UInt32.ofNat gi) with
  | .error _ => .error (.sizeMismatch 0 0)
  | .ok enc => .ok ((enc.produce count).1.map fun wire => (UInt32.ofNat gi, wire))

/-- The coded symbols of all generations, tagged with their generation. -/
def encode (payload : List UInt8) (cfg : BulkConfig) :
    Except BulkError (List (UInt32 × List UInt8)) :=
  if payload = [] then
    .error .empty
  else do
    let totalSyms := max (divCeil payload.length cfg.symbolSize) 1
    let totalFullGens := max (divCeil totalSyms cfg.genSize) 1
    let encoded ← (List.range totalFullGens).mapM (encodeGeneration (padded payload cfg) cfg)
    return encoded.flatten

end Bulk

omit [FloatChoices] in
/-- Consecutive symbols of a shared buffer make up a part of the buffer. -/
theorem flatten_src (buf : List UInt8) (offset stride k n : Nat) :
    ((List.range n).map (Source.shared buf offset stride k).src).flatten =
      (buf.drop offset).take (n * stride) := by
  induction n with
  | zero => simp
  | succ n ih =>
      rw [List.range_succ, List.map_append, List.flatten_append, ih, Nat.add_mul, Nat.one_mul,
        List.take_add]
      simp [Source.src]

omit [FloatChoices] in
/-- The symbols of a whole buffer make up the buffer. -/
theorem flatten_shared (buf : List UInt8) (stride k : Nat) (h : buf.length = k * stride) :
    ((List.range k).map (Source.shared buf 0 stride k).src).flatten = buf := by
  rw [flatten_src, List.drop_zero, ← h, List.take_length]

section OneGeneration

variable {payload : List UInt8} (cfg : BulkConfig)

/-- A payload of one generation is not sharded further. -/
theorem totalFullGens_eq_one
    (hgen : cfg.genSize = max (divCeil payload.length cfg.symbolSize) 1) :
    max (divCeil (max (divCeil payload.length cfg.symbolSize) 1) cfg.genSize) 1 = 1 := by
  rw [← hgen]
  have hle : divCeil cfg.genSize cfg.genSize ≤ 1 := divCeil_le (by omega)
  omega

theorem length_padded (hsym : 0 < cfg.symbolSize)
    (hgen : cfg.genSize = max (divCeil payload.length cfg.symbolSize) 1) :
    (Bulk.padded payload cfg).length = cfg.genSize * cfg.symbolSize := by
  have hfit : payload.length ≤ cfg.genSize * cfg.symbolSize := by
    refine (le_divCeil_mul payload.length hsym).trans (Nat.mul_le_mul_right _ ?_)
    rw [hgen]
    exact le_max_left _ _
  simp only [Bulk.padded, totalFullGens_eq_one cfg hgen, List.length_append, List.length_replicate]
  omega

/-- A payload of one generation is coded as that generation. -/
theorem encode_eq_encodeGeneration (hne : payload ≠ [])
    (hgen : cfg.genSize = max (divCeil payload.length cfg.symbolSize) 1) :
    Bulk.encode payload cfg = Bulk.encodeGeneration (Bulk.padded payload cfg) cfg 0 := by
  unfold Bulk.encode
  rw [if_neg hne]
  simp only [totalFullGens_eq_one cfg hgen, List.range_one, List.mapM_cons, List.mapM_nil]
  cases Bulk.encodeGeneration (Bulk.padded payload cfg) cfg 0 with
  | error e => rfl
  | ok coded => simp [bind, Except.bind, pure, Except.pure]

omit [FloatChoices] in
/-- The source symbols of a whole buffer have the symbol size. -/
theorem length_src_shared {buf : List UInt8} {stride k i : Nat} (hlen : buf.length = k * stride)
    (hi : i < k) : ((Source.shared buf 0 stride k).src i).length = stride := by
  have hbound : (i + 1) * stride ≤ k * stride := Nat.mul_le_mul_right _ hi
  rw [Nat.add_mul] at hbound
  simp only [Source.src, List.length_take, List.length_drop, hlen]
  omega

/-- Without repair symbols a generation is its source symbols, each behind a header for one
coefficient. -/
theorem encode_systematic (hne : payload ≠ []) (hsym : 0 < cfg.symbolSize)
    (hgen : cfg.genSize = max (divCeil payload.length cfg.symbolSize) 1)
    (hrepair : FloatChoices.repairCount cfg.genSize cfg.repairFraction = 0)
    {coded : List (UInt32 × List UInt8)} (h : Bulk.encode payload cfg = .ok coded) :
    coded.length = cfg.genSize ∧ ∀ w ∈ coded, w.2.length = 5 + cfg.symbolSize := by
  have hlen := length_padded cfg hsym hgen
  rw [encode_eq_encodeGeneration cfg hne hgen] at h
  unfold Bulk.encodeGeneration at h
  rw [hrepair, Nat.zero_mul] at h
  cases henc : FountainEncoder.newShared (Bulk.padded payload cfg) 0 cfg.symbolSize cfg.genSize
      (UInt32.ofNat 0) with
  | error e => rw [henc] at h; cases h
  | ok enc =>
      obtain ⟨-, -, -, -, rfl⟩ := FountainEncoder.newShared_eq_ok henc
      rw [henc] at h
      obtain rfl := Except.ok.inj h
      constructor
      · simp [FountainEncoder.produce, FountainEncoder.repairSymbols, Source.k]
      · intro w hw
        simp only [FountainEncoder.produce, Source.k, Nat.add_zero, Nat.sub_self, min_self,
          FountainEncoder.repairSymbols, List.append_nil, List.map_map, List.mem_map,
          List.mem_range, Function.comp] at hw
        obtain ⟨i, hi, rfl⟩ := hw
        simp only [FountainEncoder.wireSymbol, List.length_append, List.length_flatMap,
          length_src_shared hlen hi, Lib.Bytes.length_toLe]
        simp

/-- A payload of at most one generation is coded as that generation, and its
symbols decode to the zero-padded payload. -/
theorem encode_single (hne : payload ≠ [])
    (hsym : 0 < cfg.symbolSize) (hgen : cfg.genSize = max (divCeil payload.length cfg.symbolSize) 1)
    (hk : cfg.genSize ≤ 65536) (husize : cfg.genSize * cfg.symbolSize ≤ usizeMax) :
    ∃ wires d syms pad, Bulk.encode payload cfg = .ok (wires.map fun w => (0, w)) ∧
      (FountainDecoder.new cfg.genSize cfg.symbolSize).addAll wires = (.ok (), d) ∧
      d.decode.1 = .ok syms ∧ syms.flatten = payload ++ List.replicate pad 0 := by
  have hpos : 0 < cfg.genSize := by rw [hgen]; omega
  have hlen := length_padded cfg hsym hgen
  set enc : FountainEncoder :=
    { source := .shared (Bulk.padded payload cfg) 0 cfg.symbolSize cfg.genSize, generation := 0 }
    with henc
  have hnew : FountainEncoder.newShared (Bulk.padded payload cfg) 0 cfg.symbolSize cfg.genSize 0 =
      .ok enc := by
    unfold FountainEncoder.newShared
    rw [if_neg (by omega), checkedMul_of_le husize, Option.bind_some,
      checkedAdd_of_le (by omega)]
    simp only [hlen]
    rw [if_neg (by omega)]
  obtain ⟨d, hadd, hdec⟩ := decode_produce enc
    (cfg.genSize + FloatChoices.repairCount cfg.genSize cfg.repairFraction) hpos hk hsym
    (Nat.le_add_right _ _) (fun i hi => length_src_shared hlen hi)
  refine ⟨_, d, _, _, ?_, hadd, hdec, flatten_shared _ _ _ hlen⟩
  rw [encode_eq_encodeGeneration cfg hne hgen]
  unfold Bulk.encodeGeneration
  rw [Nat.zero_mul, show UInt32.ofNat 0 = 0 from rfl, hnew]

end OneGeneration

end Dlr.Coding
