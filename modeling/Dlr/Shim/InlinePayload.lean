import Dlr.Shim.Turn

/-!
# Inline payloads

An inline entry of an APPEND frame carries the compressed canonical bytes of its block. The
receiver tells the encodings apart by the first byte. When the encoder fails, the shim puts
the canonical bytes on the wire as they are, and their first byte is the kind of the block.

## Implementation notes

The kind of a message is the byte that marks a zstd frame, every other kind is no marker. So
after a failure of the encoder the payload decodes only if the block is a message whose bytes
happen to be a frame of themselves.
-/

namespace Dlr

open Dlr.Core Compress Lib Lib.Machine

/-- The owned parser returns a block within the limit when its buffer starts with the bytes of
the block. -/
theorem Core.fromCanonicalOwned_eq_ok_iff [Blake3] {buf : List UInt8} {b : Block} {id : BlockId} :
    fromCanonicalOwned buf = .ok (b, id) ↔
      b.payload.length ≤ maxBlockPayloadBytes ∧ canonicalBytes b <+: buf ∧ id = b.blockId := by
  rw [fromCanonicalOwned_eq]
  constructor
  · intro h
    cases hp : fromCanonical buf with
    | error e =>
        rw [hp] at h
        cases h
    | ok parsed =>
        rw [hp] at h
        cases h
        exact ⟨payload_le_of_fromCanonical hp, isPrefix_of_fromCanonical hp, rfl⟩
  · rintro ⟨hmax, ⟨rest, rfl⟩, rfl⟩
    rw [fromCanonical_append b rest hmax]
    rfl

namespace SessionShim

section Wire

variable [Zstd] (sender c : Compressor) (b : Block)

/-- The encoder is not asked or does not fail, so the payload carries a marker. -/
def Marked : Prop :=
  (canonicalBytes b).length < sender.minBlock ∨
    ∃ z, Zstd.compress sender.level sender.dict.content (canonicalBytes b) = .ok z

/-- The block is a message whose bytes behind the kind are a frame that decodes to a buffer
starting with those very bytes. -/
def ReadsAsOwnFrame : Prop :=
  b.kind = .message ∧
    ∃ canon, Zstd.decompress c.dict.content (canonicalBytes b).tail
        (Compressor.outputCap (canonicalBytes b).tail) = .ok canon ∧
      canonicalBytes b <+: canon

variable {sender c b}

/-- Unmarked canonical bytes decompress only as the frame of a message. -/
theorem decompress_canonicalBytes_iff {canon : List UInt8} :
    c.decompress (canonicalBytes b) = .ok canon ↔
      b.kind = .message ∧ Zstd.decompress c.dict.content (canonicalBytes b).tail
        (Compressor.outputCap (canonicalBytes b).tail) = .ok canon := by
  have hbytes : canonicalBytes b = b.kind.toByte :: (canonicalBytes b).tail := rfl
  rw [hbytes]
  generalize (canonicalBytes b).tail = body
  cases hkind : b.kind with
  | message =>
      simp only [Compressor.decompress, BlockKind.toByte, List.tail_cons, true_and]
      cases Zstd.decompress c.dict.content body (Compressor.outputCap body) <;> simp
  | toolCall => simp [Compressor.decompress, BlockKind.toByte]
  | toolResult => simp [Compressor.decompress, BlockKind.toByte]
  | system => simp [Compressor.decompress, BlockKind.toByte]
  | summary => simp [Compressor.decompress, BlockKind.toByte]

/-- What the receiver makes of an inline payload: the ingested block, exactly when the block is
within the limit and its payload is marked or reads as its own frame. -/
theorem decodes_wire_iff (hinv : Zstd.Inverts) (hdict : c.dict.content = sender.dict.content)
    [Blake3] {w : Block} (hw : WireOf sender b (.inline w)) :
    (∃ canon, c.decompress w.payload = .ok canon ∧
        fromCanonicalOwned canon = .ok (b, b.blockId)) ↔
      b.payload.length ≤ maxBlockPayloadBytes ∧ (Marked sender b ∨ ReadsAsOwnFrame c b) := by
  simp only [fromCanonicalOwned_eq_ok_iff, and_true]
  cases hz : sender.compress (canonicalBytes b) with
  | ok z =>
      have hmarked : Marked sender b := Compressor.compress_ok_iff.mp ⟨z, hz⟩
      simp only [WireOf, hz] at hw
      rw [hw, Compressor.decompress_compress hinv hdict hz]
      simp [hmarked]
  | error e =>
      have hmarked : ¬ Marked sender b := fun h => by
        obtain ⟨z, hok⟩ := Compressor.compress_ok_iff.mpr h
        rw [hz] at hok
        cases hok
      simp only [WireOf, hz] at hw
      simp only [hw, decompress_canonicalBytes_iff, hmarked, false_or, ReadsAsOwnFrame]
      constructor
      · rintro ⟨canon, ⟨hkind, hdec⟩, hmax, hstart⟩
        exact ⟨hmax, hkind, canon, hdec, hstart⟩
      · rintro ⟨hmax, hkind, canon, hdec, hstart⟩
        exact ⟨canon, ⟨hkind, hdec⟩, hmax, hstart⟩

end Wire

variable {F : Type} [DedupFilter F] [Blake3] [Zstd]

/-- The inline payload that `ingestTurn` puts in the frame decodes to the ingested block, under
the id the shim recorded, exactly when the block is within the size limit and the encoder did
not fail on it. -/
theorem inline_payload_decodable_iff (shim : SessionShim F) (blocks : List Block)
    {c : Compressor} (hinv : Zstd.Inverts)
    (hdict : c.dict.content = shim.appendCompressor.dict.content) {i : Nat} {b w : Block}
    (hb : blocks[i]? = some b)
    (hw : (shim.ingestTurn blocks).1.blocks[i]? = some (.inline w)) :
    (∃ canon id, c.decompress w.payload = .ok canon ∧ fromCanonicalOwned canon = .ok (b, id) ∧
        (shim.ingestTurn blocks).2.ids[shim.ids.length + i]? = some id) ↔
      b.payload.length ≤ maxBlockPayloadBytes ∧
        (Marked shim.appendCompressor b ∨ ReadsAsOwnFrame c b) := by
  have hspec := shim.ingestTurn_spec blocks
  have hwire : WireOf shim.appendCompressor b (.inline w) := by
    obtain ⟨hi, rfl⟩ := List.getElem?_eq_some_iff.mp hb
    obtain ⟨hi', hinline⟩ := List.getElem?_eq_some_iff.mp hw
    rw [← hinline]
    exact hspec.wire.get hi hi'
  have hid : (shim.ingestTurn blocks).2.ids[shim.ids.length + i]? = some b.blockId := by
    rw [hspec.ids, List.getElem?_append_right (Nat.le_add_right _ _), Nat.add_sub_cancel_left,
      List.getElem?_map, hb]
    rfl
  rw [← decodes_wire_iff hinv hdict hwire, hid]
  constructor
  · rintro ⟨canon, id, hdec, hparse, hsame⟩
    cases hsame
    exact ⟨canon, hdec, hparse⟩
  · rintro ⟨canon, hdec, hparse⟩
    exact ⟨canon, b.blockId, hdec, hparse, rfl⟩

omit [DedupFilter F] [Blake3] [Zstd] in
/-- A tool result of sixteen bytes, with a codec that stores its input. -/
theorem inline_payload_decodable_tool_result :
    letI := prefixHash
    letI := storedZstd
    letI := DedupFilter.exact
    let b : Block := ⟨.toolResult, 7, List.replicate 16 0x61⟩
    let shim := withFilter 5 ContentStore.new Compressor.default ([] : List BlockId)
    ∃ w canon id, (shim.ingestTurn [b]).1.blocks[0]? = some (.inline w) ∧
      Compressor.default.decompress w.payload = .ok canon ∧
      fromCanonicalOwned canon = .ok (b, id) ∧
      (shim.ingestTurn [b]).2.ids[0]? = some id := by
  let _ := prefixHash
  let _ := storedZstd
  let _ := DedupFilter.exact
  have hinv : Zstd.Inverts := by
    intro level dict input z hz
    cases hz
    exact ⟨rfl, fun _ _ => rfl⟩
  let b : Block := ⟨.toolResult, 7, List.replicate 16 0x61⟩
  let w : Block := ⟨.toolResult, 7, 0x00 :: canonicalBytes b⟩
  let shim := withFilter 5 ContentStore.new Compressor.default ([] : List BlockId)
  have hw : (shim.ingestTurn [b]).1.blocks[0]? = some (.inline w) := by decide +kernel
  obtain ⟨canon, id, hdec, hparse, hid⟩ :=
    (inline_payload_decodable_iff shim [b] (c := Compressor.default) hinv rfl rfl hw).mpr
      ⟨by decide, Or.inl (Or.inr ⟨_, rfl⟩)⟩
  exact ⟨w, canon, id, hw, hdec, hparse, hid⟩

omit [DedupFilter F] [Blake3] [Zstd] in
/-- When the encoder fails on a tool result, its kind is read as the marker of the payload, and
there is no such marker. -/
theorem inline_payload_without_marker :
    letI := prefixHash
    letI := refusingZstd
    letI := DedupFilter.exact
    let b : Block := ⟨.toolResult, 7, List.replicate 16 0x61⟩
    let shim := withFilter 5 ContentStore.new Compressor.default ([] : List BlockId)
    Zstd.Inverts ∧ ∃ w, (shim.ingestTurn [b]).1.blocks[0]? = some (.inline w) ∧
      Compressor.default.decompress w.payload = .error (.decode "unknown marker 0x3") ∧
      ¬ ∃ canon id, Compressor.default.decompress w.payload = .ok canon ∧
        fromCanonicalOwned canon = .ok (b, id) ∧
        (shim.ingestTurn [b]).2.ids[0]? = some id := by
  let _ := prefixHash
  let _ := refusingZstd
  let _ := DedupFilter.exact
  have hdec : Compressor.default.decompress
      (canonicalBytes ⟨.toolResult, 7, List.replicate 16 0x61⟩) =
      .error (.decode "unknown marker 0x3") := by decide +kernel
  refine ⟨fun _ _ _ _ hz => (by cases hz),
    ⟨.toolResult, 7, canonicalBytes ⟨.toolResult, 7, List.replicate 16 0x61⟩⟩,
    by decide +kernel, hdec, ?_⟩
  rintro ⟨canon, id, hok, -⟩
  rw [hdec] at hok
  cases hok

end SessionShim

end Dlr
