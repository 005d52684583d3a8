import Dlr.Lib.Bytes
import Dlr.Lib.Machine
import Mathlib.Data.Set.Function

/-!
# Semantic content blocks and their canonical encoding

A block is the unit of replication. Its address is the digest of the byte
stream `kind | seq | len | payload`; the encoder, the two parsers and the
streaming hash all describe that one stream.

## Implementation notes

The digest function is a parameter: nothing below looks inside it. The
collision assumptions of the protocol theorems are stated on the inputs of one
run, since no function into 32 bytes is injective on all byte strings.
-/

namespace Dlr.Core

open Lib.Bytes Lib.Machine

/-- A 256-bit digest. -/
structure Digest where
  bytes : List UInt8
  size : bytes.length = 32
  deriving DecidableEq

/-- The content address of a block. -/
abbrev BlockId := Digest

/-- A 128-bit session identifier. -/
abbrev SessionId := BitVec 128

/-- The digest function of the hashing library. -/
class Blake3 where
  hash : List UInt8 → Digest

/-- A concrete digest function on which the model can be evaluated: a tag byte and
the first 31 bytes of the input, padded with zeros. -/
@[reducible] def prefixHash : Blake3 :=
  ⟨fun x => ⟨1 :: (x ++ List.replicate 31 0).take 31, by simp⟩⟩

/-- An incremental hasher: only the concatenation of its updates matters. -/
structure Hasher where
  stream : List UInt8 := []

namespace Hasher

def update (h : Hasher) (data : List UInt8) : Hasher := ⟨h.stream ++ data⟩

def finalize [Blake3] (h : Hasher) : Digest := Blake3.hash h.stream

end Hasher

/-- The kind of a semantic block. -/
inductive BlockKind
  | message
  | toolCall
  | toolResult
  | system
  | summary
  deriving DecidableEq, Repr

namespace BlockKind

def toByte : BlockKind → UInt8
  | message => 1
  | toolCall => 2
  | toolResult => 3
  | system => 4
  | summary => 5

def fromByte (b : UInt8) : Option BlockKind :=
  if b = 1 then some message
  else if b = 2 then some toolCall
  else if b = 3 then some toolResult
  else if b = 4 then some system
  else if b = 5 then some summary
  else none

@[simp] theorem fromByte_toByte (k : BlockKind) : fromByte k.toByte = some k := by
  cases k <;> rfl

theorem toByte_of_fromByte {b : UInt8} {k : BlockKind} (h : fromByte b = some k) :
    k.toByte = b := by
  unfold fromByte at h
  split_ifs at h with h₁ h₂ h₃ h₄ h₅ <;> cases h <;> simp_all [toByte]

end BlockKind

/-- A semantic content block with its position in the session. -/
structure Block where
  kind : BlockKind
  seq : UInt64
  payload : List UInt8
  deriving DecidableEq

/-- The 17-byte canonical header. -/
def Block.header (b : Block) : List UInt8 :=
  b.kind.toByte :: (toLe 8 b.seq.toNat ++ toLe 8 b.payload.length)

@[simp] theorem Block.length_header (b : Block) : b.header.length = 17 := by
  simp [Block.header]

/-- Canonical bytes of a block: `kind | seq | len | payload`. -/
def canonicalBytes (b : Block) : List UInt8 :=
  [b.kind.toByte] ++ toLe 8 b.seq.toNat ++ toLe 8 b.payload.length ++ b.payload

theorem canonicalBytes_eq (b : Block) : canonicalBytes b = b.header ++ b.payload := by
  simp [canonicalBytes, Block.header]

@[simp] theorem length_canonicalBytes (b : Block) :
    (canonicalBytes b).length = 17 + b.payload.length := by
  simp [canonicalBytes_eq]

section Address

variable [Blake3]

/-- The content address, hashed from the header and the payload in two updates. -/
def Block.blockId (b : Block) : BlockId :=
  (((⟨[]⟩ : Hasher).update b.header).update b.payload).finalize

/-- The content address of an already materialized canonical buffer. -/
def blockIdFromCanonical (canon : List UInt8) : BlockId :=
  ((⟨[]⟩ : Hasher).update canon).finalize

/-- Canonical bytes and address in one pass over the block. -/
def canonicalBytesAndId (b : Block) : List UInt8 × BlockId :=
  let out := [] ++ b.header
  let h := (⟨[]⟩ : Hasher).update b.header
  let out := out ++ b.payload
  let h := h.update b.payload
  (out, h.finalize)

theorem blockId_eq_hash (b : Block) : b.blockId = Blake3.hash (canonicalBytes b) := by
  simp [Block.blockId, Hasher.update, Hasher.finalize, canonicalBytes_eq]

theorem canonicalBytesAndId_eq (b : Block) :
    canonicalBytesAndId b = (canonicalBytes b, b.blockId) := by
  simp [canonicalBytesAndId, canonicalBytes_eq, Block.blockId]

end Address

/-- Upper bound on a single block's payload length. -/
def maxBlockPayloadBytes : Nat := 2 ^ 30

/-- The bytes `buf[lo..hi]`. -/
def slice (buf : List UInt8) (lo hi : Nat) : List UInt8 := (buf.drop lo).take (hi - lo)

/-- Parse a block from canonical bytes, copying the payload. -/
def fromCanonical (buf : List UInt8) : Except String Block :=
  if buf.length < 17 then
    .error "buffer too short for canonical block"
  else
    match BlockKind.fromByte (buf.headD 0) with
    | none => .error "unknown block kind"
    | some kind =>
        let seq := UInt64.ofNat (ofLe (slice buf 1 9))
        let len := ofLe (slice buf 9 17)
        if len > maxBlockPayloadBytes then
          .error "payload length exceeds maximum"
        else
          match checkedAdd 17 len with
          | none => .error "payload length exceeds maximum"
          | some stop =>
              if buf.length < stop then .error "payload truncated"
              else .ok ⟨kind, seq, slice buf 17 stop⟩

/-- Parse a block from an owned canonical buffer and hash it in the same pass. -/
def fromCanonicalOwned [Blake3] (canon : List UInt8) : Except String (Block × BlockId) :=
  if canon.length < 17 then
    .error "buffer too short for canonical block"
  else
    match BlockKind.fromByte (canon.headD 0) with
    | none => .error "unknown block kind"
    | some kind =>
        let seq := UInt64.ofNat (ofLe (slice canon 1 9))
        let len := ofLe (slice canon 9 17)
        if len > maxBlockPayloadBytes then
          .error "payload length exceeds maximum"
        else
          match checkedAdd 17 len with
          | none => .error "payload length exceeds maximum"
          | some stop =>
              if canon.length < stop then .error "payload truncated"
              else
                let h := (⟨[]⟩ : Hasher).update (slice canon 0 17)
                let h := h.update (slice canon 17 stop)
                .ok (⟨kind, seq, slice canon 17 stop⟩, h.finalize)

/-- What an accepted buffer holds. -/
structure Parsed (buf : List UInt8) (b : Block) : Prop where
  length : 17 ≤ buf.length
  kind : BlockKind.fromByte (buf.headD 0) = some b.kind
  seq : b.seq = UInt64.ofNat (ofLe (slice buf 1 9))
  payload : b.payload = slice buf 17 (17 + ofLe (slice buf 9 17))
  max : ofLe (slice buf 9 17) ≤ maxBlockPayloadBytes
  stop : 17 + ofLe (slice buf 9 17) ≤ buf.length

theorem parsed_of_fromCanonical {buf : List UInt8} {b : Block} (h : fromCanonical buf = .ok b) :
    Parsed buf b := by
  unfold fromCanonical at h
  split at h
  · cases h
  rename_i hlen
  split at h
  · cases h
  rename_i k hkind
  simp only at h
  split at h
  · cases h
  rename_i hmax
  split at h
  · cases h
  rename_i stop hstop
  obtain rfl := checkedAdd_eq_some hstop
  split at h
  · cases h
  rename_i htrunc
  cases h
  exact ⟨by omega, hkind, rfl, rfl, by omega, by omega⟩

private theorem slice_length {buf : List UInt8} {lo hi : Nat} (h : hi ≤ buf.length) :
    (slice buf lo hi).length = hi - lo := by
  simp only [slice, List.length_take, List.length_drop]
  omega

/-- A full-width field read from the buffer is written back unchanged. -/
private theorem toLe_slice {buf : List UInt8} {lo w : Nat} (h : lo + w ≤ buf.length) :
    toLe w (ofLe (slice buf lo (lo + w))) = slice buf lo (lo + w) := by
  have hback := toLe_ofLe (slice buf lo (lo + w))
  rw [slice_length h, Nat.add_sub_cancel_left] at hback
  exact hback

private theorem ofLe_slice_lt {buf : List UInt8} {lo : Nat} (h : lo + 8 ≤ buf.length) :
    ofLe (slice buf lo (lo + 8)) < 2 ^ 64 := by
  have hlt := ofLe_lt (slice buf lo (lo + 8))
  rw [slice_length h, Nat.add_sub_cancel_left] at hlt
  simpa using hlt

private theorem slice_header {k : UInt8} {rest : List UInt8} :
    slice (k :: rest) 0 17 = k :: (slice (k :: rest) 1 9 ++ slice (k :: rest) 9 17) := by
  simp only [slice, List.drop_zero, Nat.sub_zero, List.drop_succ_cons, List.take_succ_cons]
  rw [show (16 : Nat) = 8 + 8 from rfl, List.take_add]

/-- An accepted buffer starts with the canonical bytes of the parsed block. -/
theorem Parsed.canonicalBytes_eq {buf : List UInt8} {b : Block} (h : Parsed buf b) :
    canonicalBytes b = slice buf 0 17 ++ b.payload := by
  obtain ⟨kind, seq, payload⟩ := b
  obtain ⟨hlen, hkind, rfl, rfl, hmax, htrunc⟩ := h
  have hpay : (slice buf 17 (17 + ofLe (slice buf 9 17))).length = ofLe (slice buf 9 17) := by
    rw [slice_length htrunc]
    omega
  have hseq : toLe 8 (UInt64.ofNat (ofLe (slice buf 1 9))).toNat = slice buf 1 9 := by
    rw [UInt64.toNat_ofNat', Nat.mod_eq_of_lt (ofLe_slice_lt (by omega))]
    exact toLe_slice (by omega)
  have hsize : toLe 8 (ofLe (slice buf 9 17)) = slice buf 9 17 := toLe_slice (by omega)
  cases buf with
  | nil => simp at hlen
  | cons k rest =>
      have hk : kind.toByte = k := BlockKind.toByte_of_fromByte hkind
      simp only [Core.canonicalBytes_eq, Block.header, hpay, hseq, hsize, hk, slice_header]

/-- A parsed payload respects the size limit of the parser. -/
theorem payload_le_of_fromCanonical {buf : List UInt8} {b : Block}
    (h : fromCanonical buf = .ok b) : b.payload.length ≤ maxBlockPayloadBytes := by
  have hb := parsed_of_fromCanonical h
  rw [hb.payload, slice_length hb.stop]
  have hmax := hb.max
  omega

/-- The owned parser accepts the same buffers and returns the block's own address. -/
theorem fromCanonicalOwned_eq [Blake3] (buf : List UInt8) :
    fromCanonicalOwned buf = (fromCanonical buf).map fun b => (b, b.blockId) := by
  have hid : ∀ b, fromCanonical buf = .ok b →
      Blake3.hash (slice buf 0 17 ++ b.payload) = b.blockId := by
    intro b hb
    rw [blockId_eq_hash, (parsed_of_fromCanonical hb).canonicalBytes_eq]
  unfold fromCanonicalOwned
  unfold fromCanonical at hid ⊢
  -- both parsers make the same checks in the same order
  by_cases hlen : buf.length < 17
  · rw [if_pos hlen, if_pos hlen]
    rfl
  rw [if_neg hlen] at hid
  rw [if_neg hlen, if_neg hlen]
  cases hkind : BlockKind.fromByte (buf.headD 0) with
  | none => rfl
  | some kind =>
      simp only [hkind] at hid ⊢
      by_cases hmax : ofLe (slice buf 9 17) > maxBlockPayloadBytes
      · rw [if_pos hmax, if_pos hmax]
        rfl
      rw [if_neg hmax] at hid
      rw [if_neg hmax, if_neg hmax]
      cases hstop : checkedAdd 17 (ofLe (slice buf 9 17)) with
      | none => rfl
      | some stop =>
          simp only [hstop] at hid ⊢
          by_cases htrunc : buf.length < stop
          · rw [if_pos htrunc, if_pos htrunc]
            rfl
          rw [if_neg htrunc] at hid
          rw [if_neg htrunc, if_neg htrunc]
          simp only [Except.map, Hasher.update, Hasher.finalize, List.nil_append, hid _ rfl]

/-- Parsing inverts the canonical encoding, whatever follows it. -/
theorem fromCanonical_append (b : Block) (rest : List UInt8)
    (hmax : b.payload.length ≤ maxBlockPayloadBytes) :
    fromCanonical (canonicalBytes b ++ rest) = .ok b := by
  have hlen : 17 + b.payload.length ≤ (canonicalBytes b ++ rest).length := by simp
  have hbytes : canonicalBytes b ++ rest = b.kind.toByte ::
      (toLe 8 b.seq.toNat ++ (toLe 8 b.payload.length ++ (b.payload ++ rest))) := by
    simp [canonicalBytes]
  have hkind : BlockKind.fromByte ((canonicalBytes b ++ rest).headD 0) = some b.kind := by
    rw [hbytes, List.headD_cons, BlockKind.fromByte_toByte]
  have hseq : ofLe (slice (canonicalBytes b ++ rest) 1 9) = b.seq.toNat := by
    rw [hbytes]
    simp only [slice, List.drop_succ_cons, List.drop_zero]
    rw [List.take_left' (by simp), ofLe_toLe]
    exact b.seq.toNat_lt
  have hsize : ofLe (slice (canonicalBytes b ++ rest) 9 17) = b.payload.length := by
    rw [hbytes]
    simp only [slice, List.drop_succ_cons]
    rw [List.drop_left' (by simp), List.take_left' (by simp), ofLe_toLe]
    simp only [maxBlockPayloadBytes] at hmax
    omega
  have hadd : checkedAdd 17 b.payload.length = some (17 + b.payload.length) := by
    apply checkedAdd_of_le
    simp only [maxBlockPayloadBytes, usizeMax] at *
    omega
  have hpay : slice (canonicalBytes b ++ rest) 17 (17 + b.payload.length) = b.payload := by
    rw [canonicalBytes_eq, List.append_assoc, slice, List.drop_left' (by simp),
      Nat.add_sub_cancel_left, List.take_left' rfl]
  unfold fromCanonical
  rw [if_neg (by omega)]
  simp only [hkind, hseq, hsize, hadd, hpay, UInt64.ofNat_toNat]
  rw [if_neg (by omega), if_neg (by omega)]

theorem fromCanonical_canonicalBytes (b : Block)
    (hmax : b.payload.length ≤ maxBlockPayloadBytes) :
    fromCanonical (canonicalBytes b) = .ok b := by
  simpa using fromCanonical_append b [] hmax

/-- What the parser accepts of a block that fits in memory is the block itself. -/
theorem eq_of_fromCanonical_canonicalBytes {b b' : Block}
    (hfit : b.payload.length ≤ usizeMax) (h : fromCanonical (canonicalBytes b) = .ok b') :
    b' = b := by
  have hlen : ofLe (slice (canonicalBytes b) 9 17) = b.payload.length := by
    have hbytes : canonicalBytes b = b.kind.toByte ::
        (toLe 8 b.seq.toNat ++ (toLe 8 b.payload.length ++ b.payload)) := by
      simp [canonicalBytes]
    rw [hbytes]
    simp only [slice, List.drop_succ_cons]
    rw [List.drop_left' (by simp), List.take_left' (by simp), ofLe_toLe]
    simp only [usizeMax] at hfit
    omega
  have hmax := (parsed_of_fromCanonical h).max
  rw [hlen] at hmax
  rw [fromCanonical_canonicalBytes b hmax] at h
  exact (Except.ok.inj h).symm

/-- Canonical bytes determine the block. -/
theorem canonicalBytes_injective : Function.Injective canonicalBytes := by
  intro b c h
  obtain ⟨bk, bs, bp⟩ := b
  obtain ⟨ck, cs, cp⟩ := c
  simp only [canonicalBytes, List.append_assoc, List.cons_append, List.nil_append,
    List.cons.injEq] at h
  obtain ⟨hk, h⟩ := h
  obtain ⟨hs, h⟩ := List.append_inj h (by simp)
  obtain ⟨-, hp⟩ := List.append_inj h (by simp)
  have hkind : bk = ck := by
    have := congrArg BlockKind.fromByte hk
    simpa using this
  have hseq : bs = cs := by
    have := congrArg ofLe hs
    rw [ofLe_toLe bs.toNat_lt, ofLe_toLe cs.toNat_lt] at this
    exact UInt64.toNat_inj.mp this
  rw [hkind, hseq, hp]

/-- Blocks whose bytes do not collide are determined by their address. -/
theorem eq_of_blockId_eq [Blake3] {S : Set (List UInt8)} (hS : Set.InjOn Blake3.hash S)
    {b b' : Block} (hb : canonicalBytes b ∈ S) (hb' : canonicalBytes b' ∈ S)
    (h : b.blockId = b'.blockId) : b = b' := by
  rw [blockId_eq_hash, blockId_eq_hash] at h
  exact canonicalBytes_injective (hS hb hb' h)

theorem eq_of_map_blockId_eq [Blake3] {S : Set (List UInt8)} (hS : Set.InjOn Blake3.hash S)
    {bs bs' : List Block} (hb : ∀ b ∈ bs, canonicalBytes b ∈ S)
    (hb' : ∀ b ∈ bs', canonicalBytes b ∈ S) (h : bs.map Block.blockId = bs'.map Block.blockId) :
    bs = bs' := by
  induction bs generalizing bs' with
  | nil => exact (List.map_eq_nil_iff.mp h.symm).symm
  | cons b rest ih =>
      cases bs' with
      | nil => cases h
      | cons b' rest' =>
          obtain ⟨hhead, htail⟩ := List.cons.inj h
          rw [eq_of_blockId_eq hS (hb b List.mem_cons_self) (hb' b' List.mem_cons_self) hhead,
            ih (fun x hx => hb x (List.mem_cons_of_mem _ hx))
              (fun x hx => hb' x (List.mem_cons_of_mem _ hx)) htail]

theorem isPrefix_of_fromCanonical {buf : List UInt8} {b : Block} (h : fromCanonical buf = .ok b) :
    canonicalBytes b <+: buf := by
  have hb := parsed_of_fromCanonical h
  have hbytes : canonicalBytes b = buf.take (17 + ofLe (slice buf 9 17)) := by
    rw [hb.canonicalBytes_eq, hb.payload, slice, slice, List.drop_zero, Nat.sub_zero,
      ← List.take_add]
    congr 1
    omega
  rw [hbytes]
  exact List.take_prefix _ buf

/-- Every path between a block, its canonical bytes and its address describes the same layout:
the encoders and hashers agree on every block, and the parsers on every buffer. -/
theorem canonical_paths_agree [Blake3] (b : Block) (buf : List UInt8) :
    (b.payload.length ≤ maxBlockPayloadBytes → fromCanonical (canonicalBytes b) = .ok b) ∧
      canonicalBytesAndId b = (canonicalBytes b, b.blockId) ∧
      blockIdFromCanonical (canonicalBytes b) = b.blockId ∧
      fromCanonicalOwned buf = (fromCanonical buf).map (fun parsed => (parsed, parsed.blockId)) ∧
      ∀ parsed, fromCanonical buf = .ok parsed → canonicalBytes parsed <+: buf := by
  refine ⟨fromCanonical_canonicalBytes b, canonicalBytesAndId_eq b, ?_,
    fromCanonicalOwned_eq buf, fun _ => isPrefix_of_fromCanonical⟩
  rw [blockId_eq_hash]
  rfl

end Dlr.Core
