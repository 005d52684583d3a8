import Dlr.Coding.Bulk
import Dlr.Compress.Compressor
import Dlr.Core.Frame
import Dlr.Core.Store

/-!
# The client-side shim of one session

The shim keeps the ordered ids its client has produced, the root over them, and
the last root the receiver acknowledged. A turn becomes an APPEND frame on top of
the acknowledged root; a cold start becomes a manifest and a coded transfer of
the blocks the receiver names as missing.

## Implementation notes

The dedup filter is an arbitrary type with a membership answer: it decides only
whether the store is asked at all.
-/

namespace Dlr

open Dlr.Core Coding Compress Lib Lib.Bytes Lib.Machine

inductive ShimError
  | coding (message : String)
  | compress (message : String)
  | coldStartRequired (sid : SessionId)
  deriving DecidableEq

def ShimError.toText : ShimError → String
  | coding message => "coding error: " ++ message
  | compress message => "compress error: " ++ message
  | coldStartRequired sid =>
      "session " ++ toString sid.toNat ++ " unknown to receiver; cold start required"

/-- A membership filter over block ids, with whatever answers it gives. -/
class DedupFilter (F : Type) where
  contains : F → BlockId → Bool
  insert : F → BlockId → F

/-- A filter without false answers, on which the model can be evaluated. -/
@[reducible] def DedupFilter.exact : DedupFilter (List BlockId) where
  contains := fun seen id => decide (id ∈ seen)
  insert := fun seen id => id :: seen

/-- Per-session shim state. -/
structure SessionShim (F : Type) where
  sessionId : SessionId
  /-- Local content-addressed cache, possibly shared with other sessions. -/
  store : ContentStore
  /-- Ordered block ids the client has produced this session. -/
  ids : List BlockId
  root : MerkleRoot
  /-- Last root the receiver acknowledged. -/
  baseRoot : MerkleRoot
  /-- Index into `ids` corresponding to `baseRoot`. -/
  baseLen : Nat
  /-- Compressor of the bulk path. -/
  compressor : Compressor
  /-- Compressor of the append path. -/
  appendCompressor : Compressor
  filter : F
  fountainK : Nat := 64
  fountainSymbolSize : Nat := 1024

namespace SessionShim

variable {F : Type}

/-- Compression level of the append path. -/
def appendLevel : Int := 3

def withFilter (sessionId : SessionId) (store : ContentStore) (compressor : Compressor)
    (filter : F) : SessionShim F where
  sessionId := sessionId
  store := store
  ids := []
  root := rootZero
  baseRoot := rootZero
  baseLen := 0
  compressor := compressor
  appendCompressor := compressor.withLevel appendLevel
  filter := filter

/-- The prefix length whose root is the acknowledged one, if any, scanning from `r`. -/
def findPrefix [Blake3] (acked : MerkleRoot) : MerkleRoot → Nat → List BlockId → Option Nat
  | _, _, [] => none
  | r, i, id :: rest =>
      if appendRoot r id = acked then some (i + 1)
      else findPrefix acked (appendRoot r id) (i + 1) rest

/-- Apply a receiver ACK; `true` when it names a known root. -/
def applyAck [Blake3] (shim : SessionShim F) (acked : MerkleRoot) : Bool × SessionShim F :=
  if acked = shim.root then
    (true, { shim with baseRoot := acked, baseLen := shim.ids.length })
  else if acked = shim.baseRoot then
    (true, shim)
  else
    match findPrefix acked rootZero 0 shim.ids with
    | some len => (true, { shim with baseRoot := acked, baseLen := len })
    | none => (false, shim)

/-- The cold-start manifest. -/
def resyncFrame (shim : SessionShim F) : ResyncFrame :=
  ⟨shim.sessionId, shim.root, shim.ids⟩

section Ingest

variable [DedupFilter F]

/-- Whether a block can be referenced: the store is asked only when the filter says so. -/
def known (filter : F) (store : ContentStore) (id : BlockId) : Bool :=
  if DedupFilter.contains filter id then store.contains id else false

variable [Blake3] [Zstd]

/-- Ingest one block: advance the client state and emit a reference to a known block
or the compressed canonical bytes of a new one. -/
def ingestBlock (shim : SessionShim F) (b : Block) : FrameBlock × SessionShim F :=
  let (c, id) := canonicalBytesAndId b
  let shim := { shim with ids := shim.ids ++ [id], root := appendRoot shim.root id }
  if known shim.filter shim.store id then
    (.ref id, { shim with store := (shim.store.reference shim.sessionId id).1 })
  else
    let z := match shim.appendCompressor.compress c with
      | .ok z => z
      | .error _ => c
    (.inline ⟨b.kind, b.seq, z⟩,
      { shim with
        store := (shim.store.insertWithCanonical shim.sessionId b id (some c)).1
        filter := DedupFilter.insert shim.filter id })

def ingestBlocks (shim : SessionShim F) : List Block → List FrameBlock × SessionShim F
  | [] => ([], shim)
  | b :: rest =>
      let (fb, shim) := shim.ingestBlock b
      let (fbs, shim) := shim.ingestBlocks rest
      (fb :: fbs, shim)

/-- Ingest one turn and return its APPEND frame on top of the acknowledged root. -/
def ingestTurn (shim : SessionShim F) (blocks : List Block) : AppendFrame × SessionShim F :=
  let (fbs, shim) := shim.ingestBlocks blocks
  (⟨shim.sessionId, shim.baseRoot, fbs⟩, shim)

/-- Ingest several turns as one frame. -/
def ingestCoalesced (shim : SessionShim F) (turns : List (List Block)) :
    AppendFrame × SessionShim F :=
  shim.ingestTurn turns.flatten

end Ingest

section Bulk

/-- A self-framed record: the length and the compressed canonical bytes. -/
def bulkRecord (z : List UInt8) : List UInt8 := toLe 4 z.length ++ z

/-- Pack whole records into chunks of at most `limit` bytes; a larger record gets a
chunk of its own. -/
def packChunks (limit : Nat) : List (List UInt8) → List UInt8 → List (List UInt8)
  | [], cur => if cur = [] then [] else [cur]
  | rec :: rest, cur =>
      if cur ≠ [] ∧ cur.length + rec.length > limit then
        cur :: packChunks limit rest rec
      else packChunks limit rest (cur ++ rec)

variable [Zstd] [FloatChoices]

/-- Compress one stored block into its record. -/
def encodeRecord (shim : SessionShim F) (b : Block) : Except ShimError (List UInt8) :=
  match shim.compressor.compress (canonicalBytes b) with
  | .error e => .error (.compress e.toText)
  | .ok z => .ok (bulkRecord z)

/-- Code one chunk as one generation. -/
def encodeChunk (shim : SessionShim F) (margin : UInt32) (chunk : List UInt8) (gen : Nat) :
    Except ShimError BulkFrame :=
  let sym := shim.fountainSymbolSize
  let genSize := max (divCeil chunk.length sym) 1
  match Bulk.encode chunk ⟨genSize, sym, FloatChoices.ofPercent margin, 0⟩ with
  | .error e => .error (.coding e.toText)
  | .ok coded => .ok ⟨shim.sessionId, UInt32.ofNat gen, UInt32.ofNat genSize, UInt32.ofNat sym,
      coded.map Prod.snd⟩

/-- The coded transfer of the blocks a receiver named as missing. -/
def bulkFramesFor (shim : SessionShim F) (missing : List BlockId) (margin : UInt32) :
    Except ShimError (List BulkFrame) :=
  if missing = [] then
    .ok []
  else do
    let records ← (missing.filterMap shim.store.get).mapM shim.encodeRecord
    let chunks := packChunks (shim.fountainK * shim.fountainSymbolSize) records []
    chunks.zipIdx.mapM fun chunk => shim.encodeChunk margin chunk.1 chunk.2

def bulkFrames (shim : SessionShim F) (margin : UInt32) : Except ShimError (List BulkFrame) :=
  shim.bulkFramesFor (shim.ids.drop shim.baseLen) margin

end Bulk

/-! ## What a turn does -/

section IngestSpec

variable [DedupFilter F] [Blake3] [Zstd] (shim : SessionShim F)

omit [Blake3] [Zstd] in
/-- Whatever the filter says, a known block is stored. -/
theorem contains_of_known {filter : F} {store : ContentStore} {id : BlockId}
    (h : known filter store id = true) : store.contains id = true := by
  unfold known at h
  split_ifs at h
  exact h

/-- The wire form of an ingested block. -/
def WireOf (c : Compressor) (b : Block) : FrameBlock → Prop
  | .ref id => id = b.blockId
  | .inline w => w.payload = match c.compress (canonicalBytes b) with
      | .ok z => z
      | .error _ => canonicalBytes b

/-- What ingesting one block does: the client log advances, the store holds the block
afterwards, and a reference is only emitted for a block it held before. -/
structure Ingested (b : Block) (fb : FrameBlock) (shim' : SessionShim F) : Prop where
  ids : shim'.ids = shim.ids ++ [b.blockId]
  root : shim'.root = appendRoot shim.root b.blockId
  wire : WireOf shim.appendCompressor b fb
  ref : ∀ id, fb = .ref id → shim.store.contains id = true
  contains : ∀ id, shim'.store.contains id = true ↔
    shim.store.contains id = true ∨ id = b.blockId
  preserves : ∀ k c, shim.store.blocks.get? k = some c → shim'.store.blocks.get? k = some c
  stored : shim.store.contains b.blockId = false → shim'.store.blocks.get? b.blockId = some b
  sessionId : shim'.sessionId = shim.sessionId
  baseRoot : shim'.baseRoot = shim.baseRoot
  baseLen : shim'.baseLen = shim.baseLen
  compressor : shim'.compressor = shim.compressor
  appendCompressor : shim'.appendCompressor = shim.appendCompressor
  fountainK : shim'.fountainK = shim.fountainK
  fountainSymbolSize : shim'.fountainSymbolSize = shim.fountainSymbolSize

theorem ingestBlock_spec (b : Block) :
    Ingested shim b (shim.ingestBlock b).1 (shim.ingestBlock b).2 := by
  unfold ingestBlock
  simp only [canonicalBytesAndId_eq]
  by_cases hk : known shim.filter shim.store b.blockId = true
  · have hstored := contains_of_known hk
    rw [if_pos hk]
    refine ⟨rfl, rfl, rfl, ?_, fun id => ?_, fun k c hc => by simpa using hc, ?_,
      rfl, rfl, rfl, rfl, rfl, rfl, rfl⟩
    · rintro id ⟨⟩
      exact hstored
    · simp only [ContentStore.contains, ContentStore.reference_blocks] at hstored ⊢
      refine ⟨Or.inl, ?_⟩
      rintro (h | rfl)
      · exact h
      · exact hstored
    · intro habs
      rw [hstored] at habs
      cases habs
  · rw [if_neg hk]
    refine ⟨rfl, rfl, rfl, by simp, fun id => ?_, fun k c hc => ?_, fun habs => ?_,
      rfl, rfl, rfl, rfl, rfl, rfl, rfl⟩
    · simp only [ContentStore.contains, ContentStore.insertWithCanonical_blocks, putBlock_get?]
      split_ifs with hid <;> simp [hid]
    · simp only [ContentStore.insertWithCanonical_blocks]
      exact putBlock_preserves _ _ hc
    · have hnone : shim.store.blocks.get? b.blockId = none := by
        simpa [ContentStore.contains] using habs
      simp [putBlock_get?, hnone]

end IngestSpec

end SessionShim

end Dlr
