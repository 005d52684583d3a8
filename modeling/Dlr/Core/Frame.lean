import Dlr.Core.Merkle

/-!
# Wire frames

Five frame kinds share one tagged layout with little-endian integers. The
decoder reads through a moving window over the body and pre-checks every
length; the two places where it indexes without a check are modelled as panics.
-/

namespace Dlr.Core

open Lib.Bytes Lib.Machine

/-- Why a frame is refused. -/
inductive FrameError
  | truncated
  | unknownTag (tag : UInt8)
  | unknownKind (kind : UInt8)
  | tooLarge (bytes : Nat)
  | missingRef
  deriving DecidableEq, Repr

def FrameError.toText : FrameError → String
  | truncated => "frame truncated"
  | unknownTag tag => "unknown frame tag 0x" ++ String.ofList (Nat.toDigits 16 tag.toNat)
  | unknownKind kind => "unknown block kind " ++ toString kind.toNat
  | tooLarge bytes => "frame too large: " ++ toString bytes ++ " bytes"
  | missingRef => "referenced block id not present"

/-- A block entry of an APPEND frame. -/
inductive FrameBlock
  /-- New content: the payload is the compressed canonical encoding. -/
  | inline (b : Block)
  /-- Content already in the receiver's store. -/
  | ref (id : BlockId)
  deriving DecidableEq

structure AppendFrame where
  sessionId : SessionId
  baseRoot : MerkleRoot
  blocks : List FrameBlock
  deriving DecidableEq

structure ResyncFrame where
  sessionId : SessionId
  clientRoot : MerkleRoot
  /-- Ordered block ids the client has. -/
  manifest : List BlockId
  deriving DecidableEq

structure BulkFrame where
  sessionId : SessionId
  generation : UInt32
  k : UInt32
  symbolSize : UInt32
  symbols : List (List UInt8)
  deriving DecidableEq

structure AckFrame where
  sessionId : SessionId
  root : MerkleRoot
  deriving DecidableEq

structure MissingFrame where
  sessionId : SessionId
  missing : List BlockId
  deriving DecidableEq

inductive Frame
  | append (f : AppendFrame)
  | resync (f : ResyncFrame)
  | bulk (f : BulkFrame)
  | ack (f : AckFrame)
  | missing (f : MissingFrame)
  deriving DecidableEq

/-- The session a frame is addressed to. -/
def Frame.sessionId : Frame → SessionId
  | append f => f.sessionId
  | resync f => f.sessionId
  | bulk f => f.sessionId
  | ack f => f.sessionId
  | missing f => f.sessionId

def tagAppend : UInt8 := 1
def tagResync : UInt8 := 2
def tagBulk : UInt8 := 3
def tagAck : UInt8 := 4
def tagMissing : UInt8 := 5
def refBit : UInt8 := 0x80

def maxInlinePayloadBytes : Nat := 2 ^ 30
def maxFrameCount : Nat := 2 ^ 24

/-- One block entry: a `u32` body length, a marker byte and the body. -/
def encodeFrameBlock : FrameBlock → List UInt8
  | .inline b =>
      toLe 4 (1 + 8 + 8 + b.payload.length) ++ [b.kind.toByte &&& ~~~refBit] ++
        toLe 8 b.seq.toNat ++ toLe 8 b.payload.length ++ b.payload
  | .ref id => toLe 4 33 ++ [refBit] ++ id.bytes

def encodeFrame : Frame → List UInt8
  | .append a =>
      [tagAppend] ++ toLe 16 a.sessionId.toNat ++ a.baseRoot.bytes ++
        toLe 4 a.blocks.length ++ a.blocks.flatMap encodeFrameBlock
  | .resync r =>
      [tagResync] ++ toLe 16 r.sessionId.toNat ++ r.clientRoot.bytes ++
        toLe 4 r.manifest.length ++ r.manifest.flatMap Digest.bytes
  | .bulk b =>
      [tagBulk] ++ toLe 16 b.sessionId.toNat ++ toLe 4 b.generation.toNat ++
        toLe 4 b.k.toNat ++ toLe 4 b.symbolSize.toNat ++ toLe 4 b.symbols.length ++
        b.symbols.flatMap fun s => toLe 4 s.length ++ s
  | .ack a => [tagAck] ++ toLe 16 a.sessionId.toNat ++ a.root.bytes
  | .missing m =>
      [tagMissing] ++ toLe 16 m.sessionId.toNat ++ toLe 4 m.missing.length ++
        m.missing.flatMap Digest.bytes

/-- A frame reader consumes a prefix of the window, fails, or panics. -/
abbrev Reader (α : Type) := StateT (List UInt8) (Except (Fault FrameError)) α

namespace Reader

def fail {α : Type} (e : FrameError) : Reader α := throw (.error e)

/-- Consume exactly `n` bytes. -/
def take (n : Nat) : Reader (List UInt8) := do
  match takeExact n (← get) with
  | none => fail .truncated
  | some (field, rest) => set rest; return field

def takeU32 : Reader Nat := do return ofLe (← take 4)

/-- A `u32` count bounded by the frame limit. -/
def takeCount : Reader Nat := do
  let n ← takeU32
  if n > maxFrameCount then fail (.tooLarge n) else return n

def takeU128 : Reader SessionId := do return BitVec.ofNat 128 (ofLe (← take 16))

def takeBlockId : Reader BlockId := do
  match takeExact 32 (← get) with
  | none => fail .truncated
  | some (field, rest) =>
      set rest
      if h : field.length = 32 then return ⟨field, h⟩ else throw .panic

/-- Run a reader `n` times. -/
def repeated {α : Type} (item : Reader α) : Nat → Reader (List α)
  | 0 => return []
  | n + 1 => do return (← item) :: (← repeated item n)

/-- One bulk symbol behind its own length field. -/
def symbol : Reader (List UInt8) := do
  let len ← takeU32
  if len > maxInlinePayloadBytes then fail (.tooLarge len) else take len

/-- One block entry. The marker byte is read before the entry is known to be
non-empty, and an inline entry advances by its payload, not by its length field. -/
def frameBlock : Reader FrameBlock := do
  let len ← takeU32
  let r ← get
  if r.length < len then fail .truncated
  match r with
  | [] => throw .panic
  | marker :: _ =>
      if marker &&& refBit ≠ 0 then
        if len ≠ 33 then fail .truncated
        let id := slice r 1 33
        set (r.drop len)
        if h : id.length = 32 then return .ref ⟨id, h⟩ else throw .panic
      else
        match BlockKind.fromByte (marker &&& ~~~refBit) with
        | none => fail (.unknownKind marker)
        | some kind =>
            if len < 1 + 16 then fail .truncated
            let seq := UInt64.ofNat (ofLe (slice r 1 9))
            let plen := ofLe (slice r 9 17)
            if plen > maxInlinePayloadBytes then fail (.tooLarge plen)
            if len < 1 + 16 + plen then fail .truncated
            let payload := slice r 17 (17 + plen)
            set (r.drop (1 + 16 + plen))
            return .inline ⟨kind, seq, payload⟩

/-- The body of a frame after its tag byte. -/
def body (tag : UInt8) : Reader Frame :=
  if tag = tagAppend then do
    let sessionId ← takeU128
    let baseRoot ← takeBlockId
    let blocks ← repeated frameBlock (← takeCount)
    return .append ⟨sessionId, baseRoot, blocks⟩
  else if tag = tagResync then do
    let sessionId ← takeU128
    let clientRoot ← takeBlockId
    let manifest ← repeated takeBlockId (← takeCount)
    return .resync ⟨sessionId, clientRoot, manifest⟩
  else if tag = tagBulk then do
    let sessionId ← takeU128
    let generation ← takeU32
    let k ← takeU32
    let symbolSize ← takeU32
    let symbols ← repeated symbol (← takeCount)
    return .bulk ⟨sessionId, UInt32.ofNat generation, UInt32.ofNat k,
      UInt32.ofNat symbolSize, symbols⟩
  else if tag = tagAck then do
    let sessionId ← takeU128
    let root ← takeBlockId
    return .ack ⟨sessionId, root⟩
  else if tag = tagMissing then do
    let sessionId ← takeU128
    let missing ← repeated takeBlockId (← takeCount)
    return .missing ⟨sessionId, missing⟩
  else
    fail (.unknownTag tag)

end Reader

/-- Decode a frame. The copying and the zero-copy entry points read the same bytes. -/
def decodeFrame (buf : List UInt8) : Except (Fault FrameError) Frame :=
  match buf with
  | [] => .error (.error .truncated)
  | tag :: body => (Reader.body tag).run body |>.map Prod.fst

theorem length_encodeFrameBlock_inline (b : Block) :
    (encodeFrameBlock (.inline b)).length = 21 + b.payload.length := by
  simp [encodeFrameBlock]
  omega

theorem length_encodeFrameBlock_ref (id : BlockId) :
    (encodeFrameBlock (.ref id)).length = 37 := by
  simp [encodeFrameBlock, id.size]

theorem length_encodeFrame_append (a : AppendFrame) :
    (encodeFrame (.append a)).length =
      53 + (a.blocks.map fun fb => (encodeFrameBlock fb).length).sum := by
  simp [encodeFrame, a.baseRoot.size, List.length_flatMap]
  omega

/-- A BULK frame of symbols of one length. -/
theorem length_encodeFrame_bulk {b : BulkFrame} {n : Nat} (h : ∀ s ∈ b.symbols, s.length = n) :
    (encodeFrame (.bulk b)).length = 33 + b.symbols.length * (4 + n) := by
  have hlen : (b.symbols.map fun s => (toLe 4 s.length ++ s).length) =
      List.replicate b.symbols.length (4 + n) := by
    rw [List.eq_replicate_iff]
    constructor
    · exact List.length_map _
    · intro m hm
      obtain ⟨s, hs, rfl⟩ := List.mem_map.mp hm
      rw [List.length_append, length_toLe, h s hs]
  have hsum := congrArg List.sum hlen
  rw [List.sum_replicate_nat] at hsum
  simp only [List.length_append, length_toLe] at hsum
  simp only [encodeFrame, List.length_append, List.length_flatMap, length_toLe,
    List.length_singleton, hsum]

end Dlr.Core
