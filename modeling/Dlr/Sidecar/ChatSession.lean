import Dlr.Core.FrameCodec
import Dlr.Shim.Turn
import Dlr.Sidecar.Envelope

/-!
# The client side of a conversation

A chat session turns new messages into blocks, ingests them as one turn and wraps the
APPEND frame into a request. At most one request is awaiting its ACK. Everything that can
fail is checked before the shim is touched, with a bound on the size of the request that
does not depend on what compression achieves.
-/

namespace Dlr.Sidecar

open Dlr.Core Compress Lib.Bytes Lib.Machine

/-- Client-side state of one conversation. -/
structure ChatSession (F : Type) where
  shim : SessionShim F
  nextSeq : UInt64
  /-- Root of the request that is awaiting its ACK. -/
  pendingRoot : Option MerkleRoot

/-- A prepared request; its body stays the same across retries. -/
structure PreparedChatRequest where
  body : List UInt8
  expectedRoot : MerkleRoot
  requestJsonBytes : Nat
  newMessagesJsonBytes : Nat
  deriving DecidableEq

def messageKind (message : List (String × Value)) : BlockKind :=
  match (Value.getMember "role" message).bind Value.asStr with
  | some "system" => .system
  | some "developer" => .system
  | some "tool" => .toolResult
  | some "assistant" =>
      if (Value.getMember "tool_calls" message).isSome then .toolCall else .message
  | _ => .message

def validateMessageObject (message : List (String × Value)) (index : Nat) :
    Except SidecarError Unit :=
  if ((Value.getMember "role" message).bind Value.asStr).isNone then
    .error (.invalidMessage index)
  else .ok ()

def validateRequestValue (request : Value) : Except SidecarError Unit :=
  match request.asObject with
  | none => .error .requestNotObject
  | some members =>
      if Value.containsKey members "messages" then .error .messagesInMetadata else .ok ()

def sessionIdFromKey [Blake3] (key : String) : SessionId :=
  BitVec.ofNat 128 (ofLe ((Blake3.hash key.toUTF8.toList).bytes.take 16))

/-- The bytes that open the metadata object around the request. -/
def requestField : List UInt8 := [0x7B, 0x22, 0x72, 0x65, 0x71, 0x75, 0x65, 0x73, 0x74, 0x22, 0x3A]

def saturatingSucc (seq : UInt64) : UInt64 := UInt64.ofNat (saturatingAdd seq.toNat 1)

/-- Number the serialized messages in order. -/
def numberBlocks : UInt64 → List (BlockKind × List UInt8) → List Block × UInt64
  | seq, [] => ([], seq)
  | seq, (kind, payload) :: rest =>
      let (blocks, next) := numberBlocks (saturatingSucc seq) rest
      (⟨kind, seq, payload⟩ :: blocks, next)

/-- A bound on the envelope before anything is compressed. -/
def worstCaseSize (metadataLen : Nat) (serialized : List (BlockKind × List UInt8)) : Option Nat :=
  serialized.foldl
    (fun size item => size.bind fun n => (checkedAdd n 39).bind fun n => checkedAdd n item.2.length)
    ((checkedAdd 10 metadataLen).bind fun n => checkedAdd n 53)

section Serialize

variable [SerdeJson]

/-- Validate and serialize the messages, in order. -/
def serializeMessages : Nat → List Value → Except SidecarError (List (BlockKind × List UInt8))
  | _, [] => .ok []
  | index, message :: rest =>
      match message.asObject with
      | none => .error (.invalidMessage index)
      | some object => do
          validateMessageObject object index
          let tail ← serializeMessages (index + 1) rest
          return (messageKind object, SerdeJson.toVec message) :: tail

def requestMetadata (request : Value) : List UInt8 :=
  requestField ++ SerdeJson.toVec request ++ [0x7D]

/-- Everything `prepare` checks before it touches the session. -/
def checkPrepare (pending : Option MerkleRoot) (newMessages : List Value) (request : Value) :
    Except SidecarError (List (BlockKind × List UInt8)) :=
  if pending.isSome then .error .requestInFlight
  else
    match request.asObject with
    | none => .error .requestNotObject
    | some members =>
        if Value.containsKey members "messages" then .error .messagesInMetadata
        else do
          let serialized ← serializeMessages 0 newMessages
          validateRequestValue request
          let metadataLen := (requestMetadata request).length
          if metadataLen > maxMetadataBytes then
            .error (.envelope "metadata exceeds 2 MiB")
          else
            match worstCaseSize metadataLen serialized with
            | none => .error (.envelope "length overflow")
            | some size =>
                if size > maxRequestBytes then .error (.envelope "request exceeds 64 MiB")
                else .ok serialized

end Serialize

namespace ChatSession

variable {F : Type}

def new [Blake3] (sessionKey : String) (filter : F) : ChatSession F where
  shim := SessionShim.withFilter (sessionIdFromKey sessionKey) ContentStore.new Compressor.default
    filter
  nextSeq := 1
  pendingRoot := none

section Prepare

variable [DedupFilter F] [Blake3] [Zstd] [SerdeJson]

/-- Prepare the APPEND request of new messages. -/
def prepareRef (session : ChatSession F) (newMessages : List Value) (request : Value) :
    Except SidecarError PreparedChatRequest × ChatSession F :=
  match checkPrepare session.pendingRoot newMessages request with
  | .error e => (.error e, session)
  | .ok serialized =>
      let metadata := requestMetadata request
      let (blocks, nextSeq) := numberBlocks session.nextSeq serialized
      let (append, shim) := session.shim.ingestTurn blocks
      let session := { session with shim, nextSeq }
      match ChatEnvelope.encodeParts metadata (encodeFrame (.append append)) with
      | .error e => (.error e, session)
      | .ok body =>
          (.ok ⟨body, shim.root, (SerdeJson.toVec request).length,
              (serialized.map fun item => item.2.length).sum⟩,
            { session with pendingRoot := some shim.root })

end Prepare

/-- Apply an ACK root; the pending request is done when the ACK names its root. -/
def applyAck [Blake3] (session : ChatSession F) (root : MerkleRoot) : Bool × ChatSession F :=
  let (applied, shim) := session.shim.applyAck root
  let session := { session with shim }
  if applied ∧ session.pendingRoot = some root then
    (applied, { session with pendingRoot := none })
  else (applied, session)

/-- The encoded frames that carry the blocks a receiver named as missing. -/
def bulkFramesFor [Zstd] [Coding.FloatChoices] (session : ChatSession F) (missing : List BlockId)
    (repairMarginPct : UInt32) : Except SidecarError (List (List UInt8)) :=
  match session.shim.bulkFramesFor missing repairMarginPct with
  | .error e => .error (.frame e.toText)
  | .ok frames => .ok (frames.map fun frame => encodeFrame (.bulk frame))

end ChatSession

/-! ## The size bound is sound -/

section Bound

theorem numberBlocks_payloads (seq : UInt64) (serialized : List (BlockKind × List UInt8)) :
    (numberBlocks seq serialized).1.map Block.payload = serialized.map Prod.snd := by
  induction serialized generalizing seq with
  | nil => rfl
  | cons item rest ih => simp [numberBlocks, ih]

/-- The bound adds up what every part can take. -/
theorem worstCaseSize_eq {metadataLen size : Nat} {serialized : List (BlockKind × List UInt8)}
    (h : worstCaseSize metadataLen serialized = some size) :
    size = 10 + metadataLen + 53 + (serialized.map fun item => 39 + item.2.length).sum := by
  have hfold : ∀ (items : List (BlockKind × List UInt8)) (start : Option Nat) (total : Nat),
      items.foldl (fun size item => size.bind fun n => (checkedAdd n 39).bind fun n =>
          checkedAdd n item.2.length) start = some total →
      ∃ n, start = some n ∧ total = n + (items.map fun item => 39 + item.2.length).sum := by
    intro items
    induction items with
    | nil => exact fun start total htotal => ⟨total, htotal, by simp⟩
    | cons item rest ih =>
        intro start total htotal
        obtain ⟨n, hn, rfl⟩ := ih _ _ htotal
        obtain ⟨m, hm, hrest⟩ := Option.bind_eq_some_iff.mp hn
        obtain ⟨k, hk, hlast⟩ := Option.bind_eq_some_iff.mp hrest
        have hk' := checkedAdd_eq_some hk
        have hn' := checkedAdd_eq_some hlast
        refine ⟨m, hm, ?_⟩
        rw [List.map_cons, List.sum_cons]
        omega
  obtain ⟨n, hn, rfl⟩ := hfold _ _ _ h
  obtain ⟨m, hm, hlast⟩ := Option.bind_eq_some_iff.mp hn
  rw [checkedAdd_eq_some hlast, checkedAdd_eq_some hm]

variable {F : Type} [DedupFilter F] [Blake3] [Zstd]

omit [DedupFilter F] in
/-- A wire entry is at most 39 bytes longer than the payload. -/
theorem length_wire_le {c : Compressor} {b : Block} {fb : FrameBlock}
    (h : SessionShim.WireOf c b fb) :
    (encodeFrameBlock fb).length ≤ 39 + b.payload.length := by
  cases fb with
  | ref id =>
      rw [length_encodeFrameBlock_ref]
      omega
  | inline w =>
      rw [length_encodeFrameBlock_inline]
      have hw : w.payload = _ := h
      have hlen : w.payload.length ≤ 18 + b.payload.length := by
        rw [hw]
        split
        · rename_i z hz
          have hz' := Compressor.length_compress_le hz
          rw [length_canonicalBytes] at hz'
          omega
        · rw [length_canonicalBytes]
          omega
      omega

omit [DedupFilter F] in
theorem sum_wire_le {c : Compressor} {blocks : List Block} {fbs : List FrameBlock}
    (h : List.Forall₂ (SessionShim.WireOf c) blocks fbs) :
    (fbs.map fun fb => (encodeFrameBlock fb).length).sum ≤
      (blocks.map fun b => 39 + b.payload.length).sum := by
  induction h with
  | nil => simp
  | cons hb _ ih =>
      have hhead := length_wire_le hb
      simp only [List.map_cons, List.sum_cons]
      omega

/-- The frame of a turn within the limit of a request is read back from its encoding. -/
theorem decodeFrame_turn (shim : SessionShim F) {blocks : List Block}
    (hsize : (blocks.map fun b => 39 + b.payload.length).sum ≤ maxRequestBytes) :
    decodeFrame (encodeFrame (.append (shim.ingestTurn blocks).1)) =
      .ok (.append (shim.ingestTurn blocks).1) := by
  have hwire := (shim.ingestTurn_spec blocks).wire
  refine decodeFrame_encodeFrame ⟨?_, ?_⟩
  · -- every entry takes 39 bytes of the bound
    have hcount : 39 * blocks.length ≤ (blocks.map fun b => 39 + b.payload.length).sum := by
      clear hsize hwire
      induction blocks with
      | nil => simp
      | cons b rest ih =>
          simp only [List.map_cons, List.sum_cons, List.length_cons]
          omega
    rw [← hwire.length_eq]
    simp only [maxFrameCount, maxRequestBytes] at hsize ⊢
    omega
  · intro b hb
    have hone : (encodeFrameBlock (.inline b)).length ≤
        ((shim.ingestTurn blocks).1.blocks.map fun fb => (encodeFrameBlock fb).length).sum :=
      List.single_le_sum (fun _ _ => Nat.zero_le _) _ (List.mem_map_of_mem hb)
    have hall := sum_wire_le hwire
    rw [length_encodeFrameBlock_inline] at hone
    simp only [maxInlinePayloadBytes, maxRequestBytes] at hsize ⊢
    omega

end Bound

section Cases

variable [SerdeJson]

/-- A request that passes the checks is the only one in flight, and fits. -/
theorem checkPrepare_ok {pending : Option MerkleRoot} {newMessages : List Value} {request : Value}
    {serialized : List (BlockKind × List UInt8)}
    (h : checkPrepare pending newMessages request = .ok serialized) :
    pending = none ∧ serializeMessages 0 newMessages = .ok serialized ∧
      (requestMetadata request).length ≤ maxMetadataBytes ∧
      10 + (requestMetadata request).length + 53 +
        (serialized.map fun item => 39 + item.2.length).sum ≤ maxRequestBytes := by
  unfold checkPrepare at h
  split_ifs at h with hpending
  split at h
  · cases h
  · split_ifs at h
    cases hser : serializeMessages 0 newMessages with
    | error e => rw [hser] at h; cases h
    | ok items =>
        cases hval : validateRequestValue request with
        | error e => rw [hser, hval] at h; cases h
        | ok u =>
            rw [hser, hval] at h
            simp only [bind, Except.bind] at h
            split_ifs at h with hmeta
            split at h
            · cases h
            · rename_i size hsize
              split_ifs at h with hmax
              cases h
              have heq := worstCaseSize_eq hsize
              exact ⟨by simpa using hpending, rfl, by omega, by omega⟩

variable {F : Type} [DedupFilter F] [Blake3] [Zstd]

/-- The blocks of the turn that a request for these messages appends. -/
def ChatSession.turn (session : ChatSession F) (newMessages : List Value) : List Block :=
  match serializeMessages 0 newMessages with
  | .error _ => []
  | .ok serialized => (numberBlocks session.nextSeq serialized).1

/-- The messages are ingested as one turn, and its frame is put into a body within the limits
of the wire. -/
structure ChatSession.TurnPrepared (session : ChatSession F) (newMessages : List Value)
    (request : Value) (nextSeq : UInt64) (prepared : PreparedChatRequest) : Prop where
  pending : session.pendingRoot = none
  prepares : session.prepareRef newMessages request = (.ok prepared,
    ⟨(session.shim.ingestTurn (session.turn newMessages)).2, nextSeq,
      some (session.shim.ingestTurn (session.turn newMessages)).2.root⟩)
  metadata : (requestMetadata request).length ≤ maxMetadataBytes
  body : prepared.body = magic ++ toLe 2 protocolVersion ++
    toLe 4 (requestMetadata request).length ++ requestMetadata request ++
    encodeFrame (.append (session.shim.ingestTurn (session.turn newMessages)).1)
  size : ((session.turn newMessages).map fun b => 39 + b.payload.length).sum ≤ maxRequestBytes

theorem ChatSession.prepareRef_of_check {session : ChatSession F} {newMessages : List Value}
    {request : Value} {serialized : List (BlockKind × List UInt8)}
    (hcheck : checkPrepare session.pendingRoot newMessages request = .ok serialized) :
    ∃ nextSeq prepared, session.TurnPrepared newMessages request nextSeq prepared := by
  obtain ⟨hpending, hser, hmeta, hsize⟩ := checkPrepare_ok hcheck
  have hturn : (numberBlocks session.nextSeq serialized).1 = session.turn newMessages := by
    simp only [turn, hser]
  have hsum : ((session.turn newMessages).map fun b => 39 + b.payload.length).sum =
      (serialized.map fun item => 39 + item.2.length).sum := by
    have hpayloads := numberBlocks_payloads session.nextSeq serialized
    rw [hturn] at hpayloads
    have hmap := congrArg (fun l => (l.map fun p => 39 + List.length p).sum) hpayloads
    simpa [List.map_map, Function.comp_def] using hmap
  have hframe : (encodeFrame (.append
      (session.shim.ingestTurn (session.turn newMessages)).1)).length ≤
      53 + (serialized.map fun item => 39 + item.2.length).sum := by
    rw [length_encodeFrame_append, ← hsum]
    have hwire := sum_wire_le (session.shim.ingestTurn_spec (session.turn newMessages)).wire
    omega
  have hencode := ChatEnvelope.encodeParts_ok hmeta (show
    10 + (requestMetadata request).length + (encodeFrame (.append
      (session.shim.ingestTurn (session.turn newMessages)).1)).length ≤ maxRequestBytes by omega)
  refine ⟨(numberBlocks session.nextSeq serialized).2, ⟨_,
    (session.shim.ingestTurn (session.turn newMessages)).2.root,
    (SerdeJson.toVec request).length, (serialized.map fun item => item.2.length).sum⟩,
    hpending, ?_, hmeta, rfl, ?_⟩
  · unfold prepareRef
    simp only [hcheck, hturn, hencode]
  · omega

/-- Whether a request is refused is decided before the session is touched. -/
theorem ChatSession.prepareRef_error {session : ChatSession F} {newMessages : List Value}
    {request : Value} {e : SidecarError}
    (h : checkPrepare session.pendingRoot newMessages request = .error e) :
    session.prepareRef newMessages request = (.error e, session) := by
  unfold prepareRef
  rw [h]

/-- Everything `prepare` can do: fail and leave the session alone, or prepare the turn. -/
theorem ChatSession.prepareRef_cases (session : ChatSession F) (newMessages : List Value)
    (request : Value) :
    (∃ e, session.prepareRef newMessages request = (.error e, session)) ∨
      ∃ nextSeq prepared, session.TurnPrepared newMessages request nextSeq prepared := by
  cases hcheck : checkPrepare session.pendingRoot newMessages request with
  | error e => exact Or.inl ⟨e, prepareRef_error hcheck⟩
  | ok serialized => exact Or.inr (prepareRef_of_check hcheck)

end Cases

end Dlr.Sidecar
