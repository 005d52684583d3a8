import Dlr.Sidecar.Projection
import Mathlib.Data.List.DropRight

/-!
# The sidecar's two endpoints

The chat endpoint appends new messages to a session, makes the log durable, and forwards
the whole conversation upstream. The frame endpoint speaks the protocol alone; it may
change a log without chat validation, so it drops the session's projection first.

## Implementation notes

A handler is a sequence of atomic steps on the shared receiver and cache. Each step is a
definition of its own: the sequential handlers below chain them, and the interleaved model
runs the same steps one at a time. What the upstream answers is not part of the model: a
response records the request that was sent and the root that is acknowledged with it.
-/

namespace Dlr.Sidecar

open Dlr.Core Compress Lib Lib.Machine

/-- An incoming request: its headers and its body. -/
structure Request where
  headers : List (String × List UInt8)
  body : List UInt8
  deriving DecidableEq

def Request.header (request : Request) (name : String) : Option (List UInt8) :=
  (request.headers.find? fun h => h.1 = name).map Prod.snd

/-- What is sent upstream. -/
structure Upstream where
  url : String
  headers : List (String × List UInt8)
  contentLength : Nat
  body : List UInt8
  deriving DecidableEq

inductive Response
  | error (status : Nat) (message : String) (currentRoot : Option MerkleRoot)
  /-- The handler panicked and the connection is closed. -/
  | panic
  | frame (body : List UInt8)
  | noContent
  /-- The request went upstream, and its answer carries the acknowledged root. -/
  | forwarded (ackRoot : MerkleRoot) (request : Upstream)
  deriving DecidableEq

structure SidecarState where
  receiver : Receiver
  upstreamUrl : String
  ingressToken : Option (List UInt8)
  syncWal : Bool
  chatProjections : ChatProjectionCache

def SidecarState.new (receiver : Receiver) (upstreamUrl : String)
    (ingressToken : Option (List UInt8)) (syncWal : Bool) : SidecarState where
  receiver := receiver
  -- without trailing slashes
  upstreamUrl := String.ofList (upstreamUrl.toList.rdropWhile fun ch => ch = '/')
  ingressToken := ingressToken
  syncWal := syncWal
  chatProjections := {}

section Authorized

def constantTimeEq (left right : List UInt8) : Bool :=
  if left.length ≠ right.length then false
  else (left.zip right).foldl (fun diff pair => diff ||| (pair.1 ^^^ pair.2)) 0 = 0

/-- A header value as text: visible ASCII only. -/
def headerText (value : List UInt8) : Option (List UInt8) :=
  if value.all fun b => (0x20 ≤ b ∧ b < 0x7F) ∨ b = 0x09 then some value else none

def authorized (s : SidecarState) (request : Request) : Bool :=
  match s.ingressToken with
  | none => true
  | some expected =>
      match (request.header "x-dlr-sidecar-token").bind headerText with
      | none => false
      | some actual => constantTimeEq actual expected

def forwardedRequestHeaders : List String :=
  ["authorization", "openai-organization", "openai-project", "x-subconscious-code-session-id",
    "x-subconscious-client", "x-request-id", "x-trace-id", "traceparent"]

end Authorized

def receiverErrorResponse (error : ReceiverError) : Response :=
  match error with
  | .baseRootMismatch _ _ current => .error 409 error.toText (some current)
  | .coldStartInProgress _ => .error 409 error.toText none
  | .missingRef => .error 409 error.toText none
  | _ => .error 400 error.toText none

/-! ## Validation -/

section Validate

variable [SerdeJson]

def validateSerializedMessage (payload : List UInt8) (index : Nat) : Except SidecarError Unit :=
  match SerdeJson.structFromSlice payload with
  | .error _ => .error (.invalidMessage index)
  | .ok value => if value.messageRole.isNone then .error (.invalidMessage index) else .ok ()

/-- Validate the messages of a log from position `index` on. -/
def validateMessages : Nat → List Block → Except SidecarError Unit
  | _, [] => .ok ()
  | index, block :: rest => do
      validateSerializedMessage block.payload index
      validateMessages (index + 1) rest

variable [Blake3] [Zstd]

/-- The block that an entry of a frame stands for, and the blocks carried inline so far. -/
def chatBlock (r : Receiver) (inline : FinMap BlockId Block) :
    FrameBlock → Except SidecarError (Block × FinMap BlockId Block)
  | .inline wireBlock =>
      match r.compressor.decompress wireBlock.payload with
      | .error e => .error (.frame e.toText)
      | .ok canonical =>
          match fromCanonicalOwned canonical with
          | .error e => .error (.frame e)
          | .ok (block, id) => .ok (block, inline.set id block)
  | .ref id =>
      match (r.store.get id).or (inline.get? id) with
      | none => .error (.receiver .missingRef)
      | some block => .ok (block, inline)

def validateChatBlocks (r : Receiver) :
    Nat → FinMap BlockId Block → List FrameBlock → Except SidecarError Unit
  | _, _, [] => .ok ()
  | index, inline, entry :: rest =>
      match chatBlock r inline entry with
      | .error e => .error e
      | .ok (block, inline) =>
          match SerdeJson.fromSlice block.payload with
          | .error e => .error (.metadata e)
          | .ok value =>
              match value.asObject with
              | none => .error (.invalidMessage index)
              | some object =>
                  match validateMessageObject object index with
                  | .error e => .error e
                  | .ok () => validateChatBlocks r (index + 1) inline rest

def validateChatAppend (r : Receiver) (frame : AppendFrame) : Except SidecarError Unit :=
  validateChatBlocks r 0 ∅ frame.blocks

end Validate

/-! ## The upstream request -/

section Upstream

variable [SerdeJson]

/-- The opening of the request, up to the bracket of its messages. -/
def requestPrefix (request : Value) : Except SidecarError (List UInt8) :=
  match request.asObject with
  | none => .error .requestNotObject
  | some members =>
      if Value.containsKey members "messages" then .error .messagesInMetadata
      else
        let text := SerdeJson.toVec request
        if text.getLast? ≠ some 0x7D then .error .requestNotObject
        else
          .ok (text.dropLast ++
            [0x2C, 0x22, 0x6D, 0x65, 0x73, 0x73, 0x61, 0x67, 0x65, 0x73, 0x22, 0x3A, 0x5B])

/-- Extend the cached projection by what the log holds beyond it, or rebuild it from the
whole log. The length of the log was read before. -/
def extendOrReconstructProjection (r : Receiver) (sid : SessionId) (root : MerkleRoot)
    (sessionLen : Nat) (cached : Option CachedChatProjection) :
    Except SidecarError CachedChatProjection :=
  match cached.filter fun p => p.messageCount ≤ sessionLen with
  | some projection =>
      let start := projection.messageCount
      -- `start` is at most `sessionLen`, so the range never runs backwards
      let additions := (r.reconstructRange sid start sessionLen).getD []
      if additions.length ≠ sessionLen - start then
        .error (.envelope "session projection is incomplete")
      else
        let projection :=
          if additions ≠ [] then appendProjectionPayloads projection (additions.map Block.payload)
          else projection
        .ok { projection with root }
  | none =>
      let blocks := r.reconstruct sid
      match validateMessages 0 blocks with
      | .error e => .error e
      | .ok () => .ok (appendProjectionPayloads ⟨root, 0, [], 0⟩ (blocks.map Block.payload))

end Upstream

namespace SidecarState

variable [Blake3] [Zstd] [SerdeJson]

def withReceiver (s : SidecarState) (receiver : Receiver) : SidecarState := { s with receiver }

def withProjections (s : SidecarState) (chatProjections : ChatProjectionCache) : SidecarState :=
  { s with chatProjections }

/-! ## The steps of a chat request -/

/-- Everything that is checked before the projection is looked up. -/
def checkChat (s : SidecarState) (request : Request) : Except Response (Value × AppendFrame) :=
  if ¬authorized s request then .error (.error 401 "invalid sidecar token" none)
  else
    match ChatEnvelope.decode request.body with
    | .error e => .error (.error 400 e.toText none)
    | .ok envelope =>
        match validateRequestValue envelope.request with
        | .error e => .error (.error 400 e.toText none)
        | .ok () =>
            match decodeFrame envelope.frame with
            | .error .panic => .error .panic
            | .error (.error e) => .error (.error 400 e.toText none)
            | .ok (.append frame) =>
                match validateChatAppend s.receiver frame with
                | .error e => .error (.error 400 e.toText none)
                | .ok () => .ok (envelope.request, frame)
            | .ok _ => .error (.error 400 "chat endpoint requires APPEND" none)

def lookupProjection (s : SidecarState) (frame : AppendFrame) :
    Option CachedChatProjection × SidecarState :=
  let (cached, cache) := s.chatProjections.get frame.sessionId frame.baseRoot
  (cached, s.withProjections cache)

def appendChat (s : SidecarState) (frame : AppendFrame) :
    Except Response AckFrame × SidecarState :=
  match s.receiver.handleAppend frame with
  | (.error e, receiver) => (.error (receiverErrorResponse e), s.withReceiver receiver)
  | (.ok ack, receiver) => (.ok ack, s.withReceiver receiver)

def flush (s : SidecarState) : Except Response Unit × SidecarState :=
  match s.receiver.store.flushWal s.syncWal with
  | (.error e, store) =>
      (.error (.error 500 e.message none), s.withReceiver { s.receiver with store })
  | (.ok (), store) => (.ok (), s.withReceiver { s.receiver with store })

def buildProjection (s : SidecarState) (sid : SessionId) (root : MerkleRoot) (sessionLen : Nat)
    (cached : Option CachedChatProjection) : Except Response CachedChatProjection :=
  match extendOrReconstructProjection s.receiver sid root sessionLen cached with
  | .error e => .error (.error 400 e.toText none)
  | .ok projection => .ok projection

/-- The request that a projection is sent upstream with. -/
def upstreamRequest (s : SidecarState) (request : Request) (opening : List UInt8)
    (projection : CachedChatProjection) : Upstream where
  url := s.upstreamUrl ++ "/v1/chat/completions"
  headers := forwardedRequestHeaders.filterMap fun name =>
    (request.header name).map fun value => (name, value)
  contentLength := saturatingAdd (saturatingAdd opening.length projection.jsonBytes) 2
  body := opening ++ projection.chunks.flatten ++ [0x5D, 0x7D]

/-- Keep the projection and send the request upstream. -/
def forward (s : SidecarState) (request : Request) (opening : List UInt8) (ack : AckFrame)
    (sid : SessionId) (projection : CachedChatProjection) : Response × SidecarState :=
  (.forwarded ack.root (s.upstreamRequest request opening projection),
    s.withProjections (s.chatProjections.insert sid projection))

/-- The chat endpoint after the ACK is durable. -/
def respondChat (s : SidecarState) (request : Request) (metadata : Value) (frame : AppendFrame)
    (ack : AckFrame) (cached : Option CachedChatProjection) : Response × SidecarState :=
  match requestPrefix metadata with
  | .error e => (.error 400 e.toText none, s)
  | .ok opening =>
      match s.buildProjection frame.sessionId ack.root
          (s.receiver.store.sessionLen frame.sessionId) cached with
      | .error response => (response, s)
      | .ok projection => s.forward request opening ack frame.sessionId projection

def chatCompletions (s : SidecarState) (request : Request) : Response × SidecarState :=
  match s.checkChat request with
  | .error response => (response, s)
  | .ok (metadata, frame) =>
      let (cached, s) := s.lookupProjection frame
      match s.appendChat frame with
      | (.error response, s) => (response, s)
      | (.ok ack, s) =>
          match s.flush with
          | (.error response, s) => (response, s)
          | (.ok (), s) => s.respondChat request metadata frame ack cached

/-! ## The steps of a frame request -/

def checkFrame (s : SidecarState) (request : Request) : Except Response Frame :=
  if ¬authorized s request then .error (.error 401 "invalid sidecar token" none)
  else
    match decodeFrame request.body with
    | .error .panic => .error .panic
    | .error (.error e) => .error (.error 400 e.toText none)
    | .ok frame => .ok frame

def removeProjection (s : SidecarState) (frame : Frame) : SidecarState :=
  s.withProjections (s.chatProjections.remove frame.sessionId)

def receiveFrame (s : SidecarState) (frame : Frame) :
    Except Response (Option Frame) × SidecarState :=
  match s.receiver.handleFrame frame with
  | (.error e, receiver) => (.error (receiverErrorResponse e), s.withReceiver receiver)
  | (.ok answer, receiver) => (.ok answer, s.withReceiver receiver)

def respondFrame : Option Frame → Response
  | some answer => .frame (encodeFrame answer)
  | none => .noContent

def handleFrame (s : SidecarState) (request : Request) : Response × SidecarState :=
  match s.checkFrame request with
  | .error response => (response, s)
  | .ok frame =>
      match (s.removeProjection frame).receiveFrame frame with
      | (.error response, s) => (response, s)
      | (.ok answer, s) =>
          match s.flush with
          | (.error response, s) => (response, s)
          | (.ok (), s) => (respondFrame answer, s)

end SidecarState

/-! ## What a projection is built from -/

/-- The blocks stored under some ids. -/
def Holds (r : Receiver) (ids : List BlockId) (blocks : List Block) : Prop :=
  List.Forall₂ (fun id b => r.store.blocks.get? id = some b) ids blocks

section Holds

variable {r : Receiver} {sid : SessionId} {ids : List BlockId} {blocks : List Block}

theorem Holds.append {ids' : List BlockId} {blocks' : List Block} (h : Holds r ids blocks)
    (h' : Holds r ids' blocks') : Holds r (ids ++ ids') (blocks ++ blocks') :=
  List.rel_append h h'

theorem Holds.unique {blocks' : List Block} (h : Holds r ids blocks) (h' : Holds r ids blocks') :
    blocks = blocks' := by
  induction h generalizing blocks' with
  | nil =>
      cases h'
      rfl
  | cons hb _ ih =>
      cases h' with
      | cons hb' hrest =>
          rw [Option.some.inj (hb.symm.trans hb'), ih hrest]

/-- Stored blocks never change. -/
theorem Holds.mono {r' : Receiver} (h : Holds r ids blocks)
    (hkeep : ∀ id b, r.store.blocks.get? id = some b → r'.store.blocks.get? id = some b) :
    Holds r' ids blocks :=
  h.imp hkeep

theorem Holds.filterMap (h : Holds r ids blocks) : ids.filterMap r.store.get = blocks := by
  induction h with
  | nil => rfl
  | cons hb _ ih => rw [List.filterMap_cons_some (show r.store.get _ = some _ from hb), ih]

theorem Holds.drop (h : Holds r ids blocks) (n : Nat) : Holds r (ids.drop n) (blocks.drop n) :=
  List.forall₂_drop n h

theorem Holds.reconstruct (h : Holds r (r.store.sessionIds sid) blocks)
    (hknown : (r.sessions.get? sid).isSome = true) : r.reconstruct sid = blocks := by
  rw [Receiver.reconstruct, if_pos hknown]
  exact h.filterMap

theorem Holds.reconstructRange (h : Holds r (r.store.sessionIds sid) blocks)
    (hknown : (r.sessions.get? sid).isSome = true) {n : Nat} (hn : n ≤ r.store.sessionLen sid) :
    r.reconstructRange sid n (r.store.sessionLen sid) = some (blocks.drop n) := by
  rw [Receiver.reconstructRange, if_pos hknown, ContentStore.reconstructRange_of_le _ _ hn,
    min_self, min_eq_left hn, List.take_of_length_le]
  · rw [(h.drop n).filterMap]
  · rw [List.length_drop]
    rfl

variable [SerdeJson]

/-- A cached projection of the beginning of the log is extended to the whole log. -/
theorem extendProjection (h : Holds r (r.store.sessionIds sid) blocks)
    (hknown : (r.sessions.get? sid).isSome = true) (root : MerkleRoot) {p : CachedChatProjection}
    {n : Nat} (hn : n ≤ blocks.length) (hp : p.Represents ((blocks.take n).map Block.payload)) :
    ∃ q, extendOrReconstructProjection r sid root (r.store.sessionLen sid) (some p) = .ok q ∧
      q.root = root ∧ q.Represents (blocks.map Block.payload) := by
  have hcount : p.messageCount = n := by
    rw [hp.messageCount, List.length_map, List.length_take, min_eq_left hn]
  have hlen : r.store.sessionLen sid = blocks.length := h.length_eq
  have hadd := h.reconstructRange hknown (hlen ▸ hn)
  rw [hlen] at hadd ⊢
  have hall := hp.append ((blocks.drop n).map Block.payload)
  rw [← List.map_append, List.take_append_drop] at hall
  have hfilter : (some p).filter (fun p => decide (p.messageCount ≤ blocks.length)) = some p := by
    rw [Option.filter_some, if_pos]
    simpa [hcount] using hn
  simp only [extendOrReconstructProjection, hfilter, hcount, hadd, Option.getD_some,
    List.length_drop]
  rw [if_neg (by omega)]
  by_cases hnil : blocks.drop n = []
  · refine ⟨_, rfl, rfl, ?_⟩
    have hsame : blocks.take n = blocks := by
      apply List.take_of_length_le
      exact List.drop_eq_nil_iff.mp hnil
    rw [if_neg (by simpa using hnil)]
    rw [hsame] at hp
    exact hp.withRoot root
  · refine ⟨_, rfl, rfl, ?_⟩
    rw [if_pos hnil]
    exact hall.withRoot root

/-- Without a cached projection the whole log is validated and projected. -/
theorem reconstructProjection (h : Holds r (r.store.sessionIds sid) blocks)
    (hknown : (r.sessions.get? sid).isSome = true) (root : MerkleRoot) (sessionLen : Nat) :
    ∃ q : CachedChatProjection, q.root = root ∧ q.Represents (blocks.map Block.payload) ∧
      extendOrReconstructProjection r sid root sessionLen none =
        (validateMessages 0 blocks).map fun _ => q := by
  refine ⟨appendProjectionPayloads ⟨root, 0, [], 0⟩ (blocks.map Block.payload), rfl, ?_, ?_⟩
  · exact (represents_nil root).append (blocks.map Block.payload)
  · simp only [extendOrReconstructProjection, Option.filter_none, h.reconstruct hknown]
    cases validateMessages 0 blocks <;> rfl

end Holds

/-- A request to one of the two endpoints. -/
inductive Call
  | chat (request : Request)
  | frame (request : Request)

namespace SidecarState

variable [Blake3] [Zstd] [SerdeJson]

def serve (s : SidecarState) : Call → Response × SidecarState
  | .chat request => s.chatCompletions request
  | .frame request => s.handleFrame request

/-- The responses to requests that are served one after the other. -/
def responses : SidecarState → List Call → List Response
  | _, [] => []
  | s, call :: rest => (s.serve call).1 :: responses (s.serve call).2 rest

/-- The state with an empty projection cache. -/
def emptied (s : SidecarState) : SidecarState := s.withProjections {}

/-- The responses when the projection cache is emptied before every request. -/
def emptiedResponses : SidecarState → List Call → List Response
  | _, [] => []
  | s, call :: rest =>
      (s.emptied.serve call).1 :: emptiedResponses (s.emptied.serve call).2 rest

end SidecarState

end Dlr.Sidecar
