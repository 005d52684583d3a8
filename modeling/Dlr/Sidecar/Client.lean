import Dlr.Sidecar.ChatSession
import Dlr.Sidecar.Http

/-!
# The network driver of a chat session

The driver sends prepared requests to the chat endpoint and repairs a diverged session over
the frame endpoint: RESYNC, the frames that carry what the receiver is missing, and the ACK
of the last one.

## Implementation notes

The network is a function of its own state: what it answers, or that it fails. A request
that fails may have reached the other side or not; the driver cannot tell. The error type of
the program is split in two: the errors of preparing and serving a request are shared with
the server, those of the driver are added here.
-/

namespace Dlr.Sidecar

open Dlr.Core Coding Compress Lib.Machine

inductive ClientError
  | sidecar (error : SidecarError)
  | invalidAckHeader
  | unexpectedAckRoot
  | unexpectedFrame
  /-- The status and the text of a response that reports a failure. -/
  | httpStatus (status : Nat) (message : List UInt8)
  /-- The transport failed. -/
  | upstream (message : String)
  deriving DecidableEq

/-- A request as it is posted. -/
structure HttpRequest where
  url : String
  request : Request
  deriving DecidableEq

/-- A network: the answer to a request, or its failure, and the state afterwards. -/
abbrev Network (σ : Type) := σ → HttpRequest → Except String HttpResponse × σ

structure DlrChatClient where
  baseUrl : String
  ingressToken : Option (List UInt8)

def contentType : String := "application/vnd.dlr.chat+binary; version=1"
def sidecarTokenHeader : String := "x-dlr-sidecar-token"

/-- An ACK moves the base of the shim, and ends the pending request only if it names its root. -/
theorem ChatSession.applyAck_spec {F : Type} [Blake3] (session : ChatSession F) (root : MerkleRoot) :
    (session.applyAck root).2.shim = (session.shim.applyAck root).2 ∧
      ((session.applyAck root).2.pendingRoot = session.pendingRoot ∨
        session.pendingRoot = some root ∧ (session.applyAck root).2.pendingRoot = none) := by
  unfold ChatSession.applyAck
  rcases session.shim.applyAck root with ⟨applied, shim⟩
  simp only
  split_ifs with h
  · exact ⟨rfl, Or.inr ⟨h.2, rfl⟩⟩
  · exact ⟨rfl, Or.inl rfl⟩

namespace DlrChatClient

def new (baseUrl : String) (ingressToken : Option (List UInt8)) : DlrChatClient where
  -- without trailing slashes
  baseUrl := String.ofList (baseUrl.toList.rdropWhile fun ch => ch = '/')
  ingressToken := ingressToken

/-- The header that carries the token, if there is one. -/
def tokenHeader (client : DlrChatClient) : List (String × List UInt8) :=
  (client.ingressToken.map fun token => (sidecarTokenHeader, token)).toList

def chatRequest (client : DlrChatClient) (prepared : PreparedChatRequest)
    (headers : List (String × List UInt8)) : HttpRequest where
  url := client.baseUrl ++ "/v1/dlr/chat/completions"
  request := ⟨headers ++ [("content-type", contentType.toUTF8.data.toList)] ++ client.tokenHeader,
    prepared.body⟩

def frameRequest (client : DlrChatClient) (frame : List UInt8) : HttpRequest where
  url := client.baseUrl ++ "/v1/dlr/frame"
  request := ⟨[("content-type", frameContentType.toUTF8.data.toList)] ++ client.tokenHeader, frame⟩

variable {F : Type} [Blake3]

/-- Take the response to a chat request: an acknowledged root must be the expected one. -/
def acceptChat (session : ChatSession F) (prepared : PreparedChatRequest) (response : HttpResponse) :
    Except ClientError HttpResponse × ChatSession F :=
  match response.header ackRootHeader with
  | none => (.ok response, session)
  | some value =>
      match (headerText value).bind parseRootHex with
      | none => (.error .invalidAckHeader, session)
      | some root =>
          if root ≠ prepared.expectedRoot then (.error .unexpectedAckRoot, session)
          else
            match session.applyAck root with
            | (true, session) => (.ok response, session)
            | (false, session) => (.error .unexpectedAckRoot, session)

variable {σ : Type}

def sendChat (client : DlrChatClient) (net : Network σ) (w : σ) (session : ChatSession F)
    (prepared : PreparedChatRequest) (headers : List (String × List UInt8)) :
    Except ClientError HttpResponse × ChatSession F × σ :=
  match net w (client.chatRequest prepared headers) with
  | (.error e, w) => (.error (.upstream e), session, w)
  | (.ok response, w) =>
      let (result, session) := acceptChat session prepared response
      (result, session, w)

omit [Blake3] in
/-- Post one frame; the answer is a frame or nothing. -/
def exchangeFrame (client : DlrChatClient) (net : Network σ) (w : σ) (frame : List UInt8) :
    Except (Fault ClientError) (Option Frame) × σ :=
  match net w (client.frameRequest frame) with
  | (.error e, w) => (.error (.error (.upstream e)), w)
  | (.ok response, w) =>
      if response.status = 204 then (.ok none, w)
      else if ¬(200 ≤ response.status ∧ response.status < 300) then
        (.error (.error (.httpStatus response.status response.body)), w)
      else
        match decodeFrame response.body with
        | .ok answer => (.ok (some answer), w)
        | .error .panic => (.error .panic, w)
        | .error (.error e) => (.error (.error (.sidecar (.frame e.toText))), w)

def applyProtocolAck (session : ChatSession F) (ack : AckFrame) :
    Except (Fault ClientError) Unit × ChatSession F :=
  if ack.sessionId ≠ session.shim.sessionId then (.error (.error .unexpectedAckRoot), session)
  else
    match session.applyAck ack.root with
    | (true, session) => (.ok (), session)
    | (false, session) => (.error (.error .unexpectedAckRoot), session)

omit [Blake3] in
/-- Post the frames of a transfer and keep the last ACK among the answers. -/
def transfer (client : DlrChatClient) (net : Network σ) :
    σ → List (List UInt8) → Option AckFrame → Except (Fault ClientError) (Option AckFrame) × σ
  | w, [], completion => (.ok completion, w)
  | w, frame :: rest, completion =>
      match client.exchangeFrame net w frame with
      | (.error e, w) => (.error e, w)
      | (.ok (some (.ack ack)), w) => transfer client net w rest (some ack)
      | (.ok _, w) => transfer client net w rest completion

def synchronize [Zstd] [FloatChoices] (client : DlrChatClient) (net : Network σ) (w : σ)
    (session : ChatSession F) (repairMarginPct : UInt32) :
    Except (Fault ClientError) Unit × ChatSession F × σ :=
  match client.exchangeFrame net w (encodeFrame (.resync session.shim.resyncFrame)) with
  | (.error e, w) => (.error e, session, w)
  | (.ok (some (.ack ack)), w) =>
      let (result, session) := applyProtocolAck session ack
      (result, session, w)
  | (.ok (some (.missing missing)), w) =>
      if missing.sessionId ≠ session.shim.sessionId then
        (.error (.error .unexpectedFrame), session, w)
      else
        match session.bulkFramesFor missing.missing repairMarginPct with
        | .error e => (.error (.error (.sidecar e)), session, w)
        | .ok frames =>
            match client.transfer net w frames none with
            | (.error e, w) => (.error e, session, w)
            | (.ok none, w) => (.error (.error .unexpectedFrame), session, w)
            | (.ok (some ack), w) =>
                let (result, session) := applyProtocolAck session ack
                (result, session, w)
  | (.ok _, w) => (.error (.error .unexpectedFrame), session, w)

/-! ## What a call does to the session -/

section Rules

variable (client : DlrChatClient) (net : Network σ)

/-- An ACK moves only the base of the shim, and ends the pending request only if it names it. -/
theorem applyProtocolAck_cases (session : ChatSession F) (ack : AckFrame) :
    ((applyProtocolAck session ack).2 = session ∧ ∃ e, (applyProtocolAck session ack).1 = .error e) ∨
      (ack.sessionId = session.shim.sessionId ∧
        (applyProtocolAck session ack).2 = (session.applyAck ack.root).2 ∧
        ((applyProtocolAck session ack).1 = .ok () ↔ (session.applyAck ack.root).1 = true)) := by
  unfold applyProtocolAck
  by_cases hsid : ack.sessionId = session.shim.sessionId
  · rw [if_neg (not_not.mpr hsid)]
    refine Or.inr ⟨hsid, ?_⟩
    rcases session.applyAck ack.root with ⟨applied, next⟩
    cases applied <;> simp
  · rw [if_pos hsid]
    exact Or.inl ⟨rfl, _, rfl⟩

/-- The response to a chat request moves the session at most by an ACK of the expected root that
its header names. -/
theorem acceptChat_cases (session : ChatSession F) (prepared : PreparedChatRequest)
    (response : HttpResponse) :
    (acceptChat session prepared response).2 = session ∨
      (∃ value, response.header ackRootHeader = some value ∧
        (headerText value).bind parseRootHex = some prepared.expectedRoot) ∧
      (acceptChat session prepared response).2 = (session.applyAck prepared.expectedRoot).2 := by
  unfold acceptChat
  cases hvalue : response.header ackRootHeader with
  | none => exact Or.inl rfl
  | some value =>
      cases hroot : (headerText value).bind parseRootHex with
      | none => exact Or.inl (by simp only [hroot])
      | some root =>
          by_cases hexpected : root = prepared.expectedRoot
          · subst hexpected
            refine Or.inr ⟨⟨value, rfl, hroot⟩, ?_⟩
            simp only [hroot, ne_eq, not_true_eq_false, if_false]
            rcases session.applyAck prepared.expectedRoot with ⟨applied, next⟩
            cases applied <;> rfl
          · refine Or.inl ?_
            simp only [hroot, ne_eq, hexpected, not_false_eq_true, if_true]

variable {net} {client}

omit [Blake3] in
/-- The rule for the frames of a transfer: an invariant that every frame keeps, and a property
that every ACK among the answers has and keeps. -/
theorem transfer_keeps {I : σ → Prop} {A : σ → AckFrame → Prop} {frames : List (List UInt8)}
    (hframe : ∀ frame ∈ frames, ∀ w, I w →
      let out := client.exchangeFrame net w frame
      I out.2 ∧ (∀ ack, A w ack → A out.2 ack) ∧
        ∀ ack, out.1 = .ok (some (.ack ack)) → A out.2 ack)
    {w : σ} (hw : I w) {completion : Option AckFrame} (hc : ∀ ack, completion = some ack → A w ack) :
    let out := client.transfer net w frames completion
    I out.2 ∧ ∀ ack, out.1 = .ok (some ack) → A out.2 ack := by
  induction frames generalizing w completion with
  | nil => exact ⟨hw, fun ack hack => hc ack (Except.ok.inj hack)⟩
  | cons frame rest ih =>
      obtain ⟨hnext, hstable, hack⟩ := hframe frame List.mem_cons_self w hw
      have hrest := fun f hf => hframe f (List.mem_cons_of_mem _ hf)
      simp only [transfer]
      split
      · rename_i e w' heq
        rw [heq] at hnext
        exact ⟨hnext, nofun⟩
      · rename_i ack w' heq
        rw [heq] at hnext hack
        refine ih hrest hnext ?_
        rintro ack' ⟨⟩
        exact hack ack rfl
      · rename_i answer w' hne heq
        rw [heq] at hnext hstable
        exact ih hrest hnext fun ack hack' => hstable ack (hc ack hack')

variable [Zstd] [FloatChoices]

omit [Blake3] in
/-- The frames of a transfer are frames of the session. -/
theorem bulkFramesFor_sessionId {shim : SessionShim F} {missing : List BlockId} {margin : UInt32}
    {frames : List BulkFrame} (h : shim.bulkFramesFor missing margin = .ok frames) :
    ∀ b ∈ frames, b.sessionId = shim.sessionId := by
  unfold SessionShim.bulkFramesFor at h
  split_ifs at h
  · cases h
    nofun
  · cases hrec : (missing.filterMap shim.store.get).mapM shim.encodeRecord with
    | error e =>
        rw [hrec] at h
        cases h
    | ok records =>
        rw [hrec] at h
        refine Lib.mapM_forall h fun chunk b hchunk => ?_
        unfold SessionShim.encodeChunk at hchunk
        simp only at hchunk
        split at hchunk
        · cases hchunk
        · cases hchunk
          rfl

variable (client) (net)

/-- The rule for a whole synchronization. The first invariant holds throughout; the second one
from the answer to the RESYNC on, and gives the first. The session is moved by no ACK, or by
one with the property of the ACKs among the answers. -/
theorem synchronize_keeps (session : ChatSession F) (margin : UInt32) {I J : σ → Prop}
    {A : σ → AckFrame → Prop}
    (hIJ : ∀ w, J w → I w)
    (hresync : ∀ w, I w →
      let out := client.exchangeFrame net w (encodeFrame (.resync session.shim.resyncFrame))
      I out.2 ∧ ∀ answer, out.1 = .ok answer →
        J out.2 ∧ ∀ ack, answer = some (.ack ack) → A out.2 ack)
    (hbulk : ∀ b : BulkFrame, b.sessionId = session.shim.sessionId →
      (∃ missing frames, session.shim.bulkFramesFor missing margin = .ok frames ∧ b ∈ frames) →
      ∀ w, J w →
      let out := client.exchangeFrame net w (encodeFrame (.bulk b))
      J out.2 ∧ (∀ ack, A w ack → A out.2 ack) ∧
        ∀ ack, out.1 = .ok (some (.ack ack)) → A out.2 ack)
    {w : σ} (hw : I w) :
    let out := client.synchronize net w session margin
    I out.2.2 ∧ ((out.2.1 = session ∧ out.1 ≠ .ok ()) ∨
      ∃ ack, A out.2.2 ack ∧ ack.sessionId = session.shim.sessionId ∧
        out.2.1 = (session.applyAck ack.root).2 ∧
        (out.1 = .ok () ↔ (session.applyAck ack.root).1 = true)) := by
  obtain ⟨hnext, hanswer⟩ := hresync w hw
  have hack : ∀ {w' : σ} {ack : AckFrame}, A w' ack →
      let out := ((applyProtocolAck session ack).1, (applyProtocolAck session ack).2, w')
      (out.2.1 = session ∧ out.1 ≠ .ok ()) ∨
        ∃ ack, A out.2.2 ack ∧ ack.sessionId = session.shim.sessionId ∧
          out.2.1 = (session.applyAck ack.root).2 ∧
          (out.1 = .ok () ↔ (session.applyAck ack.root).1 = true) := by
    intro w' ack hA
    rcases applyProtocolAck_cases session ack with ⟨hsame, e, he⟩ | ⟨hsid, hmoved, hok⟩
    · exact Or.inl ⟨hsame, by simp [he]⟩
    · exact Or.inr ⟨ack, hA, hsid, hmoved, hok⟩
  unfold synchronize
  simp only
  split
  · rename_i e w' heq
    rw [heq] at hnext
    exact ⟨hnext, Or.inl ⟨rfl, nofun⟩⟩
  · rename_i ack w' heq
    rw [heq] at hnext hanswer
    exact ⟨hnext, hack ((hanswer _ rfl).2 ack rfl)⟩
  · rename_i missing w' heq
    rw [heq] at hnext hanswer
    have hJ := (hanswer _ rfl).1
    split_ifs with hsid
    · exact ⟨hnext, Or.inl ⟨rfl, nofun⟩⟩
    · unfold ChatSession.bulkFramesFor
      cases hframes : session.shim.bulkFramesFor missing.missing margin with
      | error e => exact ⟨hnext, Or.inl ⟨rfl, nofun⟩⟩
      | ok frames =>
          have hencoded : ∀ frame ∈ frames.map fun frame => encodeFrame (.bulk frame), ∀ w, J w →
              let out := client.exchangeFrame net w frame
              J out.2 ∧ (∀ ack, A w ack → A out.2 ack) ∧
                ∀ ack, out.1 = .ok (some (.ack ack)) → A out.2 ack := by
            intro frame hmem
            obtain ⟨b, hb, rfl⟩ := List.mem_map.mp hmem
            exact hbulk b (bulkFramesFor_sessionId hframes b hb) ⟨_, frames, hframes, hb⟩
          obtain ⟨hdone, hcompletion⟩ := transfer_keeps hencoded hJ
            (show ∀ ack, none = some ack → A w' ack from nofun)
          simp only
          split
          · rename_i e w'' heq'
            rw [heq'] at hdone
            exact ⟨hIJ _ hdone, Or.inl ⟨rfl, nofun⟩⟩
          · rename_i w'' heq'
            rw [heq'] at hdone
            exact ⟨hIJ _ hdone, Or.inl ⟨rfl, nofun⟩⟩
          · rename_i ack w'' heq'
            rw [heq'] at hdone hcompletion
            exact ⟨hIJ _ hdone, hack (hcompletion ack rfl)⟩
  · rename_i answer w' _ _ heq
    rw [heq] at hnext
    exact ⟨hnext, Or.inl ⟨rfl, nofun⟩⟩

end Rules

end DlrChatClient

/-! ## Any network -/

/-- A network that remembers its responses. -/
def Network.recorded {σ : Type} (net : Network σ) : Network (σ × List HttpResponse) :=
  fun w request =>
    match net w.1 request with
    | (.ok response, w') => (.ok response, (w', w.2 ++ [response]))
    | (.error e, w') => (.error e, (w', w.2))

/-- The response names a root, in its header or as an ACK frame. -/
def HttpResponse.Names (response : HttpResponse) (root : MerkleRoot) : Prop :=
  (∃ value, response.header ackRootHeader = some value ∧
    (headerText value).bind parseRootHex = some root) ∨
  ∃ ack, decodeFrame response.body = .ok (.ack ack) ∧ ack.root = root

/-- A use of the client. -/
inductive ClientCall
  | prepare (messages : List Value) (request : Value)
  | sendChat (prepared : PreparedChatRequest) (headers : List (String × List UInt8))
  | synchronize (repairMarginPct : UInt32)

/-- A session on some network, with the ids of the turns that were prepared and every response
that was heard. -/
structure Conversation (F σ : Type) where
  session : ChatSession F
  net : σ
  turns : List (List BlockId)
  heard : List HttpResponse

namespace Conversation

variable {F σ : Type} [DedupFilter F] [Blake3] [Zstd] [SerdeJson] [FloatChoices]

def call (client : DlrChatClient) (net : Network σ) (s : Conversation F σ) :
    ClientCall → Conversation F σ
  | .prepare messages request =>
      match s.session.prepareRef messages request with
      | (.error _, session) => { s with session }
      | (.ok _, session) =>
          { s with session, turns := s.turns ++ [(s.session.turn messages).map Block.blockId] }
  | .sendChat prepared headers =>
      let (_, session, net, heard) :=
        client.sendChat net.recorded (s.net, s.heard) s.session prepared headers
      { s with session, net, heard }
  | .synchronize margin =>
      let (_, session, net, heard) :=
        client.synchronize net.recorded (s.net, s.heard) s.session margin
      { s with session, net, heard }

def calls (client : DlrChatClient) (net : Network σ) (s : Conversation F σ)
    (cs : List ClientCall) : Conversation F σ :=
  cs.foldl (call client net) s

/-- Some response so far named the root. -/
def Heard (heard : List HttpResponse) (root : MerkleRoot) : Prop :=
  ∃ response ∈ heard, response.Names root

/-- What holds whatever the network does. -/
structure Safe (s : Conversation F σ) : Prop where
  rooted : s.session.shim.Rooted
  ids : s.session.shim.ids = s.turns.flatten
  pending : ∀ root, s.session.pendingRoot = some root → root = s.session.shim.root
  base : s.session.shim.baseRoot = rootZero ∨ Heard s.heard s.session.shim.baseRoot
  named : s.session.pendingRoot = none → s.turns = [] ∨ Heard s.heard s.session.shim.root

omit [DedupFilter F] [Blake3] [Zstd] [SerdeJson] [FloatChoices] in
theorem Heard.mono {heard heard' : List HttpResponse} {root : MerkleRoot} (h : Heard heard root)
    (hle : heard <+: heard') : Heard heard' root := by
  obtain ⟨response, hmem, hnames⟩ := h
  exact ⟨response, hle.subset hmem, hnames⟩

omit [DedupFilter F] [Zstd] [SerdeJson] [FloatChoices] in
/-- An ACK of a root that was heard, and whatever else is heard, keeps the session safe. -/
theorem Safe.applyAck {s : Conversation F σ} (h : s.Safe) {root : MerkleRoot} {net : σ}
    {heard : List HttpResponse} (hle : s.heard <+: heard) (hroot : Heard heard root) :
    ({ s with session := (s.session.applyAck root).2, net, heard } : Conversation F σ).Safe := by
  obtain ⟨hshim, hpending⟩ := s.session.applyAck_spec root
  obtain ⟨hids, hsame, -, -, -, htrue, hfalse⟩ := s.session.shim.applyAck_spec root
  refine ⟨?_, ?_, ?_, ?_, ?_⟩
  · rw [hshim]
    exact h.rooted.applyAck root
  · rw [hshim, hids]
    exact h.ids
  · intro r hr
    rw [hshim, hsame]
    rcases hpending with hkept | ⟨-, hnone⟩
    · exact h.pending r (hkept ▸ hr)
    · rw [hnone] at hr
      cases hr
  · rw [hshim]
    cases happlied : (s.session.shim.applyAck root).1 with
    | true =>
        rw [htrue happlied]
        exact Or.inr hroot
    | false =>
        rw [hfalse happlied]
        exact h.base.imp_right fun hb => hb.mono hle
  · intro hnone
    rw [hshim, hsame]
    rcases hpending with hkept | ⟨hsome, -⟩
    · exact (h.named (hkept ▸ hnone)).imp_right fun hb => hb.mono hle
    · exact Or.inr (h.pending root hsome ▸ hroot)

omit [DedupFilter F] [Zstd] [SerdeJson] [FloatChoices] in
/-- What is heard is only added to. -/
theorem Safe.hear {s : Conversation F σ} (h : s.Safe) {net : σ} {heard : List HttpResponse}
    (hle : s.heard <+: heard) : ({ s with net, heard } : Conversation F σ).Safe :=
  ⟨h.rooted, h.ids, h.pending, h.base.imp_right fun hb => hb.mono hle,
    fun hnone => (h.named hnone).imp_right fun hb => hb.mono hle⟩

omit [DedupFilter F] [Blake3] [Zstd] [SerdeJson] [FloatChoices] in
/-- One frame on a network that remembers: an ACK among the answers was heard. -/
theorem exchangeFrame_recorded (client : DlrChatClient) (net : Network σ)
    (w : σ × List HttpResponse) (frame : List UInt8) :
    let out := client.exchangeFrame net.recorded w frame
    w.2 <+: out.2.2 ∧ ∀ ack, out.1 = .ok (some (.ack ack)) → Heard out.2.2 ack.root := by
  unfold DlrChatClient.exchangeFrame Network.recorded
  rcases net w.1 (client.frameRequest frame) with ⟨e | response, w'⟩
  · exact ⟨List.prefix_rfl, nofun⟩
  · simp only
    split_ifs with hempty hfailed
    · exact ⟨List.prefix_append _ _, nofun⟩
    · cases hdecode : decodeFrame response.body with
      | error e =>
          cases e with
          | panic => exact ⟨List.prefix_append _ _, nofun⟩
          | error e => exact ⟨List.prefix_append _ _, nofun⟩
      | ok answer =>
          refine ⟨List.prefix_append _ _, ?_⟩
          intro ack hack
          obtain rfl : answer = .ack ack := Option.some.inj (Except.ok.inj hack)
          exact ⟨response, by simp, Or.inr ⟨ack, hdecode, rfl⟩⟩
    · exact ⟨List.prefix_append _ _, nofun⟩

/-- One call keeps the session safe. -/
theorem Safe.call {s : Conversation F σ} (h : s.Safe) (client : DlrChatClient) (net : Network σ)
    (c : ClientCall) : (s.call client net c).Safe := by
  cases c with
  | prepare messages request =>
      rcases s.session.prepareRef_cases messages request with
        ⟨e, hprep⟩ | ⟨nextSeq, prepared, hturn⟩
      · simp only [Conversation.call, hprep]
        exact h
      · simp only [Conversation.call, hturn.prepares]
        have hspec := s.session.shim.ingestTurn_spec (s.session.turn messages)
        refine ⟨h.rooted.ingestTurn _, ?_, ?_, ?_, nofun⟩
        · rw [hspec.ids, h.ids, List.flatten_append, List.flatten_singleton]
        · rintro root ⟨⟩
          rfl
        · rw [hspec.baseRoot]
          exact h.base
  | sendChat prepared headers =>
      simp only [Conversation.call, DlrChatClient.sendChat, Network.recorded]
      rcases net s.net (client.chatRequest prepared headers) with ⟨e | response, w⟩
      · exact h.hear List.prefix_rfl
      · simp only
        rcases DlrChatClient.acceptChat_cases s.session prepared response with
          hsame | ⟨⟨value, hvalue, hroot⟩, hmoved⟩
        · rw [hsame]
          exact h.hear (List.prefix_append _ _)
        · rw [hmoved]
          exact h.applyAck (List.prefix_append _ _)
            ⟨response, by simp, Or.inl ⟨value, hvalue, hroot⟩⟩
  | synchronize margin =>
      have hkept := DlrChatClient.synchronize_keeps client net.recorded s.session margin
        (I := fun w => s.heard <+: w.2) (J := fun w => s.heard <+: w.2)
        (A := fun w ack => Heard w.2 ack.root) (fun _ hw => hw)
        (fun w hw => by
          obtain ⟨hle, hack⟩ := exchangeFrame_recorded client net w
            (encodeFrame (.resync s.session.shim.resyncFrame))
          exact ⟨hw.trans hle, fun answer hanswer => ⟨hw.trans hle, fun ack heq => hack ack
            (heq ▸ hanswer)⟩⟩)
        (fun b _ _ w hw => by
          obtain ⟨hle, hack⟩ := exchangeFrame_recorded client net w (encodeFrame (.bulk b))
          exact ⟨hw.trans hle, fun ack hheard => hheard.mono hle, hack⟩)
        (show s.heard <+: (s.net, s.heard).2 from List.prefix_rfl)
      obtain ⟨hle, ⟨hsame, -⟩ | ⟨ack, hheard, -, hmoved, -⟩⟩ := hkept
      · simp only [Conversation.call]
        rw [hsame]
        exact h.hear hle
      · simp only [Conversation.call]
        rw [hmoved]
        exact h.applyAck hle hheard

theorem Safe.calls {s : Conversation F σ} (h : s.Safe) (client : DlrChatClient) (net : Network σ)
    (cs : List ClientCall) : (s.calls client net cs).Safe := by
  induction cs generalizing s with
  | nil => exact h
  | cons c rest ih => exact ih (h.call client net c)

omit [DedupFilter F] [Zstd] [SerdeJson] [FloatChoices] in
theorem safe_new (key : String) (filter : F) (w : σ) :
    (⟨ChatSession.new key filter, w, [], []⟩ : Conversation F σ).Safe :=
  ⟨SessionShim.rooted_withFilter _ _ _ _, rfl, nofun, Or.inl rfl, fun _ => Or.inl rfl⟩

/-- Calls only add turns. -/
theorem turns_extend (s : Conversation F σ) (client : DlrChatClient) (net : Network σ)
    (cs : List ClientCall) : s.turns <+: (s.calls client net cs).turns := by
  induction cs generalizing s with
  | nil => exact List.prefix_rfl
  | cons c rest ih =>
      refine List.IsPrefix.trans ?_ (ih (s.call client net c))
      cases c with
      | prepare messages request =>
          simp only [Conversation.call]
          split
          · exact List.prefix_rfl
          · exact List.prefix_append _ _
      | sendChat prepared headers => exact List.prefix_rfl
      | synchronize margin => exact List.prefix_rfl

/-- Whatever the network loses, repeats or makes up: the ids of the session are those of the
prepared turns in their order, with the root over them. The next request is based on the root
of a prefix, which is the empty one or was named by a response. A request is in flight until a
response names the root of the whole log, and later calls only add to the log. -/
theorem session_safe_on_any_network (client : DlrChatClient) (net : Network σ) (w : σ) (key : String)
    (filter : F) (cs : List ClientCall) :
    let s := (⟨ChatSession.new key filter, w, [], []⟩ : Conversation F σ).calls client net cs
    s.session.shim.ids = s.turns.flatten ∧
      s.session.shim.root = rootOver rootZero s.turns.flatten ∧
      s.session.shim.baseRoot =
        rootOver rootZero (s.turns.flatten.take s.session.shim.baseLen) ∧
      (s.session.shim.baseRoot = rootZero ∨ Heard s.heard s.session.shim.baseRoot) ∧
      (s.session.pendingRoot = none → s.turns = [] ∨ Heard s.heard s.session.shim.root) ∧
      (∀ root, s.session.pendingRoot = some root → root = s.session.shim.root) ∧
      ∀ later, s.session.shim.ids <+: (s.calls client net later).session.shim.ids := by
  intro s
  have h : s.Safe := (safe_new key filter w).calls client net cs
  refine ⟨h.ids, ?_, ?_, h.base, h.named, h.pending, fun later => ?_⟩
  · rw [← h.ids]
    exact h.rooted.root
  · rw [← h.ids]
    exact h.rooted.baseRoot
  · rw [h.ids, (h.calls client net later).ids]
    exact (turns_extend s client net later).flatten

end Conversation

end Dlr.Sidecar
