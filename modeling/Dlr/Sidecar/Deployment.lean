import Dlr.Shim.ColdStart
import Dlr.Receiver.LogLimits
import Dlr.Sidecar.Client
import Dlr.Sidecar.Exchange
import Dlr.Sidecar.Interleaving

/-!
# A session against a running sidecar

The driver of a session and the sidecar's router, over a network that loses requests and
responses. Chat requests may be delivered again at any time. What the sidecar appends are the
prepared turns, each once and in order, also when the session was repaired by a RESYNC in
between.

## Implementation notes

A request to the frame endpoint is served while the driver waits for it, or never: a RESYNC
that is served later would put an older log back. The texts of the router's own refusals
(no such path, body too large) are left out.
-/

namespace Dlr.Sidecar

open Dlr.Core Coding Compress Lib.Machine

/-! ## The router -/

/-- The handler that a path is routed to, behind the address of the sidecar. -/
def route (base url : String) : Option (Request → Call) :=
  if url = base ++ "/v1/dlr/chat/completions" then some .chat
  else if url = base ++ "/v1/dlr/frame" then some .frame
  else none

theorem route_chatRequest (client : DlrChatClient) (prepared : PreparedChatRequest)
    (headers : List (String × List UInt8)) :
    route client.baseUrl (client.chatRequest prepared headers).url = some .chat :=
  if_pos rfl

theorem route_frameRequest (client : DlrChatClient) (frame : List UInt8) :
    route client.baseUrl (client.frameRequest frame).url = some .frame := by
  unfold route
  rw [if_neg, if_pos]
  · rfl
  · intro h
    exact absurd ((String.append_right_inj _).mp h) (by decide)

section Post

variable [Blake3] [Zstd] [SerdeJson]

/-- What arrives of a response, when the gateway behind the sidecar gives this answer. -/
def Response.arrives (gateway : Except String HttpResponse) (response : Response) :
    Except String HttpResponse :=
  match response.render gateway with
  | none => .error "connection closed"
  | some rendered => .ok rendered

/-- Serve one posted request, when the gateway behind the sidecar gives this answer. -/
def SidecarState.post (base : String) (gateway : Except String HttpResponse) (s : SidecarState)
    (request : HttpRequest) : Except String HttpResponse × SidecarState :=
  match route base request.url with
  | none => (.ok ⟨404, [], []⟩, s)
  | some endpoint =>
      if maxRequestBytes < request.request.body.length then (.ok ⟨413, [], []⟩, s)
      else
        let (response, s) := s.serve (endpoint request.request)
        (response.arrives gateway, s)

/-- The readiness probe: it flushes the log and reports whether that worked. -/
def SidecarState.readyz (s : SidecarState) : HttpResponse × SidecarState :=
  match s.receiver.store.flushWal false with
  | (.ok (), store) =>
      (⟨200, [("content-type", "application/json".toUTF8.data.toList)],
        SerdeJson.toVec (.object [("status", .string "ready")])⟩,
        s.withReceiver { s.receiver with store })
  | (.error _, store) =>
      (⟨503, [("content-type", "application/json".toUTF8.data.toList)],
        SerdeJson.toVec (.object [("status", .string "not_ready"),
          ("reason", .string "wal_unavailable")])⟩,
        s.withReceiver { s.receiver with store })

/-- What the network does with a request. -/
inductive Fate
  | lost
  /-- The request is served and the response is lost. -/
  | unanswered (gateway : Except String HttpResponse)
  | answered (gateway : Except String HttpResponse)

/-- The network between a driver and a sidecar. Without a fate left, requests are lost. -/
def deployed (base : String) : Network (SidecarState × List Fate) := fun w request =>
  match w.2 with
  | [] => (.error "unreachable", w)
  | .lost :: fates => (.error "request lost", w.1, fates)
  | .unanswered gateway :: fates =>
      (.error "response lost", (w.1.post base gateway request).2, fates)
  | .answered gateway :: fates =>
      let (response, server) := w.1.post base gateway request
      (response, server, fates)

/-- The rule for the deployed network: what serving the request keeps and gives holds of every
fate. -/
theorem deployed_cases (base : String) (w : SidecarState × List Fate) (request : HttpRequest) :
    let out := deployed base w request
    (out.2.1 = w.1 ∧ ∃ e, out.1 = .error e) ∨
      ∃ gateway, out.2.1 = (w.1.post base gateway request).2 ∧
        ((∃ e, out.1 = .error e) ∨ out.1 = (w.1.post base gateway request).1) := by
  obtain ⟨server, fates⟩ := w
  match fates with
  | [] => exact Or.inl ⟨rfl, _, rfl⟩
  | .lost :: _ => exact Or.inl ⟨rfl, _, rfl⟩
  | .unanswered gateway :: _ => exact Or.inr ⟨gateway, rfl, Or.inl ⟨_, rfl⟩⟩
  | .answered gateway :: _ => exact Or.inr ⟨gateway, rfl, Or.inr rfl⟩

end Post

/-! ## What one request does to the log -/

section Served

variable [Blake3] [Zstd] [SerdeJson]

/-- Two receivers that compress alike and have the same logs. -/
def SameLogs (r r' : Receiver) : Prop :=
  r'.compressor = r.compressor ∧ r'.store.sessions = r.store.sessions

omit [Blake3] [Zstd] [SerdeJson] in
theorem SameLogs.of_eq {r r' : Receiver} (h : r' = r) : SameLogs r r' := h ▸ ⟨rfl, rfl⟩

omit [Blake3] [Zstd] [SerdeJson] in
theorem SameLogs.trans {r₁ r₂ r₃ : Receiver} (h : SameLogs r₁ r₂) (h' : SameLogs r₂ r₃) :
    SameLogs r₁ r₃ :=
  ⟨h'.1.trans h.1, h'.2.trans h.2⟩

/-- The response reports a failure. -/
def Response.Fails : Response → Prop
  | .error status _ _ => 400 ≤ status
  | .panic => True
  | _ => False

omit [Blake3] [Zstd] [SerdeJson] in
theorem Response.fails_error {status : Nat} (message : String) (root : Option MerkleRoot)
    (h : 400 ≤ status) : (Response.error status message root).Fails := h

omit [Blake3] [Zstd] [SerdeJson] in
theorem receiverErrorResponse_fails (e : ReceiverError) : (receiverErrorResponse e).Fails := by
  cases e <;> exact Response.fails_error _ _ (by omega)

namespace SidecarState

theorem bodyFrame_of_checkChat {s : SidecarState} {request : Request} {metadata : Value}
    {frame : AppendFrame} (h : s.checkChat request = .ok (metadata, frame)) :
    bodyFrame request.body = some frame := by
  obtain ⟨env, hdecode, -, hframe⟩ := carried_of_checkChat _ h
  unfold bodyFrame
  simp only at hdecode hframe
  simp only [hdecode, hframe]

theorem checkChat_fails {s : SidecarState} {request : Request} {response : Response}
    (h : s.checkChat request = .error response) : response.Fails := by
  unfold checkChat at h
  split_ifs at h
  · split at h
    · cases h
      exact Response.fails_error _ _ le_rfl
    · split at h
      · cases h
        exact Response.fails_error _ _ le_rfl
      · split at h
        · cases h
          trivial
        · cases h
          exact Response.fails_error _ _ le_rfl
        · split at h <;> cases h
          exact Response.fails_error _ _ le_rfl
        · cases h
          exact Response.fails_error _ _ le_rfl
  · cases h
    exact Response.fails_error _ _ (by omega)

omit [Blake3] [Zstd] [SerdeJson] in
theorem checkFrame_cases (s : SidecarState) (request : Request) :
    (∃ response, s.checkFrame request = .error response ∧ response.Fails) ∨
      ∃ frame, s.checkFrame request = .ok frame ∧ decodeFrame request.body = .ok frame := by
  unfold checkFrame
  split_ifs
  · split
    · exact Or.inl ⟨_, rfl, trivial⟩
    · exact Or.inl ⟨_, rfl, Response.fails_error _ _ le_rfl⟩
    · rename_i frame hdecode
      exact Or.inr ⟨frame, rfl, hdecode⟩
  · exact Or.inl ⟨_, rfl, Response.fails_error _ _ (by omega)⟩

omit [Blake3] [Zstd] [SerdeJson] in
/-- A flush answers what the log answers. -/
theorem flush_cases (s : SidecarState) :
    (∃ response flushed, s.flush = (.error response, flushed) ∧ response.Fails ∧
        ∃ e, (s.receiver.store.flushWal s.syncWal).1 = .error e) ∨
      ∃ flushed, s.flush = (.ok (), flushed) ∧
        (s.receiver.store.flushWal s.syncWal).1 = .ok () := by
  unfold flush
  split
  · rename_i e store heq
    exact Or.inl ⟨_, _, rfl, Response.fails_error _ _ (by omega), e, congrArg Prod.fst heq⟩
  · rename_i store heq
    exact Or.inr ⟨_, rfl, congrArg Prod.fst heq⟩

omit [Blake3] [Zstd] in
/-- What is answered after the flush: a failure, or the upstream request with the root. -/
theorem respondChat_cases (s : SidecarState) (request : Request) (metadata : Value)
    (frame : AppendFrame) (ack : AckFrame) (cached : Option CachedChatProjection) :
    (s.respondChat request metadata frame ack cached).1.Fails ∨
      ∃ up, (s.respondChat request metadata frame ack cached).1 = .forwarded ack.root up := by
  unfold respondChat
  split
  · exact Or.inl (Response.fails_error _ _ le_rfl)
  · split
    · rename_i response hbuild
      unfold buildProjection at hbuild
      split at hbuild <;> cases hbuild
      exact Or.inl (Response.fails_error _ _ le_rfl)
    · exact Or.inr ⟨_, rfl⟩

end SidecarState

/-- The frame that a request carries. -/
def Call.Carries : Call → Frame → Prop
  | .chat request, f => ∃ frame, bodyFrame request.body = some frame ∧ f = .append frame
  | .frame request, f => decodeFrame request.body = .ok f

/-- The response to a request whose frame was answered so. -/
def Call.Answers : Call → Option Frame → Response → Prop
  | .chat _, answer, response =>
      ∃ ack up, answer = some (.ack ack) ∧ response = .forwarded ack.root up
  | .frame _, answer, response => response = SidecarState.respondFrame answer

/-- Everything that a request can do: it fails before its frame is handled; the receiver refuses
the frame; the log cannot be flushed; or the frame is answered and flushed. -/
inductive Outcome (s : SidecarState) (call : Call) : Response → Receiver → Prop
  | unread (response : Response) (hfails : response.Fails) : Outcome s call response s.receiver
  | refused (f : Frame) (e : ReceiverError) (response : Response) (hf : call.Carries f)
      (hrefused : (s.receiver.handleFrame f).1 = .error e) (hfails : response.Fails) :
      Outcome s call response (s.receiver.handleFrame f).2
  | unflushed (f : Frame) (e : IoError) (response : Response) (hf : call.Carries f)
      (hflush : ((s.receiver.handleFrame f).2.store.flushWal s.syncWal).1 = .error e)
      (hfails : response.Fails) :
      Outcome s call response (s.receiver.events [.frame f, .flush s.syncWal])
  | flushed (f : Frame) (answer : Option Frame) (response : Response) (hf : call.Carries f)
      (hanswer : (s.receiver.handleFrame f).1 = .ok answer)
      (hflush : ((s.receiver.handleFrame f).2.store.flushWal s.syncWal).1 = .ok ())
      (hresponse : response.Fails ∨ call.Answers answer response) :
      Outcome s call response (s.receiver.events [.frame f, .flush s.syncWal])

theorem chatCompletions_outcome (s : SidecarState) (request : Request) :
    Outcome s (.chat request) (s.chatCompletions request).1
      (s.chatCompletions request).2.receiver := by
  unfold SidecarState.chatCompletions
  cases hcheck : s.checkChat request with
  | error response => exact .unread response (SidecarState.checkChat_fails hcheck)
  | ok checked =>
      obtain ⟨metadata, frame⟩ := checked
      have hcarries : Call.Carries (.chat request) (.append frame) :=
        ⟨frame, SidecarState.bodyFrame_of_checkChat hcheck, rfl⟩
      simp only
      rcases hlookup : s.lookupProjection frame with ⟨cached, looked⟩
      have hlooked : looked.receiver = s.receiver ∧ looked.syncWal = s.syncWal := by
        obtain rfl : looked = (s.lookupProjection frame).2 := by rw [hlookup]
        exact ⟨rfl, rfl⟩
      simp only [SidecarState.appendChat, hlooked.1]
      rcases happend : s.receiver.handleAppend frame with ⟨e | ack, received⟩
      · have hframe : s.receiver.handleFrame (.append frame) = (.error e, received) := by
          simp only [Receiver.handleFrame, happend]
        have houtcome := Outcome.refused (s := s) (.append frame) e (receiverErrorResponse e)
          hcarries (by rw [hframe]) (receiverErrorResponse_fails e)
        rwa [hframe] at houtcome
      · have hframe : s.receiver.handleFrame (.append frame) = (.ok (some (.ack ack)), received) := by
          simp only [Receiver.handleFrame, happend]
        simp only
        have hstate := (looked.withReceiver received).flush_state
        have hreceiver : ∀ {flushed : SidecarState},
            (looked.withReceiver received).flush.2 = flushed →
            flushed.receiver = s.receiver.events [.frame (.append frame), .flush s.syncWal] := by
          rintro flushed rfl
          rw [hstate]
          simp only [Receiver.events, List.foldl_cons, List.foldl_nil, Receiver.event, hframe,
            SidecarState.withReceiver, hlooked.2]
        have hanswer : (s.receiver.handleFrame (.append frame)).1 = .ok (some (.ack ack)) := by
          rw [hframe]
        rcases (looked.withReceiver received).flush_cases with
          ⟨response, flushed, hflush, hfails, e, he⟩ | ⟨flushed, hflush, hok⟩
        · rw [hflush]
          simp only
          rw [hreceiver (by rw [hflush])]
          refine .unflushed (.append frame) e response hcarries ?_ hfails
          rw [hframe, ← hlooked.2]
          exact he
        · rw [hflush]
          simp only
          rw [SidecarState.respondChat_receiver, hreceiver (by rw [hflush])]
          refine .flushed (.append frame) _ _ hcarries hanswer ?_ ?_
          · rw [hframe, ← hlooked.2]
            exact hok
          · refine (flushed.respondChat_cases request metadata frame ack cached).imp_right ?_
            rintro ⟨up, hup⟩
            exact ⟨ack, up, rfl, hup⟩

theorem handleFrame_outcome (s : SidecarState) (request : Request) :
    Outcome s (.frame request) (s.handleFrame request).1 (s.handleFrame request).2.receiver := by
  unfold SidecarState.handleFrame
  rcases s.checkFrame_cases request with ⟨response, hcheck, hfails⟩ | ⟨frame, hcheck, hdecode⟩
  · rw [hcheck]
    exact .unread response hfails
  · rw [hcheck]
    have hcarries : Call.Carries (.frame request) frame := hdecode
    simp only [SidecarState.receiveFrame]
    have hremoved : (s.removeProjection frame).receiver = s.receiver ∧
        (s.removeProjection frame).syncWal = s.syncWal := ⟨rfl, rfl⟩
    rw [hremoved.1]
    rcases hframe : s.receiver.handleFrame frame with ⟨e | answer, received⟩
    · have houtcome := Outcome.refused (s := s) frame e (receiverErrorResponse e) hcarries
        (by rw [hframe]) (receiverErrorResponse_fails e)
      rwa [hframe] at houtcome
    · simp only
      have hreceiver : ∀ {flushed : SidecarState},
          ((s.removeProjection frame).withReceiver received).flush.2 = flushed →
          flushed.receiver = s.receiver.events [.frame frame, .flush s.syncWal] := by
        rintro flushed rfl
        rw [SidecarState.flush_state]
        simp only [Receiver.events, List.foldl_cons, List.foldl_nil, Receiver.event, hframe,
          SidecarState.withReceiver, hremoved.2]
      rcases ((s.removeProjection frame).withReceiver received).flush_cases with
        ⟨response, flushed, hflush, hfails, e, he⟩ | ⟨flushed, hflush, hok⟩
      · rw [hflush]
        simp only
        rw [hreceiver (by rw [hflush])]
        refine .unflushed frame e response hcarries ?_ hfails
        rw [hframe]
        exact he
      · rw [hflush]
        simp only
        rw [hreceiver (by rw [hflush])]
        refine .flushed frame answer _ hcarries (by rw [hframe]) ?_ (Or.inr rfl)
        rw [hframe]
        exact hok

theorem serve_outcome (s : SidecarState) (call : Call) :
    Outcome s call (s.serve call).1 (s.serve call).2.receiver := by
  cases call with
  | chat request => exact chatCompletions_outcome s request
  | frame request => exact handleFrame_outcome s request

omit [SerdeJson] in
theorem sameLogs_flush (r : Receiver) (f : Frame) (sync : Bool) :
    SameLogs (r.handleFrame f).2 (r.events [.frame f, .flush sync]) :=
  ⟨rfl, ContentStore.flushWal_sessions _ _⟩

/-- A request fails and leaves the logs alone, or they become those after the frame it carries. If
it does not fail, it answers what the receiver answers. -/
theorem serve_logs (s : SidecarState) (call : Call) :
    ((s.serve call).2.receiver = s.receiver ∧ (s.serve call).1.Fails) ∨
      ∃ f, call.Carries f ∧ SameLogs (s.receiver.handleFrame f).2 (s.serve call).2.receiver ∧
        ((s.serve call).1.Fails ∨ ∃ answer, (s.receiver.handleFrame f).1 = .ok answer ∧
          call.Answers answer (s.serve call).1) := by
  have houtcome := serve_outcome s call
  generalize (s.serve call).1 = response at houtcome ⊢
  generalize (s.serve call).2.receiver = r at houtcome ⊢
  cases houtcome with
  | unread _ hfails => exact Or.inl ⟨rfl, hfails⟩
  | refused f e _ hf _ hfails => exact Or.inr ⟨f, hf, .of_eq rfl, Or.inl hfails⟩
  | unflushed f e _ hf _ hfails => exact Or.inr ⟨f, hf, sameLogs_flush _ f _, Or.inl hfails⟩
  | flushed f answer _ hf hanswer _ hresponse =>
      exact Or.inr ⟨f, hf, sameLogs_flush _ f _,
        hresponse.imp_right fun hr => ⟨answer, hanswer, hr⟩⟩

/-- A posted chat request: the effect on the logs, and the root that its response carries. -/
theorem post_chat (client : DlrChatClient) (gateway : Except String HttpResponse)
    (s : SidecarState) (prepared : PreparedChatRequest) (headers : List (String × List UInt8)) :
    let out := s.post client.baseUrl gateway (client.chatRequest prepared headers)
    let acked := fun root => ∃ response value, out.1 = .ok response ∧
      response.header ackRootHeader = some value ∧
      (headerText value).bind parseRootHex = some root
    (out.2.receiver = s.receiver ∧ ∀ root, ¬acked root) ∨
      ∃ frame, bodyFrame prepared.body = some frame ∧
        SameLogs (s.receiver.handleAppend frame).2 out.2.receiver ∧
        ∀ root, acked root → ∃ ack, (s.receiver.handleAppend frame).1 = .ok ack ∧ ack.root = root := by
  unfold SidecarState.post
  simp only [route_chatRequest]
  split_ifs with hsize
  · refine Or.inl ⟨rfl, ?_⟩
    rintro root ⟨response, value, hresponse, hvalue, -⟩
    cases hresponse
    cases hvalue
  · have hforwarded : ∀ {response : Response} {root : MerkleRoot}, (∃ rendered value,
        response.arrives gateway = .ok rendered ∧ rendered.header ackRootHeader = some value ∧
          (headerText value).bind parseRootHex = some root) → ∃ up, response = .forwarded root up := by
      rintro response root ⟨rendered, value, harrives, hvalue, hroot⟩
      unfold Response.arrives at harrives
      split at harrives
      · cases harrives
      · rename_i hrender
        cases harrives
        exact Response.forwarded_of_ackRoot hrender hvalue hroot
    rcases serve_logs s (.chat (client.chatRequest prepared headers).request) with
      ⟨hsame, hfails⟩ | ⟨f, ⟨frame, hframe, rfl⟩, hlogs, hanswer⟩
    · refine Or.inl ⟨hsame, fun root hroot => ?_⟩
      obtain ⟨up, hup⟩ := hforwarded hroot
      rw [hup] at hfails
      exact hfails
    · rw [Receiver.handleFrame_append_snd] at hlogs
      refine Or.inr ⟨frame, hframe, hlogs, fun root hroot => ?_⟩
      obtain ⟨up, hup⟩ := hforwarded hroot
      rw [hup] at hanswer
      rcases hanswer with hfails | ⟨answer, hok, ack, up', rfl, hroot⟩
      · cases hfails
      · cases hroot
        refine ⟨ack, ?_, rfl⟩
        simp only [Receiver.handleFrame] at hok
        split at hok
        · cases hok
        · rename_i ack' r' heq
          cases hok
          rw [heq]

omit [Blake3] [Zstd] [SerdeJson] in
theorem le_length_flatMap {α : Type} {l : List α} {f : α → List UInt8} {n : Nat}
    (h : ∀ x ∈ l, n ≤ (f x).length) : n * l.length ≤ (l.flatMap f).length := by
  have hsum := List.card_nsmul_le_sum (l.map fun x => (f x).length) n (by simpa using h)
  rw [List.length_flatMap, mul_comm]
  simpa using hsum

omit [Blake3] [Zstd] [SerdeJson] in
theorem length_le_flatMap {α : Type} {l : List α} {f : α → List UInt8} {x : α} (hx : x ∈ l) :
    (f x).length ≤ (l.flatMap f).length := by
  rw [List.length_flatMap]
  exact List.single_le_sum (fun _ _ => Nat.zero_le _) _ (List.mem_map_of_mem hx)

omit [Blake3] [Zstd] [SerdeJson] in
/-- A frame that fits into a request is within the limits of the codec. -/
theorem withinLimits_of_length {f : Frame} (h : (encodeFrame f).length ≤ maxRequestBytes) :
    f.WithinLimits := by
  have hids : ∀ ids : List BlockId, 32 * ids.length ≤ (ids.flatMap Digest.bytes).length :=
    fun ids => le_length_flatMap fun id _ => id.size.ge
  cases f with
  | append a =>
      simp only [encodeFrame, List.length_append, maxRequestBytes] at h
      have hcount : 21 * a.blocks.length ≤ (a.blocks.flatMap encodeFrameBlock).length := by
        refine le_length_flatMap fun fb _ => ?_
        cases fb with
        | inline b => exact (length_encodeFrameBlock_inline b).ge.trans' (Nat.le_add_right _ _)
        | ref id => exact (length_encodeFrameBlock_ref id).ge.trans' (by decide)
      refine ⟨by simp only [maxFrameCount]; omega, fun b hb => ?_⟩
      have hone := length_le_flatMap (f := encodeFrameBlock) hb
      rw [length_encodeFrameBlock_inline] at hone
      simp only [maxInlinePayloadBytes]
      omega
  | resync r =>
      have hcount := hids r.manifest
      simp only [encodeFrame, List.length_append, maxRequestBytes] at h
      simp only [Frame.WithinLimits, maxFrameCount]
      omega
  | bulk b =>
      simp only [encodeFrame, List.length_append, maxRequestBytes] at h
      have hcount : 4 * b.symbols.length ≤
          (b.symbols.flatMap fun s => Lib.Bytes.toLe 4 s.length ++ s).length :=
        le_length_flatMap fun s _ => by simp
      refine ⟨by simp only [maxFrameCount]; omega, fun s hs => ?_⟩
      have hone := length_le_flatMap (f := fun s => Lib.Bytes.toLe 4 s.length ++ s) hs
      rw [List.length_append] at hone
      simp only [maxInlinePayloadBytes]
      omega
  | ack a => trivial
  | missing m =>
      have hcount := hids m.missing
      simp only [encodeFrame, List.length_append, maxRequestBytes] at h
      simp only [Frame.WithinLimits, maxFrameCount]
      omega

/-- No response arrives, or one that reports a failure. -/
def Refused (result : Except String HttpResponse) : Prop :=
  ∀ response, result = .ok response → 400 ≤ response.status

omit [Blake3] [Zstd] in
theorem Response.Fails.refused {response : Response} (h : response.Fails)
    (gateway : Except String HttpResponse) : Refused (response.arrives gateway) := by
  intro rendered hrendered
  unfold Response.arrives at hrendered
  cases response with
  | error status message current =>
      cases current with
      | none =>
          cases hrendered
          exact h
      | some root =>
          cases hrendered
          exact h
  | panic => cases hrendered
  | frame body => exact absurd h id
  | noContent => exact absurd h id
  | forwarded root up => exact absurd h id

omit [Blake3] [Zstd] [SerdeJson] in
theorem exchangeFrame_state (client : DlrChatClient) {σ : Type} (net : Network σ) (w : σ)
    (frame : List UInt8) :
    (client.exchangeFrame net w frame).2 = (net w (client.frameRequest frame)).2 := by
  unfold DlrChatClient.exchangeFrame
  rcases net w (client.frameRequest frame) with ⟨e | response, w'⟩
  · rfl
  · simp only
    split_ifs
    · rfl
    · split <;> rfl
    · rfl

omit [Blake3] [Zstd] [SerdeJson] in
/-- The driver reports a refused frame as an error. -/
theorem exchangeFrame_refused (client : DlrChatClient) {σ : Type} {net : Network σ} {w : σ}
    {frame : List UInt8} (h : Refused (net w (client.frameRequest frame)).1) :
    ∀ answer, (client.exchangeFrame net w frame).1 ≠ .ok answer := by
  unfold DlrChatClient.exchangeFrame
  rcases hnet : net w (client.frameRequest frame) with ⟨e | response, w'⟩
  · exact nofun
  · rw [hnet] at h
    have hstatus := h response rfl
    simp only
    rw [if_neg (by omega), if_pos (by omega)]
    exact nofun

/-- A posted frame is refused and leaves the logs alone, or they become those after the frame. If
it is not refused, the response is the receiver's answer. -/
theorem post_frame (client : DlrChatClient) (gateway : Except String HttpResponse)
    (s : SidecarState) (f : Frame) :
    let out := s.post client.baseUrl gateway (client.frameRequest (encodeFrame f))
    (out.2.receiver = s.receiver ∧ Refused out.1) ∨
      f.WithinLimits ∧ SameLogs (s.receiver.handleFrame f).2 out.2.receiver ∧
        (Refused out.1 ∨ ∃ answer, (s.receiver.handleFrame f).1 = .ok answer ∧
          out.1 = (SidecarState.respondFrame answer).arrives gateway) := by
  unfold SidecarState.post
  simp only [route_frameRequest]
  split_ifs with hsize
  · refine Or.inl ⟨rfl, ?_⟩
    rintro response ⟨⟩
    exact (by decide : 400 ≤ 413)
  · have hlimits : f.WithinLimits := withinLimits_of_length (not_lt.mp hsize)
    rcases serve_logs s (.frame (client.frameRequest (encodeFrame f)).request) with
      ⟨hsame, hfails⟩ | ⟨frame, hframe, hlogs, hanswer⟩
    · exact Or.inl ⟨hsame, hfails.refused gateway⟩
    · obtain rfl : f = frame :=
        Except.ok.inj ((decodeFrame_encodeFrame hlimits).symm.trans hframe)
      refine Or.inr ⟨hlimits, hlogs, ?_⟩
      rcases hanswer with hfails | ⟨answer, hanswer, hresponse⟩
      · exact Or.inl (hfails.refused gateway)
      · exact Or.inr ⟨answer, hanswer, congrArg (·.arrives gateway) hresponse⟩

omit [SerdeJson] in
/-- What the receiver answers is within the limits of the codec if the frame is. -/
theorem answer_withinLimits {r : Receiver} {f answer : Frame} (hf : f.WithinLimits)
    (h : (r.handleFrame f).1 = .ok (some answer)) : answer.WithinLimits := by
  cases f with
  | append a =>
      simp only [Receiver.handleFrame] at h
      split at h <;> cases h
      trivial
  | resync m =>
      simp only [Receiver.handleFrame] at h
      split_ifs at h <;> cases h
      · trivial
      · exact (List.length_filter_le _ _).trans hf
  | bulk b =>
      simp only [Receiver.handleFrame] at h
      split at h <;> cases h
      trivial
  | ack a => cases h
  | missing m => cases h

/-- A posted frame: the effect on the logs, and the answer that the driver takes from its
response. -/
theorem exchangeFrame_deployed (client : DlrChatClient) (w : SidecarState × List Fate) (f : Frame) :
    let out := client.exchangeFrame (deployed client.baseUrl) w (encodeFrame f)
    (out.2.1.receiver = w.1.receiver ∧ ∀ answer, out.1 ≠ .ok answer) ∨
      SameLogs (w.1.receiver.handleFrame f).2 out.2.1.receiver ∧
        ∀ answer, out.1 = .ok (some answer) → (w.1.receiver.handleFrame f).1 = .ok (some answer) := by
  intro out
  have hstate : out.2 = (deployed client.baseUrl w (client.frameRequest (encodeFrame f))).2 :=
    exchangeFrame_state client _ w _
  rw [hstate]
  rcases deployed_cases client.baseUrl w (client.frameRequest (encodeFrame f)) with
    ⟨hsame, e, he⟩ | ⟨gateway, hserver, hresult⟩
  · refine Or.inl ⟨by rw [hsame], exchangeFrame_refused client ?_⟩
    rw [he]
    exact nofun
  · rw [hserver]
    rcases post_frame client gateway w.1 f with ⟨hsame, hrefused⟩ | ⟨hlimits, hlogs, hanswer⟩
    · refine Or.inl ⟨hsame, exchangeFrame_refused client ?_⟩
      rcases hresult with ⟨e, he⟩ | hresult
      · rw [he]
        exact nofun
      · rwa [hresult]
    · refine Or.inr ⟨hlogs, fun answer hout => ?_⟩
      rcases hresult with ⟨e, he⟩ | hresult
      · exact absurd hout (exchangeFrame_refused client (by rw [he]; exact nofun) _)
      · rcases hanswer with hrefused | ⟨sent, hsent, harrives⟩
        · exact absurd hout (exchangeFrame_refused client (by rwa [hresult]) _)
        · rw [harrives] at hresult
          simp only [out, DlrChatClient.exchangeFrame] at hout
          rcases hnet : deployed client.baseUrl w (client.frameRequest (encodeFrame f)) with ⟨r, w'⟩
          rw [hnet] at hresult hout
          cases sent with
          | none =>
              obtain rfl : r = .ok ⟨204, [], []⟩ := hresult
              cases hout
          | some sent =>
              obtain rfl : r = .ok ⟨200, _, encodeFrame sent⟩ := hresult
              have hdecode := decodeFrame_encodeFrame (answer_withinLimits hlimits hsent)
              simp only [hdecode, Nat.reduceEqDiff, if_false, Nat.reduceLeDiff, Nat.reduceLT, and_self,
                not_true_eq_false] at hout
              cases hout
              exact hsent

/-- The rule for a chat request over the deployed network: what holds of the receiver before and
after the APPEND that the request carries holds of the receiver afterwards, and so does what its
ACK gives for a root in the response. -/
theorem deployed_chat (client : DlrChatClient) (w : SidecarState × List Fate)
    (prepared : PreparedChatRequest) (headers : List (String × List UInt8)) {I : Receiver → Prop}
    {A : Receiver → MerkleRoot → Prop} (hI : ∀ {r r'}, SameLogs r r' → I r → I r')
    (hA : ∀ {r r' root}, SameLogs r r' → A r root → A r' root) (hw : I w.1.receiver)
    (happend : ∀ frame, bodyFrame prepared.body = some frame →
      I (w.1.receiver.handleAppend frame).2 ∧
        ∀ ack, (w.1.receiver.handleAppend frame).1 = .ok ack →
          A (w.1.receiver.handleAppend frame).2 ack.root) :
    let out := deployed client.baseUrl w (client.chatRequest prepared headers)
    I out.2.1.receiver ∧ ∀ response value root, out.1 = .ok response →
      response.header ackRootHeader = some value →
      (headerText value).bind parseRootHex = some root → A out.2.1.receiver root := by
  intro out
  rcases deployed_cases client.baseUrl w (client.chatRequest prepared headers) with
    ⟨hsame, e, he⟩ | ⟨gateway, hserver, hresult⟩
  · refine ⟨hI (.of_eq (congrArg SidecarState.receiver hsame)) hw, fun response _ _ hresponse => ?_⟩
    rw [he] at hresponse
    cases hresponse
  · have hresponse : ∀ response, out.1 = .ok response →
        (w.1.post client.baseUrl gateway (client.chatRequest prepared headers)).1 =
          .ok response := by
      intro response hresponse
      rcases hresult with ⟨e, he⟩ | hresult
      · rw [he] at hresponse
        cases hresponse
      · exact hresult.symm.trans hresponse
    simp only [out, hserver]
    rcases post_chat client gateway w.1 prepared headers with
      ⟨hsame, hnone⟩ | ⟨frame, hframe, hlogs, hack⟩
    · refine ⟨hI (.of_eq hsame) hw, fun response value root hok hvalue hroot => ?_⟩
      exact absurd ⟨response, value, hresponse response hok, hvalue, hroot⟩ (hnone root)
    · refine ⟨hI hlogs (happend frame hframe).1, fun response value root hok hvalue hroot => ?_⟩
      obtain ⟨ack, hacked, rfl⟩ := hack root ⟨response, value, hresponse response hok, hvalue, hroot⟩
      exact hA hlogs ((happend frame hframe).2 ack hacked)

end Served

/-! ## What keeps the two parties consistent -/

namespace Exchange

variable {F : Type} [Blake3] [Zstd] [SerdeJson] {s : Exchange F} {sid : SessionId}
  {sender c : Compressor}

/-- Only the compressor and the logs of the receiver matter. -/
theorem Consistent.sameLogs (h : s.Consistent sid sender c) {r : Receiver}
    (hr : SameLogs s.receiver r) :
    ({ s with receiver := r } : Exchange F).Consistent sid sender c ∧
      ({ s with receiver := r } : Exchange F).log = s.log := by
  have hlog : ({ s with receiver := r } : Exchange F).log = s.log := by
    simp only [Exchange.log, Exchange.sid, ContentStore.sessionIds, hr.2]
  refine ⟨⟨h.session, h.appendCompressor, hr.1.trans h.compressor, h.rooted, h.ids, ?_, ?_,
    h.pending, h.sent, ?_⟩, hlog⟩
  · rw [hlog, ← h.root]
    simp only [ContentStore.sessionRoot, hr.2]
  · rw [hlog]
    exact h.applied
  · rw [hlog]
    exact h.acks

/-- The root of the log may be acknowledged. -/
theorem Consistent.acknowledged (h : s.Consistent sid sender c) (acks : List MerkleRoot)
    (hacks : ∀ root ∈ acks, root = rootOver rootZero s.log) :
    ({ s with acks } : Exchange F).Consistent sid sender c := by
  refine ⟨h.session, h.appendCompressor, h.compressor, h.rooted, h.ids, h.root, h.applied, h.pending,
    h.sent, ?_⟩
  intro root hroot
  refine ⟨s.log.length, (hacks root hroot).trans ?_⟩
  exact congrArg _ (List.take_length).symm

/-- The APPEND of a sent body keeps the parties consistent and takes nothing back, and what it
acknowledges is the root of the log. -/
theorem Consistent.appended (h : s.Consistent sid sender c) (hrt : Compressor.RoundTrips sender c)
    {S : Set (List UInt8)} (hS : CollisionFree S)
    (hin : ∀ x ∈ rootInputs rootZero s.turns.flatten, x ∈ S) {body : List UInt8}
    (hbody : body ∈ s.bodies) {frame : AppendFrame} (hframe : bodyFrame body = some frame) :
    let s' : Exchange F := ⟨s.client, (s.receiver.handleAppend frame).2, s.bodies, [], s.turns⟩
    s'.Consistent sid sender c ∧ (s.log = s.turns.flatten → s'.log = s.turns.flatten) ∧
      ∀ ack, (s.receiver.handleAppend frame).1 = .ok ack → ack.root = rootOver rootZero s'.log := by
  intro s'
  obtain ⟨-, -, -, -, hall, hacked⟩ := h.handleAppend hrt hS hin hbody hframe
  have hdeliver := (h.deliver hrt hS hin hbody).1.acknowledged [] nofun
  have hlog : s'.log = (s.receiver.handleAppend frame).2.store.sessionIds sid :=
    congrArg _ h.session
  unfold Exchange.deliver at hdeliver
  rw [hframe] at hdeliver
  refine ⟨?_, fun hwhole => hlog.trans (hall hwhole), fun ack hack => ?_⟩
  · simp only at hdeliver
    split at hdeliver
    · rename_i heq
      simp only [s', show (s.receiver.handleAppend frame).2 = _ from congrArg Prod.snd heq]
      exact hdeliver
    · rename_i heq
      simp only [s', show (s.receiver.handleAppend frame).2 = _ from congrArg Prod.snd heq]
      exact hdeliver
  · rw [hlog]
    exact hacked ack hack

/-- A RESYNC of the client as it is now puts its whole log in place. -/
theorem Consistent.resync (h : s.Consistent sid sender c) :
    let s' : Exchange F := ⟨s.client,
      (s.receiver.handleFrame (.resync s.client.shim.resyncFrame)).2, s.bodies, [], s.turns⟩
    s'.Consistent sid sender c ∧ s'.log = s.turns.flatten := by
  intro s'
  have hlogOf : logOf s'.receiver.store.sessions sid = ⟨s.client.shim.ids, s.client.shim.root⟩ := by
    rw [← h.session]
    simp [s', Receiver.handleResync, SessionShim.resyncFrame, logOf_set, Exchange.sid]
  have hcomp : s'.receiver.compressor = c := by
    obtain ⟨ops, haff, -⟩ := s.receiver.handleFrame_affects (.resync s.client.shim.resyncFrame)
    exact haff.compressor.trans h.compressor
  have hlog : s'.log = s.turns.flatten := by
    rw [Exchange.log, show s'.sid = sid from h.session, ContentStore.sessionIds, hlogOf]
    exact h.ids
  refine ⟨⟨h.session, h.appendCompressor, hcomp, h.rooted, h.ids, ?_, Or.inl hlog, h.pending, h.sent,
    fun _ hack => absurd hack List.not_mem_nil⟩, hlog⟩
  rw [hlog, ContentStore.sessionRoot, hlogOf, ← h.ids]
  exact h.rooted.root

end Exchange

section Answers

variable [Blake3] [Zstd] (r : Receiver)

/-- A BULK frame changes no log, and acknowledges the root of the log. -/
theorem handleFrame_bulk_logs (b : BulkFrame) :
    SameLogs r (r.handleFrame (.bulk b)).2 ∧
      ∀ ack, (r.handleFrame (.bulk b)).1 = .ok (some (.ack ack)) →
        ack.root = r.store.sessionRoot b.sessionId := by
  rw [Receiver.handleFrame_bulk_snd]
  rcases r.handleBulk_cases b with ⟨d, hnext, hnone⟩ | ⟨recovered, -, hdone⟩
  · refine ⟨by rw [hnext]; exact ⟨rfl, rfl⟩, ?_⟩
    intro ack hack
    simp only [Receiver.handleFrame] at hack
    split at hack
    · cases hack
    · rename_i root r' heq
      exact absurd (by rw [heq]) (hnone root)
    · cases hack
  · refine ⟨?_, ?_⟩
    · rw [hdone]
      exact ⟨rfl, Receiver.performAll_contentOps_sessions _ _ _⟩
    · intro ack hack
      simp only [Receiver.handleFrame, hdone] at hack
      split_ifs at hack <;> cases hack
      rfl

end Answers

/-! ## Runs -/

/-- A request of somebody else: it carries no frame of the session. -/
def Call.Foreign [SerdeJson] (sid : SessionId) : Call → Prop
  | .chat request => ∀ frame, bodyFrame request.body = some frame → frame.sessionId ≠ sid
  | .frame request => ∀ frame, decodeFrame request.body = .ok frame → frame.sessionId ≠ sid

theorem Call.Foreign.carries [SerdeJson] {sid : SessionId} {call : Call} (h : call.Foreign sid)
    {f : Frame} (hf : call.Carries f) : f.sessionId ≠ sid := by
  cases call with
  | chat request =>
      obtain ⟨frame, hframe, rfl⟩ := hf
      exact h frame hframe
  | frame request => exact h f hf

/-- A session and the sidecar it talks to, with everything that was ever prepared. -/
structure Deployment (F : Type) where
  session : ChatSession F
  server : SidecarState
  prepared : List PreparedChatRequest
  turns : List (List BlockId)

namespace Deployment

variable {F : Type} [DedupFilter F] [Blake3] [Zstd] [SerdeJson] [FloatChoices]

/-- The two parties as an exchange, after these ACKs. -/
def exchange (s : Deployment F) (acks : List MerkleRoot) : Exchange F :=
  ⟨s.session, s.server.receiver, s.prepared.map PreparedChatRequest.body, acks, s.turns⟩

def sid (s : Deployment F) : SessionId := s.session.shim.sessionId

/-- The sidecar's log of the session. -/
def log (s : Deployment F) : List BlockId := s.server.receiver.store.sessionIds s.sid

/-- How many of the prepared turns the sidecar has applied. -/
def applied (s : Deployment F) : Nat := (s.exchange []).applied

def prepare (s : Deployment F) (messages : List Value) (request : Value) : Deployment F :=
  match s.session.prepareRef messages request with
  | (.error _, session) => { s with session }
  | (.ok prepared, session) =>
      { s with
        session
        prepared := s.prepared ++ [prepared]
        turns := s.turns ++ [(s.session.turn messages).map Block.blockId] }

def sendChat (client : DlrChatClient) (s : Deployment F) (prepared : PreparedChatRequest)
    (headers : List (String × List UInt8)) (fates : List Fate) : Deployment F :=
  let (_, session, server, _) :=
    client.sendChat (deployed client.baseUrl) (s.server, fates) s.session prepared headers
  { s with session, server }

def synchronize (client : DlrChatClient) (s : Deployment F) (margin : UInt32)
    (fates : List Fate) : Deployment F :=
  let (_, session, server, _) :=
    client.synchronize (deployed client.baseUrl) (s.server, fates) s.session margin
  { s with session, server }

/-- One step: a turn is prepared; a request that was prepared some time is sent, for the first
time or again; the session is synchronized; the sidecar serves somebody else; or its readiness is
probed. -/
inductive Step (client : DlrChatClient) : Deployment F → Deployment F → Prop
  | prepare (s : Deployment F) (messages : List Value) (request : Value) :
      Step client s (s.prepare messages request)
  | sendChat (s : Deployment F) (prepared : PreparedChatRequest) (h : prepared ∈ s.prepared)
      (headers : List (String × List UInt8)) (fates : List Fate) :
      Step client s (s.sendChat client prepared headers fates)
  | synchronize (s : Deployment F) (margin : UInt32) (fates : List Fate) :
      Step client s (s.synchronize client margin fates)
  | other (s : Deployment F) (call : Call) (h : call.Foreign s.sid) :
      Step client s { s with server := (s.server.serve call).2 }
  | probe (s : Deployment F) : Step client s { s with server := s.server.readyz.2 }

/-- The start: a new session, and a sidecar without a log for it. -/
structure Initial (s : Deployment F) (c : Compressor) : Prop where
  session : ∃ key filter, s.session = ChatSession.new key filter
  compressor : s.server.receiver.compressor = c
  unknown : s.server.receiver.store.sessions.get? s.sid = none
  prepared : s.prepared = []
  turns : s.turns = []

/-- The two parties are consistent, before any ACK that is still to come. -/
def Consistent (s : Deployment F) (sid : SessionId) (sender c : Compressor) : Prop :=
  (s.exchange []).Consistent sid sender c

section Step

variable {s : Deployment F} {sid : SessionId} {sender c : Compressor} {S : Set (List UInt8)}

omit [FloatChoices] in
theorem exchange_prepare (s : Deployment F) (messages : List Value) (request : Value) :
    (s.exchange []).prepare messages request = (s.prepare messages request).exchange [] := by
  unfold Exchange.prepare Deployment.prepare exchange
  rcases s.session.prepareRef messages request with ⟨_ | prepared, session⟩
  · simp only
  · simp only [List.map_append, List.map_cons, List.map_nil]

omit [FloatChoices] in
theorem Consistent.prepare (h : s.Consistent sid sender c) (messages : List Value)
    (request : Value) : (s.prepare messages request).Consistent sid sender c := by
  have hnext := Exchange.Consistent.prepare h messages request
  rwa [exchange_prepare] at hnext

omit [DedupFilter F] [FloatChoices] in
/-- A chat request keeps the parties consistent, and an ACK root in its response is the root of
the log. The log is never taken back. -/
theorem Consistent.sent (h : s.Consistent sid sender c) (hrt : Compressor.RoundTrips sender c)
    (hS : CollisionFree S) (hin : ∀ x ∈ rootInputs rootZero s.turns.flatten, x ∈ S)
    (client : DlrChatClient) {prepared : PreparedChatRequest} (hmem : prepared ∈ s.prepared)
    (headers : List (String × List UInt8)) (fates : List Fate) :
    let out := deployed client.baseUrl (s.server, fates) (client.chatRequest prepared headers)
    let s' : Deployment F := { s with server := out.2.1 }
    s'.Consistent sid sender c ∧ (s.log = s.turns.flatten → s'.log = s.turns.flatten) ∧
      ∀ response value root, out.1 = .ok response →
        response.header ackRootHeader = some value →
        (headerText value).bind parseRootHex = some root → root = rootOver rootZero s'.log := by
  intro out s'
  -- the exchange around another receiver
  let around : Receiver → Exchange F := fun r => { s.exchange [] with receiver := r }
  obtain ⟨⟨hnext, hall⟩, hack⟩ := deployed_chat client (s.server, fates) prepared headers
    (I := fun r => (around r).Consistent sid sender c ∧
      (s.log = s.turns.flatten → (around r).log = s.turns.flatten))
    (A := fun r root => root = rootOver rootZero (around r).log)
    (fun hlogs ⟨hr, hall⟩ => by
      obtain ⟨hnext, hlog⟩ := Exchange.Consistent.sameLogs hr hlogs
      exact ⟨hnext, fun hwhole => hlog.trans (hall hwhole)⟩)
    (fun hlogs hroot => by
      simp only [around, Exchange.log, Exchange.sid, ContentStore.sessionIds, hlogs.2] at hroot ⊢
      exact hroot)
    ⟨h, id⟩
    (fun frame hframe => by
      obtain ⟨hnext, hall, hack⟩ :=
        Exchange.Consistent.appended h hrt hS hin (List.mem_map_of_mem hmem) hframe
      exact ⟨⟨hnext, hall⟩, hack⟩)
  exact ⟨hnext, hall, hack⟩

omit [DedupFilter F] [FloatChoices] in
/-- The client's root is that of all prepared turns. -/
theorem Consistent.whole (h : s.Consistent sid sender c) :
    s.session.shim.root = rootOver rootZero s.turns.flatten := by
  have hroot := h.rooted.root
  rw [h.ids] at hroot
  exact hroot

omit [DedupFilter F] [FloatChoices] in
/-- What the client does to its session does not change which log the sidecar has for it. -/
theorem Consistent.log_eq_of_server {s' : Deployment F} (h : s.Consistent sid sender c)
    (h' : s'.Consistent sid sender c) (hserver : s.server = s'.server) : s.log = s'.log := by
  have hsid : s.sid = sid := h.session
  have hsid' : s'.sid = sid := h'.session
  rw [log, log, hsid, hsid', hserver]

omit [DedupFilter F] [FloatChoices] in
/-- The client takes an ACK of the root of the log. -/
theorem Consistent.applyAck (h : s.Consistent sid sender c) (hS : CollisionFree S)
    (hin : ∀ x ∈ rootInputs rootZero s.turns.flatten, x ∈ S) {root : MerkleRoot}
    (hroot : root = rootOver rootZero s.log) :
    ({ s with session := (s.session.applyAck root).2 } : Deployment F).Consistent sid sender c := by
  have hacked := Exchange.Consistent.acknowledged h [root] (by
    intro root' hmem
    rw [List.mem_singleton.mp hmem]
    exact hroot)
  exact (hacked.applyAck hS hin (List.mem_singleton_self root)).acknowledged [] nofun

omit [DedupFilter F] [FloatChoices] in
theorem Consistent.sendChat (h : s.Consistent sid sender c) (hrt : Compressor.RoundTrips sender c)
    (hS : CollisionFree S) (hin : ∀ x ∈ rootInputs rootZero s.turns.flatten, x ∈ S)
    (client : DlrChatClient) {prepared : PreparedChatRequest} (hmem : prepared ∈ s.prepared)
    (headers : List (String × List UInt8)) (fates : List Fate) :
    (s.sendChat client prepared headers fates).Consistent sid sender c ∧
      (s.log = s.turns.flatten →
        (s.sendChat client prepared headers fates).log = s.turns.flatten) := by
  obtain ⟨hnext, hall, hack⟩ := h.sent hrt hS hin client hmem headers fates
  unfold Deployment.sendChat DlrChatClient.sendChat
  rcases hnet : deployed client.baseUrl (s.server, fates) (client.chatRequest prepared headers) with
    ⟨e | response, w⟩
  · rw [hnet] at hnext hall
    exact ⟨hnext, hall⟩
  · rw [hnet] at hnext hall hack
    simp only
    rcases DlrChatClient.acceptChat_cases s.session prepared response with
      hsame | ⟨⟨value, hvalue, hroot⟩, hmoved⟩
    · rw [hsame]
      exact ⟨hnext, hall⟩
    · rw [hmoved]
      have hacked := hnext.applyAck hS hin (hack response value _ rfl hvalue hroot)
      exact ⟨hacked, fun hwhole => (hacked.log_eq_of_server hnext rfl).trans (hall hwhole)⟩

omit [DedupFilter F] in
/-- A synchronization keeps the parties consistent and takes nothing back. -/
theorem Consistent.synchronize (h : s.Consistent sid sender c) (hS : CollisionFree S)
    (hin : ∀ x ∈ rootInputs rootZero s.turns.flatten, x ∈ S) (client : DlrChatClient)
    (margin : UInt32) (fates : List Fate) :
    (s.synchronize client margin fates).Consistent sid sender c ∧
      (s.log = s.turns.flatten → (s.synchronize client margin fates).log = s.turns.flatten) := by
  have hkept := DlrChatClient.synchronize_keeps client (deployed client.baseUrl) s.session margin
    (I := fun w => ({ s with server := w.1 } : Deployment F).Consistent sid sender c ∧
      (s.log = s.turns.flatten →
        ({ s with server := w.1 } : Deployment F).log = s.turns.flatten))
    (J := fun w => ({ s with server := w.1 } : Deployment F).Consistent sid sender c ∧
      ({ s with server := w.1 } : Deployment F).log = s.turns.flatten)
    (A := fun w ack => ({ s with server := w.1 } : Deployment F).log = s.turns.flatten ∧
      ack.root = s.session.shim.root)
    (fun _ hw => ⟨hw.1, fun _ => hw.2⟩) ?_ ?_ (w := (s.server, fates)) ⟨h, id⟩
  · obtain ⟨⟨hnext, hall⟩, ⟨hsame, -⟩ | ⟨ack, ⟨hlog, hroot⟩, -, hmoved, -⟩⟩ := hkept
    · simp only [Deployment.synchronize]
      rw [hsame]
      exact ⟨hnext, hall⟩
    · simp only [Deployment.synchronize]
      rw [hmoved]
      have hacked := hnext.applyAck hS hin
        (show ack.root = _ by rw [hlog, hroot]; exact h.whole)
      exact ⟨hacked, fun _ => (hacked.log_eq_of_server hnext rfl).trans hlog⟩
  · rintro w ⟨hw, hall⟩
    rcases exchangeFrame_deployed client w (.resync s.session.shim.resyncFrame) with
      ⟨hsame, hnone⟩ | ⟨hlogs, hanswer⟩
    · obtain ⟨hnext, hlog⟩ := Exchange.Consistent.sameLogs hw (.of_eq hsame)
      refine ⟨⟨hnext, fun hwhole => hlog.trans (hall hwhole)⟩, ?_⟩
      intro answer hans
      exact absurd hans (hnone answer)
    · obtain ⟨hseeded, hwhole⟩ := Exchange.Consistent.resync hw
      obtain ⟨hnext, hlog⟩ := hseeded.sameLogs hlogs
      refine ⟨⟨hnext, fun _ => hlog.trans hwhole⟩, fun answer hans =>
        ⟨⟨hnext, hlog.trans hwhole⟩, ?_⟩⟩
      rintro ack rfl
      refine ⟨hlog.trans hwhole, ?_⟩
      have hack := hanswer _ hans
      rw [s.session.shim.handleFrame_resync_answer w.1.receiver] at hack
      split_ifs at hack
      · cases hack
        rfl
      · cases hack
  · rintro b hb - w ⟨hw, hwhole⟩
    rcases exchangeFrame_deployed client w (.bulk b) with ⟨hsame, hnone⟩ | ⟨hlogs, hanswer⟩
    · obtain ⟨hnext, hlog⟩ := Exchange.Consistent.sameLogs hw (.of_eq hsame)
      refine ⟨⟨hnext, hlog.trans hwhole⟩, fun ack hack => ⟨hlog.trans hwhole, hack.2⟩, ?_⟩
      intro ack hack
      exact absurd hack (hnone _)
    · obtain ⟨hbulk, hroot⟩ := handleFrame_bulk_logs w.1.receiver b
      obtain ⟨hnext, hlog⟩ := Exchange.Consistent.sameLogs hw (hbulk.trans hlogs)
      refine ⟨⟨hnext, hlog.trans hwhole⟩, fun ack hack => ⟨hlog.trans hwhole, hack.2⟩, ?_⟩
      intro ack hack
      refine ⟨hlog.trans hwhole, ?_⟩
      calc ack.root = w.1.receiver.store.sessionRoot b.sessionId := hroot ack (hanswer _ hack)
        _ = w.1.receiver.store.sessionRoot sid := by rw [hb, ← h.session]; rfl
        _ = rootOver rootZero s.turns.flatten := by rw [← hwhole]; exact hw.root
        _ = s.session.shim.root := h.whole.symm

omit [DedupFilter F] [FloatChoices] in
/-- A request of somebody else does not touch the log. -/
theorem Consistent.other (h : s.Consistent sid sender c) {call : Call} (hcall : call.Foreign s.sid) :
    ({ s with server := (s.server.serve call).2 } : Deployment F).Consistent sid sender c ∧
      ({ s with server := (s.server.serve call).2 } : Deployment F).log = s.log := by
  rcases serve_logs s.server call with ⟨hsame, -⟩ | ⟨f, hf, hlogs, -⟩
  · exact Exchange.Consistent.sameLogs h (.of_eq hsame)
  · obtain ⟨hother, hlog⟩ := Exchange.Consistent.other h (hcall.carries hf)
    obtain ⟨hnext, hlog'⟩ := hother.sameLogs hlogs
    exact ⟨hnext, hlog'.trans hlog⟩

omit [DedupFilter F] [FloatChoices] in
theorem Consistent.probe (h : s.Consistent sid sender c) :
    ({ s with server := s.server.readyz.2 } : Deployment F).Consistent sid sender c ∧
      ({ s with server := s.server.readyz.2 } : Deployment F).log = s.log := by
  refine Exchange.Consistent.sameLogs h ?_
  unfold SidecarState.readyz
  have hflush := ContentStore.flushWal_sessions s.server.receiver.store false
  split
  · rename_i heq
    rw [heq] at hflush
    exact ⟨rfl, hflush⟩
  · rename_i heq
    rw [heq] at hflush
    exact ⟨rfl, hflush⟩

omit [DedupFilter F] [FloatChoices] in
/-- A step that prepares nothing and does not take the whole log back applies no fewer turns. -/
theorem Consistent.applied_le {s' : Deployment F} (h : s.Consistent sid sender c)
    (h' : s'.Consistent sid sender c) (hturns : s'.turns = s.turns)
    (hall : s.log = s.turns.flatten → s'.log = s.turns.flatten) : s.applied ≤ s'.applied := by
  by_cases hlog : s.log = s.turns.flatten
  · have hs' : s'.applied = s'.turns.length := by
      apply Exchange.applied_of_log_eq
      rw [h'.ids]
      exact (hall hlog).trans (by rw [← hturns]; rfl)
    rw [hs', hturns]
    unfold applied Exchange.applied
    split_ifs
    · exact le_rfl
    · exact Nat.sub_le _ _
  · have hs : s.applied = s.turns.length - 1 := by
      refine if_neg fun hids => hlog ?_
      rw [h.ids] at hids
      exact hids
    rw [hs, ← hturns]
    exact Exchange.le_applied (s'.exchange [])

/-- A step only adds turns. -/
theorem Step.turns_prefix {client : DlrChatClient} {s' : Deployment F} (h : Step client s s') :
    s.turns <+: s'.turns := by
  cases h with
  | prepare messages request =>
      unfold Deployment.prepare
      split
      · exact List.prefix_rfl
      · exact List.prefix_append _ _
  | sendChat prepared hmem headers fates => exact List.prefix_rfl
  | synchronize margin fates => exact List.prefix_rfl
  | other call hcall => exact List.prefix_rfl
  | probe => exact List.prefix_rfl

/-- The frames that may be handed to the sidecar in a step: those of other sessions, turns, the
RESYNC of the session as it is, and the frames of a transfer out of the client's store. -/
inductive Sends (s : Deployment F) : Frame → Prop
  | other (f : Frame) (h : f.sessionId ≠ s.sid) : Sends s f
  | append (frame : AppendFrame) : Sends s (.append frame)
  | resync : Sends s (.resync s.session.shim.resyncFrame)
  | bulk (missing : List BlockId) (margin : UInt32) (frames : List BulkFrame)
      (h : s.session.shim.bulkFramesFor missing margin = .ok frames) (b : BulkFrame)
      (hb : b ∈ frames) : Sends s (.bulk b)

/-- The rule for the sidecar: what it keeps when it serves a request or is probed holds after
every step. -/
theorem Step.keeps {client : DlrChatClient} {s' : Deployment F} {P : SidecarState → Prop}
    (hserve : ∀ (server : SidecarState) (call : Call), (∀ f, call.Carries f → s.Sends f) →
      P server → P (server.serve call).2)
    (hprobe : ∀ server, P server → P (SidecarState.readyz server).2) (h : Step client s s')
    (hs : P s.server) : P s'.server := by
  have hdeployed : ∀ (w : SidecarState × List Fate) (request : HttpRequest),
      (∀ endpoint, route client.baseUrl request.url = some endpoint →
        request.request.body.length ≤ maxRequestBytes →
          ∀ f, (endpoint request.request).Carries f → s.Sends f) →
      P w.1 → P (deployed client.baseUrl w request).2.1 := by
    intro w request hsends hw
    rcases deployed_cases client.baseUrl w request with ⟨hsame, -⟩ | ⟨gateway, hserver, -⟩
    · rw [hsame]
      exact hw
    · rw [hserver]
      unfold SidecarState.post
      cases hroute : route client.baseUrl request.url with
      | none => exact hw
      | some endpoint =>
          simp only
          split_ifs with hsize
          · exact hw
          · exact hserve w.1 _ (hsends endpoint hroute (not_lt.mp hsize)) hw
  cases h with
  | prepare messages request =>
      unfold Deployment.prepare
      split <;> exact hs
  | sendChat prepared hmem headers fates =>
      have hsent := hdeployed (s.server, fates) (client.chatRequest prepared headers) (by
        rintro endpoint hroute - f hf
        obtain rfl := Option.some.inj ((route_chatRequest client prepared headers).symm.trans hroute)
        obtain ⟨frame, -, rfl⟩ := hf
        exact .append frame) hs
      unfold Deployment.sendChat DlrChatClient.sendChat
      rcases hnet : deployed client.baseUrl (s.server, fates)
        (client.chatRequest prepared headers) with ⟨e | response, w⟩
      · rw [hnet] at hsent
        exact hsent
      · rw [hnet] at hsent
        exact hsent
  | synchronize margin fates =>
      have hexchange : ∀ (w : SidecarState × List Fate) (frame : Frame), s.Sends frame → P w.1 →
          P (client.exchangeFrame (deployed client.baseUrl) w (encodeFrame frame)).2.1 := by
        intro w frame hsends hw
        rw [exchangeFrame_state]
        refine hdeployed w _ ?_ hw
        intro endpoint hroute hsize f hf
        obtain rfl := Option.some.inj
          ((route_frameRequest client (encodeFrame frame)).symm.trans hroute)
        have hdecode := decodeFrame_encodeFrame
          (withinLimits_of_length (f := frame) hsize)
        obtain rfl : frame = f := Except.ok.inj (hdecode.symm.trans hf)
        exact hsends
      exact (DlrChatClient.synchronize_keeps client (deployed client.baseUrl) s.session margin
        (I := fun w => P w.1) (J := fun w => P w.1) (A := fun _ _ => True) (fun _ hw => hw)
        (fun w hw => ⟨hexchange w _ .resync hw, fun _ _ =>
          ⟨hexchange w _ .resync hw, fun _ _ => trivial⟩⟩)
        (fun b _ ⟨missing, frames, hframes, hb⟩ w hw =>
          ⟨hexchange w _ (.bulk missing margin frames hframes b hb) hw, fun _ _ => trivial,
            fun _ _ => trivial⟩)
        (w := (s.server, fates)) hs).1
  | other call hcall => exact hserve s.server call (fun f hf => .other f (hcall.carries hf)) hs
  | probe => exact hprobe s.server hs

theorem turns_prefix_of_run {client : DlrChatClient} {s' : Deployment F}
    (h : Relation.ReflTransGen (Step client) s s') : s.turns <+: s'.turns := by
  induction h with
  | refl => exact List.prefix_rfl
  | tail _ hstep ih => exact ih.trans hstep.turns_prefix

/-- One step keeps the parties consistent and never takes a turn back. -/
theorem Consistent.step {client : DlrChatClient} {s' : Deployment F} (h : s.Consistent sid sender c)
    (hrt : Compressor.RoundTrips sender c) (hS : CollisionFree S)
    (hin : ∀ x ∈ rootInputs rootZero s.turns.flatten, x ∈ S) (hstep : Step client s s') :
    s'.Consistent sid sender c ∧ s.applied ≤ s'.applied := by
  cases hstep with
  | prepare messages request =>
      refine ⟨h.prepare messages request, ?_⟩
      have hle := (Exchange.Consistent.step h hrt hS hin (.prepare _ messages request)).2
      rwa [exchange_prepare] at hle
  | sendChat prepared hmem headers fates =>
      obtain ⟨hnext, hall⟩ := h.sendChat hrt hS hin client hmem headers fates
      exact ⟨hnext, h.applied_le hnext rfl hall⟩
  | synchronize margin fates =>
      obtain ⟨hnext, hall⟩ := h.synchronize hS hin client margin fates
      exact ⟨hnext, h.applied_le hnext rfl hall⟩
  | other call hcall =>
      obtain ⟨hnext, hlog⟩ := h.other hcall
      exact ⟨hnext, h.applied_le hnext rfl hlog.trans⟩
  | probe =>
      obtain ⟨hnext, hlog⟩ := h.probe
      exact ⟨hnext, h.applied_le hnext rfl hlog.trans⟩

theorem Consistent.run {client : DlrChatClient} {s' : Deployment F} (h : s.Consistent sid sender c)
    (hrt : Compressor.RoundTrips sender c) (hS : CollisionFree S)
    (hrun : Relation.ReflTransGen (Step client) s s')
    (hin : ∀ x ∈ rootInputs rootZero s'.turns.flatten, x ∈ S) :
    s'.Consistent sid sender c ∧ s.applied ≤ s'.applied := by
  induction hrun with
  | refl => exact ⟨h, le_rfl⟩
  | tail _ hstep ih =>
      have hbefore := fun x hx => hin x (rootInputs_subset hstep.turns_prefix.flatten x hx)
      obtain ⟨hmid, hle⟩ := ih hbefore
      obtain ⟨hnext, hle'⟩ := hmid.step hrt hS hbefore hstep
      exact ⟨hnext, hle.trans hle'⟩

omit [DedupFilter F] [FloatChoices] in
theorem consistent_initial (h : s.Initial c) :
    s.Consistent s.sid (Compressor.default.withLevel SessionShim.appendLevel) c :=
  Exchange.consistent_initial ⟨h.session, h.compressor, h.unknown, by simp [exchange, h.prepared], rfl,
    h.turns⟩

end Step

/-- In every run of a session against a sidecar, whatever requests and responses are lost, however
often a prepared request is sent again, whenever the session is synchronized and whatever else the
sidecar serves: its log is the concatenation of the first applied turns, at most the last one is
not applied yet, their number never decreases, and when no request is pending the sidecar has the
whole log of the client. -/
theorem deployed_exactly_once (client : DlrChatClient) {s₀ s s' : Deployment F} {c : Compressor}
    (hinit : s₀.Initial c)
    (hrt : Compressor.RoundTrips (Compressor.default.withLevel SessionShim.appendLevel) c)
    (hrun : Relation.ReflTransGen (Step client) s₀ s)
    (hrun' : Relation.ReflTransGen (Step client) s s') {S : Set (List UInt8)} (hS : CollisionFree S)
    (hin : ∀ x ∈ rootInputs rootZero s'.turns.flatten, x ∈ S) :
    s'.log = (s'.turns.take s'.applied).flatten ∧ s'.turns.length ≤ s'.applied + 1 ∧
      s.applied ≤ s'.applied ∧ s'.session.shim.ids = s'.turns.flatten ∧
      (s'.session.pendingRoot = none → s'.log = s'.session.shim.ids) := by
  have hmid : s.Consistent s₀.sid _ c :=
    ((consistent_initial hinit).run hrt hS hrun fun x hx => hin x
      (rootInputs_subset (turns_prefix_of_run hrun').flatten x hx)).1
  obtain ⟨h, hle⟩ := hmid.run hrt hS hrun' hin
  refine ⟨Exchange.Consistent.log_eq h, ?_, hle, h.ids, fun hnone => ?_⟩
  · exact Nat.sub_le_iff_le_add.mp (Exchange.le_applied (s'.exchange []))
  · exact (Exchange.Consistent.caught h hnone).trans h.ids.symm

omit [DedupFilter F] [Blake3] [Zstd] [SerdeJson] [FloatChoices] in
/-- The response to the first attempt is lost; the second one is acknowledged although the gateway
cannot be reached. -/
theorem deployed_exactly_once_second_attempt :
    letI := prefixHash
    letI := storedZstd
    letI := DedupFilter.exact
    letI := percentChoices
    let message : Value := .object [("role", .string "user")]
    letI := sampleJson [.object [], message]
    let client : DlrChatClient := ⟨"h", none⟩
    let server := SidecarState.new (Receiver.new ContentStore.new Compressor.default) "g" none true
    let s₀ : Deployment (List BlockId) := ⟨ChatSession.new "chat" [], server, [], []⟩
    let s₁ := s₀.prepare [message] (.object [])
    let prepared := s₁.prepared.headD ⟨[], rootZero, 0, 0⟩
    let s₂ := s₁.sendChat client prepared [] [.unanswered (.error "down")]
    let s₃ := s₂.sendChat client prepared [] [.answered (.error "down")]
    s₂.session.pendingRoot.isSome = true ∧ s₂.log ≠ [] ∧ s₃.session.pendingRoot = none ∧
      s₃.log = s₃.session.shim.ids := by
  let _ := prefixHash
  let _ := storedZstd
  let _ := DedupFilter.exact
  let _ := percentChoices
  intro message
  let _ := sampleJson [.object [], message]
  intro client server s₀ s₁ prepared s₂ s₃
  have hinit : s₀.Initial Compressor.default :=
    ⟨⟨"chat", [], by rfl⟩, by rfl, by decide +kernel, by rfl, by rfl⟩
  have hmem : prepared ∈ s₁.prepared ∧ prepared ∈ s₂.prepared := by decide +kernel
  have hturns : s₃.turns.flatten = [Block.blockId ⟨.message, 1, message.print⟩] := by
    decide +kernel
  have hpending : s₂.session.pendingRoot.isSome = true ∧ s₂.log ≠ [] ∧
      s₃.session.pendingRoot = none := by decide +kernel
  have hrun : Relation.ReflTransGen (Step client) s₀ s₃ :=
    ((Relation.ReflTransGen.single (.prepare s₀ [message] (.object []))).tail
      (.sendChat s₁ prepared hmem.1 [] _)).tail (.sendChat s₂ prepared hmem.2 [] _)
  clear_value s₃
  have honly : ∀ x ∈ rootInputs rootZero s₃.turns.flatten,
      x = rootZero.bytes ++ (Block.blockId ⟨.message, 1, message.print⟩).bytes := by
    rw [hturns]
    simp [rootInputs, Lib.HashChain.links]
  obtain ⟨-, -, -, -, hdone⟩ := deployed_exactly_once client hinit
    (Compressor.roundTrips_storedZstd _ _) hrun .refl
    (S := {x | x ∈ rootInputs rootZero s₃.turns.flatten})
    ⟨fun x hx y hy _ => (honly x hx).trans (honly y hy).symm,
      fun x _ => prefixHash_ne_rootZero x⟩ fun x hx => hx
  exact ⟨hpending.1, hpending.2.1, hpending.2.2, hdone hpending.2.2⟩

end Deployment

end Dlr.Sidecar
