import Dlr.Sidecar.Restart

/-!
# Acknowledgements are durable

A root is acknowledged only when everything up to it is flushed, whatever requests the sidecar
serves, from whomever. So every later crash with a sound log leaves a log of the session that
continues the acknowledged one, with all of its blocks, unless a RESYNC replaced the session since.
Once the log has failed, nothing is acknowledged any more.
-/

namespace Dlr.Sidecar

open Dlr.Core Coding Compress Lib.Machine

variable [Blake3] [Zstd] [SerdeJson]

/-- The sidecar after requests that are served one after the other. -/
def SidecarState.serveAll (s : SidecarState) (calls : List Call) : SidecarState :=
  calls.foldl (fun s call => (s.serve call).2) s

/-- The response to a request acknowledges the root of a session: the chat endpoint with the root
header of a forwarded request, the frame endpoint with an ACK frame. -/
def Call.Acknowledges : Call → Response → SessionId → MerkleRoot → Prop
  | .chat request, response, sid, root =>
      (∃ frame, bodyFrame request.body = some frame ∧ frame.sessionId = sid) ∧
        ∃ up, response = .forwarded root up
  | .frame _, response, sid, root => response = .frame (encodeFrame (.ack ⟨sid, root⟩))

/-- The frame is no RESYNC of the session. -/
def KeepsLog (sid : SessionId) (f : Frame) : Prop := ∀ m, f = .resync m → m.sessionId ≠ sid

omit [Blake3] [Zstd] [SerdeJson] in
theorem ack_of_encodeFrame_eq {answer : Frame} {ack : AckFrame}
    (h : encodeFrame answer = encodeFrame (.ack ack)) : answer = .ack ack := by
  cases answer with
  | ack a =>
      have hdecode := decodeFrame_encodeFrame (f := .ack a) trivial
      rw [h, decodeFrame_encodeFrame (f := .ack ack) trivial] at hdecode
      exact (Except.ok.inj hdecode).symm
  | append a => exact absurd (List.head_eq_of_cons_eq h) (by decide)
  | resync m => exact absurd (List.head_eq_of_cons_eq h) (by decide)
  | bulk b => exact absurd (List.head_eq_of_cons_eq h) (by decide)
  | missing m => exact absurd (List.head_eq_of_cons_eq h) (by decide)

omit [Blake3] [Zstd] [SerdeJson] in
theorem Call.Acknowledges.not_fails [SerdeJson] {call : Call} {response : Response}
    {sid : SessionId} {root : MerkleRoot} (h : call.Acknowledges response sid root) :
    ¬response.Fails := by
  cases call with
  | chat request =>
      obtain ⟨-, up, rfl⟩ := h
      exact id
  | frame request =>
      obtain rfl : response = _ := h
      exact id

/-- What is acknowledged was answered by the receiver and flushed. -/
theorem serve_acknowledges {s : SidecarState} (hwf : s.receiver.WellFormed) {call : Call}
    {sid : SessionId} {root : MerkleRoot} (h : call.Acknowledges (s.serve call).1 sid root) :
    ∃ f, call.Carries f ∧ f.sessionId = sid ∧
      (s.receiver.handleFrame f).1 = .ok (some (.ack ⟨sid, root⟩)) ∧
      ((s.receiver.handleFrame f).2.store.flushWal s.syncWal).1 = .ok () ∧
      (s.serve call).2.receiver = s.receiver.events [.frame f, .flush s.syncWal] := by
  have houtcome := serve_outcome s call
  generalize (s.serve call).1 = response at houtcome h
  generalize (s.serve call).2.receiver = r at houtcome ⊢
  cases houtcome with
  | unread _ hfails => exact absurd hfails h.not_fails
  | refused _ _ _ _ _ hfails => exact absurd hfails h.not_fails
  | unflushed _ _ _ _ _ hfails => exact absurd hfails h.not_fails
  | flushed f answer _ hf hanswer hflush hresponse =>
      have hanswers := hresponse.resolve_left h.not_fails
      cases call with
      | chat request =>
          obtain ⟨⟨frame, hframe, rfl⟩, up, rfl⟩ := h
          obtain ⟨ack, up', rfl, hup⟩ := hanswers
          obtain ⟨frame', hframe', rfl⟩ := hf
          cases hup
          obtain rfl : frame' = frame := Option.some.inj (hframe'.symm.trans hframe)
          have hsid := (Receiver.ack_complete hwf hanswer).1
          refine ⟨.append frame', ⟨frame', hframe, rfl⟩, rfl, ?_, hflush, rfl⟩
          rw [hanswer, ← show ack.sessionId = frame'.sessionId from hsid]
      | frame request =>
          obtain rfl : response = _ := h
          cases answer with
          | none => cases hanswers
          | some answer =>
              obtain rfl := ack_of_encodeFrame_eq (Response.frame.inj hanswers).symm
              exact ⟨f, hf, (Receiver.ack_complete hwf hanswer).1.symm, hanswer, hflush, rfl⟩

namespace SidecarState

theorem serve_wellFormed {s : SidecarState} (h : s.receiver.WellFormed) (call : Call) :
    (s.serve call).2.receiver.WellFormed := by
  obtain ⟨es, hes, -⟩ := serve_events s call
  rw [hes]
  exact wellFormed_events h es

/-- An error of the log stays. -/
theorem serve_latched {s : SidecarState} (h : s.receiver.store.walError ≠ none) (call : Call) :
    (s.serve call).2.receiver.store.walError ≠ none := by
  obtain ⟨es, hes, -⟩ := serve_events s call
  rw [hes]
  exact Receiver.events_latched h es

/-- Nothing is acknowledged behind an error of the log. -/
theorem not_acknowledges_of_latched {s : SidecarState} (hwf : s.receiver.WellFormed)
    (h : s.receiver.store.walError ≠ none) (call : Call) (sid : SessionId) (root : MerkleRoot) :
    ¬call.Acknowledges (s.serve call).1 sid root := by
  intro hack
  obtain ⟨f, -, -, -, hflush, -⟩ := serve_acknowledges hwf hack
  obtain ⟨e, he⟩ := ContentStore.flushWal_of_latched (Receiver.events_latched h [.frame f]) s.syncWal
  cases hflush.symm.trans he

/-- A request without a RESYNC of the session continues its log and keeps it complete. -/
theorem serve_extends {s : SidecarState} {call : Call} {sid : SessionId}
    (hcall : ∀ f, call.Carries f → KeepsLog sid f) (hcomplete : s.receiver.store.Complete sid) :
    (logOf s.receiver.store.sessions sid).Extends
        (logOf (s.serve call).2.receiver.store.sessions sid) ∧
      (s.serve call).2.receiver.store.Complete sid := by
  have houtcome := serve_outcome s call
  generalize (s.serve call).1 = response at houtcome
  generalize (s.serve call).2.receiver = r at houtcome ⊢
  have hflushed : ∀ f, call.Carries f →
      (logOf s.receiver.store.sessions sid).Extends
          (logOf (s.receiver.events [.frame f, .flush s.syncWal]).store.sessions sid) ∧
        (s.receiver.events [.frame f, .flush s.syncWal]).store.Complete sid := by
    intro f hf
    obtain ⟨hextends, hkept⟩ := Receiver.frame_extends (hcall f hf) hcomplete
    have hstore : (s.receiver.events [.frame f, .flush s.syncWal]).store =
        ((s.receiver.handleFrame f).2.store.flushWal s.syncWal).2 := rfl
    rw [hstore]
    exact ⟨by rwa [ContentStore.flushWal_sessions], hkept.flushWal s.syncWal⟩
  cases houtcome with
  | unread => exact ⟨.refl _, hcomplete⟩
  | refused f _ _ hf => exact Receiver.frame_extends (hcall f hf) hcomplete
  | unflushed f _ _ hf => exact hflushed f hf
  | flushed f _ _ hf => exact hflushed f hf

theorem serveAll_keeps {P : SidecarState → Prop} (hserve : ∀ s call, P s → P (s.serve call).2)
    {s : SidecarState} (h : P s) (calls : List Call) : P (s.serveAll calls) := by
  induction calls generalizing s with
  | nil => exact h
  | cons call rest ih => exact ih (hserve s call h)

theorem serveAll_extends {s : SidecarState} {calls : List Call} {sid : SessionId}
    (hcalls : ∀ call ∈ calls, ∀ f, call.Carries f → KeepsLog sid f)
    (hcomplete : s.receiver.store.Complete sid) :
    (logOf s.receiver.store.sessions sid).Extends
        (logOf (s.serveAll calls).receiver.store.sessions sid) ∧
      (s.serveAll calls).receiver.store.Complete sid := by
  induction calls generalizing s with
  | nil => exact ⟨.refl _, hcomplete⟩
  | cons call rest ih =>
      obtain ⟨hfirst, hkept⟩ := serve_extends (hcalls call List.mem_cons_self) hcomplete
      obtain ⟨hrest, hall⟩ := ih (fun x hx => hcalls x (List.mem_cons_of_mem _ hx)) hkept
      exact ⟨hfirst.trans hrest, hall⟩

/-- Over every run of requests, whoever sends them. Once an error of the log is latched, no later
response acknowledges anything. A response that acknowledges a root does so when the session has
this root and all of its blocks. Whatever is served later without a RESYNC of the session, when the
sidecar then stops before its log fails, what it is opened with again continues the acknowledged log
and has all of its blocks. -/
theorem acknowledgements_are_durable {file : List UInt8} {writes : List (Option (Nat × IoError))}
    {flushes : List (Option IoError)} {store : ContentStore}
    (hopen : ContentStore.withWal file writes flushes = .ok store) (c : Compressor) (url : String)
    (token : Option (List UInt8)) (sync : Bool) (before : List Call) :
    let s := (SidecarState.new (Receiver.new store c) url token sync).serveAll before
    (s.receiver.store.walError ≠ none → ∀ later call sid root,
        ¬Call.Acknowledges call ((s.serveAll later).serve call).1 sid root) ∧
      ∀ call sid root, Call.Acknowledges call (s.serve call).1 sid root →
        let acked := (s.serve call).2
        acked.receiver.store.sessionRoot sid = root ∧ acked.receiver.store.Complete sid ∧
          ∀ later f recovered, (∀ x ∈ later, ∀ g, Call.Carries x g → KeepsLog sid g) →
            KeepsLog sid f →
            ContentStore.Crashed (acked.serveAll later).receiver.store
              ((acked.serveAll later).receiver.handleFrame f).2.store recovered →
            (logOf acked.receiver.store.sessions sid).Extends (logOf recovered.sessions sid) ∧
              recovered.Complete sid := by
  intro s
  have hwf : s.receiver.WellFormed :=
    serveAll_keeps (P := fun s => s.receiver.WellFormed) (fun _ call h => serve_wellFormed h call)
      (Receiver.wellFormed_new (.replayed hopen) c) before
  have hsettled : s.receiver.store.Settled :=
    serveAll_keeps (P := fun s => s.receiver.store.Settled) Deployment.serve_settled
      (ContentStore.withWal_settled hopen) before
  refine ⟨fun hlatched later call sid root => ?_, ?_⟩
  · refine not_acknowledges_of_latched ?_ ?_ call sid root
    · exact serveAll_keeps (P := fun s => s.receiver.WellFormed)
        (fun _ call h => serve_wellFormed h call) hwf later
    · exact serveAll_keeps (P := fun s => s.receiver.store.walError ≠ none)
        (fun _ call h => serve_latched h call) hlatched later
  · intro call sid root hack acked
    obtain ⟨f, -, rfl, hanswer, -, hreceiver⟩ := serve_acknowledges hwf hack
    obtain ⟨-, hroot, hcomplete⟩ := Receiver.ack_complete hwf hanswer
    have hstore : acked.receiver.store =
        ((s.receiver.handleFrame f).2.store.flushWal s.syncWal).2 := congrArg Receiver.store hreceiver
    have hcomplete' : acked.receiver.store.Complete f.sessionId := hstore ▸ hcomplete.flushWal _
    refine ⟨?_, hcomplete', fun later g recovered hlater hg hcrash => ?_⟩
    · rw [hstore, ContentStore.sessionRoot, ContentStore.flushWal_sessions]
      exact hroot
    · have hacked : acked.receiver.store.Settled := Deployment.serve_settled s call hsettled
      obtain ⟨hserved, hkept⟩ := serveAll_extends hlater hcomplete'
      obtain ⟨hlost, hrecovered⟩ := Receiver.crash_extends
        (serveAll_keeps (P := fun s => s.receiver.store.Settled) Deployment.serve_settled hacked later)
        hg hkept hcrash
      exact ⟨hserved.trans hlost, hrecovered⟩

omit [Blake3] [Zstd] [SerdeJson] in
/-- A turn is acknowledged and one of another session is served; the sidecar stops when it has
written ten bytes of the next turn. -/
theorem acknowledgements_are_durable_next_turn :
    letI := prefixHash
    letI := storedZstd
    letI := sampleJson []
    let turn (sid : SessionId) (base : MerkleRoot) (b : Block) : AppendFrame :=
      ⟨sid, base, [.inline ⟨b.kind, b.seq, 0 :: canonicalBytes b⟩]⟩
    let b : Block := ⟨.message, 1, [7]⟩
    let root := rootOver rootZero [b.blockId]
    let opened : ContentStore := { ContentStore.new with wal := some ⟨[], 0, [], []⟩ }
    let s := SidecarState.new (Receiver.new opened Compressor.default) "g" none true
    let call : Call := .frame ⟨[], encodeFrame (.append (turn 5 rootZero b))⟩
    let other : Call := .frame ⟨[], encodeFrame (.append (turn 9 rootZero ⟨.message, 1, [8]⟩))⟩
    let acked := (s.serve call).2
    let served := (acked.serve other).2
    let next : Frame := .append (turn 5 root ⟨.message, 2, [9]⟩)
    call.Acknowledges (s.serve call).1 5 root ∧ acked.receiver.store.sessionRoot 5 = root ∧
      (logOf served.receiver.store.sessions 9).ids ≠ [] ∧
      ∃ recovered, ContentStore.Crashed served.receiver.store
          (served.receiver.handleFrame next).2.store recovered ∧
        (logOf acked.receiver.store.sessions 5).Extends (logOf recovered.sessions 5) ∧
        recovered.Complete 5 := by
  let _ := prefixHash
  let _ := storedZstd
  let _ := sampleJson []
  intro turn b root opened s call other acked served next
  have hopen : ContentStore.withWal [] [] [] = .ok opened := by
    rw [ContentStore.withWal, Wal.replay, Wal.replayFrom_nil]
    rfl
  have hresponse : (s.serve call).1 = .frame (encodeFrame (.ack ⟨5, root⟩)) := by decide +kernel
  have hack : call.Acknowledges (s.serve call).1 5 root := hresponse
  have hother : decodeFrame (encodeFrame (.append (turn 9 rootZero ⟨.message, 1, [8]⟩))) =
      .ok (.append (turn 9 rootZero ⟨.message, 1, [8]⟩)) := by decide +kernel
  have hlog : (logOf served.receiver.store.sessions 9).ids ≠ [] := by decide +kernel
  have hwal : served.receiver.store.wal.isSome = true ∧
      (served.receiver.handleFrame next).2.store.wal.isSome = true ∧
      (served.receiver.handleFrame next).2.store.walError = none := by decide +kernel
  have hkeeps : ∀ x ∈ [other], ∀ g, Call.Carries x g → KeepsLog 5 g := by
    intro x hx g hg m hm
    obtain rfl := List.mem_singleton.mp hx
    obtain rfl := Except.ok.inj (hother.symm.trans hg)
    cases hm
  have hnext : KeepsLog 5 next :=
    show KeepsLog 5 (.append (turn 5 root ⟨.message, 2, [9]⟩)) from fun m hm => by cases hm
  -- from here on the requests are opaque, so that nothing evaluates what they lead to
  clear_value next other call
  obtain ⟨hroot, -, hdurable⟩ := (acknowledgements_are_durable hopen Compressor.default "g" none true
    []).2 call 5 root hack
  have hsettled : served.receiver.store.Settled := Deployment.serve_settled _ other
    (Deployment.serve_settled s call (ContentStore.withWal_settled hopen))
  obtain ⟨w, hw⟩ := Option.isSome_iff_exists.mp hwal.1
  obtain ⟨w', hw'⟩ := Option.isSome_iff_exists.mp hwal.2.1
  have hcut : w.flushed ≤ w.flushed + 10 := Nat.le_add_right _ _
  obtain ⟨recovered, hreopened⟩ := Receiver.crash_reopens hsettled next hw hw' hwal.2.2 hcut [] []
  have hcrash : ContentStore.Crashed served.receiver.store
      (served.receiver.handleFrame next).2.store recovered :=
    ⟨w, w', _, [], [], hw, hw', hwal.2.2, hcut, hreopened⟩
  exact ⟨hack, hroot, hlog, recovered, hcrash, hdurable [other] next recovered hkeeps hnext hcrash⟩

end SidecarState

end Dlr.Sidecar
