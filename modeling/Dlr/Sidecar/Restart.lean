import Dlr.Receiver.Restart
import Dlr.Sidecar.Repair

/-!
# Crashes of the sidecar

The sidecar may stop at any time, also while it handles a frame, and is started again on what its
log kept: everything that was flushed and any part of what was written since then. A turn may then
be in the log in part. Whatever happens to the requests, every turn that was acknowledged is in the
log after every restart, the log never holds anything but the client's turns in their order, and a
turn that is there in part is not applied again but put in place by the next RESYNC.

## Implementation notes

A crash between two requests is one while a frame of somebody else is handled that changes nothing.
The log is not opened again behind a latched error: a record that was torn by a failed write may
stand in the middle of it.
-/

namespace Dlr.Sidecar

open Dlr.Core Coding Compress Lib.Machine

namespace Deployment

variable {F : Type} [DedupFilter F] [Blake3] [Zstd] [SerdeJson] [FloatChoices]

/-- The sidecar is started again on what its log kept. -/
def restart (s : Deployment F) (store : ContentStore) : Deployment F :=
  { s with
    server := SidecarState.new (Receiver.new store s.server.receiver.compressor)
      s.server.upstreamUrl s.server.ingressToken s.server.syncWal }

/-- A frame that the sidecar may be handling: of another session, of a prepared request, or of a
synchronization of the session as it is now. -/
inductive Handles (s : Deployment F) : Frame → Prop
  | other (f : Frame) (h : f.sessionId ≠ s.sid) : Handles s f
  | append (prepared : PreparedChatRequest) (h : prepared ∈ s.prepared) (frame : AppendFrame)
      (hframe : bodyFrame prepared.body = some frame) : Handles s (.append frame)
  | resync : Handles s (.resync s.session.shim.resyncFrame)
  | bulk (b : BulkFrame) (h : b.sessionId = s.sid) : Handles s (.bulk b)

/-- One step of a deployment whose sidecar may crash. -/
inductive CrashStep (client : DlrChatClient) : Deployment F → Deployment F → Prop
  | served {s s' : Deployment F} (h : Step client s s') : CrashStep client s s'
  | crash (s : Deployment F) (f : Frame) (hf : s.Handles f) (store : ContentStore)
      (h : ContentStore.Crashed s.server.receiver.store (s.server.receiver.handleFrame f).2.store
        store) :
      CrashStep client s (s.restart store)

/-- The deployment with another receiver in its sidecar. -/
def withReceiver (s : Deployment F) (r : Receiver) : Deployment F :=
  { s with server := s.server.withReceiver r }

/-! ## The invariant -/

/-- What holds of the parties at all times: the log of the sidecar is the client's, up to a part of
the last turn as long as that turn is pending. -/
structure Recovering (s : Deployment F) (sid : SessionId) (sender c : Compressor) : Prop where
  session : s.sid = sid
  appendCompressor : s.session.shim.appendCompressor = sender
  compressor : s.server.receiver.compressor = c
  rooted : s.session.shim.Rooted
  ids : s.session.shim.ids = s.turns.flatten
  root : s.server.receiver.store.sessionRoot sid = rootOver rootZero s.log
  acknowledged : s.turns.dropLast.flatten <+: s.log
  log_prefix : s.log <+: s.turns.flatten
  caught : s.session.pendingRoot = none → s.log = s.turns.flatten
  pending : ∀ root, s.session.pendingRoot = some root → root = s.session.shim.root
  sent : ∀ prepared ∈ s.prepared, ∃ n m frame blocks,
    Exchange.Sent sid sender s.turns prepared.body n m frame blocks

section Step

variable {s s' : Deployment F} {sid : SessionId} {sender c : Compressor} {S : Set (List UInt8)}
  {client : DlrChatClient}

omit [DedupFilter F] [FloatChoices] in
theorem Consistent.recovering (h : s.Consistent sid sender c) : s.Recovering sid sender c := by
  have hlog : s.log = s.turns.flatten ∨ s.log = s.turns.dropLast.flatten :=
    h.applied.imp_right And.right
  refine ⟨h.session, h.appendCompressor, h.compressor, h.rooted, h.ids, h.root, ?_,
    Exchange.Consistent.log_prefix h, Exchange.Consistent.caught h, h.pending,
    fun prepared hmem => Exchange.Consistent.sent h _ (List.mem_map_of_mem hmem)⟩
  rcases hlog with hlog | hlog
  · rw [hlog]
    exact dropLast_prefix
  · rw [hlog]

omit [DedupFilter F] [FloatChoices] in
/-- Where the log ends with a turn, the parties are consistent. -/
theorem Recovering.consistent (h : s.Recovering sid sender c)
    (hlog : s.log = s.turns.flatten ∨ s.log = s.turns.dropLast.flatten) :
    s.Consistent sid sender c := by
  refine ⟨h.session, h.appendCompressor, h.compressor, h.rooted, h.ids, h.root, ?_, h.pending, ?_,
    nofun⟩
  · by_cases hwhole : s.log = s.turns.flatten
    · exact Or.inl hwhole
    · refine Or.inr ⟨?_, hlog.resolve_left hwhole⟩
      rw [← Option.ne_none_iff_isSome]
      exact fun hnone => hwhole (h.caught hnone)
  · intro body hbody
    obtain ⟨prepared, hmem, rfl⟩ := List.mem_map.mp hbody
    exact h.sent prepared hmem

omit [DedupFilter F] [FloatChoices] in
/-- Apart from the requests that are out, the parties are consistent as if the last turn had been
prepared in two parts. -/
theorem Recovering.split (h : s.Recovering sid sender c) :
    ∃ turns : List (List BlockId), turns.flatten = s.turns.flatten ∧
      s.turns.dropLast.flatten <+: turns.dropLast.flatten ∧
      ({ s with prepared := [], turns } : Deployment F).Consistent sid sender c := by
  by_cases hwhole : s.log = s.turns.flatten
  · refine ⟨s.turns, rfl, List.prefix_rfl, h.session, h.appendCompressor, h.compressor, h.rooted,
      h.ids, h.root, Or.inl hwhole, h.pending, nofun, nofun⟩
  · obtain ⟨rest, hrest⟩ := h.log_prefix
    have hflat : [s.log, rest].flatten = s.turns.flatten := by
      rw [← hrest, List.flatten_cons, List.flatten_singleton]
    have hdrop : [s.log, rest].dropLast.flatten = s.log := List.append_nil _
    refine ⟨[s.log, rest], hflat, ?_, h.session, h.appendCompressor, h.compressor, h.rooted, ?_,
      h.root, Or.inr ⟨?_, hdrop.symm⟩, h.pending, nofun, nofun⟩
    · rw [hdrop]
      exact h.acknowledged
    · exact h.ids.trans hflat.symm
    · rw [← Option.ne_none_iff_isSome]
      exact fun hnone => hwhole (h.caught hnone)

omit [DedupFilter F] [FloatChoices] in
/-- The way back, after a step that prepares nothing. -/
theorem Recovering.join (h : s.Recovering sid sender c) {turns : List (List BlockId)}
    (hflat : turns.flatten = s.turns.flatten)
    (hdrop : s.turns.dropLast.flatten <+: turns.dropLast.flatten) (hturns : s'.turns = s.turns)
    (hprepared : s'.prepared = s.prepared)
    (h' : ({ s' with prepared := [], turns } : Deployment F).Consistent sid sender c) :
    s'.Recovering sid sender c := by
  have hnext := h'.recovering
  refine ⟨hnext.session, hnext.appendCompressor, hnext.compressor, hnext.rooted, ?_, hnext.root, ?_,
    ?_, ?_, hnext.pending, ?_⟩
  · rw [hturns, ← hflat]
    exact hnext.ids
  · rw [hturns]
    exact hdrop.trans hnext.acknowledged
  · rw [hturns, ← hflat]
    exact hnext.log_prefix
  · rw [hturns, ← hflat]
    exact hnext.caught
  · rw [hturns, hprepared]
    exact h.sent

/-! ## Steps without a crash -/

omit [FloatChoices] in
theorem Recovering.prepare (h : s.Recovering sid sender c) (messages : List Value)
    (request : Value) : (s.prepare messages request).Recovering sid sender c := by
  cases hpending : s.session.pendingRoot with
  | none =>
      have hconsistent := h.consistent (Or.inl (h.caught hpending))
      exact (hconsistent.prepare messages request).recovering
  | some root =>
      -- a pending request is not overtaken
      have hsame : s.prepare messages request = s := by
        unfold Deployment.prepare
        rcases s.session.prepareRef_cases messages request with
          ⟨e, hprep⟩ | ⟨nextSeq, prepared, hturn⟩
        · rw [hprep]
        · have hnone := hturn.1
          rw [hpending] at hnone
          cases hnone
      rw [hsame]
      exact h

omit [DedupFilter F] [FloatChoices] in
/-- Only the logs and the compressor of the receiver matter. -/
theorem Recovering.sameLogs (h : s.Recovering sid sender c) {r : Receiver}
    (hr : SameLogs s.server.receiver r) : (s.withReceiver r).Recovering sid sender c := by
  obtain ⟨turns, hflat, hdrop, hsplit⟩ := h.split
  exact h.join hflat hdrop rfl rfl (Exchange.Consistent.sameLogs hsplit hr).1

omit [DedupFilter F] [FloatChoices] in
/-- The APPEND of a request that was prepared some time: it continues a log that ends with a turn,
and it is refused on top of a turn that is there in part. -/
theorem Recovering.append (h : s.Recovering sid sender c) (hrt : Compressor.RoundTrips sender c)
    (hS : CollisionFree S) (hin : ∀ x ∈ rootInputs rootZero s.turns.flatten, x ∈ S)
    {prepared : PreparedChatRequest} (hmem : prepared ∈ s.prepared) {frame : AppendFrame}
    (hframe : bodyFrame prepared.body = some frame) :
    (s.withReceiver (s.server.receiver.handleAppend frame).2).Recovering sid sender c ∧
      ∀ ack, (s.server.receiver.handleAppend frame).1 = .ok ack →
        ack.root = rootOver rootZero
          (s.withReceiver (s.server.receiver.handleAppend frame).2).log := by
  by_cases hlog : s.log = s.turns.flatten ∨ s.log = s.turns.dropLast.flatten
  · obtain ⟨hnext, -, hack⟩ := Exchange.Consistent.appended (h.consistent hlog) hrt hS hin
      (List.mem_map_of_mem hmem) hframe
    exact ⟨Consistent.recovering hnext, hack⟩
  · obtain ⟨n, m, sent, blocks, hsent⟩ := h.sent prepared hmem
    obtain rfl : frame = sent := hsent.carries frame hframe
    obtain rfl : frame.sessionId = sid := hsent.sessionId
    have hsame : ∀ r : Receiver, SameLogs s.server.receiver r →
        (s.withReceiver r).Recovering frame.sessionId sender c ∧
          s.server.receiver.store.sessionRoot frame.sessionId =
            rootOver rootZero (s.withReceiver r).log := by
      intro r hr
      refine ⟨h.sameLogs hr, h.root.trans ?_⟩
      simp only [log, Deployment.withReceiver, SidecarState.withReceiver, Deployment.sid,
        ContentStore.sessionIds, hr.2]
    rcases s.server.receiver.handleAppend_cases frame with
      ⟨e, r', hr, rfl | rfl⟩ | ⟨resolved, -, -, -, hr | hr⟩
    · rw [hr]
      refine ⟨(hsame s.server.receiver ⟨rfl, rfl⟩).1, ?_⟩
      rintro ack ⟨⟩
    · rw [hr]
      refine ⟨(hsame (s.server.receiver.touch frame.sessionId) ⟨rfl, rfl⟩).1, ?_⟩
      rintro ack ⟨⟩
    · rw [hr.2.2]
      obtain ⟨hnext, hroot⟩ := hsame (s.server.receiver.touch frame.sessionId) ⟨rfl, rfl⟩
      refine ⟨hnext, ?_⟩
      rintro ack ⟨⟩
      exact hroot
    · -- the base of the frame is a prefix that ends before its turn
      have hbase : s.turns.flatten.take m = s.log := by
        apply rootOver_injective hS
        · exact fun x hx => hin x (rootInputs_subset (List.take_prefix m _) x hx)
        · exact fun x hx => hin x (rootInputs_subset h.log_prefix x hx)
        · rw [← hsent.base, hr.1, h.root]
      obtain ⟨hn, -⟩ := List.getElem?_eq_some_iff.mp hsent.turn
      have hbefore : (s.turns.take n).flatten.length ≤ s.turns.dropLast.flatten.length := by
        rw [List.dropLast_eq_take, show s.turns.take n = (s.turns.take (s.turns.length - 1)).take n by
          rw [List.take_take, Nat.min_eq_left (by omega)]]
        exact (prefix_flatten_take n).length_le
      have hlen : s.log.length ≤ s.turns.dropLast.flatten.length := by
        rw [← hbase]
        exact (List.length_take_le m _).trans (hsent.before.trans hbefore)
      exact absurd (Or.inr (h.acknowledged.eq_of_length_le hlen).symm) hlog

omit [DedupFilter F] [FloatChoices] in
/-- The client takes an ACK of the root of the log. -/
theorem Recovering.applyAck (h : s.Recovering sid sender c) (hS : CollisionFree S)
    (hin : ∀ x ∈ rootInputs rootZero s.turns.flatten, x ∈ S) {root : MerkleRoot}
    (hroot : root = rootOver rootZero s.log) :
    ({ s with session := (s.session.applyAck root).2 } : Deployment F).Recovering sid sender c := by
  obtain ⟨turns, hflat, hdrop, hsplit⟩ := h.split
  exact h.join hflat hdrop rfl rfl (hsplit.applyAck hS (by rw [hflat]; exact hin) hroot)

omit [DedupFilter F] [FloatChoices] in
theorem Recovering.sendChat (h : s.Recovering sid sender c) (hrt : Compressor.RoundTrips sender c)
    (hS : CollisionFree S) (hin : ∀ x ∈ rootInputs rootZero s.turns.flatten, x ∈ S)
    {prepared : PreparedChatRequest} (hmem : prepared ∈ s.prepared)
    (headers : List (String × List UInt8)) (fates : List Fate) :
    (s.sendChat client prepared headers fates).Recovering sid sender c := by
  obtain ⟨hnext, hack⟩ := deployed_chat client (s.server, fates) prepared headers
    (I := fun r => (s.withReceiver r).Recovering sid sender c)
    (A := fun r root => root = rootOver rootZero (s.withReceiver r).log)
    (fun hlogs hr => hr.sameLogs hlogs)
    (fun hlogs hroot => by
      simp only [log, Deployment.withReceiver, SidecarState.withReceiver, Deployment.sid,
        ContentStore.sessionIds, hlogs.2] at hroot ⊢
      exact hroot)
    h (fun frame hframe => h.append hrt hS hin hmem hframe)
  -- the rest of the sidecar does not matter
  have hserver : ∀ server : SidecarState, (s.withReceiver server.receiver).Recovering sid sender c →
      ({ s with server } : Deployment F).Recovering sid sender c :=
    fun _ hr => ⟨hr.session, hr.appendCompressor, hr.compressor, hr.rooted, hr.ids, hr.root,
      hr.acknowledged, hr.log_prefix, hr.caught, hr.pending, hr.sent⟩
  unfold Deployment.sendChat DlrChatClient.sendChat
  rcases hnet : deployed client.baseUrl (s.server, fates) (client.chatRequest prepared headers) with
    ⟨e | response, w⟩
  · rw [hnet] at hnext
    exact hserver w.1 hnext
  · rw [hnet] at hnext hack
    simp only
    rcases DlrChatClient.acceptChat_cases s.session prepared response with
      hsame | ⟨⟨value, hvalue, hroot⟩, hmoved⟩
    · rw [hsame]
      exact hserver w.1 hnext
    · rw [hmoved]
      exact (hserver w.1 hnext).applyAck hS hin (hack response value _ rfl hvalue hroot)

/-- A step without a crash. -/
theorem Recovering.step (h : s.Recovering sid sender c) (hrt : Compressor.RoundTrips sender c)
    (hS : CollisionFree S) (hin : ∀ x ∈ rootInputs rootZero s.turns.flatten, x ∈ S)
    (hstep : Step client s s') : s'.Recovering sid sender c := by
  obtain ⟨turns, hflat, hdrop, hsplit⟩ := h.split
  cases hstep with
  | prepare messages request => exact h.prepare messages request
  | sendChat prepared hmem headers fates => exact h.sendChat hrt hS hin hmem headers fates
  | synchronize margin fates =>
      exact h.join hflat hdrop rfl rfl
        (hsplit.synchronize hS (by rw [hflat]; exact hin) client margin fates).1
  | other call hcall => exact h.join hflat hdrop rfl rfl (hsplit.other hcall).1
  | probe => exact h.join hflat hdrop rfl rfl hsplit.probe.1

/-! ## Crashes -/

omit [DedupFilter F] [FloatChoices] in
/-- What the parties are like after the frame that the sidecar handles. -/
theorem Recovering.handled (h : s.Recovering sid sender c) (hrt : Compressor.RoundTrips sender c)
    (hS : CollisionFree S) (hin : ∀ x ∈ rootInputs rootZero s.turns.flatten, x ∈ S) {f : Frame}
    (hf : s.Handles f) :
    (s.withReceiver (s.server.receiver.handleFrame f).2).Recovering sid sender c := by
  obtain ⟨turns, hflat, hdrop, hsplit⟩ := h.split
  cases hf with
  | other f hne => exact h.join hflat hdrop rfl rfl (Exchange.Consistent.other hsplit hne).1
  | append prepared hmem frame hframe =>
      rw [Receiver.handleFrame_append_snd]
      exact (h.append hrt hS hin hmem hframe).1
  | resync => exact h.join hflat hdrop rfl rfl (Exchange.Consistent.resync hsplit).1
  | bulk b hb => exact h.sameLogs (handleFrame_bulk_logs s.server.receiver b).1

omit [DedupFilter F] [FloatChoices] in
/-- A crash while a frame is handled leaves the parties recovering: what the log kept is the log of
before, the one of afterwards, or one in between. -/
theorem Recovering.crash (h : s.Recovering sid sender c) (hrt : Compressor.RoundTrips sender c)
    (hS : CollisionFree S) (hin : ∀ x ∈ rootInputs rootZero s.turns.flatten, x ∈ S)
    (hsettled : s.server.receiver.store.Settled) {f : Frame} (hf : s.Handles f)
    {store : ContentStore} (hcrash : ContentStore.Crashed s.server.receiver.store
      (s.server.receiver.handleFrame f).2.store store) :
    (s.restart store).Recovering sid sender c := by
  have hafter := h.handled hrt hS hin hf
  have hlogOf : ∀ {t : Deployment F}, t.Recovering sid sender c →
      (logOf t.server.receiver.store.sessions sid).ids = t.log := by
    intro t ht
    rw [log, ht.session]
    rfl
  have hroot : ∀ {t : Deployment F} (ht : t.Recovering sid sender c),
      (logOf t.server.receiver.store.sessions sid).root =
        rootOver rootZero (logOf t.server.receiver.store.sessions sid).ids := by
    intro t ht
    rw [hlogOf ht, ← ht.root]
    rfl
  have hkept : (logOf store.sessions sid).root = rootOver rootZero (logOf store.sessions sid).ids ∧
      s.turns.dropLast.flatten <+: (logOf store.sessions sid).ids ∧
      (logOf store.sessions sid).ids <+: s.turns.flatten ∧
      (s.session.pendingRoot = none → (logOf store.sessions sid).ids = s.turns.flatten) := by
    rcases Receiver.crash_log hsettled hcrash sid with hsame | hdone | ⟨hmore, hless⟩
    · rw [hsame]
      refine ⟨hroot h, ?_⟩
      rw [hlogOf h]
      exact ⟨h.acknowledged, h.log_prefix, h.caught⟩
    · rw [hdone]
      refine ⟨hroot hafter, ?_⟩
      rw [show (logOf (s.server.receiver.handleFrame f).2.store.sessions sid).ids = _ from
        hlogOf hafter]
      exact ⟨hafter.acknowledged, hafter.log_prefix, hafter.caught⟩
    · obtain ⟨hgrown, hnew⟩ := hmore.committed (hroot h)
      obtain ⟨hshort, -⟩ := hless.committed hnew
      rw [hlogOf h] at hgrown
      have hprefix := hshort.trans ((hlogOf hafter).symm ▸ hafter.log_prefix)
      refine ⟨hnew, h.acknowledged.trans hgrown, hprefix, fun hnone => ?_⟩
      have hwhole := h.caught hnone
      exact hprefix.eq_of_length_le (hwhole ▸ hgrown.length_le)
  have hlog : (s.restart store).log = (logOf store.sessions sid).ids := by
    rw [log, show (s.restart store).sid = sid from h.session]
    rfl
  refine ⟨h.session, h.appendCompressor, h.compressor, h.rooted, h.ids, ?_, ?_, ?_, ?_, h.pending,
    h.sent⟩
  · rw [hlog]
    exact hkept.1
  · rw [hlog]
    exact hkept.2.1
  · rw [hlog]
    exact hkept.2.2.1
  · rw [hlog]
    exact hkept.2.2.2

end Step

/-! ## Runs -/

section Run

variable {s s' : Deployment F} {sid : SessionId} {sender c : Compressor} {S : Set (List UInt8)}
  {client : DlrChatClient}

omit [DedupFilter F] [FloatChoices] in
/-- A served request leaves the log flushed. -/
theorem serve_settled (server : SidecarState) (call : Call) (h : server.receiver.store.Settled) :
    (server.serve call).2.receiver.store.Settled := by
  have houtcome := serve_outcome server call
  generalize (server.serve call).1 = response at houtcome
  generalize (server.serve call).2.receiver = r at houtcome ⊢
  cases houtcome with
  | unread => exact h
  | refused f e _ _ hrefused => exact (Receiver.settled_frame h f).1 e hrefused
  | unflushed f => exact (Receiver.settled_frame h f).2 server.syncWal
  | flushed f => exact (Receiver.settled_frame h f).2 server.syncWal

theorem CrashStep.settled (h : CrashStep client s s') (hs : s.server.receiver.store.Settled) :
    s'.server.receiver.store.Settled := by
  cases h with
  | served hstep =>
      refine hstep.keeps (P := fun server => server.receiver.store.Settled)
        (fun server call _ => serve_settled server call) ?_ hs
      intro server hserver
      rw [readyz_events]
      exact hserver.recoverable.settled false
  | crash f hf store hcrash =>
      obtain ⟨w, w', cut, writes, flushes, -, -, -, -, hopen⟩ := hcrash
      exact ContentStore.withWal_settled hopen

theorem CrashStep.turns_prefix (h : CrashStep client s s') : s.turns <+: s'.turns := by
  cases h with
  | served hstep => exact hstep.turns_prefix
  | crash f hf store hcrash => exact List.prefix_rfl

theorem Recovering.crashStep (h : s.Recovering sid sender c) (hrt : Compressor.RoundTrips sender c)
    (hS : CollisionFree S) (hin : ∀ x ∈ rootInputs rootZero s.turns.flatten, x ∈ S)
    (hsettled : s.server.receiver.store.Settled) (hstep : CrashStep client s s') :
    s'.Recovering sid sender c := by
  cases hstep with
  | served hserved => exact h.step hrt hS hin hserved
  | crash f hf store hcrash => exact h.crash hrt hS hin hsettled hf hcrash

theorem Recovering.run (h : s.Recovering sid sender c) (hrt : Compressor.RoundTrips sender c)
    (hS : CollisionFree S) (hsettled : s.server.receiver.store.Settled)
    (hrun : Relation.ReflTransGen (CrashStep client) s s')
    (hin : ∀ x ∈ rootInputs rootZero s'.turns.flatten, x ∈ S) :
    s'.Recovering sid sender c ∧ s'.server.receiver.store.Settled := by
  induction hrun with
  | refl => exact ⟨h, hsettled⟩
  | tail _ hstep ih =>
      have hbefore := fun x hx => hin x (rootInputs_subset hstep.turns_prefix.flatten x hx)
      obtain ⟨hmid, hset⟩ := ih hbefore
      exact ⟨hmid.crashStep hrt hS hbefore hset hstep, hstep.settled hset⟩

end Run

/-- In every run of a session against a sidecar that may crash at any time, also while it handles a
frame, and is started again on what its log kept: the sidecar's log holds the client's turns in
their order, all of them but the last in full, and the last one too unless it is pending; the
sidecar states the root of this log; and what a further crash leaves can be opened again. -/
theorem acknowledged_turns_survive_crashes (client : DlrChatClient) {s₀ s : Deployment F}
    {c : Compressor} (hinit : s₀.Initial c) {file : List UInt8}
    {writes : List (Option (Nat × IoError))} {flushes : List (Option IoError)}
    (hopen : ContentStore.withWal file writes flushes = .ok s₀.server.receiver.store)
    (hrt : Compressor.RoundTrips (Compressor.default.withLevel SessionShim.appendLevel) c)
    (hrun : Relation.ReflTransGen (CrashStep client) s₀ s) {S : Set (List UInt8)}
    (hS : CollisionFree S) (hin : ∀ x ∈ rootInputs rootZero s.turns.flatten, x ∈ S) :
    s.session.shim.ids = s.turns.flatten ∧ s.turns.dropLast.flatten <+: s.log ∧
      s.log <+: s.turns.flatten ∧ (s.session.pendingRoot = none → s.log = s.turns.flatten) ∧
      s.server.receiver.store.sessionRoot s.sid = rootOver rootZero s.log ∧
      ∀ f w w', s.server.receiver.store.wal = some w →
        (s.server.receiver.handleFrame f).2.store.wal = some w' →
        (s.server.receiver.handleFrame f).2.store.walError = none → ∀ cut, w.flushed ≤ cut →
        ∃ store, ContentStore.withWal (w'.bytes.take cut) writes flushes = .ok store := by
  obtain ⟨h, hsettled⟩ := (consistent_initial hinit).recovering.run hrt hS
    (ContentStore.withWal_settled hopen) hrun hin
  exact ⟨h.ids, h.acknowledged, h.log_prefix, h.caught, h.session.symm ▸ h.root,
    fun f w w' hw hw' hok cut hcut => Receiver.crash_reopens hsettled f hw hw' hok hcut _ _⟩

omit [DedupFilter F] [Blake3] [Zstd] [SerdeJson] [FloatChoices] in
/-- The first turn is acknowledged; the sidecar stops when it has written ten bytes of the only
block of the second one. -/
theorem acknowledged_turns_survive_crashes_torn_record :
    letI := prefixHash
    letI := storedZstd
    letI := DedupFilter.exact
    letI := percentChoices
    let message : Value := .object [("role", .string "user")]
    letI := sampleJson [.object [], message]
    let client : DlrChatClient := ⟨"h", none⟩
    let opened : ContentStore := { ContentStore.new with wal := some ⟨[], 0, [], []⟩ }
    let server := SidecarState.new (Receiver.new opened Compressor.default) "g" none true
    let s₀ : Deployment (List BlockId) := ⟨ChatSession.new "chat" [], server, [], []⟩
    let s₁ := s₀.prepare [message] (.object [])
    let s₂ := s₁.sendChat client (s₁.prepared.headD ⟨[], rootZero, 0, 0⟩) []
      [.answered (.error "down")]
    let s₃ := s₂.prepare [message] (.object [])
    ∃ frame store, ContentStore.Crashed s₃.server.receiver.store
        (s₃.server.receiver.handleFrame (.append frame)).2.store store ∧
      s₁.session.pendingRoot.isSome = true ∧ s₂.session.pendingRoot = none ∧
      s₃.session.pendingRoot.isSome = true ∧
      [Block.blockId ⟨.message, 1, message.print⟩] <+: (s₃.restart store).log ∧
      (s₃.restart store).log <+: s₃.session.shim.ids ∧
      (s₃.restart store).server.receiver.store.sessionRoot s₃.sid =
        rootOver rootZero (s₃.restart store).log := by
  let _ := prefixHash
  let _ := storedZstd
  let _ := DedupFilter.exact
  let _ := percentChoices
  intro message
  let _ := sampleJson [.object [], message]
  intro client opened server s₀ s₁ s₂ s₃
  let first := s₁.prepared.headD ⟨[], rootZero, 0, 0⟩
  let second := s₃.prepared.getLastD ⟨[], rootZero, 0, 0⟩
  let frame := (bodyFrame second.body).getD ⟨0, rootZero, []⟩
  have hinit : s₀.Initial Compressor.default :=
    ⟨⟨"chat", [], by rfl⟩, by rfl, by decide +kernel, by rfl, by rfl⟩
  have hmem : first ∈ s₁.prepared ∧ second ∈ s₃.prepared := by decide +kernel
  have hframe : bodyFrame second.body = some frame := by decide +kernel
  have hpending : s₁.session.pendingRoot.isSome = true ∧ s₂.session.pendingRoot = none ∧
      s₃.session.pendingRoot.isSome = true := by decide +kernel
  let id₁ := Block.blockId ⟨.message, 1, message.print⟩
  let id₂ := Block.blockId ⟨.message, 2, message.print⟩
  have hturns : s₃.turns = [[id₁], [id₂]] := by decide +kernel
  have hne : Blake3.hash (rootZero.bytes ++ id₁.bytes) ≠
      Blake3.hash ((appendRoot rootZero id₁).bytes ++ id₂.bytes) := by decide +kernel
  have hwal : s₃.server.receiver.store.wal.isSome = true ∧
      (s₃.server.receiver.handleFrame (.append frame)).2.store.wal.isSome = true ∧
      (s₃.server.receiver.handleFrame (.append frame)).2.store.walError = none := by decide +kernel
  have hopen : ContentStore.withWal [] [] [] = .ok s₀.server.receiver.store := by
    rw [ContentStore.withWal, Wal.replay, Wal.replayFrom_nil]
    rfl
  have hrun : Relation.ReflTransGen (CrashStep client) s₀ s₃ :=
    ((Relation.ReflTransGen.single (.served (.prepare s₀ [message] (.object [])))).tail
      (.served (.sendChat s₁ first hmem.1 [] _))).tail
        (.served (.prepare s₂ [message] (.object [])))
  -- from here on the states are opaque, so that nothing evaluates them again
  clear_value frame second s₃ s₂ s₁ first s₀
  have hsettled : s₃.server.receiver.store.Settled :=
    hrun.rec (ContentStore.withWal_settled hopen) fun _ hstep hmid => hstep.settled hmid
  obtain ⟨w, hw⟩ := Option.isSome_iff_exists.mp hwal.1
  obtain ⟨w', hw'⟩ := Option.isSome_iff_exists.mp hwal.2.1
  have hcut : w.flushed ≤ w.flushed + 10 := Nat.le_add_right _ _
  obtain ⟨store, hreopened⟩ :=
    Receiver.crash_reopens hsettled (.append frame) hw hw' hwal.2.2 hcut [] []
  have hcrashed : ContentStore.Crashed s₃.server.receiver.store
      (s₃.server.receiver.handleFrame (.append frame)).2.store store :=
    ⟨w, w', _, [], [], hw, hw', hwal.2.2, hcut, hreopened⟩
  have hcrash : CrashStep client s₃ (s₃.restart store) :=
    .crash s₃ (.append frame) (.append second hmem.2 frame hframe) store hcrashed
  have hcollision : CollisionFree {x | x ∈ rootInputs rootZero s₃.turns.flatten} := by
    refine (collisionFree_pair hne).mono fun x hx => ?_
    have hinputs : rootInputs rootZero s₃.turns.flatten =
        [rootZero.bytes ++ id₁.bytes, (appendRoot rootZero id₁).bytes ++ id₂.bytes] := by
      rw [hturns]
      rfl
    rw [Set.mem_ofPred_eq, hinputs] at hx
    exact List.mem_pair.mp hx
  obtain ⟨hids, hacked, hprefix, -, hroot, -⟩ := acknowledged_turns_survive_crashes client hinit
    hopen (Compressor.roundTrips_storedZstd _ _) (hrun.tail hcrash) hcollision fun x hx => hx
  refine ⟨frame, store, hcrashed, hpending.1, hpending.2.1, hpending.2.2, ?_, hids ▸ hprefix, hroot⟩
  rw [show (s₃.restart store).turns = s₃.turns from rfl, hturns] at hacked
  exact hacked

theorem CrashStep.holding {client : DlrChatClient} {s s' : Deployment F}
    (h : CrashStep client s s') (hs : s.Holding) :
    s'.Holding ∧ SessionShim.SameSetup s.session.shim s'.session.shim := by
  cases h with
  | served hstep => exact hstep.holding hs
  | crash f hf store hcrash =>
      exact ⟨⟨hs.stored, hs.addressed, hs.small, hs.pending⟩, SessionShim.SameSetup.refl _⟩

theorem CrashStep.compressor_eq {client : DlrChatClient} {s s' : Deployment F}
    (h : CrashStep client s s') :
    s'.server.receiver.compressor = s.server.receiver.compressor := by
  cases h with
  | served hstep =>
      obtain ⟨es, hes⟩ := hstep.events
      rw [hes, compressor_events]
  | crash f hf store hcrash => rfl

/-- What runs with crashes keep of the client and of the configuration of the receiver. -/
theorem kept_of_run {client : DlrChatClient} {s s' : Deployment F}
    (h : Relation.ReflTransGen (CrashStep client) s s') (hs : s.Holding) :
    s'.Holding ∧ SessionShim.SameSetup s.session.shim s'.session.shim ∧
      s'.server.receiver.compressor = s.server.receiver.compressor := by
  induction h with
  | refl => exact ⟨hs, SessionShim.SameSetup.refl _, rfl⟩
  | tail _ hstep ih =>
      obtain ⟨hnext, hsetup⟩ := hstep.holding ih.1
      exact ⟨hnext, ih.2.1.trans hsetup, hstep.compressor_eq.trans ih.2.2⟩

/-- After every run with crashes, and a last restart: one synchronization over a network that
answers, with a sidecar that trusts the driver and whose log device works, completes. It needs no
assumption about what the sidecar was doing when it stopped. -/
theorem restarted_synchronize_completes (client : DlrChatClient) {s₀ s : Deployment F}
    {c : Compressor} (hinit : s₀.Initial c)
    (hrt : Compressor.RoundTrips Compressor.default c)
    (hrtAppend : Compressor.RoundTrips (Compressor.default.withLevel SessionShim.appendLevel) c)
    (hrun : Relation.ReflTransGen (CrashStep client) s₀ s) {f : Frame} {store : ContentStore}
    (hcrash : ContentStore.Crashed s.server.receiver.store
      (s.server.receiver.handleFrame f).2.store store) {S : Set (List UInt8)}
    (hS : Set.InjOn Blake3.hash S)
    (hstored : ∀ id b, s.session.shim.store.get id = some b → canonicalBytes b ∈ S)
    (hserving : (s.restart store).server.Serving client) (margin : UInt32) :
    ∃ frames, s.session.shim.bulkFramesFor
        ((s.restart store).server.receiver.handleResync s.session.shim.resyncFrame).1 margin =
          .ok frames ∧
      ∀ fates : List Fate, (∀ fate ∈ fates, ∃ gateway, fate = .answered gateway) →
        frames.length < fates.length →
        let sent := .resync s.session.shim.resyncFrame :: frames.map .bulk
        (∀ f ∈ sent, (encodeFrame f).length ≤ maxRequestBytes) →
        let s' := (s.restart store).synchronize client margin fates
        s'.session.pendingRoot = none ∧ s'.log = s'.session.shim.ids ∧
          ∀ id ∈ s'.log, s'.server.receiver.store.contains id = true := by
  obtain ⟨hholding, hsetup, hcompressor⟩ := kept_of_run hrun (holding_initial hinit)
  obtain ⟨key, filter, hsession⟩ := hinit.session
  rw [hsession] at hsetup
  obtain ⟨w, w', cut, writes, flushes, -, -, -, -, hopen⟩ := hcrash
  have hholding' : (s.restart store).Holding :=
    ⟨hholding.stored, hholding.addressed, hholding.small, hholding.pending⟩
  exact hholding'.synchronize_completes hsetup hrt hrtAppend hS hstored
    (hcompressor.trans hinit.compressor) (Receiver.wellFormed_new (.replayed hopen) _) hserving
    (Receiver.decoders_new store _ _) margin

omit [DedupFilter F] [Blake3] [Zstd] [SerdeJson] [FloatChoices] in
/-- The sidecar stops before anything of the first turn is in its log. -/
theorem restarted_synchronize_completes_nothing_kept :
    letI := prefixHash
    letI := storedZstd
    letI := DedupFilter.exact
    letI := percentChoices
    let message : Value := .object [("role", .string "user")]
    letI := sampleJson [.object [], message]
    let client : DlrChatClient := ⟨"h", none⟩
    let opened : ContentStore := { ContentStore.new with wal := some ⟨[], 0, [], []⟩ }
    let server := SidecarState.new (Receiver.new opened Compressor.default) "g" none true
    let s₀ : Deployment (List BlockId) := ⟨ChatSession.new "chat" [], server, [], []⟩
    let s₁ := s₀.prepare [message] (.object [])
    let s₂ := (s₁.restart opened).synchronize client 0
      [.answered (.error "down"), .answered (.error "down")]
    s₁.session.pendingRoot.isSome = true ∧ s₂.session.pendingRoot = none ∧
      s₂.log = s₂.session.shim.ids := by
  let _ := prefixHash
  let _ := storedZstd
  let _ := DedupFilter.exact
  let _ := percentChoices
  intro message
  let _ := sampleJson [.object [], message]
  intro client opened server s₀ s₁ s₂
  obtain ⟨frame, h⟩ : ∃ frame, LostTurn s₀ s₁ ⟨.message, 1, message.print⟩ frame := lostTurn_sample
  have hopen : ContentStore.withWal [] [] [] = .ok opened := by
    rw [ContentStore.withWal, Wal.replay, Wal.replayFrom_nil]
    rfl
  have hwal : s₀.server.receiver.store.wal = some ⟨[], 0, [], []⟩ ∧
      s₀.server.receiver.store.walError = none := ⟨rfl, rfl⟩
  have hserver : SidecarState.new (Receiver.new opened s₀.server.receiver.compressor)
      s₀.server.upstreamUrl s₀.server.ingressToken s₀.server.syncWal = s₀.server := by rfl
  have hserving : s₀.server.Serving client := by
    refine ⟨?_, ⟨_, rfl, by simp, by simp⟩, rfl⟩
    rintro token ⟨⟩
  have hrun : Relation.ReflTransGen (CrashStep client) s₀ s₁ :=
    .single (.served (.prepare s₀ [message] (.object [])))
  -- from here on the states are opaque, so that nothing evaluates them again
  have hs₂ : s₂ = (s₁.restart opened).synchronize client 0
      [.answered (.error "down"), .answered (.error "down")] := rfl
  clear_value s₂ s₁ s₀
  have hrestart : (s₁.restart opened).server = s₀.server := by
    rw [restart, h.server]
    exact hserver
  have hcrash : ContentStore.Crashed s₁.server.receiver.store
      (s₁.server.receiver.handleFrame (.ack ⟨0, rootZero⟩)).2.store opened := by
    rw [h.server]
    exact ⟨_, _, 0, [], [], hwal.1, hwal.1, hwal.2, le_rfl, hopen⟩
  have hrt : ∀ sender, Compressor.RoundTrips sender Compressor.default :=
    fun sender => Compressor.roundTrips_storedZstd sender _
  obtain ⟨frames, hframes, hcompletes⟩ := restarted_synchronize_completes client h.initial
    (hrt _) (hrt _) hrun hcrash
    (Set.injOn_singleton Blake3.hash (canonicalBytes ⟨.message, 1, message.print⟩))
    (fun id b' hget => congrArg canonicalBytes (h.stored id b' hget))
    (by rw [hrestart]; exact hserving) 0
  rw [hrestart, h.missing, h.frames] at hframes
  obtain rfl : frames = [frame] := (Except.ok.inj hframes).symm
  obtain ⟨hnone, hlog, -⟩ := hcompletes [.answered (.error "down"), .answered (.error "down")]
    (by
      intro fate hfate
      exact ⟨.error "down", by simpa using hfate⟩)
    (by simp) h.sizes
  rw [← hs₂] at hnone hlog
  exact ⟨h.pending, hnone, hlog⟩

end Deployment

end Dlr.Sidecar
