import Dlr.Receiver.Completion
import Dlr.Sidecar.Deployment

/-!
# A synchronization completes

Against a sidecar that trusts the driver, whose log device works and that has no decoder left of
an earlier transfer, one synchronization over a network that answers brings the sidecar to the
client's log: it ends with the ACK of the client's root, the pending request is done, and the
next turn is accepted.
-/

namespace Dlr.Sidecar

open Dlr.Core Coding Compress Lib.Machine

/-! ## Tokens -/

theorem foldl_or_xor_eq_zero (acc : UInt8) {left right : List UInt8}
    (hlen : left.length = right.length) :
    (left.zip right).foldl (fun diff pair => diff ||| (pair.1 ^^^ pair.2)) acc = 0 ↔
      acc = 0 ∧ left = right := by
  induction left generalizing acc right with
  | nil =>
      cases right with
      | nil => simp
      | cons b right => cases hlen
  | cons a left ih =>
      cases right with
      | nil => cases hlen
      | cons b right =>
          rw [List.zip_cons_cons, List.foldl_cons, ih _ (Nat.succ.inj hlen), List.cons.injEq]
          rw [UInt8.or_eq_zero_iff, UInt8.xor_eq_zero_iff, and_assoc]

/-- The comparison that reads every byte decides equality. -/
theorem constantTimeEq_iff (left right : List UInt8) :
    constantTimeEq left right = true ↔ left = right := by
  unfold constantTimeEq
  split_ifs with hlen
  · refine iff_of_false nofun ?_
    rintro rfl
    exact hlen rfl
  · rw [decide_eq_true_iff, foldl_or_xor_eq_zero 0 (not_not.mp hlen)]
    simp

/-- The sidecar needs no token, or the driver sends the one that it needs. -/
def SidecarState.Trusts (s : SidecarState) (client : DlrChatClient) : Prop :=
  ∀ token, s.ingressToken = some token →
    client.ingressToken = some token ∧ headerText token = some token

theorem SidecarState.Trusts.authorized {s : SidecarState} {client : DlrChatClient}
    (h : s.Trusts client) (frame : List UInt8) :
    authorized s (client.frameRequest frame).request = true := by
  unfold Sidecar.authorized
  cases htoken : s.ingressToken with
  | none => rfl
  | some token =>
      obtain ⟨hsame, htext⟩ := h token htoken
      have hheader : (client.frameRequest frame).request.header "x-dlr-sidecar-token" = some token := by
        simp [DlrChatClient.frameRequest, DlrChatClient.tokenHeader, Request.header, hsame,
          sidecarTokenHeader]
      simp only [hheader, Option.bind_some, htext]
      exact (constantTimeEq_iff token token).mpr rfl

/-! ## One frame -/

section Served

variable [Blake3] [Zstd] [SerdeJson]

/-- A frame of an authorised driver that the receiver answers, on a log that can be flushed, is
answered to the driver. -/
theorem exchangeFrame_served (client : DlrChatClient) {s : SidecarState} (htrusts : s.Trusts client)
    (gateway : Except String HttpResponse) (fates : List Fate) {f : Frame}
    (hsize : (encodeFrame f).length ≤ maxRequestBytes) {answer : Option Frame}
    (hanswer : (s.receiver.handleFrame f).1 = .ok answer)
    (hflush : ((s.receiver.handleFrame f).2.store.flushWal s.syncWal).1 = .ok ()) :
    client.exchangeFrame (deployed client.baseUrl) (s, .answered gateway :: fates) (encodeFrame f) =
      (.ok answer, ((s.removeProjection f).withReceiver
        (s.receiver.events [.frame f, .flush s.syncWal]), fates)) := by
  have hlimits := withinLimits_of_length hsize
  have hcheck : s.checkFrame (client.frameRequest (encodeFrame f)).request = .ok f := by
    unfold SidecarState.checkFrame
    rw [if_neg (by simp [htrusts.authorized])]
    simp only [DlrChatClient.frameRequest, decodeFrame_encodeFrame hlimits]
  rcases hhandle : s.receiver.handleFrame f with ⟨result, received⟩
  rw [hhandle] at hanswer hflush
  obtain rfl : result = .ok answer := hanswer
  rcases hstore : received.store.flushWal s.syncWal with ⟨result, store⟩
  rw [hstore] at hflush
  obtain rfl : result = .ok () := hflush
  have hevents : s.receiver.events [.frame f, .flush s.syncWal] = { received with store } := by
    simp only [Receiver.events, List.foldl_cons, List.foldl_nil, Receiver.event, hhandle, hstore]
  have hserved : s.handleFrame (client.frameRequest (encodeFrame f)).request =
      (SidecarState.respondFrame answer,
        (s.removeProjection f).withReceiver { received with store }) := by
    unfold SidecarState.handleFrame SidecarState.receiveFrame SidecarState.flush
    simp only [hcheck, SidecarState.removeProjection, SidecarState.withProjections, hhandle,
      SidecarState.withReceiver, hstore]
  have hpost : s.post client.baseUrl gateway (client.frameRequest (encodeFrame f)) =
      ((SidecarState.respondFrame answer).arrives gateway,
        (s.removeProjection f).withReceiver { received with store }) := by
    unfold SidecarState.post
    simp only [route_frameRequest, SidecarState.serve, hserved]
    exact if_neg (not_lt.mpr hsize)
  unfold DlrChatClient.exchangeFrame
  simp only [deployed, hpost, hevents]
  cases answer with
  | none => rfl
  | some answer =>
      have hdecode := decodeFrame_encodeFrame
        (answer_withinLimits hlimits (congrArg Prod.fst hhandle))
      simp only [SidecarState.respondFrame, Response.arrives, Response.render]
      simp only [Nat.reduceEqDiff, if_false, Nat.reduceLeDiff, Nat.reduceLT, and_self,
        not_true_eq_false, hdecode]

/-- The sidecar trusts the driver, and its log is on a healthy device with nothing latched. -/
structure SidecarState.Serving (s : SidecarState) (client : DlrChatClient) : Prop where
  trusts : s.Trusts client
  healthy : s.receiver.store.Healthy
  latch : s.receiver.store.walError = none

/-- The events of frames that are flushed one by one. -/
def flushed (sync : Bool) (frames : List Frame) : List Receiver.LogEvent :=
  frames.flatMap fun f => [.frame f, .flush sync]

omit [SerdeJson] in
/-- A frame that fits the log can be flushed, and the sidecar goes on serving. -/
theorem SidecarState.Serving.frame {s : SidecarState} {client : DlrChatClient}
    (h : s.Serving client) {f : Frame} (hfits : s.receiver.FitsLog f) :
    ((s.receiver.handleFrame f).2.store.flushWal s.syncWal).1 = .ok () ∧
      ((s.removeProjection f).withReceiver
        (s.receiver.events [.frame f, .flush s.syncWal])).Serving client := by
  obtain ⟨hiff, hhealthy⟩ := Receiver.events_walError s.receiver h.healthy [.frame f]
  have hlatch : (s.receiver.handleFrame f).2.store.walError = none :=
    hiff.mpr ⟨h.latch, hfits, trivial⟩
  obtain ⟨hok, hafter, hsame⟩ := ContentStore.Healthy.flushWal
    (show (s.receiver.handleFrame f).2.store.Healthy from hhealthy) s.syncWal
  exact ⟨hok.mpr hlatch, h.trusts, hafter, hsame.trans hlatch⟩

omit [SerdeJson] in
/-- A flush does not touch a cold start. -/
theorem coldStarting_flush {r : Receiver} {sid : SessionId} {c : Compressor} {log : SessionLog}
    (h : r.ColdStarting sid c log) (sync : Bool) :
    (r.event (.flush sync)).ColdStarting sid c log := by
  refine ⟨h.compressor, h.known, h.decoders, h.acked, ?_⟩
  rw [Receiver.event, ContentStore.flushWal_sessions]
  exact h.log

/-! ## What fits the log -/

omit [Zstd] [SerdeJson] in
theorem newFit_of_small {stored : Lib.FinMap BlockId Block} {blocks : List Block}
    (h : ∀ b ∈ blocks, (canonicalBytes b).length ≤ Wal.maxRecordBytes) :
    ContentStore.NewFit stored blocks := by
  induction blocks generalizing stored with
  | nil => trivial
  | cons b rest ih =>
      exact ⟨Or.inr (h b List.mem_cons_self), ih fun x hx => h x (List.mem_cons_of_mem _ hx)⟩

omit [SerdeJson] in
/-- Without a decoder of an earlier transfer a frame brings the blocks that it delivers. -/
theorem brings_of_delivers {r : Receiver} {b : BulkFrame} {blocks : List Block}
    (hdec : (r.session b.sessionId).decoders = ∅)
    (hdel : SessionShim.Delivers r.compressor b blocks) : r.brings (.bulk b) = blocks := by
  obtain ⟨d, syms, hadd, hdecode, hrec⟩ := hdel
  have hdecoder : (r.decoderOf b).addAll b.symbols = (.ok (), d) := by
    rw [Receiver.decoderOf, hdec, Lib.FinMap.get?_empty]
    exact hadd
  have hpair : d.decode = (.ok syms, d.decode.2) := by rw [← hdecode]
  simp only [Receiver.brings, Receiver.decodeGeneration, hdecoder]
  rw [hpair]
  simp only [hrec, List.map_map]
  exact List.map_id' blocks

omit [SerdeJson] in
/-- The frame of small blocks fits the log. -/
theorem fitsLog_bulk {r : Receiver} {b : BulkFrame} {blocks : List Block}
    (hdec : (r.session b.sessionId).decoders = ∅)
    (hdel : SessionShim.Delivers r.compressor b blocks)
    (hsmall : ∀ x ∈ blocks, (canonicalBytes x).length ≤ Wal.maxRecordBytes) :
    r.FitsLog (.bulk b) := by
  refine ⟨nofun, ?_⟩
  rw [brings_of_delivers hdec hdel]
  exact newFit_of_small hsmall

omit [SerdeJson] in
/-- A manifest that fits into a request fits the log. -/
theorem fitsLog_resync {r : Receiver} {f : ResyncFrame}
    (hsize : (encodeFrame (.resync f)).length ≤ maxRequestBytes) : r.FitsLog (.resync f) := by
  refine ⟨?_, trivial⟩
  rintro m ⟨⟩
  have hids : 32 * f.manifest.length ≤ (f.manifest.flatMap Digest.bytes).length :=
    le_length_flatMap fun id _ => id.size.ge
  simp only [encodeFrame, List.length_append, maxRequestBytes] at hsize
  simp only [Wal.maxRecordBytes]
  omega

/-- The frames of a transfer that delivers everything pending, over a network that answers: the
driver ends with the ACK of the log's root. -/
theorem transfer_completes (client : DlrChatClient) {sid : SessionId} {c : Compressor}
    {log : SessionLog} {frames : List BulkFrame} {s : SidecarState} (hserving : s.Serving client)
    (hcold : s.receiver.ColdStarting sid c log)
    (hdel : ∀ b ∈ frames, b.sessionId = sid ∧ ∃ blocks, SessionShim.Delivers c b blocks ∧
      ∀ x ∈ blocks, (canonicalBytes x).length ≤ Wal.maxRecordBytes)
    (hall : ∀ id ∈ (s.receiver.session sid).pending,
      Receiver.DeliveredBy sid c (frames.map .bulk) id)
    (hsize : ∀ b ∈ frames, (encodeFrame (.bulk b)).length ≤ maxRequestBytes)
    {fates : List Fate} (hanswered : ∀ fate ∈ fates, ∃ gateway, fate = .answered gateway)
    (hfates : frames.length ≤ fates.length) (completion : Option AckFrame) :
    ∃ s' fates', client.transfer (deployed client.baseUrl) (s, fates)
        (frames.map fun b => encodeFrame (.bulk b)) completion =
          (.ok (if (s.receiver.session sid).pending = ∅ then completion else some ⟨sid, log.root⟩),
            s', fates') ∧
      s'.receiver.ColdStarting sid c log ∧ (s'.receiver.session sid).pending = ∅ ∧
      s'.receiver = s.receiver.events (flushed s.syncWal (frames.map .bulk)) := by
  induction frames generalizing s fates completion with
  | nil =>
      have hempty : (s.receiver.session sid).pending = ∅ := by
        apply Finset.eq_empty_of_forall_notMem
        intro id hid
        obtain ⟨b, blocks, hmem, -⟩ := hall id hid
        cases hmem
      refine ⟨s, fates, ?_, hcold, hempty, rfl⟩
      rw [if_pos hempty]
      rfl
  | cons b rest ih =>
      obtain ⟨rfl, blocks, hblocks, hsmall⟩ := hdel b List.mem_cons_self
      match fates with
      | [] => cases hfates
      | fate :: fates =>
      obtain ⟨gateway, rfl⟩ := hanswered fate List.mem_cons_self
      obtain ⟨hflush, hserving'⟩ := hserving.frame
        (fitsLog_bulk hcold.decoders (hcold.compressor.symm ▸ hblocks) hsmall)
      obtain ⟨hanswer, hnext, hpending⟩ := hcold.handleBulk hblocks
      set ids := (blocks.map Block.blockId).toFinset
      set pending := (s.receiver.session b.sessionId).pending
      set s₁ := (s.removeProjection (.bulk b)).withReceiver
        (s.receiver.events [.frame (.bulk b), .flush s.syncWal]) with hs₁
      set answer : Option Frame :=
        if pending \ ids = ∅ ∧ pending ≠ ∅ then some (.ack ⟨b.sessionId, log.root⟩) else none
      have hframe : (s.receiver.handleFrame (.bulk b)).1 = .ok answer := by
        simp only [Receiver.handleFrame, answer]
        rcases hhandle : s.receiver.handleBulk b with ⟨result, r⟩
        rw [hhandle] at hanswer
        obtain rfl : result = _ := hanswer
        split_ifs <;> rfl
      have hcold' : s₁.receiver.ColdStarting b.sessionId c log := by
        refine coldStarting_flush (r := s.receiver.event (.frame (.bulk b))) ?_ s.syncWal
        rw [Receiver.event, Receiver.handleFrame_bulk_snd]
        exact hnext
      have hpending' : (s₁.receiver.session b.sessionId).pending = pending \ ids := by
        rw [← hpending, ← Receiver.handleFrame_bulk_snd]
        rfl
      have hall' : ∀ id ∈ (s₁.receiver.session b.sessionId).pending,
          Receiver.DeliveredBy b.sessionId c (rest.map .bulk) id := by
        intro id hid
        rw [hpending', Finset.mem_sdiff, List.mem_toFinset] at hid
        obtain ⟨b', blocks', hmem, hsid, hdel', hin⟩ := hall id hid.1
        rcases List.mem_cons.mp hmem with heq | hrest
        · cases heq
          rw [hdel'.unique hblocks] at hin
          exact absurd hin hid.2
        · exact ⟨b', blocks', hrest, hsid, hdel', hin⟩
      have hexchange := exchangeFrame_served client hserving.trusts gateway fates
        (hsize b List.mem_cons_self) hframe hflush
      obtain ⟨s', fates', hrest, hdone, hempty, hevents⟩ := ih hserving' hcold'
        (fun b' hb' => hdel b' (List.mem_cons_of_mem _ hb')) hall'
        (fun b' hb' => hsize b' (List.mem_cons_of_mem _ hb'))
        (fun fate hfate => hanswered fate (List.mem_cons_of_mem _ hfate))
        (Nat.le_of_succ_le_succ hfates)
        (if pending \ ids = ∅ ∧ pending ≠ ∅ then some ⟨b.sessionId, log.root⟩ else completion)
      refine ⟨s', fates', ?_, hdone, hempty, hevents⟩
      rw [hpending'] at hrest
      simp only [List.map_cons, DlrChatClient.transfer, hexchange]
      by_cases hlast : pending \ ids = ∅ ∧ pending ≠ ∅
      · simp only [answer, if_pos hlast] at hrest ⊢
        rw [if_pos hlast.1] at hrest
        rw [if_neg hlast.2]
        exact hrest
      · simp only [answer, if_neg hlast] at hrest ⊢
        rw [hrest]
        by_cases hnone : pending = ∅
        · rw [if_pos hnone, if_pos (by rw [hnone, Finset.empty_sdiff])]
        · rw [if_neg hnone, if_neg fun h => hlast ⟨h, hnone⟩]

end Served

/-! ## A whole synchronization -/

theorem events_append [Blake3] [Zstd] (r : Receiver) (es es' : List Receiver.LogEvent) :
    r.events (es ++ es') = (r.events es).events es' :=
  List.foldl_append

theorem compressor_events [Blake3] [Zstd] (r : Receiver) (es : List Receiver.LogEvent) :
    (r.events es).compressor = r.compressor := by
  induction es generalizing r with
  | nil => rfl
  | cons e rest ih =>
      refine (ih (r.event e)).trans ?_
      cases e with
      | frame f =>
          obtain ⟨ops, haff, -⟩ := r.handleFrame_affects f
          exact haff.compressor
      | flush sync => rfl

theorem wellFormed_events [Blake3] [Zstd] {r : Receiver} (h : r.WellFormed)
    (es : List Receiver.LogEvent) : (r.events es).WellFormed := by
  induction es generalizing r with
  | nil => exact h
  | cons e rest ih =>
      cases e with
      | frame f => exact ih (h.handleFrame f)
      | flush sync => exact ih (h.flush sync)

section Synchronize

variable {F : Type} [DedupFilter F] [Blake3] [Zstd] [SerdeJson] [FloatChoices]

omit [Blake3] [Zstd] [SerdeJson] [FloatChoices] [DedupFilter F] in
theorem applyAck_root [Blake3] (session : ChatSession F) :
    (session.applyAck session.shim.root).1 = true ∧
      (session.applyAck session.shim.root).2.shim = (session.shim.applyAck session.shim.root).2 ∧
      ((∀ root, session.pendingRoot = some root → root = session.shim.root) →
        (session.applyAck session.shim.root).2.pendingRoot = none) := by
  have happlied : (session.shim.applyAck session.shim.root).1 = true := by
    simp [SessionShim.applyAck]
  refine ⟨?_, (session.applyAck_spec _).1, fun hpending => ?_⟩
  · simp only [ChatSession.applyAck, happlied]
    split_ifs <;> rfl
  · cases hroot : session.pendingRoot with
    | none => simp [ChatSession.applyAck, happlied, hroot]
    | some root => simp [ChatSession.applyAck, happlied, hroot, hpending root hroot]

/-- One synchronization over a network that answers completes: the session takes the ACK of its
root, its pending request is done, the sidecar has its log, and the next turn is accepted. -/
theorem synchronize_completes (client : DlrChatClient) {session : ChatSession F} {server : SidecarState}
    {c : Compressor} {blocks : List Block} {S : Set (List UInt8)}
    (htransfer : session.shim.Transferable c blocks S)
    (hsmall : ∀ b ∈ blocks, (canonicalBytes b).length ≤ Wal.maxRecordBytes)
    (hrtAppend : Compressor.RoundTrips session.shim.appendCompressor c)
    (hcompressor : server.receiver.compressor = c) (hwf : server.receiver.WellFormed)
    (hserving : server.Serving client)
    (hdec : (server.receiver.session session.shim.sessionId).decoders = ∅) (margin : UInt32) :
    ∃ frames, session.shim.bulkFramesFor
        (server.receiver.handleResync session.shim.resyncFrame).1 margin = .ok frames ∧
      ∀ fates : List Fate, (∀ fate ∈ fates, ∃ gateway, fate = .answered gateway) →
        frames.length < fates.length →
        let sent := .resync session.shim.resyncFrame :: frames.map .bulk
        (∀ f ∈ sent, (encodeFrame f).length ≤ maxRequestBytes) →
        let out := client.synchronize (deployed client.baseUrl) (server, fates) session margin
        out.1 = .ok () ∧ out.2.1.shim = (session.shim.applyAck session.shim.root).2 ∧
          ((∀ root, session.pendingRoot = some root → root = session.shim.root) →
            out.2.1.pendingRoot = none) ∧
          out.2.2.1.receiver.store.sessionIds session.shim.sessionId = session.shim.ids ∧
          (∀ id ∈ session.shim.ids, out.2.2.1.receiver.store.contains id = true) ∧
          ((∀ id b, out.2.2.1.receiver.store.get id = some b → canonicalBytes b ∈ S) →
            session.shim.CaughtUp blocks out.2.2.1.receiver) := by
  obtain ⟨frames, hframes, hdel, hcover⟩ := htransfer.frames server.receiver margin
  refine ⟨frames, hframes, fun fates hanswered hlen => ?_⟩
  match fates with
  | [] => cases hlen
  | fate :: fates =>
  obtain ⟨gateway, rfl⟩ := hanswered fate List.mem_cons_self
  intro sent hsize out
  obtain ⟨hflush, hserving'⟩ := hserving.frame (fitsLog_resync (hsize _ List.mem_cons_self))
  set missing := (server.receiver.handleResync session.shim.resyncFrame).1
  set s₁ := (server.removeProjection (.resync session.shim.resyncFrame)).withReceiver
    (server.receiver.events [.frame (.resync session.shim.resyncFrame), .flush server.syncWal])
  have hexchange : client.exchangeFrame (deployed client.baseUrl)
      (server, .answered gateway :: fates) (encodeFrame (.resync session.shim.resyncFrame)) =
        (.ok (some (if missing = [] then .ack ⟨session.shim.sessionId, session.shim.root⟩
          else .missing ⟨session.shim.sessionId, missing⟩)), s₁, fates) :=
    exchangeFrame_served client hserving.trusts gateway fates (hsize _ List.mem_cons_self)
      (session.shim.handleFrame_resync_answer server.receiver) hflush
  obtain ⟨hcold, hpending⟩ : s₁.receiver.ColdStarting session.shim.sessionId c
        ⟨session.shim.ids, session.shim.root⟩ ∧
      (s₁.receiver.session session.shim.sessionId).pending = missing.toFinset := by
    have hstart := Receiver.coldStarting_handleResync session.shim.resyncFrame hdec
    rw [← Receiver.handleFrame_resync_snd, hcompressor] at hstart
    exact ⟨coldStarting_flush hstart.1 server.syncWal, hstart.2⟩
  -- whatever the sidecar ends with, an ACK of the root and a finished cold start are enough
  have hend : ∀ s' : SidecarState, s'.receiver.WellFormed →
      s'.receiver.ColdStarting session.shim.sessionId c ⟨session.shim.ids, session.shim.root⟩ →
      (s'.receiver.session session.shim.sessionId).pending = ∅ →
      let ended := DlrChatClient.applyProtocolAck session ⟨session.shim.sessionId, session.shim.root⟩
      ended.1 = .ok () ∧ ended.2.shim = (session.shim.applyAck session.shim.root).2 ∧
        ((∀ root, session.pendingRoot = some root → root = session.shim.root) →
          ended.2.pendingRoot = none) ∧
        s'.receiver.store.sessionIds session.shim.sessionId = session.shim.ids ∧
        (∀ id ∈ session.shim.ids, s'.receiver.store.contains id = true) ∧
        ((∀ id b, s'.receiver.store.get id = some b → canonicalBytes b ∈ S) →
          session.shim.CaughtUp blocks s'.receiver) := by
    intro s' hwf' hdone hempty
    obtain ⟨htrue, hshim, hcleared⟩ := applyAck_root session
    unfold DlrChatClient.applyProtocolAck
    rw [if_neg (not_not.mpr rfl)]
    rcases hack : session.applyAck session.shim.root with ⟨applied, session'⟩
    rw [hack] at htrue hshim hcleared
    obtain rfl : applied = true := htrue
    have hlog : s'.receiver.store.sessionIds session.shim.sessionId = session.shim.ids := by
      rw [ContentStore.sessionIds, hdone.log]
    refine ⟨rfl, hshim, hcleared, hlog, fun id hid => (hwf'.reconstruct hempty).1 id (hlog ▸ hid),
      fun hhashed => htransfer.caughtUp hrtAppend hwf' hdone hempty hhashed⟩
  simp only [out, DlrChatClient.synchronize, hexchange]
  by_cases hnone : missing = []
  · rw [if_pos hnone]
    have hempty : (s₁.receiver.session session.shim.sessionId).pending = ∅ := by
      rw [hpending, hnone, List.toFinset_nil]
    exact hend s₁ (wellFormed_events hwf _) hcold hempty
  · rw [if_neg hnone]
    have hall : ∀ id ∈ (s₁.receiver.session session.shim.sessionId).pending,
        Receiver.DeliveredBy session.shim.sessionId c (frames.map .bulk) id := by
      intro id hid
      rw [hpending, List.mem_toFinset] at hid
      obtain ⟨b, hb, g, hbg, hin⟩ := hcover id hid
      exact ⟨b, g, List.mem_map_of_mem hb, (hdel b hb).1, hbg, hin⟩
    obtain ⟨s', fates', hrun, hdone, hempty, hevents⟩ := transfer_completes client hserving' hcold
      (fun b hb => ⟨(hdel b hb).1, (hdel b hb).2.imp fun g hg =>
        ⟨hg.1, fun x hx => hsmall x (hg.2 x hx)⟩⟩) hall
      (fun b hb => hsize _ (List.mem_cons_of_mem _ (List.mem_map_of_mem hb)))
      (fun fate hfate => hanswered fate (List.mem_cons_of_mem _ hfate))
      (Nat.le_of_lt_succ hlen) none
    have hsome : (s₁.receiver.session session.shim.sessionId).pending ≠ ∅ := by
      rw [hpending, ne_eq, List.toFinset_eq_empty_iff]
      exact hnone
    rw [if_neg hsome] at hrun
    have hmapped : session.bulkFramesFor missing margin =
        .ok (frames.map fun b => encodeFrame (.bulk b)) := by
      unfold ChatSession.bulkFramesFor
      rw [hframes]
    simp only [ne_eq, not_true_eq_false, if_false, hmapped, hrun]
    refine hend s' ?_ hdone hempty
    rw [hevents]
    exact wellFormed_events (wellFormed_events hwf _) _

end Synchronize

/-! ## What runs keep -/

section Events

variable [Blake3] [Zstd] [SerdeJson]

/-- The receiver of a served request has handled at most the frame that it carries and a flush. -/
theorem serve_events (s : SidecarState) (call : Call) :
    ∃ es, (s.serve call).2.receiver = s.receiver.events es ∧ ∀ f, .frame f ∈ es → call.Carries f := by
  have houtcome := serve_outcome s call
  generalize (s.serve call).1 = response at houtcome
  generalize (s.serve call).2.receiver = r at houtcome ⊢
  cases houtcome with
  | unread => exact ⟨[], rfl, nofun⟩
  | refused f _ _ hf => exact ⟨[.frame f], rfl, by simpa using hf⟩
  | unflushed f _ _ hf => exact ⟨_, rfl, by simpa using hf⟩
  | flushed f _ _ hf => exact ⟨_, rfl, by simpa using hf⟩

/-- A probe flushes the log. -/
theorem readyz_events (s : SidecarState) :
    s.readyz.2.receiver = s.receiver.events [.flush false] := by
  unfold SidecarState.readyz
  rcases hflush : s.receiver.store.flushWal false with ⟨result, store⟩
  have hevents : s.receiver.events [.flush false] = { s.receiver with store } := by
    simp only [Receiver.events, List.foldl_cons, List.foldl_nil, Receiver.event, hflush]
  cases result with
  | ok u => exact hevents.symm
  | error e => exact hevents.symm

end Events

namespace Deployment

variable {F : Type} [DedupFilter F] [Blake3] [Zstd] [SerdeJson] [FloatChoices]
  {client : DlrChatClient} {s s' : Deployment F}

/-- A step is a sequence of frames and flushes for the receiver of the sidecar. -/
theorem Step.events (h : Step client s s') :
    ∃ es, s'.server.receiver = s.server.receiver.events es := by
  refine h.keeps (P := fun server => ∃ es, server.receiver = s.server.receiver.events es) ?_ ?_
    ⟨[], rfl⟩
  · rintro server call - ⟨es, hes⟩
    obtain ⟨es', hes', -⟩ := serve_events server call
    exact ⟨es ++ es', by rw [hes', hes, events_append]⟩
  · rintro server ⟨es, hes⟩
    exact ⟨es ++ [.flush false], by rw [readyz_events, hes, events_append]⟩

theorem events_of_run (h : Relation.ReflTransGen (Step client) s s') :
    ∃ es, s'.server.receiver = s.server.receiver.events es := by
  induction h with
  | refl => exact ⟨[], rfl⟩
  | tail _ hstep ih =>
      obtain ⟨es, hes⟩ := ih
      obtain ⟨es', hes'⟩ := hstep.events
      exact ⟨es ++ es', by rw [hes', hes, events_append]⟩

/-- A step prepares a turn, or moves the session by at most an ACK. -/
theorem Step.session_cases (h : Step client s s') :
    (∃ messages request, s' = s.prepare messages request) ∨ s'.session = s.session ∨
      ∃ root, s'.session = (s.session.applyAck root).2 := by
  cases h with
  | prepare messages request => exact Or.inl ⟨messages, request, rfl⟩
  | sendChat prepared hmem headers fates =>
      refine Or.inr ?_
      unfold Deployment.sendChat DlrChatClient.sendChat
      rcases deployed client.baseUrl (s.server, fates) (client.chatRequest prepared headers) with
        ⟨e | response, w⟩
      · exact Or.inl rfl
      · rcases DlrChatClient.acceptChat_cases s.session prepared response with hsame | ⟨-, hmoved⟩
        · exact Or.inl hsame
        · exact Or.inr ⟨_, hmoved⟩
  | synchronize margin fates =>
      refine Or.inr ?_
      have hkept := (DlrChatClient.synchronize_keeps client (deployed client.baseUrl) s.session
        margin (I := fun _ => True) (J := fun _ => True) (A := fun _ _ => True) (fun _ hw => hw)
        (fun _ _ => ⟨trivial, fun _ _ => ⟨trivial, fun _ _ => trivial⟩⟩)
        (fun _ _ _ _ _ => ⟨trivial, fun _ _ => trivial, fun _ _ => trivial⟩)
        (w := (s.server, fates)) trivial).2
      rcases hkept with ⟨hsame, -⟩ | ⟨ack, -, -, hmoved, -⟩
      · exact Or.inl hsame
      · exact Or.inr ⟨ack.root, hmoved⟩
  | other call hcall => exact Or.inr (Or.inl rfl)
  | probe => exact Or.inr (Or.inl rfl)

/-- The client's store has every block of its log, and only blocks that fit into a request. A
pending request is that of the whole log. -/
structure Holding (s : Deployment F) : Prop where
  stored : ∀ id ∈ s.session.shim.ids, s.session.shim.store.contains id = true
  addressed : s.session.shim.store.maps.Addressed
  small : ∀ id b, s.session.shim.store.get id = some b → 39 + b.payload.length ≤ maxRequestBytes
  pending : ∀ root, s.session.pendingRoot = some root → root = s.session.shim.root

omit [DedupFilter F] [Zstd] [SerdeJson] [FloatChoices] in
/-- The log as blocks: those under its ids. -/
theorem Holding.holdsLog (h : s.Holding) :
    s.session.shim.HoldsLog (s.session.shim.ids.filterMap s.session.shim.store.get) := by
  have hmap : ∀ ids : List BlockId, (∀ id ∈ ids, s.session.shim.store.contains id = true) →
      (ids.filterMap s.session.shim.store.get).map Block.blockId = ids := by
    intro ids hids
    induction ids with
    | nil => rfl
    | cons id rest ih =>
        obtain ⟨b, hb⟩ := Option.isSome_iff_exists.mp (hids id List.mem_cons_self)
        rw [List.filterMap_cons_some (show s.session.shim.store.get id = some b from hb),
          List.map_cons, ih fun id' hid' => hids id' (List.mem_cons_of_mem _ hid'),
          ← h.addressed id b hb]
  refine ⟨(hmap _ h.stored).symm, fun b hb => ?_, h.addressed⟩
  apply h.stored
  rw [← hmap _ h.stored]
  exact List.mem_map_of_mem hb

/-- The limits that a block keeps which fits into a request: of a canonical encoding, of the log
and of a generation. -/
structure Sizes (b : Block) : Prop where
  payload : b.payload.length ≤ maxBlockPayloadBytes
  canonical : (canonicalBytes b).length ≤ Wal.maxRecordBytes
  record : ∀ {c : Compressor} {z : List UInt8}, c.compress (canonicalBytes b) = .ok z →
    (SessionShim.bulkRecord z).length ≤ 65536 * 1024

omit [DedupFilter F] [SerdeJson] [FloatChoices] in
theorem Holding.sizes (h : s.Holding) {id : BlockId} {b : Block}
    (hget : s.session.shim.store.get id = some b) : Sizes b := by
  have hsmall := h.small id b hget
  simp only [maxRequestBytes] at hsmall
  refine ⟨?_, ?_, fun hz => ?_⟩
  · simp only [maxBlockPayloadBytes]
    omega
  · simp only [length_canonicalBytes, Wal.maxRecordBytes]
    omega
  · have hle := Compressor.length_compress_le hz
    rw [length_canonicalBytes] at hle
    simp only [SessionShim.bulkRecord, List.length_append, Lib.Bytes.length_toLe]
    omega

end Deployment

namespace Deployment

variable {F : Type} [DedupFilter F] [Blake3] [Zstd] [SerdeJson] [FloatChoices]
  {client : DlrChatClient} {s s' : Deployment F}

theorem Step.holding (h : Step client s s') (hs : s.Holding) :
    s'.Holding ∧ SessionShim.SameSetup s.session.shim s'.session.shim := by
  rcases h.session_cases with ⟨messages, request, rfl⟩ | hsame | ⟨root, hmoved⟩
  · unfold Deployment.prepare
    rcases s.session.prepareRef_cases messages request with ⟨e, hprep⟩ | ⟨nextSeq, prepared, hturn⟩
    · rw [hprep]
      exact ⟨hs, SessionShim.SameSetup.refl _⟩
    · rw [hturn.prepares]
      have hnext := hs.holdsLog.ingestTurn (s.session.turn messages)
      refine ⟨⟨fun id hid => ?_, hnext.addressed, fun id b hb => ?_,
        fun root hroot => (Option.some.inj hroot).symm⟩, s.session.shim.ingestTurn_sameSetup _⟩
      · simp only [hnext.ids] at hid
        obtain ⟨b, hb, rfl⟩ := List.mem_map.mp hid
        exact hnext.stored b hb
      · rcases SessionShim.stored_ingestBlocks s.session.shim hb with hold | hnew
        · exact hs.small id b hold
        · have hone := List.single_le_sum (fun _ _ => Nat.zero_le _) _
            (List.mem_map_of_mem (f := fun b : Block => 39 + b.payload.length) hnew)
          have hsize := hturn.size
          omega
  · have hkept : s'.Holding :=
      ⟨hsame ▸ hs.stored, hsame ▸ hs.addressed, hsame ▸ hs.small, hsame ▸ hs.pending⟩
    exact ⟨hkept, hsame ▸ SessionShim.SameSetup.refl _⟩
  · have hshim : s'.session.shim = (s.session.shim.applyAck root).2 := by
      rw [hmoved, (s.session.applyAck_spec root).1]
    obtain ⟨hids, hroot, hstore, -⟩ := s.session.shim.applyAck_spec root
    refine ⟨⟨?_, ?_, ?_, ?_⟩, hshim ▸ s.session.shim.applyAck_sameSetup root⟩
    · rw [hshim, hids, hstore]
      exact hs.stored
    · rw [hshim, hstore]
      exact hs.addressed
    · rw [hshim, hstore]
      exact hs.small
    · intro root' hpending
      rw [hshim, hroot]
      rw [hmoved] at hpending
      rcases (s.session.applyAck_spec root).2 with hkept | ⟨-, hnone⟩
      · exact hs.pending root' (hkept ▸ hpending)
      · rw [hnone] at hpending
        cases hpending

omit [DedupFilter F] [Zstd] [SerdeJson] [FloatChoices] in
theorem holding_initial {c : Compressor} (h : s.Initial c) : s.Holding := by
  obtain ⟨key, filter, hsession⟩ := h.session
  have hnone : ∀ id, s.session.shim.store.get id = none := by
    intro id
    rw [hsession]
    exact Lib.FinMap.get?_empty id
  refine ⟨?_, ?_, ?_, ?_⟩
  · rw [hsession]
    nofun
  · intro id b hb
    exact absurd ((hnone id).symm.trans hb) nofun
  · intro id b hb
    exact absurd ((hnone id).symm.trans hb) nofun
  · rw [hsession]
    nofun

theorem holding_of_run (h : Relation.ReflTransGen (Step client) s s') (hs : s.Holding) :
    s'.Holding ∧ SessionShim.SameSetup s.session.shim s'.session.shim := by
  induction h with
  | refl => exact ⟨hs, SessionShim.SameSetup.refl _⟩
  | tail _ hstep ih =>
      obtain ⟨hnext, hsetup⟩ := hstep.holding ih.1
      exact ⟨hnext, ih.2.trans hsetup⟩

/-- What a deployment can be synchronized from. -/
theorem Holding.synchronize_completes (h : s.Holding) {key : String} {filter : F} {c : Compressor}
    (hsetup : SessionShim.SameSetup (ChatSession.new key filter).shim s.session.shim)
    (hrt : Compressor.RoundTrips Compressor.default c)
    (hrtAppend : Compressor.RoundTrips (Compressor.default.withLevel SessionShim.appendLevel) c)
    {S : Set (List UInt8)} (hS : Set.InjOn Blake3.hash S)
    (hstored : ∀ id b, s.session.shim.store.get id = some b → canonicalBytes b ∈ S)
    (hcompressor : s.server.receiver.compressor = c) (hwf : s.server.receiver.WellFormed)
    (hserving : s.server.Serving client)
    (hdec : (s.server.receiver.session s.sid).decoders = ∅) (margin : UInt32) :
    ∃ frames, s.session.shim.bulkFramesFor
        (s.server.receiver.handleResync s.session.shim.resyncFrame).1 margin = .ok frames ∧
      ∀ fates : List Fate, (∀ fate ∈ fates, ∃ gateway, fate = .answered gateway) →
        frames.length < fates.length →
        let sent := .resync s.session.shim.resyncFrame :: frames.map .bulk
        (∀ f ∈ sent, (encodeFrame f).length ≤ maxRequestBytes) →
        let s' := s.synchronize client margin fates
        s'.session.pendingRoot = none ∧ s'.log = s'.session.shim.ids ∧
          ∀ id ∈ s'.log, s'.server.receiver.store.contains id = true := by
  have hblocks : ∀ b ∈ s.session.shim.ids.filterMap s.session.shim.store.get,
      ∃ id, s.session.shim.store.get id = some b := by
    intro b hb
    obtain ⟨id, -, hid⟩ := List.mem_filterMap.mp hb
    exact ⟨id, hid⟩
  have htransfer : s.session.shim.Transferable c
      (s.session.shim.ids.filterMap s.session.shim.store.get) S := by
    refine ⟨h.holdsLog, hsetup.fountainK, hsetup.fountainSymbolSize,
      hsetup.compressor ▸ hrt, fun b hb => ?_, fun b hb => ?_, hS, fun b hb => ?_, hstored⟩
    · obtain ⟨id, hid⟩ := hblocks b hb
      exact (h.sizes hid).payload
    · obtain ⟨id, hid⟩ := hblocks b hb
      exact fun z => (h.sizes hid).record
    · obtain ⟨id, hid⟩ := hblocks b hb
      exact hstored id b hid
  have hsmall : ∀ b ∈ s.session.shim.ids.filterMap s.session.shim.store.get,
      (canonicalBytes b).length ≤ Wal.maxRecordBytes := by
    intro b hb
    obtain ⟨id, hid⟩ := hblocks b hb
    exact (h.sizes hid).canonical
  obtain ⟨frames, hframes, hcompletes⟩ := Sidecar.synchronize_completes client htransfer hsmall
    (hsetup.appendCompressor ▸ hrtAppend) hcompressor hwf hserving hdec margin
  refine ⟨frames, hframes, ?_⟩
  intro fates hanswered hlen sent hsize s'
  obtain ⟨-, hshim, hcleared, hlog, hcontains, -⟩ := hcompletes fates hanswered hlen hsize
  obtain ⟨hids, -, -, hsid, -⟩ := s.session.shim.applyAck_spec s.session.shim.root
  have hids' : s'.session.shim.ids = s.session.shim.ids := by
    rw [show s'.session.shim = _ from hshim, hids]
  have hlog' : s'.log = s.session.shim.ids := by
    rw [log, sid, show s'.session.shim = _ from hshim, hsid]
    exact hlog
  refine ⟨hcleared h.pending, hlog'.trans hids'.symm, fun id hid => ?_⟩
  rw [hlog'] at hid
  exact hcontains id hid

/-! ## No decoder is left -/

section Quiet

variable {key : String} {filter : F} {c : Compressor}

omit [DedupFilter F] [SerdeJson] in
/-- The frames of a transfer out of the client's store belong to the session and deliver what
they carry. -/
theorem Holding.delivers (h : s.Holding)
    (hsetup : SessionShim.SameSetup (ChatSession.new key filter).shim s.session.shim)
    (hrt : Compressor.RoundTrips Compressor.default c) {missing : List BlockId} {margin : UInt32}
    {frames : List BulkFrame} (hframes : s.session.shim.bulkFramesFor missing margin = .ok frames)
    {b : BulkFrame} (hb : b ∈ frames) :
    b.sessionId = s.sid ∧ ∃ blocks, SessionShim.Delivers c b blocks := by
  have hsizes : ∀ b ∈ missing.filterMap s.session.shim.store.get, Sizes b := by
    intro b hb
    obtain ⟨id, -, hid⟩ := List.mem_filterMap.mp hb
    exact h.sizes hid
  obtain ⟨sent, groups, hsent, -, hdel⟩ := SessionShim.bulkFramesFor_delivers
    (show Compressor.RoundTrips s.session.shim.compressor c from hsetup.compressor ▸ hrt)
    hsetup.fountainK hsetup.fountainSymbolSize missing (fun b hb => (hsizes b hb).payload)
    (fun b hb _ => (hsizes b hb).record) margin
  obtain rfl : sent = frames := Except.ok.inj (hsent.symm.trans hframes)
  obtain ⟨g, -, hsid, hbg⟩ := Lib.forall₂_exists hdel hb
  exact ⟨hsid, g, hbg⟩

/-- The receiver has no decoder of the session. -/
structure Quiet (s : Deployment F) (c : Compressor) (r : Receiver) : Prop where
  compressor : r.compressor = c
  decoders : (r.session s.sid).decoders = ∅

omit [DedupFilter F] [SerdeJson] in
/-- What is handed to the sidecar leaves no decoder of the session behind. -/
theorem Quiet.frame {r : Receiver} (hr : s.Quiet c r) (h : s.Holding)
    (hsetup : SessionShim.SameSetup (ChatSession.new key filter).shim s.session.shim)
    (hrt : Compressor.RoundTrips Compressor.default c) {f : Frame} (hf : s.Sends f) :
    s.Quiet c (r.handleFrame f).2 := by
  obtain ⟨ops, haff, -⟩ := r.handleFrame_affects f
  refine ⟨haff.compressor.trans hr.compressor, ?_⟩
  by_cases hsid : f.sessionId = s.sid
  · cases hf with
    | other f hother => exact absurd hsid hother
    | append frame =>
        have hsame : (r.handleAppend frame).2.session s.sid = r.session s.sid :=
          hsid ▸ (r.handleAppend_session frame).1
        rw [Receiver.handleFrame_append_snd, hsame]
        exact hr.decoders
    | resync =>
        rw [Receiver.handleFrame_resync_snd]
        exact (Receiver.coldStarting_handleResync s.session.shim.resyncFrame hr.decoders).1.decoders
    | bulk missing margin frames hframes b hb =>
        obtain ⟨hown, blocks, hdel⟩ := h.delivers hsetup hrt hframes hb
        rw [Receiver.handleFrame_bulk_snd, ← hown]
        exact Receiver.decoders_handleBulk (by rw [hown]; exact hr.decoders)
          (hr.compressor.symm ▸ hdel)
  · rw [haff.session (Ne.symm hsid)]
    exact hr.decoders

omit [DedupFilter F] [SerdeJson] in
theorem Quiet.events {r : Receiver} (hr : s.Quiet c r) (h : s.Holding)
    (hsetup : SessionShim.SameSetup (ChatSession.new key filter).shim s.session.shim)
    (hrt : Compressor.RoundTrips Compressor.default c) {es : List Receiver.LogEvent}
    (hes : ∀ f, .frame f ∈ es → s.Sends f) : s.Quiet c (r.events es) := by
  induction es generalizing r with
  | nil => exact hr
  | cons e rest ih =>
      have hrest := fun f hf => hes f (List.mem_cons_of_mem _ hf)
      cases e with
      | frame f => exact ih (hr.frame h hsetup hrt (hes f List.mem_cons_self)) hrest
      | flush sync => exact ih ⟨hr.compressor, hr.decoders⟩ hrest

theorem Step.quiet (hstep : Step client s s') (hr : s.Quiet c s.server.receiver) (h : s.Holding)
    (hsetup : SessionShim.SameSetup (ChatSession.new key filter).shim s.session.shim)
    (hrt : Compressor.RoundTrips Compressor.default c) : s.Quiet c s'.server.receiver := by
  refine hstep.keeps (P := fun server => s.Quiet c server.receiver) ?_ ?_ hr
  · intro server call hsends hserver
    obtain ⟨es, hes, hcarries⟩ := serve_events server call
    rw [hes]
    exact hserver.events h hsetup hrt fun f hf => hsends f (hcarries f hf)
  · intro server hserver
    rw [readyz_events]
    exact hserver.events h hsetup hrt (by simp)

/-- In every run no decoder of the session is left between two steps. -/
theorem quiet_of_run (hrun : Relation.ReflTransGen (Step client) s s')
    (hr : s.Quiet c s.server.receiver) (h : s.Holding)
    (hsetup : SessionShim.SameSetup (ChatSession.new key filter).shim s.session.shim)
    (hrt : Compressor.RoundTrips Compressor.default c) : s'.Quiet c s'.server.receiver := by
  induction hrun with
  | refl => exact hr
  | tail hrun hstep ih =>
      obtain ⟨hmid, hkept⟩ := holding_of_run hrun h
      have hnext := hstep.quiet ih hmid (hsetup.trans hkept) hrt
      have hsid : _ = _ := (hstep.holding hmid).2.sessionId
      exact ⟨hnext.compressor, by rw [sid, hsid]; exact hnext.decoders⟩

end Quiet

/-- In every run, once the network answers: one synchronization with a sidecar that trusts the
driver and whose log device works completes, if each of its frames is within the request limit. No
request is pending then, the sidecar's log is that of the client, and it holds every block of it. -/
theorem deployed_synchronize_completes (client : DlrChatClient) {s₀ s : Deployment F}
    {c : Compressor} {store : ContentStore} (hinit : s₀.Initial c) (hopened : store.Opened)
    (hreceiver : s₀.server.receiver = Receiver.new store c)
    (hrt : Compressor.RoundTrips Compressor.default c)
    (hrtAppend : Compressor.RoundTrips (Compressor.default.withLevel SessionShim.appendLevel) c)
    (hrun : Relation.ReflTransGen (Step client) s₀ s) {S : Set (List UInt8)}
    (hS : Set.InjOn Blake3.hash S)
    (hstored : ∀ id b, s.session.shim.store.get id = some b → canonicalBytes b ∈ S)
    (hserving : s.server.Serving client) (margin : UInt32) :
    ∃ frames, s.session.shim.bulkFramesFor
        (s.server.receiver.handleResync s.session.shim.resyncFrame).1 margin = .ok frames ∧
      ∀ fates : List Fate, (∀ fate ∈ fates, ∃ gateway, fate = .answered gateway) →
        frames.length < fates.length →
        let sent := .resync s.session.shim.resyncFrame :: frames.map .bulk
        (∀ f ∈ sent, (encodeFrame f).length ≤ maxRequestBytes) →
        let s' := s.synchronize client margin fates
        s'.session.pendingRoot = none ∧ s'.log = s'.session.shim.ids ∧
          ∀ id ∈ s'.log, s'.server.receiver.store.contains id = true := by
  obtain ⟨hholding, hsetup⟩ := holding_of_run hrun (holding_initial hinit)
  obtain ⟨key, filter, hsession⟩ := hinit.session
  rw [hsession] at hsetup
  obtain ⟨es, hes⟩ := events_of_run hrun
  have hcompressor : s.server.receiver.compressor = c := by
    rw [hes, compressor_events, hreceiver]
    rfl
  have hwf : s.server.receiver.WellFormed := by
    rw [hes, hreceiver]
    exact wellFormed_events (Receiver.wellFormed_new hopened c) es
  have hstart : s₀.Quiet c s₀.server.receiver := by
    rw [hreceiver]
    exact ⟨rfl, Receiver.decoders_new store c _⟩
  have hfresh : SessionShim.SameSetup (ChatSession.new key filter).shim s₀.session.shim := by
    rw [hsession]
    exact SessionShim.SameSetup.refl _
  have hquiet := quiet_of_run hrun hstart (holding_initial hinit) hfresh hrt
  exact hholding.synchronize_completes hsetup hrt hrtAppend hS hstored hcompressor hwf hserving
    hquiet.decoders margin

/-- A turn of one block that never reached the sidecar, and what there is to transfer. -/
structure LostTurn (s₀ s : Deployment F) (b : Block) (frame : BulkFrame) : Prop where
  initial : s₀.Initial Compressor.default
  server : s.server = s₀.server
  pending : s.session.pendingRoot.isSome = true
  log : s.log = []
  stored : ∀ id b', s.session.shim.store.get id = some b' → b' = b
  missing : (s₀.server.receiver.handleResync s.session.shim.resyncFrame).1 = [b.blockId]
  frames : s.session.shim.bulkFramesFor [b.blockId] 0 = .ok [frame]
  sizes : ∀ f ∈ [.resync s.session.shim.resyncFrame, .bulk frame],
    (encodeFrame f).length ≤ maxRequestBytes

omit [DedupFilter F] [Blake3] [Zstd] [SerdeJson] [FloatChoices] in
theorem lostTurn_sample :
    letI := prefixHash
    letI := storedZstd
    letI := DedupFilter.exact
    letI := percentChoices
    let message : Value := .object [("role", .string "user")]
    letI := sampleJson [.object [], message]
    let opened : ContentStore := { ContentStore.new with wal := some ⟨[], 0, [], []⟩ }
    let server := SidecarState.new (Receiver.new opened Compressor.default) "g" none true
    let s₀ : Deployment (List BlockId) := ⟨ChatSession.new "chat" [], server, [], []⟩
    ∃ frame, LostTurn s₀ (s₀.prepare [message] (.object [])) ⟨.message, 1, message.print⟩ frame := by
  let _ := prefixHash
  let _ := storedZstd
  let _ := DedupFilter.exact
  let _ := percentChoices
  intro message
  let _ := sampleJson [.object [], message]
  intro opened server s₀
  let s₁ := s₀.prepare [message] (.object [])
  let b : Block := ⟨.message, 1, message.print⟩
  have hinit : s₀.Initial Compressor.default :=
    ⟨⟨"chat", [], by rfl⟩, by rfl, by decide +kernel, by rfl, by rfl⟩
  have hbefore : s₁.session.pendingRoot.isSome = true ∧ s₁.log = [] := by decide +kernel
  have hok : (s₀.session.prepareRef [message] (.object [])).1.toOption.isSome = true := by
    decide +kernel
  have hturn : s₀.session.turn [message] = [b] := by decide +kernel
  have hserver : s₁.server = s₀.server := by
    simp only [s₁, Deployment.prepare]
    split <;> rfl
  have honly : ∀ id b', s₁.session.shim.store.get id = some b' → b' = b := by
    intro id b' hget
    rcases s₀.session.prepareRef_cases [message] (.object []) with ⟨e, hprep⟩ | ⟨n, p, hprep⟩
    · rw [hprep] at hok
      cases hok
    · have hshim : s₁.session.shim = (s₀.session.shim.ingestTurn [b]).2 := by
        simp only [s₁, Deployment.prepare, hprep.prepares, hturn]
      rw [hshim] at hget
      rcases SessionShim.stored_ingestBlocks s₀.session.shim
        (show (s₀.session.shim.ingestBlocks [b]).2.store.get id = some b' from hget) with hold | hnew
      · exact absurd (hold.symm.trans (Lib.FinMap.get?_empty id)) nofun
      · exact List.mem_singleton.mp hnew
  let frame : BulkFrame := ((s₁.session.shim.bulkFramesFor [b.blockId] 0).toOption.getD []).headD
    ⟨0, 0, 0, 0, []⟩
  have hmissing : (s₀.server.receiver.handleResync s₁.session.shim.resyncFrame).1 =
      [b.blockId] := by decide +kernel
  have hframe : s₁.session.shim.bulkFramesFor [b.blockId] 0 = .ok [frame] := by decide +kernel
  have hsize : (encodeFrame (.resync s₁.session.shim.resyncFrame)).length ≤ maxRequestBytes ∧
      (encodeFrame (.bulk frame)).length ≤ maxRequestBytes := by
    decide +kernel
  change ∃ frame, LostTurn s₀ s₁ b frame
  clear_value s₁ s₀ frame
  refine ⟨frame, hinit, hserver, hbefore.1, hbefore.2, honly, hmissing, hframe, ?_⟩
  intro f hf
  rcases List.mem_cons.mp hf with rfl | hf
  · exact hsize.1
  · obtain rfl : f = .bulk frame := by simpa using hf
    exact hsize.2

omit [DedupFilter F] [Blake3] [Zstd] [SerdeJson] [FloatChoices] in
/-- A prepared turn that never reached the sidecar, whose log is empty. -/
theorem deployed_synchronize_completes_lost_turn :
    letI := prefixHash
    letI := storedZstd
    letI := DedupFilter.exact
    letI := percentChoices
    let message : Value := .object [("role", .string "user")]
    letI := sampleJson [.object [], message]
    let client : DlrChatClient := ⟨"h", none⟩
    let opened : ContentStore := { ContentStore.new with wal := some ⟨[], 0, [], []⟩ }
    let server := SidecarState.new (Receiver.new opened Compressor.default) "g" none true
    let s₀ : Deployment (List BlockId) := ⟨ChatSession.new "chat" [], server, [], []⟩
    let s₁ := s₀.prepare [message] (.object [])
    let s₂ := s₁.synchronize client 0 [.answered (.error "down"), .answered (.error "down")]
    s₁.session.pendingRoot.isSome = true ∧ s₁.log = [] ∧ s₂.session.pendingRoot = none ∧
      s₂.log = s₂.session.shim.ids := by
  let _ := prefixHash
  let _ := storedZstd
  let _ := DedupFilter.exact
  let _ := percentChoices
  intro message
  let _ := sampleJson [.object [], message]
  intro client opened server s₀ s₁ s₂
  obtain ⟨frame, h⟩ : ∃ frame, LostTurn s₀ s₁ ⟨.message, 1, message.print⟩ frame := lostTurn_sample
  have hopen : ContentStore.withWal [] [] [] = .ok opened := by
    rw [ContentStore.withWal, Wal.replay, Wal.replayFrom_nil]
    rfl
  have hserver : s₀.server = server := rfl
  have hserving : server.Serving client := by
    refine ⟨?_, ⟨_, rfl, by simp, by simp⟩, rfl⟩
    rintro token ⟨⟩
  have hrun : Relation.ReflTransGen (Step client) s₀ s₁ :=
    .single (.prepare s₀ [message] (.object []))
  -- from here on the states are opaque, so that nothing evaluates them again
  have hs₂ : s₂ = s₁.synchronize client 0
      [.answered (.error "down"), .answered (.error "down")] := rfl
  clear_value s₂ s₁ s₀
  have hserver₁ : s₁.server = server := h.server.trans hserver
  have hrt : ∀ sender, Compressor.RoundTrips sender Compressor.default :=
    fun sender => Compressor.roundTrips_storedZstd sender _
  obtain ⟨frames, hframes, hcompletes⟩ := deployed_synchronize_completes client h.initial
    (.replayed hopen) (by rw [hserver]; rfl) (hrt _) (hrt _) hrun
    (Set.injOn_singleton Blake3.hash (canonicalBytes ⟨.message, 1, message.print⟩))
    (fun id b' hget => congrArg canonicalBytes (h.stored id b' hget))
    (by rw [hserver₁]; exact hserving) 0
  rw [h.server, h.missing, h.frames] at hframes
  obtain rfl : frames = [frame] := (Except.ok.inj hframes).symm
  obtain ⟨hnone, hlog, -⟩ := hcompletes [.answered (.error "down"), .answered (.error "down")]
    (by
      intro fate hfate
      exact ⟨.error "down", by simpa using hfate⟩)
    (by simp) h.sizes
  rw [← hs₂] at hnone hlog
  exact ⟨h.pending, h.log, hnone, hlog⟩

end Deployment

end Dlr.Sidecar
