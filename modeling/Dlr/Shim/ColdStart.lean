import Dlr.Shim.History
import Dlr.Shim.Transfer

/-!
# Cold start in any order

A RESYNC seeds the receiver's log with the client's manifest and names the missing
blocks. The frames of the transfer may arrive in any order, repeatedly, and between
frames of other sessions: the receiver acknowledges the client's root exactly once,
when the last missing block is there.
-/

namespace Dlr

open Dlr.Core Coding Compress Lib Lib.Bytes Lib.Machine

namespace Receiver

variable [Blake3] [Zstd]

/-- The ACKs that answer frames of one session, in order. -/
def acks (sid : SessionId) : Receiver → List Frame → List AckFrame
  | _, [] => []
  | r, f :: rest =>
      match r.handleFrame f with
      | (.ok (some (.ack a)), r') => if f.sessionId = sid then a :: acks sid r' rest
          else acks sid r' rest
      | (_, r') => acks sid r' rest

/-- A session in or after a cold start without unfinished generations: it is
acknowledged exactly when nothing is pending. -/
structure ColdStarting (r : Receiver) (sid : SessionId) (c : Compressor) (log : SessionLog) :
    Prop where
  compressor : r.compressor = c
  known : (r.sessions.get? sid).isSome = true
  decoders : (r.session sid).decoders = ∅
  acked : (r.session sid).acked = decide ((r.session sid).pending = ∅)
  log : logOf r.store.sessions sid = log

section Step

variable {r : Receiver} {sid : SessionId} {c : Compressor} {log : SessionLog}

omit [Blake3] [Zstd] in
theorem ColdStarting.sessionRoot (h : r.ColdStarting sid c log) :
    r.store.sessionRoot sid = log.root := by
  rw [ContentStore.sessionRoot, h.log]

omit [Zstd] in
/-- Frames of other sessions do not interfere. -/
theorem ColdStarting.of_affects (h : r.ColdStarting sid c log) {r' : Receiver} {s : SessionId}
    {ops : List StoreOp} (haff : Affects r r' s ops) (hs : sid ≠ s) :
    r'.ColdStarting sid c log ∧ (r'.session sid).pending = (r.session sid).pending := by
  have hsess := haff.session hs
  refine ⟨⟨haff.compressor.trans h.compressor, ?_, ?_, ?_, ?_⟩, by rw [hsess]⟩
  · rw [haff.others sid hs]
    exact h.known
  · rw [hsess]
    exact h.decoders
  · rw [hsess]
    exact h.acked
  · rw [haff.logOf hs]
    exact h.log

omit [Blake3] [Zstd] in
/-- A receiver that was just opened has no decoder. -/
theorem decoders_new (store : ContentStore) (c : Compressor) (sid : SessionId) :
    ((Receiver.new store c).session sid).decoders = ∅ := by
  simp only [Receiver.session, Receiver.new, FinMap.get?_mapValues]
  cases store.sessions.get? sid with
  | none => rfl
  | some log => rfl

omit [Blake3] [Zstd] in
/-- A RESYNC starts the cold start, if no decoder of an earlier transfer is left. -/
theorem coldStarting_handleResync {r : Receiver} (frame : ResyncFrame)
    (hdec : (r.session frame.sessionId).decoders = ∅) :
    (r.handleResync frame).2.ColdStarting frame.sessionId r.compressor
        ⟨frame.manifest, frame.clientRoot⟩ ∧
      ((r.handleResync frame).2.session frame.sessionId).pending =
        (r.handleResync frame).1.toFinset := by
  refine ⟨⟨rfl, by simp [handleResync, setSession], ?_, ?_, ?_⟩, by simp [handleResync]⟩
  · simpa [handleResync] using hdec
  · simp only [handleResync, session_setSession_self, List.toFinset_eq_empty_iff]
    cases frame.manifest.filter fun id => !r.store.contains id <;> rfl
  · simp [handleResync, logOf_set]

/-- A frame that delivers its blocks leaves no decoder behind. -/
theorem decoders_handleBulk {frame : BulkFrame} (hdec : (r.session frame.sessionId).decoders = ∅)
    {blocks : List Block} (hdel : SessionShim.Delivers r.compressor frame blocks) :
    ((r.handleBulk frame).2.session frame.sessionId).decoders = ∅ := by
  obtain ⟨d, syms, hadd, hdecode, hrec⟩ := hdel
  rw [r.handleBulk_of_decoded frame (by rw [hdec, FinMap.get?_empty]; exact hadd) hdecode hrec]
  apply FinMap.ext_get?
  intro g
  simp [finished, hdec, FinMap.get?_unset]

/-- A frame of the transfer retires the ids it delivers; it is acknowledged when it
retires the last pending one. -/
theorem ColdStarting.handleBulk {frame : BulkFrame} (h : r.ColdStarting frame.sessionId c log)
    {blocks : List Block} (hdel : SessionShim.Delivers c frame blocks) :
    let ids := (blocks.map Block.blockId).toFinset
    (r.handleBulk frame).1 = .ok (if (r.session frame.sessionId).pending \ ids = ∅ ∧
        (r.session frame.sessionId).pending ≠ ∅ then some log.root else none) ∧
      (r.handleBulk frame).2.ColdStarting frame.sessionId c log ∧
      ((r.handleBulk frame).2.session frame.sessionId).pending =
        (r.session frame.sessionId).pending \ ids := by
  intro ids
  have hdecoders := decoders_handleBulk h.decoders (h.compressor.symm ▸ hdel)
  obtain ⟨d, syms, hadd, hdec, hrec⟩ := hdel
  have hids : ((blocks.map fun b => (b, b.blockId)).map Prod.snd).toFinset = ids := by
    simp [ids, Function.comp_def]
  have hrun := r.handleBulk_of_decoded frame
    (by rw [h.decoders, FinMap.get?_empty]; exact hadd) hdec (h.compressor.symm ▸ hrec)
  rw [hids] at hrun
  have hacked : ((r.session frame.sessionId).acked = false) ↔
      (r.session frame.sessionId).pending ≠ ∅ := by
    rw [h.acked, decide_eq_false_iff_not]
  rw [hrun] at hdecoders ⊢
  refine ⟨?_, ⟨h.compressor, by simp [finished, setSession], hdecoders, ?_, ?_⟩, ?_⟩
  · simp only [hacked, h.sessionRoot]
  · simp only [finished, session_setSession_self, hids, h.acked]
    by_cases hp : (r.session frame.sessionId).pending = ∅ <;> simp [hp]
  · simp only [finished, setSession_store, performAll_contentOps_sessions]
    exact h.log
  · simp only [finished, session_setSession_self, hids]

end Step

section Run

variable {sid : SessionId} {c : Compressor} {log : SessionLog}

/-- The frames of a run that belong to the session are frames of the transfer. -/
def TransferOnly (sid : SessionId) (c : Compressor) (run : List Frame) : Prop :=
  ∀ f ∈ run, f.sessionId = sid → ∃ b blocks, f = .bulk b ∧ SessionShim.Delivers c b blocks

/-- Some frame of the run delivers the block. -/
def DeliveredBy (sid : SessionId) (c : Compressor) (run : List Frame) (id : BlockId) : Prop :=
  ∃ b blocks, .bulk b ∈ run ∧ b.sessionId = sid ∧ SessionShim.Delivers c b blocks ∧
    id ∈ blocks.map Block.blockId

/-- A frame without an ACK for the session leaves the collected ACKs to the rest. -/
theorem acks_cons_of_ne {r : Receiver} {f : Frame} (rest : List Frame) (h : f.sessionId ≠ sid) :
    acks sid r (f :: rest) = acks sid (r.handleFrame f).2 rest := by
  rw [acks]
  split
  · rename_i hf
    rw [if_neg h, hf]
  · rename_i hf
    rw [hf]

theorem acks_cons_bulk {r : Receiver} {b : BulkFrame} {root : Option MerkleRoot}
    (rest : List Frame) (h : (r.handleBulk b).1 = .ok root) :
    acks b.sessionId r (.bulk b :: rest) =
      (root.map fun root => ⟨b.sessionId, root⟩).toList ++
        acks b.sessionId (r.handleBulk b).2 rest := by
  have hpair : r.handleBulk b = (.ok root, (r.handleBulk b).2) := by rw [← h]
  cases root with
  | none =>
      have hf : r.handleFrame (.bulk b) = (.ok none, (r.handleBulk b).2) := by
        simp only [handleFrame]
        rw [hpair]
      simp only [acks, hf]
      rfl
  | some root =>
      have hf : r.handleFrame (.bulk b) =
          (.ok (some (.ack ⟨b.sessionId, root⟩)), (r.handleBulk b).2) := by
        simp only [handleFrame]
        rw [hpair]
      simp only [acks, hf]
      exact if_pos rfl

/-- A run that delivers everything pending is acknowledged exactly once, unless nothing
was pending from the start. -/
theorem ColdStarting.run {r : Receiver} (h : r.ColdStarting sid c log) {run : List Frame}
    (honly : TransferOnly sid c run)
    (hall : ∀ id ∈ (r.session sid).pending, DeliveredBy sid c run id) :
    acks sid r run = (if (r.session sid).pending = ∅ then [] else [⟨sid, log.root⟩]) ∧
      (r.handleAll run).ColdStarting sid c log ∧
      ((r.handleAll run).session sid).pending = ∅ := by
  induction run generalizing r with
  | nil =>
      have hempty : (r.session sid).pending = ∅ := by
        apply Finset.eq_empty_of_forall_notMem
        intro id hid
        obtain ⟨b, blocks, hmem, -⟩ := hall id hid
        cases hmem
      exact ⟨by rw [if_pos hempty]; rfl, h, hempty⟩
  | cons f rest ih =>
      have honly' : TransferOnly sid c rest := fun g hg => honly g (List.mem_cons_of_mem _ hg)
      by_cases hf : f.sessionId = sid
      · obtain ⟨b, blocks, rfl, hdel⟩ := honly f List.mem_cons_self hf
        obtain rfl : b.sessionId = sid := hf
        obtain ⟨hans, hnext, hpend⟩ := h.handleBulk hdel
        have hall' : ∀ id ∈ ((r.handleBulk b).2.session b.sessionId).pending,
            DeliveredBy b.sessionId c rest id := by
          intro id hid
          rw [hpend, Finset.mem_sdiff, List.mem_toFinset] at hid
          obtain ⟨b', blocks', hmem, hsid, hdel', hin⟩ := hall id hid.1
          rcases List.mem_cons.mp hmem with heq | hrest
          · cases heq
            rw [hdel'.unique hdel] at hin
            exact absurd hin hid.2
          · exact ⟨b', blocks', hrest, hsid, hdel', hin⟩
        obtain ⟨hacks, hdone, hempty⟩ := ih hnext honly' hall'
        refine ⟨?_, by simpa [handleAll] using hdone, by simpa [handleAll] using hempty⟩
        rw [acks_cons_bulk rest hans, hacks, hpend]
        by_cases hp : (r.session b.sessionId).pending = ∅
        · simp [hp]
        · by_cases hlast : (r.session b.sessionId).pending \
              (blocks.map Block.blockId).toFinset = ∅
          · simp [hp, hlast]
          · simp [hp, hlast]
      · obtain ⟨ops, haff, -⟩ := r.handleFrame_affects f
        obtain ⟨hnext, hpend⟩ := h.of_affects haff (Ne.symm hf)
        have hall' : ∀ id ∈ ((r.handleFrame f).2.session sid).pending,
            DeliveredBy sid c rest id := by
          intro id hid
          rw [hpend] at hid
          obtain ⟨b, blocks, hmem, hsid, hdel⟩ := hall id hid
          rcases List.mem_cons.mp hmem with rfl | hrest
          · exact absurd hsid hf
          · exact ⟨b, blocks, hrest, hsid, hdel⟩
        obtain ⟨hacks, hdone, hempty⟩ := ih hnext honly' hall'
        exact ⟨by rw [acks_cons_of_ne rest hf, hacks, hpend], hdone, hempty⟩

end Run

end Receiver

namespace SessionShim

variable {F : Type} [DedupFilter F] [Blake3] [Zstd]

/-- The client's next turn on top of the acknowledged cold start. -/
def nextTurn (shim : SessionShim F) (blocks : List Block) : AppendFrame :=
  ((shim.applyAck shim.root).2.ingestTurn blocks).1

/-- The receiver has the client's log, and takes its next turn exactly when the turn is
covered: a block that only the shared store of the client's host holds is referred to and
refused. -/
structure CaughtUp (shim : SessionShim F) (blocks : List Block) (r : Receiver) : Prop where
  reconstructs : r.reconstruct shim.sessionId = blocks
  base : ∀ next, (shim.nextTurn next).baseRoot = shim.root
  accepts : ∀ next : List Block, (∀ b ∈ next, b.payload.length ≤ usizeMax) →
    ((∃ ack, (r.handleAppend (shim.nextTurn next)).1 = .ok ack) ↔
      (shim.applyAck shim.root).2.Covered (fun id => r.store.contains id = true) next)

section Lookup

variable {shim : SessionShim F} {blocks : List Block} {S : Set (List UInt8)}

omit [DedupFilter F] [Zstd] in
/-- The shim's store holds the client's blocks themselves. -/
theorem HoldsLog.lookup (h : shim.HoldsLog blocks) (hS : Set.InjOn Blake3.hash S)
    (hblocks : ∀ b ∈ blocks, canonicalBytes b ∈ S)
    (hstore : ∀ id b, shim.store.get id = some b → canonicalBytes b ∈ S) :
    ∀ b ∈ blocks, shim.store.get b.blockId = some b := by
  intro b hb
  obtain ⟨b', hb'⟩ := ContentStore.contains_iff.mp (h.stored b hb)
  have haddr : b.blockId = b'.blockId := h.addressed _ _ hb'
  rw [eq_of_blockId_eq hS (hblocks b hb) (hstore _ _ hb') haddr]
  exact haddr ▸ hb'

omit [DedupFilter F] [Zstd] in
/-- Ids of the client's log look up to blocks of the client's log. -/
theorem HoldsLog.lookup_all (h : shim.HoldsLog blocks)
    (hget : ∀ b ∈ blocks, shim.store.get b.blockId = some b) {missing : List BlockId}
    (hsub : ∀ id ∈ missing, id ∈ shim.ids) :
    ∃ found, List.Forall₂ (fun id b => shim.store.get id = some b) missing found ∧
      (∀ b ∈ found, b ∈ blocks) ∧ found.map Block.blockId = missing := by
  induction missing with
  | nil => exact ⟨[], .nil, by simp, rfl⟩
  | cons id rest ih =>
      obtain ⟨found, hfound, hmem, hids⟩ := ih fun k hk => hsub k (List.mem_cons_of_mem _ hk)
      have hid := hsub id List.mem_cons_self
      rw [h.ids] at hid
      obtain ⟨b, hb, rfl⟩ := List.mem_map.mp hid
      refine ⟨b :: found, .cons (hget b hb) hfound, ?_, by rw [List.map_cons, hids]⟩
      intro b' hb'
      rcases List.mem_cons.mp hb' with rfl | hrest
      · exact hb
      · exact hmem b' hrest

end Lookup

section Transfer

variable {shim : SessionShim F} {c : Compressor} {blocks : List Block} {S : Set (List UInt8)}

/-- What a cold start relies on: the client's blocks are stored, small enough to travel
and compressed reversibly, and their addresses do not collide within `S`. -/
structure Transferable (shim : SessionShim F) (c : Compressor) (blocks : List Block)
    (S : Set (List UInt8)) : Prop where
  holds : shim.HoldsLog blocks
  fountainK : shim.fountainK = 64
  fountainSymbolSize : shim.fountainSymbolSize = 1024
  roundTrips : Compressor.RoundTrips shim.compressor c
  payload : ∀ b ∈ blocks, b.payload.length ≤ maxBlockPayloadBytes
  record : ∀ b ∈ blocks, ∀ z, shim.compressor.compress (canonicalBytes b) = .ok z →
    (bulkRecord z).length ≤ 65536 * 1024
  injOn : Set.InjOn Blake3.hash S
  hashed : ∀ b ∈ blocks, canonicalBytes b ∈ S
  stored : ∀ id b, shim.store.get id = some b → canonicalBytes b ∈ S

omit [DedupFilter F] in
/-- What the receiver is missing is packed into frames that deliver all of it. -/
theorem Transferable.frames [FloatChoices] (h : shim.Transferable c blocks S) (r : Receiver)
    (margin : UInt32) :
    ∃ frames, shim.bulkFramesFor (r.handleResync shim.resyncFrame).1 margin = .ok frames ∧
      (∀ b ∈ frames, b.sessionId = shim.sessionId ∧
        ∃ g, Delivers c b g ∧ ∀ block ∈ g, block ∈ blocks) ∧
      ∀ id ∈ (r.handleResync shim.resyncFrame).1, ∃ b ∈ frames, ∃ g, Delivers c b g ∧
        id ∈ g.map Block.blockId := by
  have hsub : ∀ id ∈ (r.handleResync shim.resyncFrame).1, id ∈ shim.ids :=
    fun id hid => (List.mem_filter.mp hid).1
  obtain ⟨found, hget, hfound, hids⟩ :=
    h.holds.lookup_all (h.holds.lookup h.injOn h.hashed h.stored) hsub
  have hall := filterMap_get_eq hget
  obtain ⟨frames, groups, hframes, hflat, hdel⟩ := bulkFramesFor_delivers h.roundTrips h.fountainK
    h.fountainSymbolSize (r.handleResync shim.resyncFrame).1
    (fun b hb => h.payload b (hfound b (hall ▸ hb)))
    (fun b hb => h.record b (hfound b (hall ▸ hb))) margin
  rw [hall] at hflat
  refine ⟨frames, hframes, fun b hb => ?_, fun id hid => ?_⟩
  · obtain ⟨g, hg, hsid, hbg⟩ := forall₂_exists hdel hb
    exact ⟨hsid, g, hbg, fun block hblock =>
      hfound block (hflat ▸ List.mem_flatten_of_mem hg hblock)⟩
  · rw [← hids, ← hflat] at hid
    obtain ⟨block, hblock, rfl⟩ := List.mem_map.mp hid
    obtain ⟨g, hg, hin⟩ := List.mem_flatten.mp hblock
    obtain ⟨b, hb, -, hbg⟩ := forall₂_exists hdel.flip hg
    exact ⟨b, hb, g, hbg, List.mem_map_of_mem hin⟩

omit [DedupFilter F] in
/-- After a RESYNC without leftover decoders, any run with all the frames of the transfer
and no other frame of the session ends the cold start with one ACK. -/
theorem Transferable.transfer [FloatChoices] (h : shim.Transferable c blocks S) {r : Receiver}
    (hc : r.compressor = c) (hdec : (r.session shim.sessionId).decoders = ∅) (margin : UInt32) :
    ∃ frames, shim.bulkFramesFor (r.handleResync shim.resyncFrame).1 margin = .ok frames ∧
      ∀ run : List Frame, (∀ b ∈ frames, .bulk b ∈ run) →
        (∀ f ∈ run, f.sessionId = shim.sessionId → ∃ b ∈ frames, f = .bulk b) →
        Receiver.acks shim.sessionId (r.handleResync shim.resyncFrame).2 run =
            (if (r.handleResync shim.resyncFrame).1 = [] then []
              else [⟨shim.sessionId, shim.root⟩]) ∧
          ((r.handleResync shim.resyncFrame).2.handleAll run).ColdStarting shim.sessionId c
            ⟨shim.ids, shim.root⟩ ∧
          (((r.handleResync shim.resyncFrame).2.handleAll run).session
            shim.sessionId).pending = ∅ := by
  set missing := (r.handleResync shim.resyncFrame).1 with hmissing
  obtain ⟨hstart, hpend⟩ : (r.handleResync shim.resyncFrame).2.ColdStarting shim.sessionId
        r.compressor ⟨shim.ids, shim.root⟩ ∧
      ((r.handleResync shim.resyncFrame).2.session shim.sessionId).pending = missing.toFinset :=
    Receiver.coldStarting_handleResync shim.resyncFrame hdec
  rw [hc] at hstart
  obtain ⟨frames, hframes, hdel, hcover⟩ := h.frames r margin
  refine ⟨frames, hframes, fun run hcontains honly => ?_⟩
  have honly' : Receiver.TransferOnly shim.sessionId c run := by
    intro f hf hsid
    obtain ⟨b, hb, rfl⟩ := honly f hf hsid
    obtain ⟨-, g, hbg, -⟩ := hdel b hb
    exact ⟨b, g, rfl, hbg⟩
  have hall : ∀ id ∈ ((r.handleResync shim.resyncFrame).2.session shim.sessionId).pending,
      Receiver.DeliveredBy shim.sessionId c run id := by
    intro id hid
    rw [hpend, List.mem_toFinset] at hid
    obtain ⟨b, hb, g, hbg, hin⟩ := hcover id hid
    exact ⟨b, g, hcontains b hb, (hdel b hb).1, hbg, hin⟩
  obtain ⟨hacks, hdone, hempty⟩ := Receiver.ColdStarting.run hstart honly' hall
  refine ⟨?_, hdone, hempty⟩
  simp only [hacks, hpend, List.toFinset_eq_empty_iff]

omit [DedupFilter F] in
/-- A finished cold start reconstructs to the client's blocks. -/
theorem Transferable.reconstructs (h : shim.Transferable c blocks S) {r : Receiver}
    (hwf : r.WellFormed) (hdone : r.ColdStarting shim.sessionId c ⟨shim.ids, shim.root⟩)
    (hempty : (r.session shim.sessionId).pending = ∅)
    (hhashed : ∀ id b, r.store.get id = some b → canonicalBytes b ∈ S) :
    r.reconstruct shim.sessionId = blocks := by
  apply eq_of_map_blockId_eq h.injOn _ h.hashed
  · rw [hwf.reconstruct_ids hempty, ContentStore.sessionIds, hdone.log, h.holds.ids]
  · intro b hb
    obtain ⟨id, -, hid⟩ := forall₂_exists (hwf.reconstruct hempty).2.flip hb
    exact hhashed id b hid

/-- A finished cold start leaves the receiver caught up with the client. -/
theorem Transferable.caughtUp (h : shim.Transferable c blocks S)
    (hrt : Compressor.RoundTrips shim.appendCompressor c) {r : Receiver} (hwf : r.WellFormed)
    (hdone : r.ColdStarting shim.sessionId c ⟨shim.ids, shim.root⟩)
    (hempty : (r.session shim.sessionId).pending = ∅)
    (hhashed : ∀ id b, r.store.get id = some b → canonicalBytes b ∈ S) :
    shim.CaughtUp blocks r := by
  obtain ⟨-, -, -, hsid, hcomp, -, -⟩ := shim.applyAck_spec shim.root
  have hbase : (shim.applyAck shim.root).2.baseRoot = shim.root := by
    simp [SessionShim.applyAck]
  refine ⟨h.reconstructs hwf hdone hempty hhashed, ?_, ?_⟩
  · intro next
    rw [nextTurn, ingestTurn_frame]
    exact hbase
  · intro next hfit
    exact handleAppend_accepts_iff _ next (by rw [hcomp, hdone.compressor]; exact hrt) hfit
      (by rw [hsid]; exact hempty) (by rw [hsid, hbase, hdone.sessionRoot])

end Transfer

omit [DedupFilter F] in
/-- The answer to a RESYNC, by whether anything is missing. -/
theorem handleFrame_resync_answer (shim : SessionShim F) (r : Receiver) :
    (r.handleFrame (.resync shim.resyncFrame)).1 =
      .ok (some (if (r.handleResync shim.resyncFrame).1 = [] then .ack ⟨shim.sessionId, shim.root⟩
        else .missing ⟨shim.sessionId, (r.handleResync shim.resyncFrame).1⟩)) := by
  have hroot : (r.handleResync shim.resyncFrame).2.store.sessionRoot shim.sessionId = shim.root := by
    simp [Receiver.handleResync, resyncFrame, ContentStore.sessionRoot, logOf_set]
  simp only [Receiver.handleFrame]
  split_ifs
  · exact congrArg (fun root => Except.ok (some (Frame.ack ⟨shim.sessionId, root⟩))) hroot
  · rfl

/-- Cold start does not depend on the delivery order. A receiver without leftover decoders
acknowledges the RESYNC at once, or names the missing blocks; then any run with every frame
of their transfer, whatever repetitions and frames of other sessions it has, is answered
with exactly one ACK, of the client's root, and leaves the receiver caught up: the client's
next turn is accepted if and only if it is covered by what the receiver holds. -/
theorem cold_start_any_order [FloatChoices] {client server : ContentStore} (hclient : client.Opened)
    (hserver : server.Opened) (sid : SessionId) (compressor c : Compressor) (filter : F)
    (calls : List (Call F)) (earlier : List Frame) (margin : UInt32)
    {shim : SessionShim F} (hshim : shim = (withFilter sid client compressor filter).callAll calls)
    {r : Receiver} (hr : r = (Receiver.new server c).handleAll earlier)
    (hrt : Compressor.RoundTrips compressor c)
    (hrtAppend : Compressor.RoundTrips (compressor.withLevel appendLevel) c)
    (hpayload : ∀ b ∈ ingested calls, b.payload.length ≤ maxBlockPayloadBytes)
    (hrecord : ∀ b ∈ ingested calls, ∀ z, compressor.compress (canonicalBytes b) = .ok z →
      (bulkRecord z).length ≤ 65536 * 1024)
    {S : Set (List UInt8)} (hS : Set.InjOn Blake3.hash S)
    (hhashed : ∀ b ∈ ingested calls, canonicalBytes b ∈ S)
    (hstored : ∀ id b, shim.store.get id = some b → canonicalBytes b ∈ S)
    (hdec : (r.session sid).decoders = ∅) :
    let answer := r.handleFrame (.resync shim.resyncFrame)
    (answer.1 = .ok (some (.ack ⟨sid, shim.root⟩)) ∧
      ((∀ id b, answer.2.store.get id = some b → canonicalBytes b ∈ S) →
        shim.CaughtUp (ingested calls) answer.2)) ∨
    ∃ missing frames, answer.1 = .ok (some (.missing ⟨sid, missing⟩)) ∧
      shim.bulkFramesFor missing margin = .ok frames ∧
      ∀ run : List Frame, (∀ b ∈ frames, .bulk b ∈ run) →
        (∀ f ∈ run, f.sessionId = sid → ∃ b ∈ frames, f = .bulk b) →
        Receiver.acks sid answer.2 run = [⟨sid, shim.root⟩] ∧
        ((∀ id b, (answer.2.handleAll run).store.get id = some b → canonicalBytes b ∈ S) →
          shim.CaughtUp (ingested calls) (answer.2.handleAll run)) := by
  intro answer
  have hsetup : SameSetup (withFilter sid client compressor filter) shim :=
    hshim ▸ callAll_sameSetup _ calls
  obtain rfl : shim.sessionId = sid := hsetup.sessionId
  have hholds : shim.HoldsLog (ingested calls) := by
    have hall := (holdsLog_withFilter shim.sessionId hclient compressor filter).callAll calls
    rwa [← hshim, List.nil_append] at hall
  have hcompressor : r.compressor = c := by
    rw [hr, Receiver.handleAll_compressor]
    rfl
  have htransferable : shim.Transferable c (ingested calls) S :=
    ⟨hholds, hsetup.fountainK, hsetup.fountainSymbolSize, hsetup.compressor ▸ hrt, hpayload,
      hsetup.compressor ▸ hrecord, hS, hhashed, hstored⟩
  have hwf : answer.2.WellFormed :=
    (hr ▸ (Receiver.wellFormed_new hserver c).handleAll earlier : r.WellFormed).handleFrame _
  have hnext : answer.2 = (r.handleResync shim.resyncFrame).2 :=
    Receiver.handleFrame_resync_snd r shim.resyncFrame
  have hanswer := shim.handleFrame_resync_answer r
  obtain ⟨frames, hframes, hrun⟩ := htransferable.transfer hcompressor hdec margin
  rw [← hnext] at hrun
  by_cases hmissing : (r.handleResync shim.resyncFrame).1 = []
  · rw [if_pos hmissing] at hanswer
    refine Or.inl ⟨hanswer, fun hin => ?_⟩
    -- nothing is missing: the transfer has no frames and the empty run completes it
    have hnone : frames = [] := by
      rw [hmissing] at hframes
      exact (Except.ok.inj hframes).symm
    obtain ⟨-, hdone, hempty⟩ := hrun [] (by simp [hnone]) (by simp)
    exact htransferable.caughtUp (hsetup.appendCompressor ▸ hrtAppend) hwf hdone hempty hin
  · rw [if_neg hmissing] at hanswer
    refine Or.inr ⟨_, frames, hanswer, hframes, fun run hcontains honly => ?_⟩
    obtain ⟨hacks, hdone, hempty⟩ := hrun run hcontains honly
    rw [if_neg hmissing] at hacks
    exact ⟨hacks, htransferable.caughtUp (hsetup.appendCompressor ▸ hrtAppend)
      (hwf.handleAll run) hdone hempty⟩

/-! ## Two frames -/

/-- A message of which a chunk takes only one. -/
def largeMessage (seq : UInt64) : Block := ⟨.message, seq, List.replicate 40000 8⟩

omit [DedupFilter F] [Blake3] [Zstd] in
/-- The digest of a block begins with its kind and its number. -/
theorem seq_eq_of_prefixHash {b b' : Block}
    (h : prefixHash.hash (canonicalBytes b) = prefixHash.hash (canonicalBytes b')) :
    b.seq = b'.seq := by
  have hseq : ∀ b : Block, ((prefixHash.hash (canonicalBytes b)).bytes.drop 2).take 8 =
      toLe 8 b.seq.toNat := by
    intro b
    have hdigest : (prefixHash.hash (canonicalBytes b)).bytes =
        1 :: b.kind.toByte :: (toLe 8 b.seq.toNat ++ (toLe 8 b.payload.length ++ b.payload ++
          List.replicate 31 0)).take 30 := by
      change 1 :: (canonicalBytes b ++ List.replicate 31 0).take 31 = _
      simp [canonicalBytes]
    rw [hdigest, List.drop_succ_cons, List.drop_succ_cons, List.drop_zero, List.take_take,
      Nat.min_eq_left (by decide), List.take_left' (length_toLe 8 _)]
  have hbytes : toLe 8 b.seq.toNat = toLe 8 b'.seq.toNat := by rw [← hseq b, h, hseq b']
  have hnat := congrArg ofLe hbytes
  rw [ofLe_toLe b.seq.toNat_lt, ofLe_toLe b'.seq.toNat_lt] at hnat
  exact UInt64.toNat_inj.mp hnat

omit [DedupFilter F] [Blake3] [Zstd] in
theorem encodeRecord_storedZstd (shim : SessionShim F) (b : Block) :
    letI := storedZstd
    shim.encodeRecord b = .ok (bulkRecord (0x00 :: canonicalBytes b)) := by
  simp only [encodeRecord, Compressor.compress_storedZstd]

omit [DedupFilter F] [Blake3] [Zstd] in
/-- Two records that are too large for one chunk. -/
theorem packChunks_pair {limit : Nat} {first last : List UInt8} (hfirst : first ≠ [])
    (hlast : last ≠ []) (h : limit < first.length + last.length) :
    packChunks limit [first, last] [] = [first, last] := by
  simp only [packChunks, ne_eq, not_true_eq_false, false_and, if_false, List.nil_append]
  rw [if_pos ⟨hfirst, h⟩, if_neg hlast]

omit [DedupFilter F] [Blake3] [Zstd] in
/-- Two large messages fit into two frames, not into one. -/
theorem largeMessages_frames :
    letI := prefixHash
    letI := storedZstd
    letI := percentChoices
    ∀ {shim : SessionShim F} {frames : List BulkFrame}, shim.fountainK = 64 →
      shim.fountainSymbolSize = 1024 →
      shim.store.get (largeMessage 1).blockId = some (largeMessage 1) →
      shim.store.get (largeMessage 2).blockId = some (largeMessage 2) →
      shim.bulkFramesFor [(largeMessage 1).blockId, (largeMessage 2).blockId] 0 = .ok frames →
      frames.length = 2 ∧
        ∀ b ∈ frames, b.symbols.length = 40 ∧ ∀ s ∈ b.symbols, s.length = 1029 := by
  let _ := prefixHash
  let _ := storedZstd
  let _ := percentChoices
  intro shim frames hk hsym hget₁ hget₂ hframes
  let record (seq : UInt64) : List UInt8 := bulkRecord (0x00 :: canonicalBytes (largeMessage seq))
  have hlen : ∀ seq, (record seq).length = 40022 := by
    intro seq
    simp only [record, bulkRecord, largeMessage, List.length_append, length_toLe, List.length_cons,
      length_canonicalBytes, List.length_replicate]
  have hrecords : [largeMessage 1, largeMessage 2].mapM shim.encodeRecord =
      .ok [record 1, record 2] := by
    apply mapM_of_forall₂
    exact .cons (shim.encodeRecord_storedZstd _) (.cons (shim.encodeRecord_storedZstd _) .nil)
  -- from here on the records are opaque, so that nothing evaluates them
  clear_value record
  have hne : ∀ seq, record seq ≠ [] := by
    intro seq hnil
    have hzero := hlen seq
    rw [hnil] at hzero
    cases hzero
  have hchunks : packChunks (64 * 1024) [record 1, record 2] [] = [record 1, record 2] :=
    packChunks_pair (hne 1) (hne 2) (by rw [hlen, hlen]; decide)
  have hmapped : [(record 1, 0), (record 2, 1)].mapM
      (fun chunk => shim.encodeChunk 0 chunk.1 chunk.2) = .ok frames := by
    rw [bulkFramesFor, if_neg (List.cons_ne_nil _ _)] at hframes
    simp only [List.filterMap_cons, hget₁, hget₂, List.filterMap_nil, hrecords, bind, Except.bind,
      hk, hsym, hchunks] at hframes
    exact hframes
  have hall := mapM_eq_ok hmapped
  refine ⟨hall.length_eq.symm, fun b hb => ?_⟩
  obtain ⟨chunk, hchunk, hcoded⟩ := forall₂_exists hall.flip hb
  obtain ⟨seq, hseq⟩ : ∃ seq, chunk.1 = record seq := by
    rcases List.mem_pair.mp hchunk with rfl | rfl
    · exact ⟨1, rfl⟩
    · exact ⟨2, rfl⟩
  have hsymbols := encodeChunk_symbols percentChoices_repairCount_zero hsym
    (by rw [hseq]; exact hne seq) hcoded
  rw [hseq, hlen] at hsymbols
  exact hsymbols

omit [DedupFilter F] [Blake3] [Zstd] in
/-- A session with two large messages, of which an empty receiver has nothing. -/
theorem largeMessages_transferable :
    letI := prefixHash
    letI := storedZstd
    letI := DedupFilter.exact
    let blocks := [largeMessage 1, largeMessage 2]
    let shim := (withFilter 5 ContentStore.new Compressor.default ([] : List BlockId)).callAll
      [.ingestTurn blocks]
    shim.Transferable Compressor.default blocks {x | x ∈ blocks.map canonicalBytes} ∧
      ((Receiver.new ContentStore.new Compressor.default).handleResync shim.resyncFrame).1 =
        blocks.map Block.blockId := by
  let _ := prefixHash
  let _ := storedZstd
  let _ := DedupFilter.exact
  intro blocks shim
  have hholds : shim.HoldsLog blocks :=
    (holdsLog_withFilter 5 ContentStore.Opened.fresh Compressor.default
      ([] : List BlockId)).callAll [.ingestTurn blocks]
  have hsize : ∀ b ∈ blocks, b.payload.length = 40000 := by
    intro b hb
    rcases List.mem_pair.mp hb with rfl | rfl <;> exact List.length_replicate
  have hinj : Set.InjOn Blake3.hash {x | x ∈ blocks.map canonicalBytes} := by
    rintro _ hx _ hy heq
    obtain ⟨b, hb, rfl⟩ := List.mem_map.mp hx
    obtain ⟨b', hb', rfl⟩ := List.mem_map.mp hy
    have hseq := seq_eq_of_prefixHash heq
    rcases List.mem_pair.mp hb with rfl | rfl <;> rcases List.mem_pair.mp hb' with rfl | rfl
    · rfl
    · exact absurd hseq (by decide)
    · exact absurd hseq (by decide)
    · rfl
  refine ⟨⟨hholds, rfl, rfl, Compressor.roundTrips_storedZstd _ _, fun b hb => ?_, fun b hb z hz => ?_,
    hinj, fun b hb => List.mem_map_of_mem hb, fun id b hget => ?_⟩, ?_⟩
  · rw [hsize b hb]
    decide
  · cases (Compressor.compress_storedZstd _ _).symm.trans hz
    simp only [bulkRecord, List.length_append, length_toLe, List.length_cons, length_canonicalBytes,
      hsize b hb]
    decide
  · have hturn : ((withFilter 5 ContentStore.new Compressor.default
        ([] : List BlockId)).ingestBlocks blocks).2.store.get id = some b := hget
    have hnone : (withFilter 5 ContentStore.new Compressor.default
        ([] : List BlockId)).store.get id = none := FinMap.get?_empty id
    rcases stored_ingestBlocks _ hturn with hold | hnew
    · cases hold.symm.trans hnone
    · exact List.mem_map_of_mem hnew
  · rw [← hholds.ids]
    refine List.filter_eq_self.mpr fun id _ => ?_
    rw [show ContentStore.contains _ id = false by
      simp [ContentStore.contains, Receiver.new, ContentStore.new]]
    rfl

omit [DedupFilter F] [Blake3] [Zstd] in
/-- Two frames that arrive in reverse, then again in order after a turn of another session. -/
theorem cold_start_any_order_two_frames :
    letI := prefixHash
    letI := storedZstd
    letI := DedupFilter.exact
    letI := percentChoices
    let blocks := [largeMessage 1, largeMessage 2]
    let shim := (withFilter 5 ContentStore.new Compressor.default ([] : List BlockId)).callAll
      [.ingestTurn blocks]
    let other := (withFilter 9 ContentStore.new Compressor.default ([] : List BlockId)).ingestTurn
      [⟨.message, 1, [8]⟩]
    let r := (Receiver.new ContentStore.new Compressor.default).handleAll []
    let answer := r.handleFrame (.resync shim.resyncFrame)
    ∃ first last, shim.bulkFramesFor (blocks.map Block.blockId) 0 = .ok [first, last] ∧
      answer.1 = .ok (some (.missing ⟨5, blocks.map Block.blockId⟩)) ∧
      Receiver.acks 5 answer.2
        [.bulk last, .bulk first, .append other.1, .bulk first, .bulk last] =
          [⟨5, shim.root⟩] := by
  let _ := prefixHash
  let _ := storedZstd
  let _ := DedupFilter.exact
  let _ := percentChoices
  intro blocks shim other r answer
  obtain ⟨htransferable, hids⟩ : shim.Transferable Compressor.default blocks
      {x | x ∈ blocks.map canonicalBytes} ∧
      (r.handleResync shim.resyncFrame).1 = blocks.map Block.blockId := largeMessages_transferable
  have hother : (Frame.append other.1).sessionId ≠ 5 := by
    rw [Frame.sessionId, show other = _ from rfl, ingestTurn_frame]
    change (9 : SessionId) ≠ 5
    decide
  have hingested : ingested [Call.ingestTurn (F := List BlockId) blocks] = blocks := rfl
  have hanswer := shim.handleFrame_resync_answer r
  rw [hids, if_neg (by simp [blocks])] at hanswer
  have hanswer' : answer.1 = .ok (some (.missing ⟨5, blocks.map Block.blockId⟩)) := hanswer
  rcases cold_start_any_order ContentStore.Opened.fresh ContentStore.Opened.fresh 5
    Compressor.default Compressor.default ([] : List BlockId) [.ingestTurn blocks] [] 0
    (rfl : shim = _) (rfl : r = _) (Compressor.roundTrips_storedZstd _ _)
    (Compressor.roundTrips_storedZstd _ _) (by rw [hingested]; exact htransferable.payload)
    (by rw [hingested]; exact htransferable.record) htransferable.injOn
    (by rw [hingested]; exact htransferable.hashed) htransferable.stored rfl
    with ⟨hack, -⟩ | ⟨missing, frames, hmissing, hframes, hrun⟩
  · cases hanswer'.symm.trans hack
  · obtain rfl : blocks.map Block.blockId = missing := by
      have heq := hanswer'.symm.trans hmissing
      simpa only [Except.ok.injEq, Option.some.injEq, Frame.missing.injEq, MissingFrame.mk.injEq,
        true_and] using heq
    have hget := htransferable.holds.lookup htransferable.injOn htransferable.hashed
      htransferable.stored
    have hlen := (largeMessages_frames htransferable.fountainK htransferable.fountainSymbolSize
      (hget _ List.mem_cons_self) (hget _ (List.mem_cons_of_mem _ List.mem_cons_self)) hframes).1
    obtain ⟨first, last, rfl⟩ := List.length_eq_two.mp hlen
    refine ⟨first, last, hframes, hanswer', (hrun _ ?_ ?_).1⟩
    · simp
    · simpa using hother

omit [DedupFilter F] [Blake3] [Zstd] in
/-- A cold start that completes and whose next APPEND is refused: another session of the
client's host has put the block into the shared store and filter, so the turn refers to it,
but the receiver never got it. -/
theorem shared_store_append_refused :
    letI := prefixHash
    letI := storedZstd
    letI := DedupFilter.exact
    letI := percentChoices
    let x : Block := ⟨.message, 0, [7]⟩
    let b : Block := ⟨.message, 1, [8]⟩
    let fresh := withFilter 5 ContentStore.new Compressor.default ([] : List BlockId)
    let shim := fresh.callAll [.ingestTurn [b],
      .shared (.insertWithCanonical 9 x true) [x.blockId, b.blockId]]
    let r := Receiver.new ContentStore.new Compressor.default
    let answer := r.handleFrame (.resync shim.resyncFrame)
    let frames := (shim.bulkFramesFor [b.blockId] 0).toOption.getD []
    (r.session 5).decoders = ∅ ∧ answer.1 = .ok (some (.missing ⟨5, [b.blockId]⟩)) ∧
      shim.bulkFramesFor [b.blockId] 0 = .ok frames ∧
      Receiver.acks 5 answer.2 (frames.map .bulk) = [⟨5, shim.root⟩] ∧
      (shim.nextTurn [x]).baseRoot = shim.root ∧
      ((answer.2.handleAll (frames.map .bulk)).handleAppend (shim.nextTurn [x])).1 =
        .error .missingRef := by
  refine ⟨rfl, by decide, ?_, ?_, ?_, ?_⟩
  · decide +kernel
  · decide +kernel
  · decide +kernel
  · decide +kernel

end SessionShim

end Dlr
