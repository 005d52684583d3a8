import Dlr.Receiver.Effects

/-!
# Invariants of every reachable receiver

A receiver starts over a fresh or replayed store and handles arbitrary frames.
Its block map stays addressed by content, and its pending sets account for every
log entry without a stored block.
-/

namespace Dlr

open Dlr.Core Compress Lib

namespace Core

variable [Blake3]

/-- Every block is stored under its own address. -/
def Maps.Addressed (m : Maps) : Prop := ∀ id b, m.blocks.get? id = some b → id = b.blockId

omit [Blake3] in
/-- What holds of the stored blocks and of a new one holds after it is put. -/
theorem putBlock_all {P : BlockId → Block → Prop} {blocks : FinMap BlockId Block} {id : BlockId}
    {b : Block} (h : ∀ k c, blocks.get? k = some c → P k c) (hb : P id b) :
    ∀ k c, (putBlock blocks id b).get? k = some c → P k c := by
  intro k c hc
  rw [putBlock_get?] at hc
  split_ifs at hc with hk
  · subst hk
    cases hold : blocks.get? k with
    | none =>
        rw [hold] at hc
        cases hc
        exact hb
    | some old =>
        rw [hold] at hc
        cases hc
        exact h k _ hold
  · exact h k c hc

/-- A record adds at most the block it parses to, under the id of that block. -/
theorem applyRecord_all {P : BlockId → Block → Prop} {m : Maps} (r : Wal.Record)
    (hnew : ∀ canonical b, fromCanonical canonical = .ok b → P b.blockId b)
    (h : ∀ k c, m.blocks.get? k = some c → P k c) :
    ∀ k c, (Wal.applyRecord m r).blocks.get? k = some c → P k c := by
  cases r with
  | insert sid canonical =>
      simp only [Wal.applyRecord]
      split
      · rename_i b hb
        exact putBlock_all h (hnew canonical b hb)
      · exact h
  | reference sid id =>
      simp only [Wal.applyRecord]
      split_ifs
      · exact h
      · exact h
  | seed sid ids root => exact h
  | content sid canonical =>
      simp only [Wal.applyRecord]
      split
      · rename_i b hb
        exact putBlock_all h (hnew canonical b hb)
      · exact h

theorem applyRecord_addressed (m : Maps) (r : Wal.Record) (h : m.Addressed) :
    (Wal.applyRecord m r).Addressed :=
  applyRecord_all r (fun _ _ _ => rfl) h

theorem perform_addressed {st : ContentStore} (op : StoreOp) (h : st.maps.Addressed) :
    (st.perform op).maps.Addressed := by
  cases op with
  | insertWithCanonical sid block given =>
      simpa [ContentStore.perform, Maps.Addressed] using putBlock_all h (rfl : block.blockId = block.blockId)
  | reference sid id => simpa [ContentStore.perform, Maps.Addressed] using h
  | seedSession sid ids root => simpa [ContentStore.perform, Maps.Addressed] using h
  | storeContentWithId sid block =>
      simpa [ContentStore.perform, Maps.Addressed] using putBlock_all h (rfl : block.blockId = block.blockId)

theorem performAll_addressed {st : ContentStore} (ops : List StoreOp) (h : st.maps.Addressed) :
    (st.performAll ops).maps.Addressed := by
  induction ops generalizing st with
  | nil => exact h
  | cons op rest ih => exact ih (perform_addressed op h)

/-- A store is opened empty, or from whatever bytes a log file holds. -/
inductive ContentStore.Opened : ContentStore → Prop
  | fresh : Opened ContentStore.new
  | replayed {file : List UInt8} {writes : List (Option (Nat × IoError))}
      {flushes : List (Option IoError)} {st : ContentStore}
      (h : ContentStore.withWal file writes flushes = .ok st) : Opened st

/-- Whatever holds of empty maps and is kept by every record holds of an opened store. -/
theorem ContentStore.Opened.invariant {st : ContentStore} (h : st.Opened) {P : Maps → Prop}
    (hempty : P Maps.empty) (hstep : ∀ m r, P m → P (Wal.applyRecord m r)) : P st.maps := by
  cases h with
  | fresh => exact hempty
  | replayed h =>
      unfold ContentStore.withWal at h
      split at h
      · cases h
      · rename_i st₀ stop hreplay
        cases h
        have hst : P st₀.maps := Wal.replayFrom_invariant hstep hreplay hempty
        exact hst

theorem ContentStore.Opened.addressed {st : ContentStore} (h : st.Opened) : st.maps.Addressed := by
  apply h.invariant
  · intro id b hb
    simp [Maps.empty] at hb
  · exact applyRecord_addressed

/-- Every stored block is within the size limit of canonical blocks. -/
def Maps.Sized (m : Maps) : Prop :=
  ∀ id b, m.blocks.get? id = some b → b.payload.length ≤ maxBlockPayloadBytes

/-- The block an operation may add is within the size limit. -/
def StoreOp.Sized : StoreOp → Prop
  | insertWithCanonical _ block _ => block.payload.length ≤ maxBlockPayloadBytes
  | reference _ _ => True
  | seedSession _ _ _ => True
  | storeContentWithId _ block => block.payload.length ≤ maxBlockPayloadBytes

theorem applyRecord_sized (m : Maps) (r : Wal.Record) (h : m.Sized) :
    (Wal.applyRecord m r).Sized :=
  applyRecord_all r (fun _ _ hb => payload_le_of_fromCanonical hb) h

theorem performAll_sized {st : ContentStore} {ops : List StoreOp} (h : st.maps.Sized)
    (hops : ∀ op ∈ ops, op.Sized) : (st.performAll ops).maps.Sized := by
  induction ops generalizing st with
  | nil => exact h
  | cons op rest ih =>
      refine ih ?_ fun op hop => hops op (List.mem_cons_of_mem _ hop)
      have hop := hops op List.mem_cons_self
      cases op with
      | insertWithCanonical sid block given =>
          simpa [ContentStore.perform, Maps.Sized] using putBlock_all h hop
      | reference sid id => simpa [ContentStore.perform, Maps.Sized] using h
      | seedSession sid ids root => simpa [ContentStore.perform, Maps.Sized] using h
      | storeContentWithId sid block =>
          simpa [ContentStore.perform, Maps.Sized] using putBlock_all h hop

theorem ContentStore.Opened.sized {st : ContentStore} (h : st.Opened) : st.maps.Sized := by
  apply h.invariant
  · intro id b hb
    simp [Maps.empty] at hb
  · exact applyRecord_sized

end Core

namespace Receiver

variable [Blake3]

/-- What holds of a receiver after any sequence of frames. -/
structure WellFormed (r : Receiver) : Prop where
  addressed : r.store.maps.Addressed
  known : ∀ sid, r.sessions.get? sid = none → r.store.sessions.get? sid = none
  complete : ∀ sid, ∀ id ∈ r.store.sessionIds sid,
    r.store.contains id = true ∨ id ∈ (r.session sid).pending

theorem wellFormed_new {store : ContentStore} (h : store.Opened) (c : Compressor) :
    (Receiver.new store c).WellFormed where
  addressed := h.addressed
  known := by
    intro sid hsid
    simpa [Receiver.new] using hsid
  complete := by
    intro sid id hid
    have hid' : id ∈ (logOf store.sessions sid).ids := hid
    cases hlog : store.sessions.get? sid with
    | none => simp [logOf, hlog] at hid'
    | some log =>
        simp only [logOf, hlog, Option.getD_some] at hid'
        by_cases hc : store.contains id = true
        · exact Or.inl hc
        · refine Or.inr ?_
          simp only [Receiver.session, Receiver.new, FinMap.get?_mapValues, hlog,
            Option.map_some, Option.getD_some, List.mem_toFinset, List.mem_filter]
          exact ⟨hid', by simpa using hc⟩

section Step

variable {r r' : Receiver} {sid : SessionId} {ops : List StoreOp}

/-- A step keeps a receiver well formed if it accounts for its own session. -/
theorem WellFormed.of_affects (h : r.WellFormed) (haff : Affects r r' sid ops)
    (hknown : r'.sessions.get? sid = none → r'.store.sessions.get? sid = none)
    (hcomplete : ∀ id ∈ r'.store.sessionIds sid,
      r'.store.contains id = true ∨ id ∈ (r'.session sid).pending) : r'.WellFormed where
  addressed := by
    rw [haff.store]
    exact performAll_addressed ops h.addressed
  known := by
    intro s hs
    by_cases hsid : s = sid
    · exact hsid ▸ hknown (hsid ▸ hs)
    · rw [haff.log_get? hsid]
      exact h.known s (haff.others s hsid ▸ hs)
  complete := by
    intro s id hid
    by_cases hsid : s = sid
    · exact hsid ▸ hcomplete id (hsid ▸ hid)
    · have hid' : id ∈ r.store.sessionIds s := by
        rw [ContentStore.sessionIds, haff.logOf hsid] at hid
        exact hid
      rw [haff.session hsid]
      refine (h.complete s id hid').imp_left fun hc => ?_
      obtain ⟨b, hb⟩ := ContentStore.contains_iff.mp hc
      exact ContentStore.contains_iff.mpr ⟨b, haff.preserves hb⟩

theorem WellFormed.touch (h : r.WellFormed) (sid : SessionId) : (r.touch sid).WellFormed :=
  h.of_affects (Affects.of_setSession r sid _) (by simp [Receiver.touch, setSession])
    fun id hid => by simpa using h.complete sid id hid

/-- Flushing the log changes nothing that the invariant is about. -/
theorem WellFormed.flush (h : r.WellFormed) (sync : Bool) :
    ({ r with store := (r.store.flushWal sync).2 } : Receiver).WellFormed where
  addressed := by simpa [Maps.Addressed] using h.addressed
  known := by simpa using h.known
  complete := by
    intro sid id hid
    simpa [ContentStore.contains, Receiver.session] using
      h.complete sid id (by simpa [ContentStore.sessionIds] using hid)

variable [Zstd]

theorem WellFormed.handleAppend (h : r.WellFormed) (frame : AppendFrame) :
    (r.handleAppend frame).2.WellFormed := by
  rcases r.handleAppend_cases frame with
    ⟨e, r', hr, rfl | rfl⟩ | ⟨resolved, hres, havail, hpend, hr | hr⟩
  · rw [hr]
    exact h
  · rw [hr]
    exact h.touch _
  · rw [hr.2.2]
    exact h.touch _
  · obtain ⟨-, hall, hlog, -⟩ := applyResolved_spec frame.sessionId r.store
      (resolve_addressed hres) (fun id hid => by simpa using hid) havail
    have haff : Affects r (r.handleAppend frame).2 frame.sessionId
        (resolved.map (Resolved.op frame.sessionId)) := by
      rw [hr.2]
      refine ⟨rfl, rfl, fun op hop => ?_, (Affects.of_setSession r _ _).others⟩
      obtain ⟨x, -, rfl⟩ := List.mem_map.mp hop
      cases x <;> rfl
    refine h.of_affects haff (by simp [hr.2, Receiver.touch, setSession]) fun id hid => Or.inl ?_
    rw [hr.2, ContentStore.sessionIds, hlog, if_pos rfl] at hid
    rw [hr.2]
    rcases List.mem_append.mp hid with hold | hnew
    · have hstored := (h.complete _ id hold).resolve_right (by simp [hpend])
      exact ContentStore.contains_performAll _ hstored
    · obtain ⟨x, hx, rfl⟩ := List.mem_map.mp hnew
      exact hall x hx

omit [Zstd] in
theorem WellFormed.handleResync (h : r.WellFormed) (frame : ResyncFrame) :
    (r.handleResync frame).2.WellFormed := by
  refine h.of_affects (handleResync_affects r frame) (by simp [Receiver.handleResync, setSession])
    fun id hid => ?_
  have hmanifest : id ∈ frame.manifest := by
    simpa [Receiver.handleResync, ContentStore.sessionIds, logOf_set] using hid
  by_cases hc : r.store.contains id = true
  · exact Or.inl (ContentStore.contains_performAll
      [.seedSession frame.sessionId frame.manifest frame.clientRoot] hc)
  · exact Or.inr (by simpa [Receiver.handleResync, hmanifest] using hc)

theorem WellFormed.handleBulk (h : r.WellFormed) (frame : BulkFrame) :
    (r.handleBulk frame).2.WellFormed := by
  rcases r.handleBulk_cases frame with ⟨d, hr, -⟩ | ⟨recovered, haddr, hr⟩
  · rw [hr]
    exact h.of_affects (Affects.of_setSession r _ _) (by simp [setSession])
      fun id hid => by simpa using h.complete _ id hid
  · obtain ⟨ops, haff, -⟩ := r.handleBulk_affects frame
    refine h.of_affects haff (by simp [hr, finished, setSession]) fun id hid => ?_
    have hsess := performAll_contentOps_sessions frame.sessionId recovered r.store
    have hid' : id ∈ r.store.sessionIds frame.sessionId := by
      simpa [hr, finished, ContentStore.sessionIds, hsess] using hid
    rw [hr]
    by_cases hrec : id ∈ recovered.map Prod.snd
    · obtain ⟨b, hb, rfl⟩ := List.mem_map.mp hrec
      exact Or.inl (contains_performAll_contentOps _ haddr _ b hb)
    · rcases h.complete _ id hid' with hc | hp
      · exact Or.inl (ContentStore.contains_performAll _ hc)
      · refine Or.inr ?_
        simp only [finished, session_setSession_self, Finset.mem_sdiff, List.mem_toFinset]
        exact ⟨hp, hrec⟩

/-- Handling any frame, successfully or not, keeps a receiver well formed. -/
theorem WellFormed.handleFrame (h : r.WellFormed) (f : Frame) :
    (r.handleFrame f).2.WellFormed := by
  cases f with
  | append a => simpa using h.handleAppend a
  | resync m => simpa using h.handleResync m
  | bulk b => simpa using h.handleBulk b
  | ack a => exact h
  | missing m => exact h

theorem WellFormed.handleAll (h : r.WellFormed) (frames : List Frame) :
    (r.handleAll frames).WellFormed := by
  induction frames generalizing r with
  | nil => exact h
  | cons f rest ih => exact ih (h.handleFrame f)

/-- No frame changes or removes a stored block. -/
theorem handleAll_preserves {id : BlockId} {b : Block} (frames : List Frame)
    (h : r.store.blocks.get? id = some b) :
    (r.handleAll frames).store.blocks.get? id = some b := by
  induction frames generalizing r with
  | nil => exact h
  | cons f rest ih =>
      obtain ⟨ops, haff, -⟩ := r.handleFrame_affects f
      exact ih (haff.preserves h)

theorem resolveBlock_sized {c : Compressor} {fb : FrameBlock} {x : Resolved}
    (h : resolveBlock c fb = .ok x) (sid : SessionId) : (x.op sid).Sized := by
  obtain ⟨id, rfl⟩ | ⟨b, rfl, hmax⟩ := resolveBlock_eq_ok h
  · trivial
  · exact hmax

/-- Every frame stores only blocks within the size limit. -/
theorem handleFrame_sized (h : r.store.maps.Sized) (f : Frame) :
    (r.handleFrame f).2.store.maps.Sized := by
  cases f with
  | append a =>
      rw [handleFrame_append_snd]
      rcases r.handleAppend_cases a with ⟨e, r', hr, rfl | rfl⟩ | ⟨resolved, hres, -, -, hr | hr⟩
      · rw [hr]
        exact h
      · rw [hr]
        exact h
      · rw [hr.2.2]
        exact h
      · rw [hr.2]
        refine performAll_sized h fun op hop => ?_
        obtain ⟨x, hx, rfl⟩ := List.mem_map.mp hop
        exact mapM_forall hres (fun _ _ hfb => resolveBlock_sized hfb a.sessionId) x hx
  | resync m =>
      rw [handleFrame_resync_snd, (handleResync_affects r m).store]
      exact performAll_sized h (by simp [StoreOp.Sized])
  | bulk b =>
      rw [handleFrame_bulk_snd]
      by_cases hfin : r.Finishes b
      · obtain ⟨d, syms, recovered, hadd, hdec, hrec⟩ := hfin
        rw [handleBulk_of_decoded r b hadd hdec hrec]
        refine performAll_sized h fun op hop => ?_
        obtain ⟨x, hx, rfl⟩ := List.mem_map.mp hop
        exact recovered_sized hrec x hx
      · obtain ⟨⟨d, hr⟩, -⟩ := r.handleBulk_unfinished hfin
        rw [hr]
        exact h
  | ack a => exact h
  | missing m => exact h

theorem handleAll_sized (h : r.store.maps.Sized) (frames : List Frame) :
    (r.handleAll frames).store.maps.Sized := by
  induction frames generalizing r with
  | nil => exact h
  | cons f rest ih => exact ih (handleFrame_sized h f)

end Step

section Reconstruct

variable {r : Receiver} {sid : SessionId}

omit [Blake3] in
private theorem filterMap_get {store : ContentStore} {ids : List BlockId}
    (h : ∀ id ∈ ids, store.contains id = true) :
    List.Forall₂ (fun id b => store.blocks.get? id = some b) ids (ids.filterMap store.get) := by
  induction ids with
  | nil => exact .nil
  | cons id rest ih =>
      obtain ⟨b, hb⟩ := ContentStore.contains_iff.mp (h id List.mem_cons_self)
      rw [List.filterMap_cons_some (show store.get id = some b from hb)]
      exact .cons hb (ih fun id hid => h id (List.mem_cons_of_mem _ hid))

/-- A session with nothing pending reconstructs to one block for every log entry. -/
theorem WellFormed.reconstruct (h : r.WellFormed) (hp : (r.session sid).pending = ∅) :
    (∀ id ∈ r.store.sessionIds sid, r.store.contains id = true) ∧
      List.Forall₂ (fun id b => r.store.blocks.get? id = some b) (r.store.sessionIds sid)
        (r.reconstruct sid) := by
  have hstored : ∀ id ∈ r.store.sessionIds sid, r.store.contains id = true := by
    intro id hid
    exact (h.complete sid id hid).resolve_right (by simp [hp])
  refine ⟨hstored, ?_⟩
  unfold Receiver.reconstruct
  split_ifs with hknown
  · exact filterMap_get hstored
  · have hnone : r.sessions.get? sid = none := by simpa using hknown
    have hids : r.store.sessionIds sid = [] := by
      simp [ContentStore.sessionIds, logOf, h.known sid hnone]
    rw [hids]
    exact .nil

theorem WellFormed.reconstruct_ids (h : r.WellFormed) (hp : (r.session sid).pending = ∅) :
    (r.reconstruct sid).map Block.blockId = r.store.sessionIds sid := by
  have hall := (h.reconstruct hp).2
  generalize r.reconstruct sid = blocks at hall ⊢
  generalize r.store.sessionIds sid = ids at hall ⊢
  induction hall with
  | nil => rfl
  | cons hb _ ih =>
      rw [List.map_cons, ih, ← h.addressed _ _ hb]

end Reconstruct

variable [Zstd]

/-- In every reachable state the block map is addressed by content and only grows,
and a session with nothing pending reconstructs to exactly its logged ids. -/
theorem reachable_addressed_complete {store : ContentStore} (hopen : store.Opened)
    (c : Compressor) (frames : List Frame) :
    let r := (Receiver.new store c).handleAll frames
    (∀ id b, r.store.blocks.get? id = some b → id = b.blockId ∧
      ∀ later, (r.handleAll later).store.blocks.get? id = some b) ∧
    ∀ sid, (r.session sid).pending = ∅ →
      (∀ id ∈ r.store.sessionIds sid, r.store.contains id = true) ∧
      (r.reconstruct sid).length = (r.store.sessionIds sid).length ∧
      (r.reconstruct sid).map Block.blockId = r.store.sessionIds sid := by
  intro r
  have hr : r.WellFormed := (wellFormed_new hopen c).handleAll frames
  refine ⟨fun id b hb => ⟨hr.addressed id b hb, fun later => handleAll_preserves later hb⟩,
    fun sid hp => ⟨(hr.reconstruct hp).1, (hr.reconstruct hp).2.length_eq.symm,
      hr.reconstruct_ids hp⟩⟩

omit [Blake3] [Zstd] in
/-- One inline block appended to a fresh session. -/
theorem reachable_addressed_complete_inline :
    letI := prefixHash
    letI := storedZstd
    let block : Block := ⟨.message, 1, [7]⟩
    let frames : List Frame :=
      [.append ⟨5, rootZero, [.inline ⟨.message, 1, 0 :: canonicalBytes block⟩]⟩]
    let r := (Receiver.new ContentStore.new Compressor.default).handleAll frames
    r.store.sessionIds 5 = [block.blockId] ∧
      (r.reconstruct 5).map Block.blockId = [block.blockId] := by
  let _ := prefixHash
  let _ := storedZstd
  intro block frames r
  have hpend : (r.session 5).pending = ∅ := by decide
  have hids : r.store.sessionIds 5 = [block.blockId] := by decide
  obtain ⟨-, hcomplete⟩ :=
    reachable_addressed_complete ContentStore.Opened.fresh Compressor.default frames
  exact ⟨hids, (hcomplete 5 hpend).2.2.trans hids⟩

/-! ## Other sessions -/

section Isolation

omit [Zstd]

omit [Blake3] in
/-- Blocks that stay stored are read back the same. -/
private theorem filterMap_get_of_preserved {st st' : ContentStore} {ids : List BlockId}
    (hkeep : ∀ id b, st.blocks.get? id = some b → st'.blocks.get? id = some b)
    (hstored : ∀ id ∈ ids, st.contains id = true) :
    ids.filterMap st'.get = ids.filterMap st.get := by
  apply List.filterMap_congr
  intro id hid
  obtain ⟨b, hb⟩ := ContentStore.contains_iff.mp (hstored id hid)
  exact (hkeep id b hb).trans hb.symm

/-- A step for one session leaves what the others reconstruct as it was, unless they still
miss blocks. -/
theorem Affects.reconstructs {r r' : Receiver} {sid s : SessionId} {ops : List StoreOp}
    (h : Affects r r' sid ops) (hr : r.WellFormed) (hs : s ≠ sid)
    (hp : (r.session s).pending = ∅) :
    r'.reconstruct s = r.reconstruct s ∧
      ∀ lo hi, r'.reconstructRange s lo hi = r.reconstructRange s lo hi := by
  have hstored := (hr.reconstruct hp).1
  have hids : r'.store.sessionIds s = r.store.sessionIds s := by
    rw [ContentStore.sessionIds, ContentStore.sessionIds, h.logOf hs]
  have hget : ∀ ids : List BlockId, (∀ id ∈ ids, id ∈ r.store.sessionIds s) →
      ids.filterMap r'.store.get = ids.filterMap r.store.get := by
    intro ids hsub
    exact filterMap_get_of_preserved (fun _ _ => h.preserves) fun id hid => hstored id (hsub id hid)
  constructor
  · simp only [Receiver.reconstruct, ContentStore.reconstruct, h.others s hs, hids]
    rw [hget _ fun _ hid => hid]
  · intro lo hi
    simp only [reconstructRange, ContentStore.reconstructRange, ContentStore.sessionLen,
      h.others s hs, hids]
    rw [hget _ fun _ hid => List.mem_of_mem_drop (List.mem_of_mem_take hid)]
    rfl

end Isolation

/-- In every reachable state, a frame of one session, accepted or rejected, leaves every
other session's log, root and bookkeeping as they were, and what it reconstructs too once
none of its blocks is pending. -/
theorem sessions_do_not_interfere {store : ContentStore} (hopen : store.Opened) (c : Compressor)
    (frames : List Frame) (f : Frame) {s : SessionId} (hs : s ≠ f.sessionId) :
    let r := (Receiver.new store c).handleAll frames
    let r' := (r.handleFrame f).2
    r'.store.sessionIds s = r.store.sessionIds s ∧
      r'.store.sessionRoot s = r.store.sessionRoot s ∧
      r'.sessions.get? s = r.sessions.get? s ∧
      (r'.session s).pending = (r.session s).pending ∧
      (r'.session s).acked = (r.session s).acked ∧
      (r'.session s).decoders = (r.session s).decoders ∧
      ((r.session s).pending = ∅ →
        r'.reconstruct s = r.reconstruct s ∧
          ∀ lo hi, r'.reconstructRange s lo hi = r.reconstructRange s lo hi) := by
  intro r r'
  have hr : r.WellFormed := (wellFormed_new hopen c).handleAll frames
  obtain ⟨ops, haff, -⟩ := r.handleFrame_affects f
  have hlog := haff.logOf hs
  have hsession := haff.session hs
  refine ⟨?_, ?_, haff.others s hs, ?_, ?_, ?_, haff.reconstructs hr hs⟩
  · rw [ContentStore.sessionIds, hlog, ContentStore.sessionIds]
  · rw [ContentStore.sessionRoot, hlog, ContentStore.sessionRoot]
  · exact congrArg SessionState.pending hsession
  · exact congrArg SessionState.acked hsession
  · exact congrArg SessionState.decoders hsession

omit [Blake3] [Zstd] in
/-- Session 7 is seeded with a block it misses while session 5 holds one. -/
theorem sessions_do_not_interfere_resync :
    letI := prefixHash
    letI := storedZstd
    let block : Block := ⟨.message, 1, [7]⟩
    let frames : List Frame :=
      [.append ⟨5, rootZero, [.inline ⟨.message, 1, 0 :: canonicalBytes block⟩]⟩]
    let r := (Receiver.new ContentStore.new Compressor.default).handleAll frames
    let r' := (r.handleFrame (.resync ⟨7, rootZero, [rootZero]⟩)).2
    r.reconstruct 5 = [block] ∧ r'.reconstruct 5 = [block] := by
  let _ := prefixHash
  let _ := storedZstd
  intro block frames r r'
  have hpend : (r.session 5).pending = ∅ := by decide
  have hbefore : r.reconstruct 5 = [block] := by decide
  obtain ⟨-, -, -, -, -, -, hsame⟩ := sessions_do_not_interfere ContentStore.Opened.fresh
    Compressor.default frames (.resync ⟨7, rootZero, [rootZero]⟩) (s := 5) (by decide)
  exact ⟨hbefore, (hsame hpend).1.trans hbefore⟩

end Receiver

end Dlr
