import Dlr.Core.TornWrites
import Dlr.Receiver.Invariants
import Dlr.Receiver.LogLimits

/-!
# Crashes in the middle of a frame

Between requests the log is flushed and recovers the maps, as long as no error is latched. A crash
while a frame is handled keeps what was flushed and any part of what the frame wrote. What the
receiver is opened with again is what it would have had after some of the operations of the frame;
so the log of a session is the old one, the new one or one in between.
-/

namespace Dlr

open Dlr.Core Compress Lib Wal

namespace Core

variable [Blake3]

/-- The second log continues the first one. -/
def SessionLog.Extends (log log' : SessionLog) : Prop :=
  ∃ ids, log' = ⟨log.ids ++ ids, rootOver log.root ids⟩

theorem SessionLog.Extends.refl (log : SessionLog) : log.Extends log :=
  ⟨[], by rw [List.append_nil]; rfl⟩

theorem SessionLog.Extends.trans {a b d : SessionLog} (h : a.Extends b) (h' : b.Extends d) :
    a.Extends d := by
  obtain ⟨ids, rfl⟩ := h
  obtain ⟨ids', rfl⟩ := h'
  exact ⟨ids ++ ids', by rw [rootOver_append, List.append_assoc]⟩

/-- A log whose root is the one over its ids continues to one of this kind. -/
theorem SessionLog.Extends.committed {a b : SessionLog} (h : a.Extends b)
    (hroot : a.root = rootOver rootZero a.ids) :
    a.ids <+: b.ids ∧ b.root = rootOver rootZero b.ids := by
  obtain ⟨ids, rfl⟩ := h
  exact ⟨List.prefix_append _ _, by rw [rootOver_append, hroot]⟩

namespace ContentStore

/-- An operation that does not seed a log continues it by at most one block. -/
theorem perform_extends (st : ContentStore) {op : StoreOp} {sid : SessionId}
    (h : ∀ ids root, op ≠ .seedSession sid ids root) :
    (logOf st.sessions sid).Extends (logOf (st.perform op).sessions sid) := by
  have hpush : ∀ (s : SessionId) (id : BlockId),
      (logOf st.sessions sid).Extends (logOf (pushLog st.sessions s id) sid) := by
    intro s id
    rw [logOf_pushLog]
    split_ifs with hs
    · rw [hs]
      exact ⟨[id], rfl⟩
    · exact .refl _
  cases op with
  | insertWithCanonical s block given =>
      simp only [perform, insertWithCanonical_sessions]
      exact hpush s _
  | reference s id =>
      simp only [perform]
      cases hg : st.blocks.get? id with
      | none =>
          rw [reference_of_absent _ _ _ hg]
          exact .refl _
      | some b =>
          rw [(reference_of_contains st s id hg).1]
          exact hpush s _
  | seedSession s ids root =>
      have hne : s ≠ sid := by
        rintro rfl
        exact h ids root rfl
      simp only [perform, seedSession_sessions, logOf_set, if_neg hne.symm]
      exact .refl _
  | storeContentWithId s block =>
      simp only [perform, storeContentWithId_sessions]
      exact .refl _

theorem performAll_extends (st : ContentStore) {ops : List StoreOp} {sid : SessionId}
    (h : ∀ ids root, StoreOp.seedSession sid ids root ∉ ops) :
    (logOf st.sessions sid).Extends (logOf (st.performAll ops).sessions sid) := by
  induction ops generalizing st with
  | nil => exact .refl _
  | cons op rest ih =>
      refine (st.perform_extends fun ids root heq => ?_).trans
        (ih (st.perform op) fun ids root hmem => h ids root (List.mem_cons_of_mem op hmem))
      exact h ids root (by rw [heq]; exact List.mem_cons_self)

/-- Every block of the session's log is there. -/
def Complete (st : ContentStore) (sid : SessionId) : Prop :=
  ∀ id ∈ st.sessionIds sid, st.contains id = true

/-- An operation that does not seed a log keeps it complete. -/
theorem Complete.perform {st : ContentStore} {sid : SessionId} (h : st.Complete sid) {op : StoreOp}
    (hop : ∀ ids root, op ≠ .seedSession sid ids root) : (st.perform op).Complete sid := by
  have hkeep : ∀ id ∈ st.sessionIds sid, (st.perform op).contains id = true :=
    fun id hid => contains_performAll [op] (h id hid)
  have hpush : ∀ (s : SessionId) (x : BlockId), (st.perform op).contains x = true →
      (st.perform op).sessions = pushLog st.sessions s x → (st.perform op).Complete sid := by
    intro s x hx hsessions id hid
    rw [sessionIds, hsessions, logOf_pushLog] at hid
    split_ifs at hid with hs
    · subst hs
      rcases List.mem_append.mp hid with hold | hnew
      · exact hkeep id hold
      · rw [List.mem_singleton.mp hnew]
        exact hx
    · exact hkeep id hid
  cases op with
  | insertWithCanonical s block given =>
      refine hpush s block.blockId ?_ (insertWithCanonical_sessions ..)
      rw [contains, ContentStore.perform, insertWithCanonical_blocks, putBlock_get?, if_pos rfl]
      rfl
  | reference s id =>
      simp only [ContentStore.perform] at hkeep hpush ⊢
      cases hg : st.blocks.get? id with
      | none =>
          rw [reference_of_absent _ _ _ hg]
          exact h
      | some b =>
          refine hpush s id ?_ (reference_of_contains st s id hg).1
          rw [contains, reference_blocks, hg]
          rfl
  | seedSession s ids root =>
      have hne : s ≠ sid := by
        rintro rfl
        exact hop ids root rfl
      intro id hid
      rw [sessionIds, ContentStore.perform, seedSession_sessions, logOf_set, if_neg hne.symm] at hid
      exact hkeep id hid
  | storeContentWithId s block =>
      intro id hid
      rw [sessionIds, ContentStore.perform, storeContentWithId_sessions] at hid
      exact hkeep id hid

theorem Complete.performAll {st : ContentStore} {sid : SessionId} (h : st.Complete sid)
    {ops : List StoreOp} (hops : ∀ ids root, StoreOp.seedSession sid ids root ∉ ops) :
    (st.performAll ops).Complete sid := by
  induction ops generalizing st with
  | nil => exact h
  | cons op rest ih =>
      refine ih (h.perform fun ids root heq => ?_)
        fun ids root hmem => hops ids root (List.mem_cons_of_mem op hmem)
      exact hops ids root (by rw [heq]; exact List.mem_cons_self)

omit [Blake3] in
theorem Complete.flushWal {st : ContentStore} {sid : SessionId} (h : st.Complete sid)
    (sync : Bool) : (st.flushWal sync).2.Complete sid := by
  intro id hid
  rw [sessionIds, flushWal_sessions] at hid
  rw [contains, flushWal_blocks]
  exact h id hid

omit [Blake3] in
/-- The content of a session is in the maps. -/
theorem reconstruct_congr {st st' : ContentStore} (h : st.maps = st'.maps) (sid : SessionId) :
    st.reconstruct sid = st'.reconstruct sid := by
  have hblocks : st.blocks = st'.blocks := congrArg Maps.blocks h
  have hsessions : st.sessions = st'.sessions := congrArg Maps.sessions h
  have hget : st.get = st'.get := by
    funext id
    rw [get, get, hblocks]
  rw [reconstruct, reconstruct, sessionIds, sessionIds, hsessions, hget]

/-! ## What a crash leaves -/

/-- What a run without a failed write does: its records are appended to the log, are valid, and
mean its effect. -/
theorem performAll_spec {st : ContentStore} (hw : st.wal.isSome) {ops : List StoreOp}
    (hok : (st.performAll ops).walError = none) :
    (st.performAll ops).walBytes =
        st.walBytes ++ (st.loggedRecords ops).flatMap Record.encode ∧
      (∀ r ∈ st.loggedRecords ops, r.Valid) ∧
      (st.performAll ops).maps = (st.loggedRecords ops).foldl applyRecord st.maps := by
  induction ops generalizing st with
  | nil => exact ⟨(List.append_nil _).symm, nofun, rfl⟩
  | cons op rest ih =>
      have hw₁ : (st.perform op).wal.isSome := (perform_isSome st op).trans hw
      obtain ⟨-, -, hbytes, hvalid, hmaps⟩ := perform_spec hw op (performAll_walError rest hw₁ hok)
      obtain ⟨hbytes', hvalid', hmaps'⟩ := ih hw₁ hok
      refine ⟨?_, ?_, ?_⟩
      · rw [performAll_cons, hbytes', hbytes, loggedRecords, List.flatMap_append, List.append_assoc]
      · intro r hr
        rcases List.mem_append.mp hr with hr | hr
        · exact hvalid r (by simpa using hr)
        · exact hvalid' r hr
      · rw [performAll_cons, hmaps', hmaps, loggedRecords, List.foldl_append]

/-- The first records of a run are those of its first operations. -/
theorem loggedRecords_prefix (st : ContentStore) {ops : List StoreOp} {whole : List Record}
    (h : whole <+: st.loggedRecords ops) : ∃ k, st.loggedRecords (ops.take k) = whole := by
  induction ops generalizing st whole with
  | nil => exact ⟨0, (List.prefix_nil.mp h).symm⟩
  | cons op rest ih =>
      rw [loggedRecords] at h
      cases hr : st.loggedRecord op with
      | none =>
          rw [hr] at h
          obtain ⟨k, hk⟩ := ih (st.perform op) h
          exact ⟨k + 1, by rw [List.take_succ_cons, loggedRecords, hr, hk]; rfl⟩
      | some r =>
          rw [hr, Option.toList_some, List.singleton_append] at h
          cases whole with
          | nil => exact ⟨0, rfl⟩
          | cons r' later =>
              obtain ⟨rfl, hlater⟩ := List.cons_prefix_cons.mp h
              obtain ⟨k, hk⟩ := ih (st.perform op) hlater
              exact ⟨k + 1, by rw [List.take_succ_cons, loggedRecords, hr, hk]; rfl⟩

/-- Between requests: what is in the log is flushed and recovers the maps, as long as no error is
latched. -/
structure Settled (st : ContentStore) : Prop where
  recoverable : st.Recoverable
  flushed : ∀ w, st.wal = some w → st.walError = none → w.flushed = w.bytes.length

/-- A store that is opened after a crash. What was flushed is kept, and any part of what was
written since then. -/
def Crashed (before after store : ContentStore) : Prop :=
  ∃ w w' cut writes flushes, before.wal = some w ∧ after.wal = some w' ∧ after.walError = none ∧
    w.flushed ≤ cut ∧ withWal (w'.bytes.take cut) writes flushes = .ok store

theorem withWal_settled {file : List UInt8} {writes : List (Option (Nat × IoError))}
    {flushes : List (Option IoError)} {st : ContentStore}
    (h : withWal file writes flushes = .ok st) : st.Settled := by
  refine ⟨withWal_recoverable h, fun w hw _ => ?_⟩
  obtain ⟨w', hw', hflushed, -⟩ := withWal_recovers h
  cases hw'.symm.trans hw
  exact hflushed

theorem Recoverable.settled {st : ContentStore} (h : st.Recoverable) (sync : Bool) :
    (st.flushWal sync).2.Settled := by
  refine ⟨h.flushWal sync, fun w' hw' hnone => ?_⟩
  obtain ⟨w, hw⟩ : ∃ w, st.wal = some w := by
    rw [← Option.isSome_iff_exists, ← st.flushWal_isSome sync, hw']
    rfl
  obtain ⟨w₁, hw₁, hbytes, ⟨-, -, -, hflushed⟩ | ⟨-, herr, -⟩⟩ := flushWal_wal hw sync
  · cases hw₁.symm.trans hw'
    rw [hflushed, hbytes]
  · exact absurd hnone herr

/-- What is left after a crash in the middle of some operations can be opened, and the store has
done the first of them. -/
theorem Settled.reopens {st : ContentStore} (h : st.Settled) {ops : List StoreOp} {w w' : Wal}
    (hw : st.wal = some w) (hw' : (st.performAll ops).wal = some w')
    (hok : (st.performAll ops).walError = none) {cut : Nat} (hcut : w.flushed ≤ cut)
    (writes : List (Option (Nat × IoError))) (flushes : List (Option IoError)) :
    ∃ store k, withWal (w'.bytes.take cut) writes flushes = .ok store ∧
      store.maps = (st.performAll (ops.take k)).maps := by
  have hsome : st.wal.isSome := by rw [hw]; rfl
  have hnone : st.walError = none := performAll_walError ops hsome hok
  obtain ⟨hbytes, hvalid, -⟩ := performAll_spec hsome hok
  rw [walBytes_of_wal hw, walBytes_of_wal hw'] at hbytes
  rw [h.flushed w hw hnone] at hcut
  have htake : w'.bytes.take cut =
      w.bytes ++ ((st.loggedRecords ops).flatMap Record.encode).take (cut - w.bytes.length) := by
    rw [hbytes, List.take_append, List.take_of_length_le hcut]
  obtain ⟨whole, later, st', hsplit, -, hrun, hmaps⟩ :=
    ((h.recoverable w hw).2 hnone).cut hvalid (List.take_prefix (cut - w.bytes.length) _)
  obtain ⟨k, hk⟩ := st.loggedRecords_prefix (hsplit ▸ List.prefix_append whole later)
  have hokTake : (st.performAll (ops.take k)).walError = none := by
    refine performAll_walError (ops.drop k) ((performAll_isSome st _).trans hsome) ?_
    rw [← performAll_append, List.take_append_drop]
    exact hok
  refine ⟨_, k, by rw [htake, withWal, hrun], ?_⟩
  rw [(performAll_spec hsome hokTake).2.2, hk]
  exact hmaps

theorem Settled.crash {st store : ContentStore} (h : st.Settled) {ops : List StoreOp}
    (hcrash : Crashed st (st.performAll ops) store) :
    ∃ k, store.maps = (st.performAll (ops.take k)).maps := by
  obtain ⟨w, w', cut, writes, flushes, hw, hw', hok, hcut, hopen⟩ := hcrash
  obtain ⟨store', k, hopen', hmaps⟩ := h.reopens hw hw' hok hcut writes flushes
  cases hopen.symm.trans hopen'
  exact ⟨k, hmaps⟩

end ContentStore

end Core

namespace Receiver

variable [Blake3] [Zstd]

/-- A frame that is refused changes nothing in the store. -/
theorem handleFrame_refused {r : Receiver} {f : Frame} {e : ReceiverError}
    (h : (r.handleFrame f).1 = .error e) : (r.handleFrame f).2.store = r.store := by
  cases f with
  | append a =>
      rw [handleFrame_append_snd]
      rcases r.handleAppend_cases a with ⟨e', r', hr, rfl | rfl⟩ | ⟨resolved, -, -, -, hr | hr⟩
      · rw [hr]
      · rw [hr]
        rfl
      · simp only [handleFrame, hr.2.2] at h
        cases h
      · simp only [handleFrame, hr.2] at h
        cases h
  | resync m =>
      simp only [handleFrame] at h
      split_ifs at h
  | bulk b =>
      rw [handleFrame_bulk_snd]
      rcases r.handleBulk_cases b with ⟨d, hr, -⟩ | ⟨recovered, -, hr⟩
      · rw [hr]
        rfl
      · simp only [handleFrame, hr] at h
        split_ifs at h
  | ack a => rfl
  | missing m => rfl

/-- After a crash while a frame is handled, a session has its old log, the one that the frame
gives it, or one in between. -/
theorem crash_log {r : Receiver} (h : r.store.Settled) {f : Frame} {store : ContentStore}
    (hcrash : ContentStore.Crashed r.store (r.handleFrame f).2.store store) (sid : SessionId) :
    logOf store.sessions sid = logOf r.store.sessions sid ∨
      logOf store.sessions sid = logOf (r.handleFrame f).2.store.sessions sid ∨
      (logOf r.store.sessions sid).Extends (logOf store.sessions sid) ∧
        (logOf store.sessions sid).Extends (logOf (r.handleFrame f).2.store.sessions sid) := by
  by_cases hresync : ∃ m, f = .resync m
  · -- a RESYNC logs its seed as one record
    obtain ⟨m, rfl⟩ := hresync
    rw [handleFrame_resync_snd, (r.handleResync_affects m).store] at hcrash ⊢
    obtain ⟨k, hmaps⟩ := h.crash hcrash
    have hsessions := congrArg Maps.sessions hmaps
    simp only [ContentStore.maps_sessions] at hsessions
    rw [hsessions]
    cases k with
    | zero => exact Or.inl rfl
    | succ k => exact Or.inr (Or.inl (by rw [List.take_succ_cons, List.take_nil]))
  · obtain ⟨ops, haff, hseed⟩ := r.handleFrame_affects f
    rw [haff.store] at hcrash ⊢
    obtain ⟨k, hmaps⟩ := h.crash hcrash
    have hsessions := congrArg Maps.sessions hmaps
    simp only [ContentStore.maps_sessions] at hsessions
    rw [hsessions]
    have hnone : ∀ ids root, StoreOp.seedSession sid ids root ∉ ops := by
      intro ids root hmem
      obtain ⟨m, hm, -⟩ := hseed sid ids root hmem
      exact hresync ⟨m, hm⟩
    refine Or.inr (Or.inr ⟨?_, ?_⟩)
    · exact r.store.performAll_extends fun ids root hmem => hnone ids root (List.mem_of_mem_take hmem)
    · have hsplit : r.store.performAll ops =
          (r.store.performAll (ops.take k)).performAll (ops.drop k) := by
        rw [← ContentStore.performAll_append, List.take_append_drop]
      rw [hsplit]
      exact ContentStore.performAll_extends _ fun ids root hmem =>
        hnone ids root (List.mem_of_mem_drop hmem)

/-- The operations of a frame other than a RESYNC of the session seed no log of it. -/
theorem handleFrame_unseeded (r : Receiver) {f : Frame} {sid : SessionId}
    (hf : ∀ m, f = .resync m → m.sessionId ≠ sid) :
    ∃ ops, Affects r (r.handleFrame f).2 f.sessionId ops ∧
      ∀ ids root, StoreOp.seedSession sid ids root ∉ ops := by
  obtain ⟨ops, haff, hseed⟩ := r.handleFrame_affects f
  refine ⟨ops, haff, fun ids root hmem => ?_⟩
  obtain ⟨m, rfl, -⟩ := hseed sid ids root hmem
  exact hf m rfl (haff.own _ hmem).symm

/-- Any frame but a RESYNC of the session continues its log and keeps it complete. -/
theorem frame_extends {r : Receiver} {f : Frame} {sid : SessionId}
    (hf : ∀ m, f = .resync m → m.sessionId ≠ sid) (hcomplete : r.store.Complete sid) :
    (logOf r.store.sessions sid).Extends (logOf (r.handleFrame f).2.store.sessions sid) ∧
      (r.handleFrame f).2.store.Complete sid := by
  obtain ⟨ops, haff, hops⟩ := r.handleFrame_unseeded hf
  rw [haff.store]
  exact ⟨r.store.performAll_extends hops, hcomplete.performAll hops⟩

/-- And so does what is left after a crash in the middle of it. -/
theorem crash_extends {r : Receiver} (h : r.store.Settled) {f : Frame} {sid : SessionId}
    (hf : ∀ m, f = .resync m → m.sessionId ≠ sid) (hcomplete : r.store.Complete sid)
    {store : ContentStore}
    (hcrash : ContentStore.Crashed r.store (r.handleFrame f).2.store store) :
    (logOf r.store.sessions sid).Extends (logOf store.sessions sid) ∧ store.Complete sid := by
  obtain ⟨ops, haff, hops⟩ := r.handleFrame_unseeded hf
  rw [haff.store] at hcrash
  obtain ⟨k, hmaps⟩ := h.crash hcrash
  have htake : ∀ ids root, StoreOp.seedSession sid ids root ∉ ops.take k :=
    fun ids root hmem => hops ids root (List.mem_of_mem_take hmem)
  have hsessions : store.sessions = (r.store.performAll (ops.take k)).sessions :=
    congrArg Maps.sessions hmaps
  have hblocks : store.blocks = (r.store.performAll (ops.take k)).blocks :=
    congrArg Maps.blocks hmaps
  refine ⟨hsessions ▸ r.store.performAll_extends htake, ?_⟩
  have hkept := hcomplete.performAll htake
  intro id hid
  rw [ContentStore.sessionIds, hsessions] at hid
  rw [ContentStore.contains, hblocks]
  exact hkept id hid

theorem handleAppend_root {r r' : Receiver} {frame : AppendFrame} {ack : AckFrame}
    (h : r.handleAppend frame = (.ok ack, r')) :
    ack.sessionId = frame.sessionId ∧ r'.store.sessionRoot frame.sessionId = ack.root := by
  rcases r.handleAppend_cases frame with ⟨e, r₁, hr, -⟩ | ⟨resolved, hres, havail, -, hr | hr⟩
  · cases hr.symm.trans h
  · cases hr.2.2.symm.trans h
    exact ⟨rfl, rfl⟩
  · cases hr.2.symm.trans h
    obtain ⟨-, -, hlogs, -⟩ := applyResolved_spec frame.sessionId r.store
      (resolve_addressed hres) (fun id hid => by simpa using hid) havail
    have hown := hlogs frame.sessionId
    rw [if_pos rfl] at hown
    refine ⟨rfl, ?_⟩
    simp only [ContentStore.sessionRoot, hown, extendLog, hr.1]

/-- What a frame is acknowledged with is the root of its session, whose log is complete then. -/
theorem ack_complete {r : Receiver} (h : r.WellFormed) {f : Frame} {ack : AckFrame}
    (hack : (r.handleFrame f).1 = .ok (some (.ack ack))) :
    ack.sessionId = f.sessionId ∧
      (r.handleFrame f).2.store.sessionRoot f.sessionId = ack.root ∧
      (r.handleFrame f).2.store.Complete f.sessionId := by
  have hwf := h.handleFrame f
  have hcomplete : ((r.handleFrame f).2.session f.sessionId).pending = ∅ →
      (r.handleFrame f).2.store.Complete f.sessionId := by
    intro hnone id hid
    refine (hwf.complete f.sessionId id hid).resolve_right ?_
    rw [hnone]
    exact Finset.notMem_empty id
  cases f with
  | append a =>
      rcases happend : r.handleAppend a with ⟨e | ack', r'⟩
      · simp only [Receiver.handleFrame, happend] at hack
        cases hack
      · have hframe : r.handleFrame (.append a) = (.ok (some (.ack ack')), r') := by
          simp only [Receiver.handleFrame, happend]
        obtain rfl : ack' = ack := by simpa [hframe] using hack
        rw [hframe] at hcomplete ⊢
        obtain ⟨hsid, hroot⟩ := handleAppend_root happend
        exact ⟨hsid, hroot, hcomplete (handleAppend_ok happend).2⟩
  | resync m =>
      simp only [Receiver.handleFrame] at hack
      split_ifs at hack with hnone
      · cases hack
        rw [handleFrame_resync_snd] at hcomplete ⊢
        refine ⟨rfl, rfl, hcomplete ?_⟩
        simp only [Receiver.handleResync, Frame.sessionId, session_setSession_self]
        rw [show (m.manifest.filter fun id => !r.store.contains id) = [] from hnone]
        rfl
      · cases hack
  | bulk b =>
      rcases r.handleBulk_cases b with ⟨d, -, hnone⟩ | ⟨recovered, -, hr⟩
      · simp only [Receiver.handleFrame] at hack
        split at hack
        · cases hack
        · rename_i root r' heq
          exact absurd (congrArg Prod.fst heq) (hnone root)
        · cases hack
      · have hsnd := handleFrame_bulk_snd r b
        rw [hr] at hsnd
        simp only [Receiver.handleFrame, hr] at hack
        split_ifs at hack with hdone
        · cases hack
          rw [hsnd] at hcomplete ⊢
          refine ⟨rfl, ?_, hcomplete ?_⟩
          · simp [finished, Frame.sessionId, ContentStore.sessionRoot,
              performAll_contentOps_sessions]
          · simpa [finished, Frame.sessionId] using hdone.1
        · cases hack
  | ack a => cases hack
  | missing m => cases hack

/-- What is left after a crash while a frame is handled can be opened. -/
theorem crash_reopens {r : Receiver} (h : r.store.Settled) (f : Frame) {w w' : Wal}
    (hw : r.store.wal = some w) (hw' : (r.handleFrame f).2.store.wal = some w')
    (hok : (r.handleFrame f).2.store.walError = none) {cut : Nat} (hcut : w.flushed ≤ cut)
    (writes : List (Option (Nat × IoError))) (flushes : List (Option IoError)) :
    ∃ store, ContentStore.withWal (w'.bytes.take cut) writes flushes = .ok store := by
  obtain ⟨ops, haff, -⟩ := r.handleFrame_affects f
  rw [haff.store] at hw' hok
  obtain ⟨store, k, hopen, -⟩ := h.reopens hw hw' hok hcut writes flushes
  exact ⟨store, hopen⟩

/-- A frame whose answer is flushed leaves the log flushed, and so does a refused one. -/
theorem settled_frame {r : Receiver} (h : r.store.Settled) (f : Frame) :
    (∀ e, (r.handleFrame f).1 = .error e → (r.handleFrame f).2.store.Settled) ∧
      ∀ sync, ((r.handleFrame f).2.store.flushWal sync).2.Settled := by
  refine ⟨fun e he => ?_, fun sync => ?_⟩
  · rw [handleFrame_refused he]
    exact h
  · obtain ⟨ops, haff, -⟩ := r.handleFrame_affects f
    rw [haff.store]
    exact (h.recoverable.performAll ops).settled sync

/-- A latched error stays latched. -/
theorem events_latched {r : Receiver} (h : r.store.walError ≠ none) (es : List LogEvent) :
    (r.events es).store.walError ≠ none := by
  induction es generalizing r with
  | nil => exact h
  | cons e rest ih =>
      refine ih ?_
      cases e with
      | frame f =>
          obtain ⟨ops, haff, -⟩ := r.handleFrame_affects f
          have hlatched := ContentStore.events_latched h (ops.map .op)
          rw [ContentStore.events, List.foldl_map] at hlatched
          change (r.handleFrame f).2.store.walError ≠ none
          rw [haff.store]
          exact hlatched
      | flush sync => exact ContentStore.event_latched h (.flush sync)

/-- The log stays attached, and recovers the maps as long as no error is latched. -/
theorem events_recoverable {r : Receiver} (h : r.store.Recoverable) (hw : r.store.wal.isSome)
    (es : List LogEvent) :
    (r.events es).store.Recoverable ∧ (r.events es).store.wal.isSome := by
  induction es generalizing r with
  | nil => exact ⟨h, hw⟩
  | cons e rest ih =>
      cases e with
      | frame f =>
          obtain ⟨ops, haff, -⟩ := r.handleFrame_affects f
          refine ih (r := (r.handleFrame f).2) ?_ ?_
          · rw [haff.store]
            exact h.performAll ops
          · rw [haff.store]
            exact (ContentStore.performAll_isSome _ ops).trans hw
      | flush sync =>
          exact ih (r := { r with store := (r.store.flushWal sync).2 }) (h.flushWal sync)
            ((ContentStore.flushWal_isSome _ sync).trans hw)

omit [Zstd] in
/-- A receiver that does not know a session has nothing of it in its store. -/
theorem WellFormed.reconstruct_eq {r : Receiver} (h : r.WellFormed) (sid : SessionId) :
    r.reconstruct sid = r.store.reconstruct sid := by
  unfold Receiver.reconstruct
  split_ifs with hknown
  · rfl
  · have hlog := h.known sid (by simpa using hknown)
    simp [ContentStore.reconstruct, ContentStore.sessionIds, logOf, hlog]

end Receiver

end Dlr
