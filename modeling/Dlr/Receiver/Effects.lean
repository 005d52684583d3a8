import Dlr.Core.CrashConsistency
import Dlr.Lib.Traverse
import Dlr.Receiver.Receiver

/-!
# What one frame can do to a receiver

Every handler changes the store only through the four store operations, and the
bookkeeping only of the frame's own session. The lemmas below say this once, so
that no later proof opens a handler again.
-/

namespace Dlr

open Dlr.Core Coding Compress Lib Lib.Bytes

/-- An inline entry carries the address of its block. -/
def Resolved.Addressed [Blake3] : Resolved → Prop
  | .inline id block => id = block.blockId
  | .ref _ => True

/-- The store operation that appends an entry. -/
def Resolved.op (sid : SessionId) : Resolved → StoreOp
  | .inline _ block => .insertWithCanonical sid block false
  | .ref id => .reference sid id

namespace Receiver

@[simp] theorem setSession_store (r : Receiver) (sid : SessionId) (st : SessionState) :
    (r.setSession sid st).store = r.store := rfl

@[simp] theorem setSession_compressor (r : Receiver) (sid : SessionId) (st : SessionState) :
    (r.setSession sid st).compressor = r.compressor := rfl

theorem session_setSession (r : Receiver) (sid s : SessionId) (st : SessionState) :
    (r.setSession sid st).session s = if s = sid then st else r.session s := by
  unfold session setSession
  by_cases hs : s = sid <;> simp [hs]

@[simp] theorem session_setSession_self (r : Receiver) (sid : SessionId) (st : SessionState) :
    (r.setSession sid st).session sid = st := by
  simp [session_setSession]

/-- First contact creates the entry of a session. -/
def touch (r : Receiver) (sid : SessionId) : Receiver := r.setSession sid (r.session sid)

@[simp] theorem touch_store (r : Receiver) (sid : SessionId) : (r.touch sid).store = r.store := rfl

@[simp] theorem touch_compressor (r : Receiver) (sid : SessionId) :
    (r.touch sid).compressor = r.compressor := rfl

@[simp] theorem touch_session (r : Receiver) (sid s : SessionId) :
    (r.touch sid).session s = r.session s := by
  rw [touch, session_setSession]
  split
  · rename_i hs
    rw [hs]
  · rfl

section Resolve

variable [Blake3] [Zstd]

/-- A recovered block carries its own address and respects the size limit. -/
theorem recoverBlock_eq_ok {c : Compressor} {comp : List UInt8} {b : Block} {id : BlockId}
    (h : recoverBlock c comp = .ok (b, id)) :
    id = b.blockId ∧ b.payload.length ≤ maxBlockPayloadBytes := by
  unfold recoverBlock at h
  split at h
  · cases h
  · rename_i canon _
    rw [fromCanonicalOwned_eq] at h
    cases hp : fromCanonical canon with
    | error e => rw [hp] at h; cases h
    | ok b' =>
        rw [hp] at h
        cases h
        exact ⟨rfl, payload_le_of_fromCanonical hp⟩

/-- The blocks recovered from the records of a generation carry their own addresses. -/
theorem recovered_addressed {c : Compressor} {records : List (List UInt8)}
    {recovered : List (Block × BlockId)} (h : records.mapM (recoverBlock c) = .ok recovered) :
    ∀ b ∈ recovered, b.2 = b.1.blockId := by
  refine mapM_forall h ?_
  intro comp b hb
  exact (recoverBlock_eq_ok hb).1

/-- The blocks recovered from the records of a generation respect the size limit. -/
theorem recovered_sized {c : Compressor} {records : List (List UInt8)}
    {recovered : List (Block × BlockId)} (h : records.mapM (recoverBlock c) = .ok recovered) :
    ∀ b ∈ recovered, b.1.payload.length ≤ maxBlockPayloadBytes := by
  refine mapM_forall h ?_
  intro comp b hb
  exact (recoverBlock_eq_ok hb).2

/-- A block that was compressed from its canonical bytes is recovered. -/
theorem recoverBlock_compressed {sender c : Compressor} (hrt : Compressor.RoundTrips sender c)
    {b : Block} (hmax : b.payload.length ≤ maxBlockPayloadBytes) {z : List UInt8}
    (hz : sender.compress (canonicalBytes b) = .ok z) :
    recoverBlock c z = .ok (b, b.blockId) := by
  obtain ⟨z', hz', hdec⟩ := hrt (canonicalBytes b)
  cases hz.symm.trans hz'
  simp only [recoverBlock, hdec, fromCanonicalOwned_eq, fromCanonical_canonicalBytes b hmax]
  rfl

/-- An entry resolves to the reference it is, or to a block under its own id and within the
limit. -/
theorem resolveBlock_eq_ok {c : Compressor} {fb : FrameBlock} {x : Resolved}
    (h : resolveBlock c fb = .ok x) :
    (∃ id, x = .ref id) ∨
      ∃ b : Block, x = .inline b.blockId b ∧ b.payload.length ≤ maxBlockPayloadBytes := by
  cases fb with
  | ref id =>
      cases h
      exact Or.inl ⟨id, rfl⟩
  | inline wireBlock =>
      simp only [resolveBlock] at h
      cases hb : recoverBlock c wireBlock.payload with
      | error e =>
          rw [hb] at h
          cases h
      | ok b =>
          obtain ⟨b, id⟩ := b
          obtain ⟨rfl, hmax⟩ := recoverBlock_eq_ok hb
          rw [hb] at h
          cases h
          exact Or.inr ⟨b, rfl, hmax⟩

theorem resolveBlock_addressed {c : Compressor} {fb : FrameBlock} {x : Resolved}
    (h : resolveBlock c fb = .ok x) : x.Addressed := by
  obtain ⟨id, rfl⟩ | ⟨b, rfl, -⟩ := resolveBlock_eq_ok h
  · trivial
  · rfl

theorem resolve_addressed {c : Compressor} {blocks : List FrameBlock} {resolved : List Resolved}
    (h : blocks.mapM (resolveBlock c) = .ok resolved) : ∀ x ∈ resolved, x.Addressed :=
  mapM_forall h fun _ _ hx => resolveBlock_addressed hx

end Resolve

end Receiver

/-! ## The store operations behind the handlers -/

namespace Core.ContentStore

variable [Blake3]

/-- No operation changes or removes a stored block. -/
theorem perform_preserves {st : ContentStore} {k : BlockId} {b : Block} (op : StoreOp)
    (h : st.blocks.get? k = some b) : (st.perform op).blocks.get? k = some b := by
  cases op with
  | insertWithCanonical sid block given =>
      simp only [perform, insertWithCanonical_blocks]
      exact putBlock_preserves _ _ h
  | reference sid id => simpa [perform] using h
  | seedSession sid ids root => simpa [perform] using h
  | storeContentWithId sid block =>
      simp only [perform, storeContentWithId_blocks]
      exact putBlock_preserves _ _ h

theorem performAll_preserves {st : ContentStore} {k : BlockId} {b : Block} (ops : List StoreOp)
    (h : st.blocks.get? k = some b) : (st.performAll ops).blocks.get? k = some b := by
  induction ops generalizing st with
  | nil => exact h
  | cons op rest ih => exact ih (perform_preserves op h)

omit [Blake3] in
theorem contains_iff {st : ContentStore} {id : BlockId} :
    st.contains id = true ↔ ∃ b, st.blocks.get? id = some b := by
  simp [contains, Option.isSome_iff_exists]

theorem contains_performAll {st : ContentStore} {id : BlockId} (ops : List StoreOp)
    (h : st.contains id = true) : (st.performAll ops).contains id = true := by
  obtain ⟨b, hb⟩ := contains_iff.mp h
  exact contains_iff.mpr ⟨b, performAll_preserves ops hb⟩

/-- An operation leaves the logs of other sessions alone. -/
theorem perform_sessions_of_ne {st : ContentStore} {op : StoreOp} {s : SessionId}
    (hs : s ≠ op.sid) : (st.perform op).sessions.get? s = st.sessions.get? s := by
  have hpush : ∀ sid id, s ≠ sid → (pushLog st.sessions sid id).get? s = st.sessions.get? s := by
    intro sid id hne
    unfold pushLog
    split <;> simp [hne]
  cases op with
  | insertWithCanonical sid block given => simpa [perform] using hpush sid _ hs
  | reference sid id =>
      simp only [perform]
      cases hb : st.blocks.get? id with
      | none => rw [reference_of_absent st sid id hb]
      | some b =>
          rw [(reference_of_contains st sid id hb).1]
          exact hpush sid id hs
  | seedSession sid ids root =>
      have hne : s ≠ sid := hs
      simp [perform, hne]
  | storeContentWithId sid block => simp [perform]

theorem performAll_sessions_of_ne {st : ContentStore} {ops : List StoreOp} {s : SessionId}
    (hs : ∀ op ∈ ops, s ≠ op.sid) :
    (st.performAll ops).sessions.get? s = st.sessions.get? s := by
  induction ops generalizing st with
  | nil => rfl
  | cons op rest ih =>
      exact (ih fun op hop => hs op (List.mem_cons_of_mem _ hop)).trans
        (perform_sessions_of_ne (hs op List.mem_cons_self))

end Core.ContentStore

namespace Receiver

section Append

variable [Blake3]

/-- The log that appending the entries leads to. -/
def extendLog (log : SessionLog) (resolved : List Resolved) : SessionLog :=
  ⟨log.ids ++ resolved.map Resolved.id, rootOver log.root (resolved.map Resolved.id)⟩

theorem perform_op {store : ContentStore} (sid : SessionId) (x : Resolved) (haddr : x.Addressed)
    (href : ∀ id, x = .ref id → store.contains id = true) (rest : List Resolved) :
    applyResolved sid (x :: rest) store = applyResolved sid rest (store.perform (x.op sid)) ∧
      (store.perform (x.op sid)).contains x.id = true ∧
      (store.perform (x.op sid)).sessions = pushLog store.sessions sid x.id := by
  cases x with
  | inline id block =>
      cases haddr
      refine ⟨rfl, ?_, ?_⟩
      · simp [ContentStore.contains, ContentStore.perform, Resolved.op, Resolved.id,
          putBlock_self_isSome]
      · simp [ContentStore.perform, Resolved.op, Resolved.id]
  | ref id =>
      obtain ⟨b, hb⟩ := ContentStore.contains_iff.mp (href id rfl)
      obtain ⟨hsess, hok⟩ := ContentStore.reference_of_contains store sid id hb
      refine ⟨?_, ?_, hsess⟩
      · have hpair : store.reference sid id = ((store.reference sid id).1, .ok ()) := by
          rw [← hok]
        simp only [applyResolved, ContentStore.perform, Resolved.op]
        rw [hpair]
      · simp [ContentStore.contains, ContentStore.perform, Resolved.op, Resolved.id, hb]

/-- Applying available entries always succeeds: it performs their operations, stores
every id they name and extends the session log by them. -/
theorem applyResolved_spec (sid : SessionId) (store : ContentStore) {resolved : List Resolved}
    {checked : ContentStore} {available : List BlockId}
    (haddr : ∀ x ∈ resolved, x.Addressed)
    (hav : ∀ id, checked.contains id = true ∨ id ∈ available → store.contains id = true)
    (h : refsAvailable checked available resolved = true) :
    applyResolved sid resolved store = (.ok (), store.performAll (resolved.map (Resolved.op sid))) ∧
      (∀ x ∈ resolved,
        (store.performAll (resolved.map (Resolved.op sid))).contains x.id = true) ∧
      (∀ s, logOf (store.performAll (resolved.map (Resolved.op sid))).sessions s =
        if s = sid then extendLog (logOf store.sessions sid) resolved
        else logOf store.sessions s) ∧
      ∀ s, s ≠ sid → (store.performAll (resolved.map (Resolved.op sid))).sessions.get? s =
        store.sessions.get? s := by
  induction resolved generalizing store available with
  | nil =>
      refine ⟨rfl, by simp, fun s => ?_, fun _ _ => rfl⟩
      by_cases hs : s = sid
      · simp [hs, extendLog, ContentStore.performAll]
      · simp [hs, ContentStore.performAll]
  | cons x rest ih =>
      have href : ∀ id, x = .ref id → store.contains id = true := by
        rintro id rfl
        simp only [refsAvailable, Bool.and_eq_true, Bool.or_eq_true, decide_eq_true_eq] at h
        exact hav id h.1
      obtain ⟨happ, hcont, hsess⟩ := perform_op sid x (haddr x List.mem_cons_self) href rest
      have hmono : ∀ id, store.contains id = true →
          (store.perform (x.op sid)).contains id = true :=
        fun id hid => ContentStore.contains_performAll [x.op sid] hid
      have hrest : ∃ available', refsAvailable checked available' rest = true ∧
          ∀ id, checked.contains id = true ∨ id ∈ available' →
            (store.perform (x.op sid)).contains id = true := by
        cases x with
        | inline id block =>
            refine ⟨id :: available, h, fun k hk => ?_⟩
            rcases hk with hk | hk
            · exact hmono k (hav k (Or.inl hk))
            · rcases List.mem_cons.mp hk with rfl | hk
              · exact hcont
              · exact hmono k (hav k (Or.inr hk))
        | ref id =>
            simp only [refsAvailable, Bool.and_eq_true] at h
            exact ⟨available, h.2, fun k hk => hmono k (hav k hk)⟩
      obtain ⟨available', hav', hmono'⟩ := hrest
      obtain ⟨hok, hall, hlog, hother⟩ :=
        ih _ (fun y hy => haddr y (List.mem_cons_of_mem _ hy)) hmono' hav'
      refine ⟨happ.trans hok, fun y hy => ?_, fun s => ?_, fun s hs => ?_⟩
      · rcases List.mem_cons.mp hy with rfl | hmem
        · exact ContentStore.contains_performAll (rest.map (Resolved.op sid)) hcont
        · exact hall y hmem
      · refine (hlog s).trans ?_
        rw [hsess, logOf_pushLog, logOf_pushLog]
        by_cases hs : s = sid
        · simp [hs, extendLog]
        · simp [hs]
      · refine (hother s hs).trans ?_
        rw [hsess]
        unfold pushLog
        split <;> simp [hs]

private theorem foldl_appendRoot (resolved : List Resolved) (root : MerkleRoot) :
    resolved.foldl (fun root item => appendRoot root item.id) root =
      rootOver root (resolved.map Resolved.id) := by
  rw [rootOver, List.foldl_map]

/-- Handling an APPEND once its blocks are resolved, with the store operations named. -/
theorem appendResolved_eq (r : Receiver) (frame : AppendFrame) {resolved : List Resolved}
    (haddr : ∀ x ∈ resolved, x.Addressed) (h : refsAvailable r.store [] resolved = true) :
    r.appendResolved frame resolved =
      if (r.session frame.sessionId).pending ≠ ∅ then
        (.error (.coldStartInProgress frame.sessionId), r.touch frame.sessionId)
      else if frame.baseRoot ≠ r.store.sessionRoot frame.sessionId then
        if rootOver frame.baseRoot (resolved.map Resolved.id) =
            r.store.sessionRoot frame.sessionId then
          (.ok ⟨frame.sessionId, r.store.sessionRoot frame.sessionId⟩, r.touch frame.sessionId)
        else
          (.error (.baseRootMismatch frame.sessionId frame.baseRoot
            (r.store.sessionRoot frame.sessionId)), r.touch frame.sessionId)
      else
        (.ok ⟨frame.sessionId, rootOver frame.baseRoot (resolved.map Resolved.id)⟩,
          { r.touch frame.sessionId with
            store := r.store.performAll (resolved.map (Resolved.op frame.sessionId)) }) := by
  obtain ⟨happ, -, hlog, -⟩ := applyResolved_spec frame.sessionId r.store haddr
    (fun id hid => by simpa using hid) h
  unfold appendResolved
  simp only [← touch.eq_def, touch_session, touch_store, foldl_appendRoot]
  split_ifs with hpend hbase htarget
  · rfl
  · rfl
  · rfl
  · rw [happ]
    have hroot := hlog frame.sessionId
    rw [if_pos rfl] at hroot
    simp only [ContentStore.sessionRoot, hroot, extendLog]
    push Not at hbase
    rw [hbase]
    rfl

end Append

section AppendFrame

variable [Blake3] [Zstd]

/-- Everything an APPEND can do: fail without touching the store, recognise a frame
that was applied before, or extend the log. -/
theorem handleAppend_cases (r : Receiver) (frame : AppendFrame) :
    (∃ e r', r.handleAppend frame = (.error e, r') ∧ (r' = r ∨ r' = r.touch frame.sessionId)) ∨
    ∃ resolved, frame.blocks.mapM (resolveBlock r.compressor) = .ok resolved ∧
      refsAvailable r.store [] resolved = true ∧ (r.session frame.sessionId).pending = ∅ ∧
      (frame.baseRoot ≠ r.store.sessionRoot frame.sessionId ∧
        rootOver frame.baseRoot (resolved.map Resolved.id) =
          r.store.sessionRoot frame.sessionId ∧
        r.handleAppend frame =
          (.ok ⟨frame.sessionId, r.store.sessionRoot frame.sessionId⟩, r.touch frame.sessionId) ∨
       frame.baseRoot = r.store.sessionRoot frame.sessionId ∧
        r.handleAppend frame =
          (.ok ⟨frame.sessionId, rootOver frame.baseRoot (resolved.map Resolved.id)⟩,
            { r.touch frame.sessionId with
              store := r.store.performAll (resolved.map (Resolved.op frame.sessionId)) })) := by
  unfold handleAppend
  cases hres : frame.blocks.mapM (resolveBlock r.compressor) with
  | error e => exact Or.inl ⟨e, r, rfl, Or.inl rfl⟩
  | ok resolved =>
      simp only
      by_cases havail : refsAvailable r.store [] resolved = true
      · rw [if_pos havail, appendResolved_eq r frame (resolve_addressed hres) havail]
        split_ifs with hpend hbase htarget
        · exact Or.inl ⟨_, _, rfl, Or.inr rfl⟩
        · push Not at hpend
          exact Or.inr ⟨resolved, rfl, havail, hpend, Or.inl ⟨hbase, htarget, rfl⟩⟩
        · exact Or.inl ⟨_, _, rfl, Or.inr rfl⟩
        · push Not at hpend hbase
          exact Or.inr ⟨resolved, rfl, havail, hpend, Or.inr ⟨hbase, rfl⟩⟩
      · rw [if_neg havail]
        exact Or.inl ⟨_, r, rfl, Or.inl rfl⟩

/-- After an acknowledged APPEND the session is known and nothing of it is pending. -/
theorem handleAppend_ok {r r' : Receiver} {frame : AppendFrame} {ack : AckFrame}
    (h : r.handleAppend frame = (.ok ack, r')) :
    (r'.sessions.get? frame.sessionId).isSome = true ∧
      (r'.session frame.sessionId).pending = ∅ := by
  have htouch : ((r.touch frame.sessionId).sessions.get? frame.sessionId).isSome = true := by
    simp [touch, setSession]
  rcases r.handleAppend_cases frame with ⟨e, r₁, hr, -⟩ | ⟨resolved, -, -, hpend, hr | hr⟩
  · rw [hr] at h
    cases h
  · rw [hr.2.2] at h
    cases h
    exact ⟨htouch, by simpa using hpend⟩
  · rw [hr.2] at h
    cases h
    refine ⟨htouch, ?_⟩
    have hsession : ∀ store, ({ r.touch frame.sessionId with store } : Receiver).session
        frame.sessionId = (r.touch frame.sessionId).session frame.sessionId := fun _ => rfl
    rw [hsession, touch_session]
    exact hpend

end AppendFrame

section Bulk

variable [Blake3]

/-- The operations that store recovered content. -/
def contentOps (sid : SessionId) (recovered : List (Block × BlockId)) : List StoreOp :=
  recovered.map fun b => .storeContentWithId sid b.1

theorem storeRecovered_eq (sid : SessionId) {recovered : List (Block × BlockId)}
    (haddr : ∀ b ∈ recovered, b.2 = b.1.blockId) (store : ContentStore) :
    storeRecovered sid recovered store = store.performAll (contentOps sid recovered) := by
  induction recovered generalizing store with
  | nil => rfl
  | cons b rest ih =>
      have hb := haddr b List.mem_cons_self
      obtain ⟨block, id⟩ := b
      obtain rfl : id = block.blockId := hb
      exact ih (fun b hb => haddr b (List.mem_cons_of_mem _ hb)) _

theorem performAll_contentOps_sessions (sid : SessionId) (recovered : List (Block × BlockId))
    (store : ContentStore) :
    (store.performAll (contentOps sid recovered)).sessions = store.sessions := by
  induction recovered generalizing store with
  | nil => rfl
  | cons b rest ih =>
      refine (ih _).trans ?_
      simp [ContentStore.perform]

theorem contains_performAll_contentOps (sid : SessionId) {recovered : List (Block × BlockId)}
    (haddr : ∀ b ∈ recovered, b.2 = b.1.blockId) (store : ContentStore) :
    ∀ b ∈ recovered,
      (store.performAll (contentOps sid recovered)).contains b.2 = true := by
  induction recovered generalizing store with
  | nil => simp
  | cons b rest ih =>
      intro x hx
      rcases List.mem_cons.mp hx with rfl | hmem
      · have hself : (store.perform (.storeContentWithId sid x.1)).contains x.2 = true := by
          rw [haddr x List.mem_cons_self]
          simp [ContentStore.contains, ContentStore.perform, putBlock_self_isSome]
        exact ContentStore.contains_performAll (contentOps sid rest) hself
      · exact ih (fun b hb => haddr b (List.mem_cons_of_mem _ hb)) _ x hmem

end Bulk

section BulkFrame

variable [Blake3] [Zstd]

/-- The receiver after a generation was recovered. -/
def finished (r : Receiver) (sid : SessionId) (generation : UInt32)
    (recovered : List (Block × BlockId)) : Receiver :=
  let st := r.session sid
  let pending := st.pending \ (recovered.map Prod.snd).toFinset
  ({ r with store := r.store.performAll (contentOps sid recovered) } : Receiver).setSession sid
    { pending, acked := st.acked || decide (pending = ∅), decoders := st.decoders.unset generation }

omit [Zstd] in
theorem finishGeneration_eq (r : Receiver) (sid : SessionId) (generation : UInt32)
    (d : FountainDecoder) {recovered : List (Block × BlockId)}
    (haddr : ∀ b ∈ recovered, b.2 = b.1.blockId) :
    (r.setSession sid { r.session sid with
        decoders := (r.session sid).decoders.set generation d }).finishGeneration sid generation
          recovered =
      (if (r.session sid).pending \ (recovered.map Prod.snd).toFinset = ∅ ∧
          (r.session sid).acked = false then some (r.store.sessionRoot sid) else none,
        r.finished sid generation recovered) := by
  unfold finishGeneration finished
  simp only [session_setSession_self, setSession_store, storeRecovered_eq sid haddr,
    FinMap.unset_set, ContentStore.sessionRoot, performAll_contentOps_sessions]
  by_cases hdone : (r.session sid).pending \ (recovered.map Prod.snd).toFinset = ∅
  · by_cases hack : (r.session sid).acked = false
    · simp [hdone, hack, setSession]
    · simp [hdone, hack, setSession]
  · simp [hdone, setSession]

/-- Everything a BULK can do: keep a decoder and leave the store alone, or finish a
generation with addressed blocks. -/
theorem handleBulk_cases (r : Receiver) (frame : BulkFrame) :
    (∃ d, (r.handleBulk frame).2 = r.setSession frame.sessionId
        { r.session frame.sessionId with
          decoders := (r.session frame.sessionId).decoders.set frame.generation d } ∧
      ∀ root, (r.handleBulk frame).1 ≠ .ok (some root)) ∨
    ∃ recovered, (∀ b ∈ recovered, b.2 = b.1.blockId) ∧
      r.handleBulk frame =
        (.ok (if (r.session frame.sessionId).pending \ (recovered.map Prod.snd).toFinset = ∅ ∧
            (r.session frame.sessionId).acked = false then
              some (r.store.sessionRoot frame.sessionId) else none),
          r.finished frame.sessionId frame.generation recovered) := by
  simp only [handleBulk, handleBulkWith, recoverRecords_zero]
  split
  · exact Or.inl ⟨_, rfl, by simp⟩
  · split
    · exact Or.inl ⟨_, rfl, by simp⟩
    · exact Or.inl ⟨_, rfl, by simp⟩
    · split
      · exact Or.inl ⟨_, rfl, by simp⟩
      · rename_i recovered hrec
        have haddr : ∀ b ∈ recovered, b.2 = b.1.blockId := recovered_addressed hrec
        refine Or.inr ⟨recovered, haddr, ?_⟩
        rw [finishGeneration_eq r _ _ _ haddr]

/-- A frame whose decoder decodes finishes its generation. -/
theorem handleBulk_of_decoded (r : Receiver) (frame : BulkFrame) {d : FountainDecoder}
    {syms : List (List UInt8)} {recovered : List (Block × BlockId)}
    (hadd : (((r.session frame.sessionId).decoders.get? frame.generation).getD
      (FountainDecoder.new frame.k.toNat frame.symbolSize.toNat)).addAll frame.symbols = (.ok (), d))
    (hdec : d.decode.1 = .ok syms)
    (hrec : (parseRecords syms.flatten).mapM (recoverBlock r.compressor) = .ok recovered) :
    r.handleBulk frame =
      (.ok (if (r.session frame.sessionId).pending \ (recovered.map Prod.snd).toFinset = ∅ ∧
          (r.session frame.sessionId).acked = false then
            some (r.store.sessionRoot frame.sessionId) else none),
        r.finished frame.sessionId frame.generation recovered) := by
  have haddr : ∀ b ∈ recovered, b.2 = b.1.blockId := recovered_addressed hrec
  have hpair : d.decode = (.ok syms, d.decode.2) := by rw [← hdec]
  simp only [handleBulk, handleBulkWith, recoverRecords_zero, hadd]
  rw [hpair]
  simp only [hrec]
  rw [finishGeneration_eq r _ _ _ haddr]

/-- The frame completes its generation: the decoder takes its symbols and decodes, and every
record of the decoded stream is recovered. -/
def Finishes (r : Receiver) (frame : BulkFrame) : Prop :=
  ∃ d syms recovered,
    (((r.session frame.sessionId).decoders.get? frame.generation).getD
      (FountainDecoder.new frame.k.toNat frame.symbolSize.toNat)).addAll frame.symbols =
        (.ok (), d) ∧
    d.decode.1 = .ok syms ∧
    (parseRecords syms.flatten).mapM (recoverBlock r.compressor) = .ok recovered

/-- A frame that does not complete its generation only keeps the decoder. -/
theorem handleBulk_unfinished (r : Receiver) {frame : BulkFrame} (h : ¬ r.Finishes frame) :
    (∃ d, (r.handleBulk frame).2 = r.setSession frame.sessionId
        { r.session frame.sessionId with
          decoders := (r.session frame.sessionId).decoders.set frame.generation d }) ∧
      ∀ root, (r.handleBulk frame).1 ≠ .ok (some root) := by
  simp only [handleBulk, handleBulkWith, recoverRecords_zero]
  split
  · exact ⟨⟨_, rfl⟩, by simp⟩
  · rename_i d hadd
    split
    · exact ⟨⟨_, rfl⟩, by simp⟩
    · exact ⟨⟨_, rfl⟩, by simp⟩
    · rename_i syms d' hdec
      split
      · exact ⟨⟨_, rfl⟩, by simp⟩
      · rename_i recovered hrec
        exact absurd ⟨d, syms, recovered, hadd, by rw [hdec], hrec⟩ h

end BulkFrame

section Frame

variable [Blake3] [Zstd]

/-- The effect of a step on everything outside one session, and the operations that
account for the change of the store. -/
structure Affects (r r' : Receiver) (sid : SessionId) (ops : List StoreOp) : Prop where
  store : r'.store = r.store.performAll ops
  compressor : r'.compressor = r.compressor
  own : ∀ op ∈ ops, op.sid = sid
  others : ∀ s, s ≠ sid → r'.sessions.get? s = r.sessions.get? s

omit [Zstd] in
/-- A change of bookkeeping only. -/
theorem Affects.of_setSession (r : Receiver) (sid : SessionId) (st : SessionState) :
    Affects r (r.setSession sid st) sid [] :=
  ⟨rfl, rfl, by simp, fun s hs => by simp [setSession, hs]⟩

theorem handleAppend_affects (r : Receiver) (frame : AppendFrame) :
    ∃ ops, Affects r (r.handleAppend frame).2 frame.sessionId ops ∧
      ∀ sid ids root, StoreOp.seedSession sid ids root ∉ ops := by
  rcases r.handleAppend_cases frame with ⟨e, r', h, rfl | rfl⟩ | ⟨resolved, -, -, -, h | h⟩
  · rw [h]
    exact ⟨[], ⟨rfl, rfl, by simp, fun _ _ => rfl⟩, by simp⟩
  · rw [h]
    exact ⟨[], Affects.of_setSession _ _ _, by simp⟩
  · rw [h.2.2]
    exact ⟨[], Affects.of_setSession _ _ _, by simp⟩
  · rw [h.2]
    refine ⟨resolved.map (Resolved.op frame.sessionId), ⟨rfl, rfl, ?_, ?_⟩, ?_⟩
    · intro op hop
      obtain ⟨x, -, rfl⟩ := List.mem_map.mp hop
      cases x <;> rfl
    · exact (Affects.of_setSession r _ _).others
    · intro sid ids root hmem
      obtain ⟨x, -, hx⟩ := List.mem_map.mp hmem
      cases x <;> cases hx

omit [Zstd] in
theorem handleResync_affects (r : Receiver) (frame : ResyncFrame) :
    Affects r (r.handleResync frame).2 frame.sessionId
      [.seedSession frame.sessionId frame.manifest frame.clientRoot] :=
  ⟨rfl, rfl, by simp [StoreOp.sid], fun s hs => by simp [handleResync, setSession, hs]⟩

theorem handleBulk_affects (r : Receiver) (frame : BulkFrame) :
    ∃ ops, Affects r (r.handleBulk frame).2 frame.sessionId ops ∧
      ∀ sid ids root, StoreOp.seedSession sid ids root ∉ ops := by
  rcases r.handleBulk_cases frame with ⟨d, h, -⟩ | ⟨recovered, -, h⟩
  · rw [h]
    exact ⟨[], Affects.of_setSession _ _ _, by simp⟩
  · rw [h]
    refine ⟨contentOps frame.sessionId recovered, ⟨rfl, rfl, ?_, ?_⟩, by simp [contentOps]⟩
    · intro op hop
      obtain ⟨b, -, rfl⟩ := List.mem_map.mp hop
      rfl
    · exact fun s hs => by simp [finished, setSession, hs]

@[simp] theorem handleFrame_append_snd (r : Receiver) (a : AppendFrame) :
    (r.handleFrame (.append a)).2 = (r.handleAppend a).2 := by
  simp only [handleFrame]
  split <;> simp_all

@[simp] theorem handleFrame_resync_snd (r : Receiver) (f : ResyncFrame) :
    (r.handleFrame (.resync f)).2 = (r.handleResync f).2 := by
  simp only [handleFrame]
  split <;> rfl

@[simp] theorem handleFrame_bulk_snd (r : Receiver) (b : BulkFrame) :
    (r.handleFrame (.bulk b)).2 = (r.handleBulk b).2 := by
  simp only [handleFrame]
  split <;> simp_all

/-- Every frame affects its own session only. The only frame that seeds a log is a
RESYNC, with its own manifest and root. -/
theorem handleFrame_affects (r : Receiver) (f : Frame) :
    ∃ ops, Affects r (r.handleFrame f).2 f.sessionId ops ∧
      ∀ sid ids root, StoreOp.seedSession sid ids root ∈ ops →
        ∃ m, f = .resync m ∧ ids = m.manifest ∧ root = m.clientRoot := by
  cases f with
  | append a =>
      obtain ⟨ops, haff, hseed⟩ := r.handleAppend_affects a
      refine ⟨ops, ?_, fun sid ids root h => absurd h (hseed sid ids root)⟩
      simpa [Frame.sessionId] using haff
  | resync m =>
      refine ⟨[.seedSession m.sessionId m.manifest m.clientRoot], ?_, fun sid ids root h => ?_⟩
      · simpa [Frame.sessionId] using r.handleResync_affects m
      · obtain ⟨-, hids, hroot⟩ : sid = m.sessionId ∧ ids = m.manifest ∧ root = m.clientRoot := by
          simpa using h
        exact ⟨m, rfl, hids, hroot⟩
  | bulk b =>
      obtain ⟨ops, haff, hseed⟩ := r.handleBulk_affects b
      refine ⟨ops, ?_, fun sid ids root h => absurd h (hseed sid ids root)⟩
      simpa [Frame.sessionId] using haff
  | ack a => exact ⟨[], ⟨rfl, rfl, by simp, fun _ _ => rfl⟩, by simp⟩
  | missing m => exact ⟨[], ⟨rfl, rfl, by simp, fun _ _ => rfl⟩, by simp⟩

theorem handleAll_compressor (r : Receiver) (frames : List Frame) :
    (r.handleAll frames).compressor = r.compressor := by
  induction frames generalizing r with
  | nil => rfl
  | cons f rest ih =>
      obtain ⟨ops, haff, -⟩ := r.handleFrame_affects f
      exact (ih _).trans haff.compressor

section Others

variable {r r' : Receiver} {sid s : SessionId} {ops : List StoreOp}

omit [Zstd] in
theorem Affects.session (h : Affects r r' sid ops) (hs : s ≠ sid) :
    r'.session s = r.session s := by
  rw [Receiver.session, Receiver.session, h.others s hs]

omit [Zstd] in
theorem Affects.log_get? (h : Affects r r' sid ops) (hs : s ≠ sid) :
    r'.store.sessions.get? s = r.store.sessions.get? s := by
  rw [h.store]
  exact ContentStore.performAll_sessions_of_ne fun op hop heq => hs (heq.trans (h.own op hop))

omit [Zstd] in
theorem Affects.logOf (h : Affects r r' sid ops) (hs : s ≠ sid) :
    logOf r'.store.sessions s = logOf r.store.sessions s := by
  rw [Core.logOf, Core.logOf, h.log_get? hs]

omit [Zstd] in
theorem Affects.preserves (h : Affects r r' sid ops) {id : BlockId} {b : Block}
    (hb : r.store.blocks.get? id = some b) : r'.store.blocks.get? id = some b := by
  rw [h.store]
  exact ContentStore.performAll_preserves ops hb

end Others

end Frame

end Receiver

end Dlr
