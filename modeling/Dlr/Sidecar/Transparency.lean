import Dlr.Sidecar.Server

/-!
# The projection cache is transparent

Every cached projection stands for the beginning of its session's log, and every message
of that log passes the validation of a rebuilt projection. Then extending a projection and
rebuilding it give the same upstream request.

## Implementation notes

An append is validated by parsing into a map, in which the last of duplicate keys counts,
while a rebuilt history is validated by a derived record, which refuses a duplicate of its
field. The two agree on every message that names its role once.
-/

namespace Dlr.Sidecar

open Dlr.Core Compress Lib Lib.Machine

/-! ## The two validators -/

section Roles

variable [SerdeJson]

/-- A message object that names its role at most once. -/
def OneRole (doc : List UInt8) : Prop :=
  ∀ members, SerdeJson.fromSlice doc = .ok (.object members) →
    (members.filter fun m => m.1 = "role").length ≤ 1

/-- What the validation of an append accepts. -/
def AppendMessage (doc : List UInt8) : Prop :=
  ∃ members, SerdeJson.fromSlice doc = .ok (.object members) ∧
    ((Value.getMember "role" members).bind Value.asStr).isSome = true

/-- What the validation of a rebuilt history accepts. -/
def HistoryMessage (doc : List UInt8) : Prop :=
  ∀ index, validateSerializedMessage doc index = .ok ()

omit [SerdeJson] in
theorem mem_of_getMember {key : String} {members : List (String × Value)} {v : Value}
    (h : Value.getMember key members = some v) : (key, v) ∈ members.filter fun m => m.1 = key := by
  induction members with
  | nil => cases h
  | cons m rest ih =>
      obtain ⟨k, w⟩ := m
      rw [Value.getMember] at h
      cases hrest : Value.getMember key rest with
      | some u =>
          rw [hrest, Option.some_or] at h
          cases h
          have hmem := ih hrest
          rw [List.mem_filter] at hmem ⊢
          exact ⟨List.mem_cons_of_mem _ hmem.1, hmem.2⟩
      | none =>
          rw [hrest, Option.none_or] at h
          split_ifs at h with hk
          cases h
          subst hk
          exact List.mem_filter.mpr ⟨List.mem_cons_self, by simp⟩

/-- The two validators agree on messages that name their role once. -/
theorem AppendMessage.history {doc : List UInt8} (h : AppendMessage doc) (hone : OneRole doc) :
    HistoryMessage doc := by
  obtain ⟨members, hparse, hrole⟩ := h
  obtain ⟨role, hrole⟩ := Option.isSome_iff_exists.mp hrole
  obtain ⟨v, hget, hstr⟩ := Option.bind_eq_some_iff.mp hrole
  have honly : (members.filter fun m => m.1 = "role") = [("role", v)] := by
    have hmem := mem_of_getMember hget
    have hlen := hone members hparse
    cases hfilter : members.filter fun m => m.1 = "role" with
    | nil =>
        rw [hfilter] at hmem
        cases hmem
    | cons m rest =>
        rw [hfilter] at hmem hlen
        obtain rfl : rest = [] := by
          apply List.eq_nil_of_length_eq_zero
          simpa using hlen
        rw [List.mem_singleton.mp hmem]
  intro index
  have hvalue : v = .string role := by
    cases v <;> cases hstr
    rfl
  simp only [validateSerializedMessage, SerdeJson.structFromSlice_of_fromSlice hparse,
    Value.messageRole, honly, hvalue]
  rfl

end Roles

/-! ## The messages of an append -/

section Append

variable [Blake3] [Zstd]

/-- The blocks that the entries of a frame stand for, up to the first that is refused. -/
def chatBlocks (r : Receiver) : FinMap BlockId Block → List FrameBlock → List Block
  | _, [] => []
  | inline, entry :: rest =>
      match chatBlock r inline entry with
      | .error _ => []
      | .ok (block, inline) => block :: chatBlocks r inline rest

/-- Both resolutions of an entry name the same id. -/
theorem chatBlock_id {r : Receiver} (haddr : r.store.maps.Addressed)
    {inline inline' : FinMap BlockId Block}
    (hinline : ∀ id b, inline.get? id = some b → id = b.blockId) {entry : FrameBlock} {b : Block}
    {x : Resolved} (h : chatBlock r inline entry = .ok (b, inline'))
    (hx : Receiver.resolveBlock r.compressor entry = .ok x) :
    x.id = b.blockId ∧ ∀ id b, inline'.get? id = some b → id = b.blockId := by
  cases entry with
  | inline wireBlock =>
      have hrec : Receiver.recoverBlock r.compressor wireBlock.payload = .ok (b, x.id) ∧
          inline' = inline.set x.id b := by
        simp only [chatBlock] at h
        simp only [Receiver.resolveBlock, Receiver.recoverBlock] at hx ⊢
        cases hdec : r.compressor.decompress wireBlock.payload with
        | error e =>
            simp only [hdec] at h
            cases h
        | ok canonical =>
            simp only [hdec] at h hx ⊢
            cases hcanon : fromCanonicalOwned canonical with
            | error e =>
                simp only [hcanon] at h
                cases h
            | ok recovered =>
                simp only [hcanon] at h hx ⊢
                cases h
                cases hx
                exact ⟨rfl, rfl⟩
      obtain ⟨hid, -⟩ := Receiver.recoverBlock_eq_ok hrec.1
      refine ⟨hid, ?_⟩
      intro id c hc
      rw [hrec.2, FinMap.get?_set] at hc
      split_ifs at hc with heq
      · cases hc
        exact heq.trans hid
      · exact hinline id c hc
  | ref id =>
      cases hx
      simp only [chatBlock] at h
      split at h
      · cases h
      · rename_i block hblock
        cases h
        refine ⟨?_, hinline⟩
        rcases Option.or_eq_some_iff.mp hblock with hstored | ⟨-, hseen⟩
        · exact haddr id b hstored
        · exact hinline id b hseen

variable [SerdeJson]

theorem validateChatBlocks_cons {r : Receiver} {index : Nat} {inline : FinMap BlockId Block}
    {entry : FrameBlock} {rest : List FrameBlock}
    (h : validateChatBlocks r index inline (entry :: rest) = .ok ()) :
    ∃ b inline', chatBlock r inline entry = .ok (b, inline') ∧ AppendMessage b.payload ∧
      validateChatBlocks r (index + 1) inline' rest = .ok () := by
  unfold validateChatBlocks at h
  split at h
  · cases h
  · rename_i b inline' hblock
    split at h
    · cases h
    · rename_i value hvalue
      split at h
      · cases h
      · rename_i members hobject
        split at h
        · cases h
        · rename_i hrole
          refine ⟨b, inline', hblock, ⟨members, ?_, ?_⟩, h⟩
          · cases value <;> cases hobject
            exact hvalue
          · unfold validateMessageObject at hrole
            split_ifs at hrole with hnone
            simpa [Option.isNone_iff_eq_none, Option.isSome_iff_ne_none] using hnone

/-- The blocks of a validated frame are messages under the ids that the receiver appends. -/
theorem chatBlocks_resolved {r : Receiver} (haddr : r.store.maps.Addressed)
    {entries : List FrameBlock} {resolved : List Resolved}
    (hres : List.Forall₂ (fun e x => Receiver.resolveBlock r.compressor e = .ok x) entries resolved)
    {index : Nat} {inline : FinMap BlockId Block}
    (hinline : ∀ id b, inline.get? id = some b → id = b.blockId)
    (h : validateChatBlocks r index inline entries = .ok ()) :
    List.Forall₂ (fun x b => x.id = b.blockId ∧ AppendMessage b.payload) resolved
      (chatBlocks r inline entries) := by
  induction hres generalizing index inline with
  | nil => exact .nil
  | cons hx _ ih =>
      obtain ⟨b, inline', hblock, hmessage, hrest⟩ := validateChatBlocks_cons h
      obtain ⟨hid, hinline'⟩ := chatBlock_id haddr hinline hblock hx
      rw [chatBlocks, hblock]
      exact .cons ⟨hid, hmessage⟩ (ih hinline' hrest)

end Append

/-! ## The invariant -/

section Kept

variable [SerdeJson]

/-- The projection stands for the beginning of the session's log, and every message of the
log passes the validation of a rebuilt history. -/
def Kept (r : Receiver) (sid : SessionId) (p : CachedChatProjection) : Prop :=
  ∃ blocks n, Holds r (r.store.sessionIds sid) blocks ∧ (∀ b ∈ blocks, HistoryMessage b.payload) ∧
    n ≤ blocks.length ∧ p.Represents ((blocks.take n).map Block.payload)

/-- A log that grows by messages keeps its projection. -/
theorem Kept.extend {r r' : Receiver} {sid : SessionId} {p : CachedChatProjection}
    (h : Kept r sid p)
    (hkeep : ∀ id b, r.store.blocks.get? id = some b → r'.store.blocks.get? id = some b)
    {ids : List BlockId} {more : List Block}
    (hids : r'.store.sessionIds sid = r.store.sessionIds sid ++ ids) (hmore : Holds r' ids more)
    (hvalid : ∀ b ∈ more, HistoryMessage b.payload) : Kept r' sid p := by
  obtain ⟨blocks, n, hblocks, hall, hn, hp⟩ := h
  refine ⟨blocks ++ more, n, ?_, ?_, ?_, ?_⟩
  · rw [hids]
    exact (hblocks.mono hkeep).append hmore
  · intro b hb
    rcases List.mem_append.mp hb with hold | hnew
    · exact hall b hold
    · exact hvalid b hnew
  · rw [List.length_append]
    omega
  · rwa [List.take_append_of_le_length hn]

/-- A log that stays as it is keeps its projection. -/
theorem Kept.of_ids_eq {r r' : Receiver} {sid : SessionId} {p : CachedChatProjection}
    (h : Kept r sid p)
    (hkeep : ∀ id b, r.store.blocks.get? id = some b → r'.store.blocks.get? id = some b)
    (hids : r'.store.sessionIds sid = r.store.sessionIds sid) : Kept r' sid p := by
  have hnil : r'.store.sessionIds sid = r.store.sessionIds sid ++ [] := by
    rw [hids, List.append_nil]
  exact h.extend hkeep hnil .nil (by simp)

omit [SerdeJson] in
/-- Partners with a stored block are held. -/
theorem holds_of_stored {r : Receiver} {P : Resolved → Block → Prop} {resolved : List Resolved}
    {blocks : List Block} (h : List.Forall₂ P resolved blocks)
    (hstored : ∀ x ∈ resolved, ∀ b ∈ blocks, P x b → r.store.blocks.get? x.id = some b) :
    Holds r (resolved.map Resolved.id) blocks := by
  induction h with
  | nil => exact .nil
  | cons hab _ ih =>
      refine .cons (hstored _ List.mem_cons_self _ List.mem_cons_self hab) (ih ?_)
      intro x hx b hb
      exact hstored x (List.mem_cons_of_mem _ hx) b (List.mem_cons_of_mem _ hb)

variable [Blake3] [Zstd]

/-- A validated append extends the log by messages that a rebuilt history accepts. -/
theorem appended_messages {r : Receiver} (hwf : r.WellFormed) (frame : AppendFrame)
    (hvalid : validateChatAppend r frame = .ok ())
    (hone : ∀ b ∈ chatBlocks r ∅ frame.blocks, OneRole b.payload)
    {S : Set (List UInt8)} (hS : Set.InjOn Blake3.hash S)
    (hin : ∀ b ∈ chatBlocks r ∅ frame.blocks, canonicalBytes b ∈ S)
    (hstore : ∀ id b, (r.handleAppend frame).2.store.blocks.get? id = some b →
      canonicalBytes b ∈ S) :
    ∃ ids more, (r.handleAppend frame).2.store.sessionIds frame.sessionId =
        r.store.sessionIds frame.sessionId ++ ids ∧
      Holds (r.handleAppend frame).2 ids more ∧ ∀ b ∈ more, HistoryMessage b.payload := by
  have haddr := (hwf.handleAppend frame).addressed
  rcases r.handleAppend_cases frame with
    ⟨e, r', hr, rfl | rfl⟩ | ⟨resolved, hres, havail, -, hr | hr⟩
  · rw [hr]
    exact ⟨[], [], by simp, .nil, by simp⟩
  · rw [hr]
    exact ⟨[], [], by simp, .nil, by simp⟩
  · rw [hr.2.2]
    exact ⟨[], [], by simp, .nil, by simp⟩
  · obtain ⟨-, hall, hlog, -⟩ := Receiver.applyResolved_spec frame.sessionId r.store
      (Receiver.resolve_addressed hres) (fun id hid => by simpa using hid) havail
    have hblocks := chatBlocks_resolved hwf.addressed (mapM_eq_ok hres)
      (fun id b hb => by simp at hb) hvalid
    refine ⟨resolved.map Resolved.id, chatBlocks r ∅ frame.blocks, ?_, ?_, ?_⟩
    · rw [hr.2, ContentStore.sessionIds, hlog, if_pos rfl]
      rfl
    · -- the stored block and the validated one have the same address
      have hstored : ∀ x ∈ resolved, ∀ b ∈ chatBlocks r ∅ frame.blocks, x.id = b.blockId →
          (r.handleAppend frame).2.store.blocks.get? x.id = some b := by
        intro x hx b hb hid
        have hcontains : (r.handleAppend frame).2.store.contains x.id = true := by
          rw [hr.2]
          exact hall x hx
        obtain ⟨c, hc⟩ := ContentStore.contains_iff.mp hcontains
        have hsame : c = b := by
          apply eq_of_blockId_eq hS (hstore _ _ hc) (hin b hb)
          rw [← haddr _ _ hc, hid]
        rw [hc, hsame]
      exact holds_of_stored hblocks fun x hx b hb hxb => hstored x hx b hb hxb.1
    · intro b hb
      obtain ⟨x, -, hx⟩ := forall₂_exists hblocks.flip hb
      exact hx.2.history (hone b hb)

end Kept

section Validate

variable [SerdeJson]

/-- Whether a payload passes does not depend on its position. -/
theorem historyMessage_of_valid {doc : List UInt8} {index : Nat}
    (h : validateSerializedMessage doc index = .ok ()) : HistoryMessage doc := by
  intro other
  unfold validateSerializedMessage at h ⊢
  split at h
  · cases h
  · split_ifs at h with hrole
    exact if_neg hrole

theorem validateMessages_eq_ok (index : Nat) (blocks : List Block) :
    validateMessages index blocks = .ok () ↔ ∀ b ∈ blocks, HistoryMessage b.payload := by
  induction blocks generalizing index with
  | nil => simp [validateMessages]
  | cons b rest ih =>
      rw [List.forall_mem_cons, ← ih (index + 1)]
      constructor
      · intro h
        cases hb : validateSerializedMessage b.payload index with
        | error e =>
            rw [validateMessages, hb] at h
            cases h
        | ok u =>
            rw [validateMessages, hb] at h
            exact ⟨historyMessage_of_valid hb, h⟩
      · rintro ⟨hb, hrest⟩
        rw [validateMessages, hb index]
        exact hrest

end Validate

namespace SidecarState

variable [Blake3] [Zstd] [SerdeJson]

/-- What holds between requests. -/
structure Consistent (s : SidecarState) : Prop where
  wellFormed : s.receiver.WellFormed
  kept : ∀ sid p, s.chatProjections.entries.get? sid = some p → Kept s.receiver sid p

/-! Emptying the cache commutes with every step that does not use it. -/

omit [Blake3] [Zstd] [SerdeJson] in
theorem lookupProjection_emptied (s : SidecarState) (frame : AppendFrame) :
    (s.lookupProjection frame).2.emptied = s.emptied ∧
      s.emptied.lookupProjection frame = (none, s.emptied) :=
  ⟨rfl, rfl⟩

omit [SerdeJson] in
theorem appendChat_emptied (s : SidecarState) (frame : AppendFrame) :
    s.emptied.appendChat frame = ((s.appendChat frame).1, (s.appendChat frame).2.emptied) := by
  have hreceiver : s.emptied.receiver = s.receiver := rfl
  simp only [appendChat, hreceiver]
  split <;> rfl

omit [Blake3] [Zstd] [SerdeJson] in
theorem flush_emptied (s : SidecarState) :
    s.emptied.flush = ((s.flush).1, (s.flush).2.emptied) := by
  have hstate : s.emptied.receiver = s.receiver ∧ s.emptied.syncWal = s.syncWal := ⟨rfl, rfl⟩
  simp only [flush, hstate]
  split <;> rfl

omit [SerdeJson] in
theorem receiveFrame_emptied (s : SidecarState) (frame : Frame) :
    s.emptied.receiveFrame frame =
      ((s.receiveFrame frame).1, (s.receiveFrame frame).2.emptied) := by
  have hreceiver : s.emptied.receiver = s.receiver := rfl
  simp only [receiveFrame, hreceiver]
  split <;> rfl

/-! ## Every step keeps the invariant -/

omit [SerdeJson] in
theorem appendChat_state (s : SidecarState) (frame : AppendFrame) :
    (s.appendChat frame).2 = s.withReceiver (s.receiver.handleAppend frame).2 := by
  unfold appendChat
  split
  · rename_i h
    rw [h]
  · rename_i h
    rw [h]

omit [SerdeJson] in
theorem appendChat_eq {s appended : SidecarState} {frame : AppendFrame}
    {result : Except Response AckFrame} (h : s.appendChat frame = (result, appended)) :
    appended = s.withReceiver (s.receiver.handleAppend frame).2 :=
  (congrArg Prod.snd h).symm.trans (s.appendChat_state frame)

omit [SerdeJson] in
theorem receiveFrame_state (s : SidecarState) (frame : Frame) :
    (s.receiveFrame frame).2 = s.withReceiver (s.receiver.handleFrame frame).2 := by
  unfold receiveFrame
  split
  · rename_i h
    rw [h]
  · rename_i h
    rw [h]

omit [Blake3] [Zstd] [SerdeJson] in
theorem flush_state (s : SidecarState) :
    (s.flush).2 = s.withReceiver { s.receiver with
      store := (s.receiver.store.flushWal s.syncWal).2 } := by
  unfold flush
  split
  · rename_i h
    rw [h]
  · rename_i h
    rw [h]

omit [Blake3] [Zstd] [SerdeJson] in
theorem flush_eq {s flushed : SidecarState} {result : Except Response Unit}
    (h : s.flush = (result, flushed)) :
    flushed = s.withReceiver { s.receiver with
      store := (s.receiver.store.flushWal s.syncWal).2 } :=
  (congrArg Prod.snd h).symm.trans s.flush_state

omit [Zstd] in
theorem Consistent.flush {s : SidecarState} (h : s.Consistent) : (s.flush).2.Consistent := by
  rw [flush_state]
  constructor
  · exact h.wellFormed.flush s.syncWal
  · intro sid p hp
    apply (h.kept sid p hp).of_ids_eq
    · intro id b hb
      simpa [withReceiver] using hb
    · simp [withReceiver, ContentStore.sessionIds]

omit [Zstd] in
theorem Consistent.lookup {s : SidecarState} (h : s.Consistent) (frame : AppendFrame) :
    (s.lookupProjection frame).2.Consistent := by
  constructor
  · exact h.wellFormed
  · intro sid p hp
    simp only [lookupProjection, withProjections, ChatProjectionCache.get_entries] at hp
    exact h.kept sid p hp

theorem Consistent.appendChat {s : SidecarState} (h : s.Consistent) (frame : AppendFrame)
    (hvalid : validateChatAppend s.receiver frame = .ok ())
    (hone : ∀ b ∈ chatBlocks s.receiver ∅ frame.blocks, OneRole b.payload)
    {S : Set (List UInt8)} (hS : Set.InjOn Blake3.hash S)
    (hin : ∀ b ∈ chatBlocks s.receiver ∅ frame.blocks, canonicalBytes b ∈ S)
    (hstore : ∀ id b, (s.appendChat frame).2.receiver.store.blocks.get? id = some b →
      canonicalBytes b ∈ S) :
    (s.appendChat frame).2.Consistent := by
  rw [appendChat_state] at hstore ⊢
  obtain ⟨ops, haff, -⟩ := s.receiver.handleAppend_affects frame
  constructor
  · exact h.wellFormed.handleAppend frame
  · intro sid p hp
    have hkept := h.kept sid p hp
    by_cases hsid : sid = frame.sessionId
    · subst hsid
      obtain ⟨ids, more, hids, hmore, hmessages⟩ :=
        appended_messages h.wellFormed frame hvalid hone hS hin hstore
      exact hkept.extend (fun _ _ hb => haff.preserves hb) hids hmore hmessages
    · apply hkept.of_ids_eq
      · exact fun _ _ hb => haff.preserves hb
      · exact congrArg SessionLog.ids (haff.logOf hsid)

theorem Consistent.receiveFrame {s : SidecarState} (h : s.Consistent) (frame : Frame) :
    ((s.removeProjection frame).receiveFrame frame).2.Consistent := by
  rw [receiveFrame_state]
  obtain ⟨ops, haff, -⟩ := s.receiver.handleFrame_affects frame
  constructor
  · exact h.wellFormed.handleFrame frame
  · intro sid p hp
    obtain ⟨hsid, hentry⟩ := ChatProjectionCache.get?_of_remove hp
    apply (h.kept sid p hentry).of_ids_eq
    · exact fun _ _ hb => haff.preserves hb
    · exact congrArg SessionLog.ids (haff.logOf hsid)

/-! ## Extending and rebuilding give the same request -/

omit [Blake3] [Zstd] [SerdeJson] in
/-- What is sent upstream depends on the payloads of a projection only. -/
theorem upstreamRequest_congr (s : SidecarState) (request : Request) (opening : List UInt8)
    {p q : CachedChatProjection} {payloads : List (List UInt8)} (hp : p.Represents payloads)
    (hq : q.Represents payloads) :
    s.upstreamRequest request opening p = s.upstreamRequest request opening q := by
  simp only [upstreamRequest, hp.chunks, hq.chunks, hp.jsonBytes, hq.jsonBytes]

omit [Zstd] in
/-- A projection of the whole log may be kept. -/
theorem Consistent.insert {s : SidecarState} (h : s.Consistent) {sid : SessionId}
    {blocks : List Block} (hblocks : Holds s.receiver (s.receiver.store.sessionIds sid) blocks)
    (hvalid : ∀ b ∈ blocks, HistoryMessage b.payload) {q : CachedChatProjection}
    (hq : q.Represents (blocks.map Block.payload)) :
    (s.withProjections (s.chatProjections.insert sid q)).Consistent := by
  refine ⟨h.wellFormed, ?_⟩
  intro sid' p hp
  rcases ChatProjectionCache.get?_of_insert hp with ⟨rfl, rfl⟩ | ⟨-, hentry⟩
  · exact ⟨blocks, blocks.length, hblocks, hvalid, le_rfl, by rwa [List.take_length]⟩
  · exact h.kept sid' p hentry

omit [Zstd] in
/-- The answer is the same with the projection that was looked up and without it. -/
theorem Consistent.respondChat {s : SidecarState} (h : s.Consistent) {frame : AppendFrame}
    (hknown : (s.receiver.sessions.get? frame.sessionId).isSome = true)
    (hpend : (s.receiver.session frame.sessionId).pending = ∅)
    {cached : Option CachedChatProjection}
    (hcached : ∀ p, cached = some p → Kept s.receiver frame.sessionId p) (request : Request)
    (metadata : Value) (ack : AckFrame) :
    let given := s.respondChat request metadata frame ack cached
    let emptied := s.emptied.respondChat request metadata frame ack none
    given.1 = emptied.1 ∧ given.2.emptied = emptied.2.emptied ∧ given.2.Consistent := by
  intro given emptied
  have hstate : s.emptied.receiver = s.receiver := rfl
  cases hopen : requestPrefix metadata with
  | error e =>
      simp only [given, emptied, SidecarState.respondChat, hopen]
      exact ⟨trivial, rfl, h⟩
  | ok opening =>
      obtain ⟨-, hblocks⟩ := h.wellFormed.reconstruct hpend
      set blocks := s.receiver.reconstruct frame.sessionId
      obtain ⟨q, -, hq, hrebuild⟩ := reconstructProjection hblocks hknown ack.root
        (s.receiver.store.sessionLen frame.sessionId)
      cases cached with
      | none =>
          simp only [given, emptied, SidecarState.respondChat, hopen, buildProjection, hstate,
            hrebuild]
          cases hvalid : validateMessages 0 blocks with
          | error e => exact ⟨rfl, rfl, h⟩
          | ok u => exact ⟨rfl, rfl, h.insert hblocks ((validateMessages_eq_ok 0 blocks).mp hvalid) hq⟩
      | some p =>
          obtain ⟨kept, n, hkept, hvalid, hn, hp⟩ := hcached p rfl
          obtain rfl := hkept.unique hblocks
          obtain ⟨q', hextend, -, hq'⟩ := extendProjection hblocks hknown ack.root hn hp
          have hok := (validateMessages_eq_ok 0 blocks).mpr hvalid
          simp only [given, emptied, SidecarState.respondChat, hopen, buildProjection, hstate,
            hrebuild, hextend, hok]
          refine ⟨?_, rfl, h.insert hblocks hvalid hq'⟩
          exact congrArg (Response.forwarded ack.root)
            (upstreamRequest_congr s request opening hq' hq)

/-! ## One request -/

/-- The blocks that a chat request appends; none if it is refused before. -/
def appendedBlocks (s : SidecarState) : Call → List Block
  | .chat request =>
      match s.checkChat request with
      | .error _ => []
      | .ok (_, frame) => chatBlocks s.receiver ∅ frame.blocks
  | .frame _ => []

/-- No message that the request appends names its role twice. -/
def RolesOnce (s : SidecarState) (call : Call) : Prop :=
  ∀ b ∈ s.appendedBlocks call, OneRole b.payload

/-- The bytes of every block that the request carries or leaves in the store. -/
def HashesIn (S : Set (List UInt8)) (s : SidecarState) (call : Call) : Prop :=
  (∀ b ∈ s.appendedBlocks call, canonicalBytes b ∈ S) ∧
    ∀ id b, (s.serve call).2.receiver.store.get id = some b → canonicalBytes b ∈ S

omit [Blake3] [Zstd] in
theorem respondChat_receiver (s : SidecarState) (request : Request) (metadata : Value)
    (frame : AppendFrame) (ack : AckFrame) (cached : Option CachedChatProjection) :
    (s.respondChat request metadata frame ack cached).2.receiver = s.receiver := by
  unfold respondChat
  split
  · rfl
  · split <;> rfl

theorem validateChatAppend_of_checkChat {s : SidecarState} {request : Request} {metadata : Value}
    {frame : AppendFrame} (h : s.checkChat request = .ok (metadata, frame)) :
    validateChatAppend s.receiver frame = .ok () := by
  unfold checkChat at h
  split_ifs at h
  split at h
  · cases h
  · split at h
    · cases h
    · split at h
      · cases h
      · cases h
      · split at h
        · cases h
        · rename_i hvalid
          cases h
          exact hvalid
      · cases h

/-- A chat request stores the blocks that its append stores. -/
theorem chatCompletions_blocks {s : SidecarState} {request : Request} {metadata : Value}
    {frame : AppendFrame} (h : s.checkChat request = .ok (metadata, frame)) :
    (s.chatCompletions request).2.receiver.store.blocks =
      (s.receiver.handleAppend frame).2.store.blocks := by
  simp only [chatCompletions, h]
  split
  · rename_i hresult
    rw [appendChat_eq hresult]
    rfl
  · rename_i hresult
    split
    · rename_i hdone
      rw [flush_eq hdone, appendChat_eq hresult]
      exact ContentStore.flushWal_blocks _ _
    · rename_i hdone
      rw [respondChat_receiver, flush_eq hdone, appendChat_eq hresult]
      exact ContentStore.flushWal_blocks _ _

omit [SerdeJson] in
/-- After a durable ACK the session is known and nothing of it is pending. -/
theorem acked_session {s appended flushed : SidecarState} {frame : AppendFrame} {ack : AckFrame}
    (happend : s.appendChat frame = (.ok ack, appended)) (hflush : appended.flush = (.ok (), flushed)) :
    (flushed.receiver.sessions.get? frame.sessionId).isSome = true ∧
      (flushed.receiver.session frame.sessionId).pending = ∅ := by
  rw [flush_eq hflush]
  unfold appendChat at happend
  split at happend
  · cases happend
  · rename_i receiver hreceiver
    cases happend
    have hok := Receiver.handleAppend_ok hreceiver
    exact hok

/-- The cache makes no difference to a chat request. -/
theorem Consistent.chatCompletions {s : SidecarState} (h : s.Consistent) (request : Request)
    (hone : s.RolesOnce (.chat request)) {S : Set (List UInt8)} (hS : Set.InjOn Blake3.hash S)
    (hin : HashesIn S s (.chat request)) :
    let given := s.chatCompletions request
    let emptied := s.emptied.chatCompletions request
    given.1 = emptied.1 ∧ given.2.emptied = emptied.2.emptied ∧ given.2.Consistent := by
  intro given emptied
  have hsame : s.emptied.checkChat request = s.checkChat request := rfl
  cases hcheck : s.checkChat request with
  | error response =>
      simp only [given, emptied, SidecarState.chatCompletions, hsame, hcheck]
      exact ⟨trivial, rfl, h⟩
  | ok checked =>
      obtain ⟨metadata, frame⟩ := checked
      set looked := (s.lookupProjection frame).2
      simp only [RolesOnce, appendedBlocks, hcheck] at hone
      simp only [HashesIn, appendedBlocks, hcheck, serve] at hin
      have happended : (looked.appendChat frame).2.Consistent := by
        apply (h.lookup frame).appendChat frame (validateChatAppend_of_checkChat hcheck) hone hS hin.1
        intro id b hb
        apply hin.2 id b
        rw [ContentStore.get, chatCompletions_blocks hcheck]
        rwa [appendChat_state] at hb
      have hcached : ∀ p, (s.lookupProjection frame).1 = some p →
          s.chatProjections.entries.get? frame.sessionId = some p :=
        fun p hp => (ChatProjectionCache.get_eq_some hp).1
      have hentries : ((looked.appendChat frame).2.flush).2.chatProjections.entries =
          s.chatProjections.entries := by
        rw [flush_state, appendChat_state]
        exact ChatProjectionCache.get_entries _ _ _
      have hempty : s.emptied.appendChat frame =
          ((looked.appendChat frame).1, (looked.appendChat frame).2.emptied) :=
        looked.appendChat_emptied frame
      simp only [given, emptied, SidecarState.chatCompletions, hsame, hcheck, hempty,
        (s.lookupProjection_emptied frame).2]
      generalize hresult : looked.appendChat frame = result at happended hentries
      obtain ⟨result, appended⟩ := result
      cases result with
      | error response => exact ⟨rfl, rfl, happended⟩
      | ok ack =>
          have hflushed := happended.flush
          simp only [flush_emptied]
          generalize hflush : appended.flush = done at hflushed hentries
          obtain ⟨done, flushed⟩ := done
          cases done with
          | error response => exact ⟨rfl, rfl, hflushed⟩
          | ok u =>
              obtain ⟨hknown, hpend⟩ := acked_session hresult hflush
              exact hflushed.respondChat hknown hpend
                (fun p hp => hflushed.kept _ p (hentries ▸ hcached p hp)) request metadata ack

omit [Blake3] [Zstd] [SerdeJson] in
theorem removeProjection_emptied (s : SidecarState) (frame : Frame) :
    s.emptied.removeProjection frame = (s.removeProjection frame).emptied := by
  have hnone : (∅ : FinMap SessionId CachedChatProjection).unset frame.sessionId = ∅ := by
    apply FinMap.ext_get?
    intro sid
    simp [FinMap.get?_unset]
  simp only [emptied, removeProjection, withProjections, ChatProjectionCache.remove, hnone,
    FinMap.get?_empty]
  rfl

/-- The cache makes no difference to a frame request. -/
theorem Consistent.handleFrame {s : SidecarState} (h : s.Consistent) (request : Request) :
    let given := s.handleFrame request
    let emptied := s.emptied.handleFrame request
    given.1 = emptied.1 ∧ given.2.emptied = emptied.2.emptied ∧ given.2.Consistent := by
  intro given emptied
  have hsame : s.emptied.checkFrame request = s.checkFrame request := rfl
  cases hcheck : s.checkFrame request with
  | error response =>
      simp only [given, emptied, SidecarState.handleFrame, hsame, hcheck]
      exact ⟨trivial, rfl, h⟩
  | ok frame =>
      have hreceived := h.receiveFrame frame
      simp only [given, emptied, SidecarState.handleFrame, hsame, hcheck,
        removeProjection_emptied, receiveFrame_emptied]
      generalize (s.removeProjection frame).receiveFrame frame = result at hreceived
      obtain ⟨result, received⟩ := result
      cases result with
      | error response => exact ⟨rfl, rfl, hreceived⟩
      | ok answer =>
          have hflushed := hreceived.flush
          simp only [flush_emptied]
          generalize received.flush = done at hflushed
          obtain ⟨done, flushed⟩ := done
          cases done with
          | error response => exact ⟨rfl, rfl, hflushed⟩
          | ok u => exact ⟨rfl, rfl, hflushed⟩

/-! ## Runs -/

/-- A property of the state and the request at every step of a run. -/
def Along (P : SidecarState → Call → Prop) : SidecarState → List Call → Prop
  | _, [] => True
  | s, call :: rest => P s call ∧ Along P (s.serve call).2 rest

/-- A run with the emptied cache depends on the rest of the state only. -/
theorem emptiedResponses_congr {s s' : SidecarState} (h : s.emptied = s'.emptied)
    (calls : List Call) : s.emptiedResponses calls = s'.emptiedResponses calls := by
  cases calls with
  | nil => rfl
  | cons call rest => simp only [emptiedResponses, h]

theorem Consistent.responses {s : SidecarState} (h : s.Consistent) {S : Set (List UInt8)}
    (hS : Set.InjOn Blake3.hash S) {calls : List Call} (hone : Along RolesOnce s calls)
    (hin : Along (HashesIn S) s calls) : s.responses calls = s.emptiedResponses calls := by
  induction calls generalizing s with
  | nil => rfl
  | cons call rest ih =>
      obtain ⟨hfirst, hrest, hnext⟩ : (s.serve call).1 = (s.emptied.serve call).1 ∧
          (s.serve call).2.emptied = (s.emptied.serve call).2.emptied ∧
          (s.serve call).2.Consistent := by
        cases call with
        | chat request => exact h.chatCompletions request hone.1 hS hin.1
        | frame request => exact h.handleFrame request
      rw [SidecarState.responses, emptiedResponses, hfirst, ih hnext hone.2 hin.2,
        emptiedResponses_congr hrest]

/-- A sidecar over a receiver that has handled any frames before. -/
theorem consistent_new {store : ContentStore} (hopen : store.Opened) (c : Compressor)
    (frames : List Frame) (url : String) (token : Option (List UInt8)) (sync : Bool) :
    (SidecarState.new ((Receiver.new store c).handleAll frames) url token sync).Consistent where
  wellFormed := (Receiver.wellFormed_new hopen c).handleAll frames
  kept := by
    intro sid p hp
    simp [SidecarState.new] at hp

/-- If no chat request appends a message that names its role twice, then every request of
a run, to either endpoint and whether or not it succeeds, is answered as if the projection
cache had been emptied before it. -/
theorem projection_cache_transparent {store : ContentStore} (hopen : store.Opened)
    (c : Compressor) (frames : List Frame) (url : String) (token : Option (List UInt8))
    (sync : Bool) (calls : List Call) {S : Set (List UInt8)} (hS : Set.InjOn Blake3.hash S) :
    let s := SidecarState.new ((Receiver.new store c).handleAll frames) url token sync
    Along RolesOnce s calls → Along (HashesIn S) s calls →
      s.responses calls = s.emptiedResponses calls := by
  intro s hone hin
  exact (consistent_new hopen c frames url token sync).responses hS hone hin

omit [Blake3] [Zstd] [SerdeJson] in
/-- The second of two messages extends the projection of the first. -/
theorem projection_cache_transparent_extended :
    letI := prefixHash
    letI := storedZstd
    let message : Value := .object [("role", .string "usr")]
    letI := sampleJson [.object [], message]
    let block := fun (seq : UInt64) => (⟨.message, seq, message.print⟩ : Block)
    let chat := fun (base : MerkleRoot) (seq : UInt64) =>
      Call.chat ⟨[], (ChatEnvelope.encodeParts (requestMetadata (.object [])) (encodeFrame (.append
        ⟨5, base, [.inline ⟨.message, seq, 0 :: canonicalBytes (block seq)⟩]⟩))).toOption.getD []⟩
    let first := chat rootZero 1
    let second := chat (rootOver rootZero [(block 1).blockId]) 2
    let s := SidecarState.new (Receiver.new ContentStore.new Compressor.default) "" none true
    s.responses [first, second] = s.emptiedResponses [first, second] ∧
      ∀ r ∈ s.responses [first, second], (r matches .forwarded _ _) = true := by
  let _ := prefixHash
  let _ := storedZstd
  intro message
  let _ := sampleJson [.object [], message]
  intro block chat first second s
  -- all blocks have 31 canonical bytes, which the digest shows in full
  have hS : Set.InjOn Blake3.hash {x : List UInt8 | x.length = 31} := by
    intro x hx y hy hxy
    have hbytes := (List.cons.inj (congrArg Digest.bytes hxy)).2
    rwa [List.take_append_of_le_length (le_of_eq (Eq.symm hx)),
      List.take_append_of_le_length (le_of_eq (Eq.symm hy)),
      List.take_of_length_le (le_of_eq hx), List.take_of_length_le (le_of_eq hy)] at hbytes
  have hrole : OneRole message.print := by
    intro members hm
    have hparse : SerdeJson.fromSlice message.print =
        .ok (.object [("role", .string "usr")]) := by rfl
    rw [hparse] at hm
    cases hm
    decide
  have hfirst : ∀ b ∈ s.appendedBlocks first,
      b.payload = message.print ∧ (canonicalBytes b).length = 31 := by decide +kernel
  have hsecond : ∀ b ∈ (s.serve first).2.appendedBlocks second,
      b.payload = message.print ∧ (canonicalBytes b).length = 31 := by decide +kernel
  have hstored : ∀ e ∈ (s.serve first).2.receiver.store.blocks.entries,
      (canonicalBytes e.2).length = 31 := by decide +kernel
  have hstored' : ∀ e ∈ ((s.serve first).2.serve second).2.receiver.store.blocks.entries,
      (canonicalBytes e.2).length = 31 := by decide +kernel
  have hforwarded : ∀ r ∈ s.responses [first, second], (r matches .forwarded _ _) = true := by
    decide +kernel
  have htransparent : Along RolesOnce s [first, second] →
      Along (HashesIn {x : List UInt8 | x.length = 31}) s [first, second] →
      s.responses [first, second] = s.emptiedResponses [first, second] :=
    projection_cache_transparent .fresh Compressor.default [] "" none true [first, second] hS
  -- from here on nothing evaluates the run again
  clear_value s second first
  clear_value message
  have hone₁ : s.RolesOnce first := by
    intro b hb
    obtain ⟨hb', -⟩ := hfirst b hb
    rw [hb']
    exact hrole
  have hone₂ : (s.serve first).2.RolesOnce second := by
    intro b hb
    obtain ⟨hb', -⟩ := hsecond b hb
    rw [hb']
    exact hrole
  have hin₁ : HashesIn {x : List UInt8 | x.length = 31} s first := by
    constructor
    · intro b hb
      exact (hfirst b hb).2
    · intro id b hb
      exact hstored ⟨id, b⟩ (FinMap.mem_entries hb)
  have hin₂ : HashesIn {x : List UInt8 | x.length = 31} (s.serve first).2 second := by
    constructor
    · intro b hb
      exact (hsecond b hb).2
    · intro id b hb
      exact hstored' ⟨id, b⟩ (FinMap.mem_entries hb)
  exact ⟨htransparent ⟨hone₁, hone₂, trivial⟩ ⟨hin₁, hin₂, trivial⟩, hforwarded⟩

omit [Blake3] [Zstd] [SerdeJson] in
/-- The first message is cached; the second names its role twice. With the cache it is sent
upstream, without it the rebuilt history is refused. -/
theorem duplicate_role_depends_on_cache :
    letI := prefixHash
    letI := storedZstd
    let plain : Value := .object [("role", .string "user")]
    let twice : Value := .object [("role", .string "user"), ("role", .string "user")]
    letI := sampleJson [.object [], plain, twice]
    let entry := fun (seq : UInt64) (v : Value) =>
      FrameBlock.inline ⟨.message, seq, 0 :: canonicalBytes ⟨.message, seq, v.print⟩⟩
    let call := fun (base : MerkleRoot) (e : FrameBlock) =>
      Call.chat ⟨[], (ChatEnvelope.encodeParts (requestMetadata (.object []))
        (encodeFrame (.append ⟨5, base, [e]⟩))).toOption.getD []⟩
    let first := Block.blockId ⟨.message, 1, plain.print⟩
    let calls := [call rootZero (entry 1 plain), call (rootOver rootZero [first]) (entry 2 twice)]
    let s := SidecarState.new (Receiver.new ContentStore.new Compressor.default) "" none true
    s.responses calls ≠ s.emptiedResponses calls ∧
      ((s.responses calls)[1]?.map fun r => r matches .forwarded _ _) = some true ∧
      (s.emptiedResponses calls)[1]? =
        some (.error 400 "session block 1 is not a valid OpenAI message object" none) := by
  decide +kernel

end SidecarState

end Dlr.Sidecar
