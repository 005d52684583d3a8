import Dlr.Shim.Turn

/-!
# Many sessions behind one shim

The coordinator keeps one shim per session over a shared store and a shared filter. A block
counts as known for every session as soon as one of them has ingested it, whether or not a
receiver has it. Frames of different sessions reach the receiver in any order, so a
reference may overtake the frame that carries its block.

## Implementation notes

Every session has at most one turn that is not acknowledged. Sessions ingest concurrently:
a step ingests one block of one session, and `ingest_alone` relates the steps to the call.
The entry of a session holds handles of the shared store and filter, which `entry` and
`put` keep in step.
-/

namespace Dlr

open Dlr.Core Compress Lib Lib.Machine

/-- A multi-session shim coordinator. -/
structure Shim (F : Type) where
  store : ContentStore
  compressor : Compressor
  filter : F
  sessions : FinMap SessionId (SessionShim F)

namespace Shim

variable {F : Type}

def withFilter (store : ContentStore) (compressor : Compressor) (filter : F) : Shim F :=
  ⟨store, compressor, filter, ∅⟩

/-- The entry of a session, created on first use, with the shared store and filter. -/
def entry (shim : Shim F) (sid : SessionId) : SessionShim F :=
  { (shim.sessions.get? sid).getD
      (SessionShim.withFilter sid shim.store shim.compressor shim.filter) with
    store := shim.store
    filter := shim.filter }

/-- Store an entry and what it did to the shared store and filter. -/
def put (shim : Shim F) (sid : SessionId) (session : SessionShim F) : Shim F :=
  { shim with
    store := session.store
    filter := session.filter
    sessions := shim.sessions.set sid session }

section Calls

variable [DedupFilter F] [Blake3] [Zstd]

/-- Ingest a turn for a session and return its APPEND frame. -/
def ingest (shim : Shim F) (sid : SessionId) (blocks : List Block) : AppendFrame × Shim F :=
  let (frame, session) := (shim.entry sid).ingestTurn blocks
  (frame, shim.put sid session)

/-- Coalesce many turns into one APPEND frame. -/
def ingestBatch (shim : Shim F) (sid : SessionId) (turns : List (List Block)) :
    AppendFrame × Shim F :=
  let (frame, session) := (shim.entry sid).ingestCoalesced turns
  (frame, shim.put sid session)

def applyAck (shim : Shim F) (sid : SessionId) (root : MerkleRoot) : Bool × Shim F :=
  match shim.sessions.get? sid with
  | some _ =>
      let (known, session) := (shim.entry sid).applyAck root
      (known, shim.put sid session)
  | none => (false, shim)

end Calls

@[simp] theorem entry_put_self (shim : Shim F) (sid : SessionId) (session : SessionShim F) :
    (shim.put sid session).entry sid = session := by
  simp [entry, put]

/-- Apart from the shared store and filter, an update leaves the other entries alone. -/
theorem entry_put_of_ne (shim : Shim F) {sid s : SessionId} (hs : s ≠ sid)
    (session : SessionShim F) :
    (shim.put sid session).entry s =
      { shim.entry s with store := session.store, filter := session.filter } := by
  simp only [entry, put, FinMap.get?_set_ne _ _ hs]
  cases shim.sessions.get? s with
  | none => rfl
  | some old => rfl

end Shim

/-- The one turn of a session that may be unacknowledged. -/
inductive TurnState
  | idle
  /-- The blocks ingested so far, their wire forms, and the blocks to come. -/
  | ingesting (blocks : List Block) (wire : List FrameBlock) (rest : List Block)
  | sent (blocks : List Block) (frame : AppendFrame)
  | answered (root : MerkleRoot)
  | refused (e : ReceiverError)
  deriving DecidableEq

/-- The coordinator, the receiver and the frames and answers between them. -/
structure Link (F : Type) where
  shim : Shim F
  receiver : Receiver
  turns : FinMap SessionId TurnState
  /-- The ids of the blocks of all turns that were delivered and accepted. -/
  arrived : List BlockId

inductive LinkEvent
  | begin (sid : SessionId) (blocks : List Block)
  | ingest (sid : SessionId)
  | deliver (sid : SessionId)
  | ack (sid : SessionId)
  deriving DecidableEq

namespace Link

variable {F : Type} [DedupFilter F] [Blake3] [Zstd]

def turn (w : Link F) (sid : SessionId) : TurnState := (w.turns.get? sid).getD .idle

def setTurn (w : Link F) (sid : SessionId) (t : TurnState) : Link F :=
  { w with turns := w.turns.set sid t }

/-- One event. Those that do not fit the state of the session's turn do nothing. -/
def step (w : Link F) : LinkEvent → Link F
  | .begin sid blocks =>
      match w.turn sid with
      | .idle => w.setTurn sid (.ingesting [] [] blocks)
      | _ => w
  | .ingest sid =>
      match w.turn sid with
      | .ingesting blocks wire (b :: rest) =>
          let (fb, session) := (w.shim.entry sid).ingestBlock b
          ({ w with shim := w.shim.put sid session } : Link F).setTurn sid
            (.ingesting (blocks ++ [b]) (wire ++ [fb]) rest)
      | .ingesting blocks wire [] =>
          let session := w.shim.entry sid
          ({ w with shim := w.shim.put sid session } : Link F).setTurn sid
            (.sent blocks ⟨session.sessionId, session.baseRoot, wire⟩)
      | _ => w
  | .deliver sid =>
      match w.turn sid with
      | .sent blocks frame =>
          match w.receiver.handleAppend frame with
          | (.ok ack, receiver) =>
              ({ w with receiver, arrived := w.arrived ++ blocks.map Block.blockId } :
                Link F).setTurn sid (.answered ack.root)
          | (.error e, receiver) => ({ w with receiver } : Link F).setTurn sid (.refused e)
      | _ => w
  | .ack sid =>
      match w.turn sid with
      | .answered root =>
          ({ w with shim := (w.shim.applyAck sid root).2 } : Link F).setTurn sid .idle
      | _ => w

def run (w : Link F) (events : List LinkEvent) : Link F := events.foldl step w

/-- A shim over any store and a receiver that has seen nothing. -/
def start (store : ContentStore) (compressor : Compressor) (filter : F) (c : Compressor) :
    Link F :=
  ⟨Shim.withFilter store compressor filter, Receiver.new ContentStore.new c, ∅, []⟩

/-! ## A turn that is ingested alone -/

omit [DedupFilter F] [Blake3] [Zstd] in
@[simp] theorem turn_setTurn_self (w : Link F) (sid : SessionId) (t : TurnState) :
    (w.setTurn sid t).turn sid = t := by
  simp [turn, setTurn]

omit [DedupFilter F] [Blake3] [Zstd] in
theorem turn_setTurn_of_ne (w : Link F) {sid s : SessionId} (hs : s ≠ sid) (t : TurnState) :
    (w.setTurn sid t).turn s = w.turn s := by
  simp [turn, setTurn, hs]

private theorem ingest_rest (w : Link F) {sid : SessionId} {blocks rest : List Block}
    {wire : List FrameBlock} (h : w.turn sid = .ingesting blocks wire rest) :
    w.run (List.replicate (rest.length + 1) (.ingest sid)) =
      ({ w with shim := w.shim.put sid ((w.shim.entry sid).ingestBlocks rest).2 } :
        Link F).setTurn sid (.sent (blocks ++ rest)
          ⟨((w.shim.entry sid).ingestBlocks rest).2.sessionId,
            ((w.shim.entry sid).ingestBlocks rest).2.baseRoot,
            wire ++ ((w.shim.entry sid).ingestBlocks rest).1⟩) := by
  induction rest generalizing w blocks wire with
  | nil =>
      simp only [run, List.length_nil, Nat.zero_add, List.replicate_one, List.foldl_cons,
        List.foldl_nil, step, h]
      simp [SessionShim.ingestBlocks]
  | cons b rest ih =>
      rw [List.length_cons, List.replicate_succ, run, List.foldl_cons, ← run]
      have hstep : w.step (.ingest sid) =
          ({ w with shim := w.shim.put sid ((w.shim.entry sid).ingestBlock b).2 } :
            Link F).setTurn sid
              (.ingesting (blocks ++ [b]) (wire ++ [((w.shim.entry sid).ingestBlock b).1]) rest) := by
        simp only [step, h]
      rw [hstep, ih _ (turn_setTurn_self _ _ _)]
      simp [setTurn, Shim.put, Shim.entry, SessionShim.ingestBlocks]

/-- The steps of a turn with no other session in between are the call that ingests it. -/
theorem ingest_alone (w : Link F) {sid : SessionId} (h : w.turn sid = .idle)
    (blocks : List Block) :
    w.run (.begin sid blocks :: List.replicate (blocks.length + 1) (.ingest sid)) =
      ({ w with shim := (w.shim.ingest sid blocks).2 } : Link F).setTurn sid
        (.sent blocks (w.shim.ingest sid blocks).1) := by
  have hbegin : w.step (.begin sid blocks) = w.setTurn sid (.ingesting [] [] blocks) := by
    simp only [step, h]
  rw [run, List.foldl_cons, ← run, hbegin, ingest_rest _ (turn_setTurn_self _ _ _)]
  simp [setTurn, Shim.ingest, SessionShim.ingestTurn]

/-! ## What a delivered frame needs -/

/-- Every reference of a turn's frame is to a block that has arrived or that the frame itself
carries before it, and what it carries is within the size limit. -/
def Carried (arrived : List BlockId) : List (Block × FrameBlock) → Prop
  | [] => True
  | (b, .inline _) :: rest =>
      b.payload.length ≤ maxBlockPayloadBytes ∧ Carried (b.blockId :: arrived) rest
  | (_, .ref id) :: rest => id ∈ arrived ∧ Carried arrived rest

omit [DedupFilter F] in
/-- A frame resolves with its references available exactly when they are carried. -/
theorem resolves_iff_carried {sender c : Compressor} (hrt : Compressor.RoundTrips sender c)
    {blocks : List Block} {wire : List FrameBlock}
    (hw : List.Forall₂ (SessionShim.WireOf sender) blocks wire)
    (hfit : ∀ b ∈ blocks, b.payload.length ≤ usizeMax) (store : ContentStore)
    {available arrived : List BlockId}
    (hav : ∀ id, store.contains id = true ∨ id ∈ available ↔ id ∈ arrived) :
    (∃ resolved, wire.mapM (Receiver.resolveBlock c) = .ok resolved ∧
      Receiver.refsAvailable store available resolved = true) ↔
      Carried arrived (blocks.zip wire) := by
  induction hw generalizing available arrived with
  | nil => exact ⟨fun _ => trivial, fun _ => ⟨[], rfl, rfl⟩⟩
  | @cons b fb blocks wire hb _ ih =>
      have hrest := fun b hb => hfit b (List.mem_cons_of_mem _ hb)
      -- the first entry resolves, and the rest decides under what is then available
      have hsplit : ∀ (x : Resolved) (P : List Resolved → Prop),
          Receiver.resolveBlock c fb = .ok x →
          ((∃ resolved, (fb :: wire).mapM (Receiver.resolveBlock c) = .ok resolved ∧ P resolved) ↔
            ∃ resolved, wire.mapM (Receiver.resolveBlock c) = .ok resolved ∧ P (x :: resolved)) := by
        intro x P hx
        rw [List.mapM_cons, hx]
        cases hm : wire.mapM (Receiver.resolveBlock c) with
        | error e => exact ⟨fun ⟨_, h, _⟩ => (by cases h), fun ⟨_, h, _⟩ => (by cases h)⟩
        | ok resolved =>
            constructor
            · rintro ⟨_, h, hP⟩
              cases h
              exact ⟨resolved, rfl, hP⟩
            · rintro ⟨_, h, hP⟩
              cases h
              exact ⟨_, rfl, hP⟩
      cases fb with
      | ref id =>
          rw [hsplit (.ref id) _ rfl]
          simp only [Receiver.refsAvailable, Bool.and_eq_true, Bool.or_eq_true, decide_eq_true_eq,
            List.zip_cons_cons, Carried]
          rw [← ih hrest hav, ← hav id]
          constructor
          · rintro ⟨resolved, hres, hid, hrefs⟩
            exact ⟨hid, resolved, hres, hrefs⟩
          · rintro ⟨hid, resolved, hres, hrefs⟩
            exact ⟨resolved, hres, hid, hrefs⟩
      | inline w =>
          simp only [List.zip_cons_cons, Carried]
          by_cases hsize : b.payload.length ≤ maxBlockPayloadBytes
          · have hx : Receiver.resolveBlock c (.inline w) = .ok (.inline b.blockId b) := by
              rcases SessionShim.resolveBlock_of_wire hrt hb hsize with ⟨id, hid, -⟩ | hx
              · cases hid
              · exact hx
            rw [hsplit _ _ hx]
            simp only [Receiver.refsAvailable, hsize, true_and]
            refine ih hrest fun id => ?_
            rw [List.mem_cons, List.mem_cons, ← hav id]
            tauto
          · obtain ⟨e, he⟩ := SessionShim.resolveBlock_oversized hrt hb (hfit b List.mem_cons_self)
              (Nat.lt_of_not_le hsize)
            simp only [hsize, false_and, iff_false]
            rintro ⟨resolved, hres, -⟩
            rw [List.mapM_cons, he] at hres
            cases hres

/-! ## The invariant of every run -/

/-- What a turn in progress has done: the client's root leads from the base over its blocks,
and the receiver stands at the base. -/
structure OnBase (sender : Compressor) (root baseRoot current : MerkleRoot) (blocks : List Block)
    (wire : List FrameBlock) : Prop where
  root : root = rootOver baseRoot (blocks.map Block.blockId)
  current : current = baseRoot
  wire : List.Forall₂ (SessionShim.WireOf sender) blocks wire
  fit : ∀ b ∈ blocks, b.payload.length ≤ usizeMax

/-- The state of a session's turn, against the roots of its entry and of the receiver. -/
def TurnOk (sender : Compressor) (sid : SessionId) (root baseRoot current : MerkleRoot) :
    TurnState → Prop
  | .idle => root = baseRoot ∧ current = baseRoot
  | .ingesting blocks wire rest =>
      OnBase sender root baseRoot current blocks wire ∧
        ∀ b ∈ rest, b.payload.length ≤ usizeMax
  | .sent blocks frame =>
      frame.sessionId = sid ∧ frame.baseRoot = baseRoot ∧
        OnBase sender root baseRoot current blocks frame.blocks
  | .answered acked => acked = root ∧ current = root
  | .refused _ => True

/-- What holds after any events. -/
structure Inv (sender c : Compressor) (w : Link F) : Prop where
  sessionId : ∀ sid, (w.shim.entry sid).sessionId = sid
  appendCompressor : ∀ sid, (w.shim.entry sid).appendCompressor = sender
  compressor : w.receiver.compressor = c
  pending : ∀ sid, (w.receiver.session sid).pending = ∅
  arrived : ∀ id, w.receiver.store.contains id = true ↔ id ∈ w.arrived
  turns : ∀ sid, TurnOk sender sid (w.shim.entry sid).root (w.shim.entry sid).baseRoot
    (w.receiver.store.sessionRoot sid) (w.turn sid)

omit [DedupFilter F] in
theorem inv_start (store : ContentStore) (compressor : Compressor) (filter : F)
    (c : Compressor) :
    (start store compressor filter c).Inv (compressor.withLevel SessionShim.appendLevel) c := by
  have hnone : ∀ sid, (start store compressor filter c).receiver.sessions.get? sid = none := by
    intro sid
    simp [start, Receiver.new, ContentStore.new]
  refine ⟨fun sid => ?_, fun sid => ?_, rfl, fun sid => ?_, fun id => ?_, fun sid => ?_⟩
  · simp [start, Shim.withFilter, Shim.entry, SessionShim.withFilter]
  · simp [start, Shim.withFilter, Shim.entry, SessionShim.withFilter]
  · rw [Receiver.session, hnone]
    rfl
  · simp [start, Receiver.new, ContentStore.new, ContentStore.contains]
  · simp [start, turn, TurnOk, Shim.withFilter, Shim.entry, SessionShim.withFilter, Receiver.new,
      ContentStore.new, ContentStore.sessionRoot, logOf]

section Step

variable {sender c : Compressor} {w : Link F}

omit [DedupFilter F] in
/-- A step that changes one entry and one turn only has to account for these. -/
theorem Inv.of_put (h : w.Inv sender c) {sid : SessionId} {session : SessionShim F}
    {t : TurnState} (hsid : session.sessionId = sid) (hsender : session.appendCompressor = sender)
    (ht : TurnOk sender sid session.root session.baseRoot (w.receiver.store.sessionRoot sid) t) :
    (({ w with shim := w.shim.put sid session } : Link F).setTurn sid t).Inv sender c := by
  refine ⟨fun s => ?_, fun s => ?_, h.compressor, h.pending, h.arrived, fun s => ?_⟩ <;>
    by_cases hs : s = sid
  · subst hs
    simpa [setTurn] using hsid
  · simpa [setTurn, Shim.entry_put_of_ne _ hs] using h.sessionId s
  · subst hs
    simpa [setTurn] using hsender
  · simpa [setTurn, Shim.entry_put_of_ne _ hs] using h.appendCompressor s
  · subst hs
    rw [turn_setTurn_self]
    simpa [setTurn] using ht
  · rw [turn_setTurn_of_ne _ hs]
    have hturn : ∀ shim, ({ w with shim } : Link F).turn s = w.turn s := fun _ => rfl
    rw [hturn]
    simpa [setTurn, Shim.entry_put_of_ne _ hs] using h.turns s

omit [DedupFilter F] in
/-- A step that changes one turn only has to account for it. -/
theorem Inv.setTurn (h : w.Inv sender c) {sid : SessionId} {t : TurnState}
    (ht : TurnOk sender sid (w.shim.entry sid).root (w.shim.entry sid).baseRoot
      (w.receiver.store.sessionRoot sid) t) : (w.setTurn sid t).Inv sender c := by
  refine ⟨h.sessionId, h.appendCompressor, h.compressor, h.pending, h.arrived, fun s => ?_⟩
  by_cases hs : s = sid
  · subst hs
    rw [turn_setTurn_self]
    exact ht
  · rw [turn_setTurn_of_ne _ hs]
    exact h.turns s

theorem Inv.begin (h : w.Inv sender c) (sid : SessionId) {blocks : List Block}
    (hfit : ∀ b ∈ blocks, b.payload.length ≤ usizeMax) :
    (w.step (.begin sid blocks)).Inv sender c := by
  have ht := h.turns sid
  simp only [step]
  cases hturn : w.turn sid with
  | idle =>
      rw [hturn] at ht
      exact h.setTurn ⟨⟨ht.1, ht.2, .nil, by simp⟩, hfit⟩
  | ingesting blocks wire rest => exact h
  | sent blocks frame => exact h
  | answered root => exact h
  | refused e => exact h

theorem Inv.ingest (h : w.Inv sender c) (sid : SessionId) :
    (w.step (.ingest sid)).Inv sender c := by
  have ht := h.turns sid
  simp only [step]
  cases hturn : w.turn sid with
  | idle => exact h
  | ingesting blocks wire rest =>
      rw [hturn] at ht
      obtain ⟨hbase, hfit⟩ := ht
      cases rest with
      | nil =>
          exact h.of_put (h.sessionId sid) (h.appendCompressor sid) ⟨h.sessionId sid, rfl, hbase⟩
      | cons b rest =>
          have hb := (w.shim.entry sid).ingestBlock_spec b
          have hwire := hb.wire
          rw [h.appendCompressor sid] at hwire
          refine h.of_put (hb.sessionId.trans (h.sessionId sid))
            (hb.appendCompressor.trans (h.appendCompressor sid)) ⟨⟨?_, ?_, ?_, ?_⟩, ?_⟩
          · rw [hb.root, hb.baseRoot, hbase.root, List.map_append, rootOver_append]
            rfl
          · rw [hb.baseRoot]
            exact hbase.current
          · exact List.rel_append hbase.wire (.cons hwire .nil)
          · intro b' hb'
            rcases List.mem_append.mp hb' with hold | hnew
            · exact hbase.fit b' hold
            · exact List.mem_singleton.mp hnew ▸ hfit b List.mem_cons_self
          · exact fun b' hb' => hfit b' (List.mem_cons_of_mem _ hb')
  | sent blocks frame => exact h
  | answered root => exact h
  | refused e => exact h

theorem Inv.ack (h : w.Inv sender c) (sid : SessionId) : (w.step (.ack sid)).Inv sender c := by
  have ht := h.turns sid
  simp only [step]
  cases hturn : w.turn sid with
  | idle => exact h
  | ingesting blocks wire rest => exact h
  | sent blocks frame => exact h
  | answered acked =>
      rw [hturn] at ht
      obtain ⟨rfl, hcurrent⟩ := ht
      simp only [Shim.applyAck]
      cases hget : w.shim.sessions.get? sid with
      | none =>
          -- an entry that was never stored is the fresh one
          have hroot : (w.shim.entry sid).root = (w.shim.entry sid).baseRoot := by
            simp [Shim.entry, hget, SessionShim.withFilter]
          exact h.setTurn ⟨hroot, hcurrent.trans hroot⟩
      | some session =>
          simp only [SessionShim.applyAck, if_true]
          exact h.of_put (h.sessionId sid) (h.appendCompressor sid) ⟨rfl, hcurrent⟩
  | refused e => exact h

omit [DedupFilter F] [Zstd] in
/-- Applying entries stores nothing but their blocks. -/
theorem contains_performAll_ops {store : ContentStore} (sid : SessionId) {resolved : List Resolved}
    (haddr : ∀ x ∈ resolved, x.Addressed) {id : BlockId}
    (h : (store.performAll (resolved.map (Resolved.op sid))).contains id = true) :
    store.contains id = true ∨ id ∈ resolved.map Resolved.id := by
  induction resolved generalizing store with
  | nil => exact Or.inl h
  | cons x rest ih =>
      rcases ih (fun y hy => haddr y (List.mem_cons_of_mem _ hy)) h with hold | hnew
      · cases x with
        | ref k => exact Or.inl (by simpa [Resolved.op, ContentStore.perform,
            ContentStore.contains] using hold)
        | inline k block =>
            obtain rfl : k = block.blockId := haddr _ List.mem_cons_self
            simp only [Resolved.op, ContentStore.perform, ContentStore.contains,
              ContentStore.insertWithCanonical_blocks, putBlock_get?] at hold
            split_ifs at hold with hid
            · exact Or.inr (by simp [Resolved.id, hid])
            · exact Or.inl hold
      · exact Or.inr (List.mem_cons_of_mem _ hnew)

omit [DedupFilter F] in
/-- What the delivery of a frame does. It is accepted with the client's root exactly when
its references are carried, and otherwise refused. -/
theorem Inv.delivery (h : w.Inv sender c) (hrt : Compressor.RoundTrips sender c)
    {sid : SessionId} {blocks : List Block} {frame : AppendFrame}
    (hturn : w.turn sid = .sent blocks frame) :
    (Carried w.arrived (blocks.zip frame.blocks) ∧ ∃ resolved,
        w.receiver.handleAppend frame = (.ok ⟨sid, (w.shim.entry sid).root⟩,
          { w.receiver.touch sid with
            store := w.receiver.store.performAll (resolved.map (Resolved.op sid)) }) ∧
        (∀ x ∈ resolved, x.Addressed) ∧
        Receiver.refsAvailable w.receiver.store [] resolved = true ∧
        resolved.map Resolved.id = blocks.map Block.blockId) ∨
      ¬ Carried w.arrived (blocks.zip frame.blocks) ∧
        ∃ e, w.receiver.handleAppend frame = (.error e, w.receiver) := by
  have ht := h.turns sid
  rw [hturn] at ht
  obtain ⟨rfl, hbase, hon⟩ := ht
  rw [← h.compressor] at hrt
  have hiff := resolves_iff_carried hrt hon.wire hon.fit w.receiver.store
    (fun id => by simpa using h.arrived id : ∀ id, _ ∨ id ∈ [] ↔ id ∈ w.arrived)
  by_cases hcarried : Carried w.arrived (blocks.zip frame.blocks)
  · obtain ⟨resolved, hres, hrefs⟩ := hiff.mpr hcarried
    have hids := SessionShim.resolve_ids hrt hon.wire hon.fit hres
    have haddr := Receiver.resolve_addressed hres
    refine Or.inl ⟨hcarried, resolved, ?_, haddr, hrefs, hids⟩
    simp only [Receiver.handleAppend, hres, if_pos hrefs]
    rw [Receiver.appendResolved_eq _ _ haddr hrefs, if_neg (not_not.mpr (h.pending _)),
      if_neg (not_not.mpr (hbase.trans hon.current.symm)), hids, hbase, ← hon.root]
  · refine Or.inr ⟨hcarried, ?_⟩
    simp only [Receiver.handleAppend]
    cases hres : frame.blocks.mapM (Receiver.resolveBlock w.receiver.compressor) with
    | error e => exact ⟨e, rfl⟩
    | ok resolved =>
        have hrefs : ¬ Receiver.refsAvailable w.receiver.store [] resolved = true :=
          fun hrefs => hcarried (hiff.mp ⟨resolved, hres, hrefs⟩)
        exact ⟨.missingRef, by simp only [if_neg hrefs]⟩

theorem Inv.deliver (h : w.Inv sender c) (hrt : Compressor.RoundTrips sender c)
    (sid : SessionId) : (w.step (.deliver sid)).Inv sender c := by
  have ht := h.turns sid
  simp only [step]
  cases hturn : w.turn sid with
  | idle => exact h
  | ingesting blocks wire rest => exact h
  | answered acked => exact h
  | refused e => exact h
  | sent blocks frame =>
      rw [hturn] at ht
      obtain ⟨-, -, hon⟩ := ht
      rcases h.delivery hrt hturn with ⟨-, resolved, hr, haddr, hrefs, hids⟩ | ⟨-, e, hr⟩
      · obtain ⟨-, hall, hlog, -⟩ := Receiver.applyResolved_spec sid w.receiver.store haddr
          (fun id hid => by simpa using hid) hrefs
        have hroot : ∀ s, (w.receiver.store.performAll (resolved.map (Resolved.op sid))).sessionRoot
            s = if s = sid then (w.shim.entry sid).root else w.receiver.store.sessionRoot s := by
          intro s
          rw [ContentStore.sessionRoot, hlog s]
          split_ifs with hs
          · rw [hon.root, ← hon.current, ← hids]
            rfl
          · rfl
        simp only [hr]
        refine ⟨h.sessionId, h.appendCompressor, h.compressor, fun s => ?_, fun id => ?_,
          fun s => ?_⟩
        · exact (congrArg SessionState.pending (Receiver.touch_session _ _ _)).trans (h.pending s)
        · simp only [Link.setTurn, List.mem_append, ← h.arrived id, ← hids]
          constructor
          · exact contains_performAll_ops sid haddr
          · rintro (hold | hnew)
            · exact ContentStore.contains_performAll _ hold
            · obtain ⟨x, hx, rfl⟩ := List.mem_map.mp hnew
              exact hall x hx
        · simp only [Link.setTurn]
          rw [hroot s]
          by_cases hs : s = sid
          · subst hs
            rw [if_pos rfl]
            have hself := turn_setTurn_self w s (.answered (w.shim.entry s).root)
            simp only [Link.turn, Link.setTurn] at hself ⊢
            rw [hself]
            exact ⟨rfl, rfl⟩
          · rw [if_neg hs]
            have hother := turn_setTurn_of_ne w hs (.answered (w.shim.entry sid).root)
            simp only [Link.turn, Link.setTurn] at hother ⊢
            rw [hother]
            exact h.turns s
      · simp only [hr]
        exact h.setTurn trivial

/-- Every event keeps the invariant. -/
theorem Inv.step (h : w.Inv sender c) (hrt : Compressor.RoundTrips sender c) (e : LinkEvent)
    (hfit : ∀ sid blocks, e = .begin sid blocks → ∀ b ∈ blocks, b.payload.length ≤ usizeMax) :
    (w.step e).Inv sender c := by
  cases e with
  | begin sid blocks => exact h.begin sid (hfit sid blocks rfl)
  | ingest sid => exact h.ingest sid
  | deliver sid => exact h.deliver hrt sid
  | ack sid => exact h.ack sid

end Step

/-- Something holds of every frame when it is delivered. -/
def AllDeliveries (P : Link F → SessionId → List Block → AppendFrame → Prop) :
    Link F → List LinkEvent → Prop
  | _, [] => True
  | w, e :: rest =>
      (∀ sid blocks frame, e = .deliver sid → w.turn sid = .sent blocks frame →
        P w sid blocks frame) ∧
      AllDeliveries P (w.step e) rest

/-- The frame is accepted and acknowledged with the root of the session's shim. -/
def Accepted (w : Link F) (sid : SessionId) (_blocks : List Block) (frame : AppendFrame) : Prop :=
  (w.receiver.handleAppend frame).1 = .ok ⟨sid, (w.shim.entry sid).root⟩

/-- The frame was not overtaken: what it refers to has arrived. -/
def InOrder (w : Link F) (_sid : SessionId) (blocks : List Block) (frame : AppendFrame) : Prop :=
  Carried w.arrived (blocks.zip frame.blocks)

theorem Inv.allDeliveries {sender c : Compressor} {w : Link F} (h : w.Inv sender c)
    (hrt : Compressor.RoundTrips sender c) {events : List LinkEvent}
    (hfit : ∀ sid blocks, .begin sid blocks ∈ events → ∀ b ∈ blocks, b.payload.length ≤ usizeMax) :
    AllDeliveries Accepted w events ↔ AllDeliveries InOrder w events := by
  induction events generalizing w with
  | nil => exact Iff.rfl
  | cons e rest ih =>
      have hrest := ih (h.step hrt e fun sid blocks he => hfit sid blocks (he ▸ List.mem_cons_self))
        fun sid blocks hmem => hfit sid blocks (List.mem_cons_of_mem _ hmem)
      have hfirst : ∀ sid blocks frame, w.turn sid = .sent blocks frame →
          (Accepted w sid blocks frame ↔ InOrder w sid blocks frame) := by
        intro sid blocks frame hturn
        rcases h.delivery hrt hturn with ⟨hcarried, resolved, hr, -⟩ | ⟨hcarried, e', hr⟩
        · simp [Accepted, InOrder, hr, hcarried]
        · simp [Accepted, InOrder, hr, hcarried]
      refine and_congr ?_ hrest
      refine forall_congr' fun sid => forall_congr' fun blocks => forall_congr' fun frame => ?_
      refine forall_congr' fun _ => forall_congr' fun hturn => ?_
      exact hfirst sid blocks frame hturn

/-- In every run of any number of sessions over one shim and one receiver, all delivered
frames are accepted with the roots of their sessions if and only if each of them is
delivered in order: every block it refers to came with a frame delivered before or earlier
in the same frame, and the blocks it carries are within the size limit. -/
theorem deliveries_accepted_iff (store : ContentStore) (compressor c : Compressor) (filter : F)
    (hrt : Compressor.RoundTrips (compressor.withLevel SessionShim.appendLevel) c)
    (events : List LinkEvent)
    (hfit : ∀ sid blocks, .begin sid blocks ∈ events →
      ∀ b ∈ blocks, b.payload.length ≤ usizeMax) :
    AllDeliveries Accepted (start store compressor filter c) events ↔
      AllDeliveries InOrder (start store compressor filter c) events :=
  (inv_start store compressor filter c).allDeliveries hrt hfit

theorem allDeliveries_append (P : Link F → SessionId → List Block → AppendFrame → Prop)
    (w : Link F) (xs ys : List LinkEvent) :
    AllDeliveries P w (xs ++ ys) ↔ AllDeliveries P w xs ∧ AllDeliveries P (w.run xs) ys := by
  induction xs generalizing w with
  | nil => exact (and_iff_right trivial).symm
  | cons e rest ih =>
      rw [List.cons_append, AllDeliveries, ih, AllDeliveries, and_assoc]
      rfl

theorem allDeliveries_of_none (P : Link F → SessionId → List Block → AppendFrame → Prop)
    (w : Link F) {events : List LinkEvent} (h : ∀ sid, .deliver sid ∉ events) :
    AllDeliveries P w events := by
  induction events generalizing w with
  | nil => trivial
  | cons e rest ih =>
      refine ⟨?_, ih _ fun sid hmem => h sid (List.mem_cons_of_mem _ hmem)⟩
      rintro sid blocks frame rfl
      exact absurd List.mem_cons_self (h sid)

private def greeting : Block := ⟨.message, 0, [7]⟩

/-- Two sessions ingest the same block, one after the other. -/
private def bothSent : List LinkEvent :=
  [.begin 5 [greeting], .ingest 5, .ingest 5, .begin 6 [greeting], .ingest 6, .ingest 6]

private def fresh : Link (List BlockId) :=
  start ContentStore.new Compressor.default [] Compressor.default

omit [Blake3] [Zstd] in
private theorem bothSent_facts :
    letI := prefixHash
    letI := storedZstd
    letI := DedupFilter.exact
    (fresh.run bothSent).turn 5 = .sent [greeting]
        ⟨5, rootZero, [.inline ⟨.message, 0, 0 :: canonicalBytes greeting⟩]⟩ ∧
      (fresh.run bothSent).turn 6 = .sent [greeting] ⟨6, rootZero, [.ref greeting.blockId]⟩ ∧
      ((fresh.run bothSent).receiver.handleAppend
        ⟨6, rootZero, [.ref greeting.blockId]⟩).1 = .error .missingRef ∧
      (fresh.run (bothSent ++ [.deliver 5])).turn 6 =
        .sent [greeting] ⟨6, rootZero, [.ref greeting.blockId]⟩ ∧
      (fresh.run (bothSent ++ [.deliver 5])).arrived = [greeting.blockId] := by
  decide +kernel

omit [Blake3] [Zstd] in
/-- The frame that carries the block is delivered before the one that refers to it. -/
theorem deliveries_accepted_in_order :
    letI := prefixHash
    letI := storedZstd
    letI := DedupFilter.exact
    AllDeliveries Accepted fresh (bothSent ++ [.deliver 5] ++ [.deliver 6]) := by
  let _ := prefixHash
  let _ := storedZstd
  let _ := DedupFilter.exact
  obtain ⟨h5, -, -, h6, hone⟩ := bothSent_facts
  refine (deliveries_accepted_iff ContentStore.new Compressor.default Compressor.default []
    (Compressor.roundTrips_storedZstd _ _) _ ?_).mpr ?_
  · intro sid blocks hmem b hb
    have hblocks : blocks = [greeting] := by
      simp only [bothSent, List.cons_append, List.nil_append, List.mem_cons, LinkEvent.begin.injEq,
        reduceCtorEq, List.not_mem_nil, or_false, false_or] at hmem
      rcases hmem with ⟨-, h⟩ | ⟨-, h⟩ <;> exact h
    rw [hblocks, List.mem_singleton] at hb
    simp [hb, greeting, usizeMax]
  · rw [allDeliveries_append, allDeliveries_append]
    refine ⟨⟨allDeliveries_of_none _ _ (by simp [bothSent]), ?_, trivial⟩, ?_, trivial⟩
    · rintro sid blocks frame heq hturn
      cases heq
      cases h5.symm.trans hturn
      exact ⟨by simp [greeting, maxBlockPayloadBytes], trivial⟩
    · rintro sid blocks frame heq hturn
      cases heq
      cases h6.symm.trans hturn
      have hmem : greeting.blockId ∈ (fresh.run (bothSent ++ [.deliver 5])).arrived := by
        rw [hone]
        exact List.mem_singleton_self _
      exact ⟨hmem, trivial⟩

omit [Blake3] [Zstd] in
/-- The frame that refers to a block overtakes the one that carries it: it is refused, because
the receiver does not have the block yet. -/
theorem overtaking_reference_refused :
    letI := prefixHash
    letI := storedZstd
    letI := DedupFilter.exact
    (∃ frame, (fresh.run bothSent).turn 6 = .sent [greeting] frame ∧
      ((fresh.run bothSent).receiver.handleAppend frame).1 = .error .missingRef) ∧
      ¬ AllDeliveries Accepted fresh (bothSent ++ [.deliver 6]) := by
  let _ := prefixHash
  let _ := storedZstd
  let _ := DedupFilter.exact
  obtain ⟨-, h6, hrefused, -⟩ := bothSent_facts
  refine ⟨⟨_, h6, hrefused⟩, fun hall => ?_⟩
  rw [allDeliveries_append] at hall
  have haccepted := hall.2.1 6 _ _ rfl h6
  rw [Accepted, hrefused] at haccepted
  cases haccepted

end Link

end Dlr
