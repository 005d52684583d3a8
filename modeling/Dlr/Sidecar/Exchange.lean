import Dlr.Sidecar.ChatSession
import Mathlib.Algebra.Order.BigOperators.Group.List
import Mathlib.Logic.Relation

/-!
# One chat session over a lossy network

Request bodies and ACK roots that were ever sent stay in the network: they may be
delivered any number of times, in any order, or never. The receiver's log is always the
concatenation of the first prepared turns: all of them, or all but the one that is still
awaiting its ACK.

## Implementation notes

A late ACK can move the client's base back to a shorter prefix, so the frame of a turn may
start from the root of any prefix that ends before the turn. It is applied only if that
prefix is the receiver's whole log, and the receiver already had every earlier turn when
the frame was prepared.
-/

namespace Dlr.Sidecar

open Dlr.Core Compress Lib.Bytes Lib.Machine

/-- A chat session, a receiver, and everything that was ever sent between them. The ids of
the prepared turns are recorded next to the two parties. -/
structure Exchange (F : Type) where
  client : ChatSession F
  receiver : Receiver
  bodies : List (List UInt8)
  acks : List MerkleRoot
  turns : List (List BlockId)

/-- The APPEND frame that a request body carries. -/
def bodyFrame [SerdeJson] (body : List UInt8) : Option AppendFrame :=
  match ChatEnvelope.decode body with
  | .error _ => none
  | .ok env =>
      match decodeFrame env.frame with
      | .ok (.append frame) => some frame
      | _ => none

namespace Exchange

variable {F : Type} [DedupFilter F] [Blake3] [Zstd] [SerdeJson]

def sid (s : Exchange F) : SessionId := s.client.shim.sessionId

/-- The receiver's log of the session. -/
def log (s : Exchange F) : List BlockId := s.receiver.store.sessionIds s.sid

def prepare (s : Exchange F) (messages : List Value) (request : Value) : Exchange F :=
  match s.client.prepareRef messages request with
  | (.error _, client) => { s with client }
  | (.ok prepared, client) =>
      { s with
        client
        bodies := s.bodies ++ [prepared.body]
        turns := s.turns ++ [(s.client.turn messages).map Block.blockId] }

def deliver (s : Exchange F) (body : List UInt8) : Exchange F :=
  match bodyFrame body with
  | none => s
  | some frame =>
      match s.receiver.handleAppend frame with
      | (.error _, receiver) => { s with receiver }
      | (.ok ack, receiver) => { s with receiver, acks := s.acks ++ [ack.root] }

def applyAck (s : Exchange F) (root : MerkleRoot) : Exchange F :=
  { s with client := (s.client.applyAck root).2 }

/-- One step: the client prepares a turn, some body or ACK of the past arrives, or the
receiver handles a frame of another session. -/
inductive Step : Exchange F → Exchange F → Prop
  | prepare (s : Exchange F) (messages : List Value) (request : Value) :
      Step s (s.prepare messages request)
  | deliver (s : Exchange F) (body : List UInt8) (h : body ∈ s.bodies) : Step s (s.deliver body)
  | applyAck (s : Exchange F) (root : MerkleRoot) (h : root ∈ s.acks) : Step s (s.applyAck root)
  | other (s : Exchange F) (f : Frame) (h : f.sessionId ≠ s.sid) :
      Step s { s with receiver := (s.receiver.handleFrame f).2 }

/-- The start: a new chat session, and a receiver without a log for it. -/
structure Initial (s : Exchange F) (c : Compressor) : Prop where
  client : ∃ key filter, s.client = ChatSession.new key filter
  compressor : s.receiver.compressor = c
  unknown : s.receiver.store.sessions.get? s.sid = none
  bodies : s.bodies = []
  acks : s.acks = []
  turns : s.turns = []

/-- How many of the prepared turns the receiver has applied. -/
def applied (s : Exchange F) : Nat :=
  if s.log = s.client.shim.ids then s.turns.length else s.turns.length - 1

end Exchange

/-! ## Logs made of turns -/

section Turns

variable {turns : List (List BlockId)}

theorem prefix_flatten_take (n : Nat) : (turns.take n).flatten <+: turns.flatten := by
  refine ⟨(turns.drop n).flatten, ?_⟩
  rw [← List.flatten_append, List.take_append_drop]

theorem dropLast_prefix : turns.dropLast.flatten <+: turns.flatten := by
  rw [List.dropLast_eq_take]
  exact prefix_flatten_take _

/-- A log that holds at least all turns but the last takes the `n`-th turn only where it
belongs. -/
theorem append_turn {log t : List BlockId} {n m : Nat}
    (hlog : log = turns.flatten ∨ log = turns.dropLast.flatten) (ht : turns[n]? = some t)
    (hm : m ≤ (turns.take n).flatten.length) (hbase : turns.flatten.take m = log) :
    (log = turns.flatten → log ++ t = turns.flatten) ∧
      (log ++ t = turns.flatten ∨ log ++ t = turns.dropLast.flatten) := by
  obtain ⟨hn, hget⟩ := List.getElem?_eq_some_iff.mp ht
  have hinit : (turns.take n).flatten.length ≤ turns.dropLast.flatten.length := by
    rw [List.dropLast_eq_take, show turns.take n = (turns.take (turns.length - 1)).take n by
      rw [List.take_take, Nat.min_eq_left (by omega)]]
    exact (prefix_flatten_take n).length_le
  have hlen : turns.dropLast.flatten.length ≤ log.length := by
    rcases hlog with rfl | rfl
    · exact dropLast_prefix.length_le
    · exact le_rfl
  have hshort : log.length ≤ m := by
    rw [← hbase]
    exact List.length_take_le m _
  -- the log is exactly the turns before the `n`-th
  have hbefore : log = (turns.take n).flatten := by
    have hpre : log <+: turns.flatten := hbase ▸ List.take_prefix m _
    exact List.prefix_of_prefix_length_le hpre (prefix_flatten_take n) (by omega)
      |>.eq_of_length (by omega)
  have hafter : log ++ t = (turns.take (n + 1)).flatten := by
    rw [hbefore, List.take_add_one, List.flatten_append, ht]
    simp
  have hgrow : log.length ≤ (turns.take (n + 1)).flatten.length := by
    rw [← hafter, List.length_append]
    omega
  rw [hafter]
  constructor
  · intro hall
    exact (prefix_flatten_take (n + 1)).eq_of_length_le (by rw [← hall]; exact hgrow)
  · by_cases hlast : n + 1 = turns.length
    · left
      rw [hlast, List.take_length]
    · right
      have hpre : (turns.take (n + 1)).flatten <+: turns.dropLast.flatten := by
        rw [List.dropLast_eq_take, show turns.take (n + 1) =
          (turns.take (turns.length - 1)).take (n + 1) by
            rw [List.take_take, Nat.min_eq_left (by omega)]]
        exact prefix_flatten_take (n + 1)
      exact hpre.eq_of_length_le (by omega)

end Turns

/-! ## The invariant -/

namespace Exchange

variable {F : Type} [DedupFilter F] [Blake3] [Zstd] [SerdeJson]

/-- A body that was sent carries the frame of some prepared turn, on top of a prefix of the
log that ends before the turn. -/
structure Sent (sid : SessionId) (sender : Compressor) (turns : List (List BlockId))
    (body : List UInt8) (n m : Nat) (frame : AppendFrame) (blocks : List Block) : Prop where
  carries : ∀ f, bodyFrame body = some f → f = frame
  turn : turns[n]? = some (blocks.map Block.blockId)
  sessionId : frame.sessionId = sid
  before : m ≤ (turns.take n).flatten.length
  base : frame.baseRoot = rootOver rootZero (turns.flatten.take m)
  wire : List.Forall₂ (SessionShim.WireOf sender) blocks frame.blocks
  fits : ∀ b ∈ blocks, b.payload.length ≤ usizeMax

theorem Sent.extend {sid : SessionId} {sender : Compressor} {turns : List (List BlockId)}
    {body : List UInt8} {n m : Nat} {frame : AppendFrame} {blocks : List Block}
    (h : Sent sid sender turns body n m frame blocks) (t : List BlockId) :
    Sent sid sender (turns ++ [t]) body n m frame blocks := by
  obtain ⟨hn, -⟩ := List.getElem?_eq_some_iff.mp h.turn
  have htake : (turns ++ [t]).take n = turns.take n := List.take_append_of_le_length hn.le
  have hm : m ≤ turns.flatten.length := h.before.trans (prefix_flatten_take n).length_le
  refine ⟨h.carries, ?_, h.sessionId, htake ▸ h.before, ?_, h.wire, h.fits⟩
  · rw [List.getElem?_append_left hn]
    exact h.turn
  · rw [List.flatten_append, List.take_append_of_le_length hm]
    exact h.base

/-- What holds in every state of an exchange. -/
structure Consistent (s : Exchange F) (sid : SessionId) (sender c : Compressor) : Prop where
  session : s.sid = sid
  appendCompressor : s.client.shim.appendCompressor = sender
  compressor : s.receiver.compressor = c
  rooted : s.client.shim.Rooted
  ids : s.client.shim.ids = s.turns.flatten
  root : s.receiver.store.sessionRoot sid = rootOver rootZero s.log
  applied : s.log = s.turns.flatten ∨
    s.client.pendingRoot.isSome = true ∧ s.log = s.turns.dropLast.flatten
  pending : ∀ root, s.client.pendingRoot = some root → root = s.client.shim.root
  sent : ∀ body ∈ s.bodies, ∃ n m frame blocks, Sent sid sender s.turns body n m frame blocks
  acks : ∀ root ∈ s.acks, ∃ k, root = rootOver rootZero (s.log.take k)

omit [DedupFilter F] in
theorem Consistent.log_prefix {s : Exchange F} {sid : SessionId} {sender c : Compressor}
    (h : s.Consistent sid sender c) : s.log <+: s.turns.flatten := by
  rcases h.applied with heq | ⟨-, heq⟩
  · rw [heq]
  · rw [heq]
    exact dropLast_prefix

omit [DedupFilter F] in
/-- When nothing is pending the receiver has every prepared turn. -/
theorem Consistent.caught {s : Exchange F} {sid : SessionId} {sender c : Compressor}
    (h : s.Consistent sid sender c) (hpending : s.client.pendingRoot = none) :
    s.log = s.turns.flatten := by
  rcases h.applied with heq | ⟨hsome, -⟩
  · exact heq
  · rw [hpending] at hsome
    cases hsome

omit [DedupFilter F] in
/-- The log is the concatenation of the applied turns. -/
theorem Consistent.log_eq {s : Exchange F} {sid : SessionId} {sender c : Compressor}
    (h : s.Consistent sid sender c) : s.log = (s.turns.take s.applied).flatten := by
  unfold Exchange.applied
  split_ifs with hall
  · rw [hall, h.ids, List.take_length]
  · rcases h.applied with heq | ⟨-, heq⟩
    · exact absurd (heq.trans h.ids.symm) hall
    · rw [heq, List.dropLast_eq_take]

omit [DedupFilter F] in
theorem consistent_initial {s : Exchange F} {c : Compressor} (h : s.Initial c) :
    s.Consistent s.sid (Compressor.default.withLevel SessionShim.appendLevel) c := by
  obtain ⟨key, filter, hclient⟩ := h.client
  have hlog : s.log = [] := by
    simp [log, ContentStore.sessionIds, logOf, h.unknown]
  have hids : s.client.shim.ids = [] := by
    rw [hclient]
    rfl
  refine ⟨rfl, by rw [hclient]; rfl, h.compressor, ?_, ?_, ?_, ?_, ?_, ?_, ?_⟩
  · rw [hclient]
    exact SessionShim.rooted_withFilter _ _ _ _
  · rw [hids, h.turns, List.flatten_nil]
  · rw [hlog]
    simp [ContentStore.sessionRoot, logOf, h.unknown]
  · left
    rw [hlog, h.turns, List.flatten_nil]
  · intro root hroot
    rw [hclient] at hroot
    cases hroot
  · rw [h.bodies]
    simp
  · rw [h.acks]
    simp

section Step

variable {s : Exchange F} {sid : SessionId} {sender c : Compressor}

/-- The body of a prepared request carries the frame of its turn and nothing else. -/
theorem bodyFrame_prepared (shim : SessionShim F) {blocks : List Block} {metadata body : List UInt8}
    (hmeta : metadata.length ≤ maxMetadataBytes)
    (hbody : body = magic ++ toLe 2 protocolVersion ++ toLe 4 metadata.length ++ metadata ++
      encodeFrame (.append (shim.ingestTurn blocks).1))
    (hsize : (blocks.map fun b => 39 + b.payload.length).sum ≤ maxRequestBytes) :
    ∀ f, bodyFrame body = some f → f = (shim.ingestTurn blocks).1 := by
  intro f hf
  unfold bodyFrame at hf
  split at hf
  · cases hf
  · rename_i env henv
    rw [ChatEnvelope.frame_of_decode hmeta hbody henv, decodeFrame_turn shim hsize] at hf
    cases hf
    rfl

theorem Consistent.prepare (h : s.Consistent sid sender c) (messages : List Value)
    (request : Value) : (s.prepare messages request).Consistent sid sender c := by
  unfold Exchange.prepare
  rcases s.client.prepareRef_cases messages request with
    ⟨e, hprep⟩ | ⟨nextSeq, prepared, hpending, hprep, hmeta, hbody, hsize⟩
  · rw [hprep]
    exact h
  · rw [hprep]
    set blocks := s.client.turn messages
    set next : Exchange F := ⟨⟨(s.client.shim.ingestTurn blocks).2, nextSeq,
      some (s.client.shim.ingestTurn blocks).2.root⟩, s.receiver, s.bodies ++ [prepared.body],
      s.acks, s.turns ++ [blocks.map Block.blockId]⟩ with hnext
    change next.Consistent sid sender c
    have hspec := s.client.shim.ingestTurn_spec blocks
    have hsid : (s.client.shim.ingestTurn blocks).2.sessionId = sid :=
      hspec.sessionId.trans h.session
    have hcaught := h.caught hpending
    have hfits : ∀ b ∈ blocks, b.payload.length ≤ usizeMax := by
      intro b hb
      have hone : 39 + b.payload.length ≤ (blocks.map fun b => 39 + b.payload.length).sum :=
        List.single_le_sum (fun _ _ => Nat.zero_le _) _ (List.mem_map_of_mem hb)
      simp only [maxRequestBytes, usizeMax] at hsize ⊢
      omega
    have hnew : Sent sid sender (s.turns ++ [blocks.map Block.blockId]) prepared.body
        s.turns.length s.client.shim.baseLen (s.client.shim.ingestTurn blocks).1 blocks := by
      have hlen : s.client.shim.baseLen ≤ s.turns.flatten.length := by
        rw [← h.ids]
        exact h.rooted.baseLen
      refine ⟨bodyFrame_prepared s.client.shim hmeta hbody hsize, by simp, ?_, ?_, ?_, ?_, hfits⟩
      · rw [SessionShim.ingestTurn_frame]
        exact h.session
      · rw [List.take_left' rfl]
        exact hlen
      · rw [SessionShim.ingestTurn_frame, List.flatten_append, List.take_append_of_le_length hlen,
          ← h.ids]
        exact h.rooted.baseRoot
      · rw [← h.appendCompressor]
        exact hspec.wire
    have hlog : next.log = s.log := by
      change s.receiver.store.sessionIds (s.client.shim.ingestTurn blocks).2.sessionId = s.log
      rw [hspec.sessionId]
      rfl
    refine ⟨hsid, hspec.appendCompressor.trans h.appendCompressor, h.compressor, h.rooted.ingestTurn blocks,
      ?_, ?_, ?_, ?_, ?_, ?_⟩
    · rw [hnext, hspec.ids, h.ids, List.flatten_append, List.flatten_singleton]
    · rw [hlog]
      exact h.root
    · right
      refine ⟨rfl, ?_⟩
      rw [hlog, hnext, List.dropLast_concat]
      exact hcaught
    · intro root hroot
      exact (Option.some.inj hroot).symm
    · intro body hmem
      rcases List.mem_append.mp hmem with hold | hlast
      · obtain ⟨n, m, frame, bs, hsent⟩ := h.sent body hold
        exact ⟨n, m, frame, bs, hsent.extend _⟩
      · obtain rfl : body = prepared.body := by simpa using hlast
        exact ⟨_, _, _, _, hnew⟩
    · intro root hroot
      obtain ⟨k, hk⟩ := h.acks root hroot
      exact ⟨k, by rw [hk, hlog]⟩

omit [DedupFilter F] in
/-- The receiver's log after handling a body is again made of turns, never shorter, and
what is acknowledged is its root. -/
theorem Consistent.handleAppend (h : s.Consistent sid sender c)
    (hrt : Compressor.RoundTrips sender c) {S : Set (List UInt8)} (hS : CollisionFree S)
    (hin : ∀ x ∈ rootInputs rootZero s.turns.flatten, x ∈ S) {body : List UInt8}
    (hbody : body ∈ s.bodies) {frame : AppendFrame} (hframe : bodyFrame body = some frame) :
    let r := (s.receiver.handleAppend frame).2
    r.compressor = c ∧ r.store.sessionRoot sid = rootOver rootZero (r.store.sessionIds sid) ∧
      (r.store.sessionIds sid = s.turns.flatten ∨
        s.client.pendingRoot.isSome = true ∧ r.store.sessionIds sid = s.turns.dropLast.flatten) ∧
      s.log <+: r.store.sessionIds sid ∧
      (s.log = s.turns.flatten → r.store.sessionIds sid = s.turns.flatten) ∧
      ∀ ack, (s.receiver.handleAppend frame).1 = .ok ack →
        ack.root = rootOver rootZero (r.store.sessionIds sid) := by
  intro r
  obtain ⟨n, m, sent, blocks, hsent⟩ := h.sent body hbody
  obtain rfl : frame = sent := hsent.carries frame hframe
  obtain rfl : frame.sessionId = sid := hsent.sessionId
  have hlog : s.receiver.store.sessionIds frame.sessionId = s.log := by
    rw [log, h.session]
  -- every outcome but the last leaves the log alone
  have hsame : ∀ r' : Receiver, r'.store = s.receiver.store → r'.compressor = c →
      r'.compressor = c ∧ r'.store.sessionRoot frame.sessionId =
          rootOver rootZero (r'.store.sessionIds frame.sessionId) ∧
        (r'.store.sessionIds frame.sessionId = s.turns.flatten ∨
          s.client.pendingRoot.isSome = true ∧
            r'.store.sessionIds frame.sessionId = s.turns.dropLast.flatten) ∧
        s.log <+: r'.store.sessionIds frame.sessionId ∧
        (s.log = s.turns.flatten → r'.store.sessionIds frame.sessionId = s.turns.flatten) := by
    intro r' hstore hc
    rw [hstore, hlog]
    exact ⟨hc, h.root, h.applied, List.prefix_rfl, id⟩
  rcases s.receiver.handleAppend_cases frame with
    ⟨e, r', hr, rfl | rfl⟩ | ⟨resolved, hres, havail, -, hr | hr⟩
  · obtain ⟨h₁, h₂, h₃, h₄, h₅⟩ := hsame _ rfl h.compressor
    simp only [r, hr]
    exact ⟨h₁, h₂, h₃, h₄, h₅, by simp⟩
  · obtain ⟨h₁, h₂, h₃, h₄, h₅⟩ := hsame (s.receiver.touch frame.sessionId) rfl h.compressor
    simp only [r, hr]
    exact ⟨h₁, h₂, h₃, h₄, h₅, by simp⟩
  · obtain ⟨h₁, h₂, h₃, h₄, h₅⟩ := hsame (s.receiver.touch frame.sessionId) rfl h.compressor
    simp only [r, hr.2.2]
    refine ⟨h₁, h₂, h₃, h₄, h₅, ?_⟩
    rintro ack ⟨⟩
    exact h₂
  · obtain ⟨hbase, hrun⟩ := hr
    rw [h.compressor] at hres
    have hids := SessionShim.resolve_ids hrt hsent.wire hsent.fits hres
    obtain ⟨-, -, hlogs, -⟩ := Receiver.applyResolved_spec frame.sessionId s.receiver.store
      (Receiver.resolve_addressed hres) (fun id hid => by simpa using hid) havail
    have hown := hlogs frame.sessionId
    rw [if_pos rfl] at hown
    have hids' : r.store.sessionIds frame.sessionId = s.log ++ blocks.map Block.blockId := by
      simp only [r, hrun, ContentStore.sessionIds, hown, Receiver.extendLog, hids]
      rw [← hlog]
      rfl
    have hroot' : r.store.sessionRoot frame.sessionId =
        rootOver rootZero (r.store.sessionIds frame.sessionId) := by
      rw [hids', rootOver_append, ← h.root]
      simp only [r, hrun, ContentStore.sessionRoot, hown, Receiver.extendLog, hids]
    -- the base is the root of the whole log, so the two lists are equal
    have hprefix : s.turns.flatten.take m = s.log := by
      apply rootOver_injective hS
      · exact fun x hx => hin x (rootInputs_subset (List.take_prefix m _) x hx)
      · exact fun x hx => hin x (rootInputs_subset h.log_prefix x hx)
      · rw [← hsent.base, hbase, h.root]
    obtain ⟨hall, hcases⟩ := append_turn (h.applied.imp_right And.right) hsent.turn hsent.before
      hprefix
    rw [hroot', hids']
    refine ⟨by simp only [r, hrun]; exact h.compressor, rfl, ?_, List.prefix_append _ _, hall, ?_⟩
    · rcases h.applied with heq | ⟨hsome, -⟩
      · exact Or.inl (hall heq)
      · exact hcases.imp_right fun heq => ⟨hsome, heq⟩
    · intro ack hack
      rw [hrun] at hack
      cases hack
      rw [hbase, h.root, hids, rootOver_append]

omit [DedupFilter F] in
theorem Consistent.deliver (h : s.Consistent sid sender c) (hrt : Compressor.RoundTrips sender c)
    {S : Set (List UInt8)} (hS : CollisionFree S)
    (hin : ∀ x ∈ rootInputs rootZero s.turns.flatten, x ∈ S) {body : List UInt8}
    (hbody : body ∈ s.bodies) :
    (s.deliver body).Consistent sid sender c ∧
      (s.log = s.turns.flatten → (s.deliver body).log = s.turns.flatten) := by
  unfold Exchange.deliver
  cases hframe : bodyFrame body with
  | none => exact ⟨h, id⟩
  | some frame =>
      obtain ⟨hcomp, hroot, happlied, hgrow, hall, hack⟩ :=
        h.handleAppend hrt hS hin hbody hframe
      have hkeep : ∀ root ∈ s.acks, ∃ k, root =
          rootOver rootZero (((s.receiver.handleAppend frame).2.store.sessionIds sid).take k) := by
        intro root hmem
        obtain ⟨k, hk⟩ := h.acks root hmem
        refine ⟨(s.log.take k).length, hk.trans (congrArg _ ?_)⟩
        exact (List.prefix_iff_eq_take.mp ((List.take_prefix k _).trans hgrow))
      have hlog : ∀ acks, (⟨s.client, (s.receiver.handleAppend frame).2, s.bodies, acks, s.turns⟩ :
          Exchange F).log = (s.receiver.handleAppend frame).2.store.sessionIds sid := by
        intro acks
        exact congrArg _ h.session
      have hnext : ∀ acks, (∀ root ∈ acks, ∃ k, root =
          rootOver rootZero (((s.receiver.handleAppend frame).2.store.sessionIds sid).take k)) →
          (⟨s.client, (s.receiver.handleAppend frame).2, s.bodies, acks, s.turns⟩ :
            Exchange F).Consistent sid sender c := by
        intro acks hacks
        refine ⟨h.session, h.appendCompressor, hcomp, h.rooted, h.ids, ?_, ?_, h.pending, h.sent, ?_⟩
        · rw [hlog]
          exact hroot
        · rw [hlog]
          exact happlied
        · rw [hlog]
          exact hacks
      rcases hr : s.receiver.handleAppend frame with ⟨e | ack, r⟩
      · rw [hr] at hnext hlog hall hkeep
        simp only [hr]
        exact ⟨hnext s.acks hkeep, fun heq => (hlog s.acks).trans (hall heq)⟩
      · rw [hr] at hnext hlog hall hack hkeep
        simp only [hr]
        refine ⟨hnext (s.acks ++ [ack.root]) ?_, fun heq => (hlog _).trans (hall heq)⟩
        intro root hmem
        rcases List.mem_append.mp hmem with hold | hlast
        · exact hkeep root hold
        · obtain rfl : root = ack.root := by simpa using hlast
          exact ⟨(r.store.sessionIds sid).length, by rw [List.take_length]; exact hack ack rfl⟩

omit [DedupFilter F] in
/-- An ACK clears the pending request only when the receiver has the client's whole log. -/
theorem Consistent.cleared (h : s.Consistent sid sender c) {S : Set (List UInt8)}
    (hS : CollisionFree S) (hin : ∀ x ∈ rootInputs rootZero s.turns.flatten, x ∈ S)
    {root : MerkleRoot} (hmem : root ∈ s.acks) (hpending : s.client.pendingRoot = some root) :
    s.log = s.turns.flatten := by
  obtain ⟨k, hk⟩ := h.acks root hmem
  have hwhole : s.log.take k = s.turns.flatten := by
    apply rootOver_injective hS
    · exact fun x hx =>
        hin x (rootInputs_subset ((List.take_prefix k _).trans h.log_prefix) x hx)
    · exact hin
    · rw [← hk, h.pending root hpending, h.rooted.root, h.ids]
  have hlen : s.turns.flatten.length ≤ s.log.length := by
    rw [← hwhole]
    exact List.length_take_le' k _
  exact h.log_prefix.eq_of_length_le hlen

omit [DedupFilter F] in
theorem Consistent.applyAck (h : s.Consistent sid sender c) {S : Set (List UInt8)}
    (hS : CollisionFree S) (hin : ∀ x ∈ rootInputs rootZero s.turns.flatten, x ∈ S)
    {root : MerkleRoot} (hmem : root ∈ s.acks) : (s.applyAck root).Consistent sid sender c := by
  obtain ⟨hids, hroot, -, hsid, hcomp, -⟩ := s.client.shim.applyAck_spec root
  have hlog : (s.applyAck root).log = s.log := by
    have hshim : (s.applyAck root).sid = s.sid := by
      simp only [Exchange.sid, Exchange.applyAck, ChatSession.applyAck]
      split_ifs <;> exact hsid
    rw [log, hshim]
    rfl
  have hrooted := h.rooted.applyAck root
  -- the shim changes in the same way whether or not the request is done
  by_cases hdone : (s.client.shim.applyAck root).1 = true ∧ s.client.pendingRoot = some root
  · have hclient : (s.applyAck root).client =
        ⟨(s.client.shim.applyAck root).2, s.client.nextSeq, none⟩ := by
      simp only [Exchange.applyAck, ChatSession.applyAck]
      rw [if_pos hdone]
    refine ⟨by rw [Exchange.sid, hclient]; exact hsid.trans h.session,
      by rw [hclient]; exact hcomp.trans h.appendCompressor, h.compressor,
      by rw [hclient]; exact hrooted, by rw [hclient]; exact hids.trans h.ids,
      by rw [hlog]; exact h.root, ?_, by rw [hclient]; simp, h.sent, by rw [hlog]; exact h.acks⟩
    left
    rw [hlog]
    exact h.cleared hS hin hmem hdone.2
  · have hclient : (s.applyAck root).client =
        ⟨(s.client.shim.applyAck root).2, s.client.nextSeq, s.client.pendingRoot⟩ := by
      simp only [Exchange.applyAck, ChatSession.applyAck]
      rw [if_neg hdone]
    refine ⟨by rw [Exchange.sid, hclient]; exact hsid.trans h.session,
      by rw [hclient]; exact hcomp.trans h.appendCompressor, h.compressor,
      by rw [hclient]; exact hrooted, by rw [hclient]; exact hids.trans h.ids,
      by rw [hlog]; exact h.root, ?_, ?_, h.sent, by rw [hlog]; exact h.acks⟩
    · rw [hlog, hclient]
      exact h.applied
    · rw [hclient, hroot]
      exact h.pending

omit [DedupFilter F] in
theorem Consistent.other (h : s.Consistent sid sender c) {f : Frame} (hf : f.sessionId ≠ s.sid) :
    ({ s with receiver := (s.receiver.handleFrame f).2 } : Exchange F).Consistent sid sender c ∧
      ({ s with receiver := (s.receiver.handleFrame f).2 } : Exchange F).log = s.log := by
  obtain ⟨ops, haff, -⟩ := s.receiver.handleFrame_affects f
  have hlogOf := haff.logOf (Ne.symm hf)
  have hlog : ({ s with receiver := (s.receiver.handleFrame f).2 } : Exchange F).log = s.log :=
    congrArg SessionLog.ids hlogOf
  refine ⟨⟨h.session, h.appendCompressor, haff.compressor.trans h.compressor, h.rooted, h.ids,
    ?_, ?_, h.pending, h.sent, ?_⟩, hlog⟩
  · rw [hlog, ← h.root, ← h.session]
    exact congrArg SessionLog.root hlogOf
  · rw [hlog]
    exact h.applied
  · rw [hlog]
    exact h.acks

omit [DedupFilter F] [Blake3] [Zstd] [SerdeJson] in
theorem applied_of_log_eq (h : s.log = s.client.shim.ids) : s.applied = s.turns.length := if_pos h

omit [DedupFilter F] [Blake3] [Zstd] [SerdeJson] in
theorem le_applied (s : Exchange F) : s.turns.length - 1 ≤ s.applied := by
  unfold Exchange.applied
  split_ifs
  · omega
  · exact le_rfl

/-- A step only adds turns. -/
theorem Step.turns_prefix {s s' : Exchange F} (h : Step s s') : s.turns <+: s'.turns := by
  cases h with
  | prepare messages request =>
      unfold Exchange.prepare
      split
      · exact List.prefix_rfl
      · exact List.prefix_append _ _
  | deliver body hbody =>
      unfold Exchange.deliver
      split
      · exact List.prefix_rfl
      · split <;> exact List.prefix_rfl
  | applyAck root hroot => exact List.prefix_rfl
  | other f hf => exact List.prefix_rfl

theorem turns_prefix_of_run {s s' : Exchange F} (h : Relation.ReflTransGen Step s s') :
    s.turns <+: s'.turns := by
  induction h with
  | refl => exact List.prefix_rfl
  | tail _ hstep ih => exact ih.trans hstep.turns_prefix

/-- One step keeps the invariant and never takes a turn back. -/
theorem Consistent.step {s' : Exchange F} (h : s.Consistent sid sender c)
    (hrt : Compressor.RoundTrips sender c) {S : Set (List UInt8)} (hS : CollisionFree S)
    (hin : ∀ x ∈ rootInputs rootZero s.turns.flatten, x ∈ S) (hstep : Step s s') :
    s'.Consistent sid sender c ∧ s.applied ≤ s'.applied := by
  cases hstep with
  | prepare messages request =>
      have hnext := h.prepare messages request
      refine ⟨hnext, ?_⟩
      rcases s.client.prepareRef_cases messages request with
        ⟨e, hprep⟩ | ⟨nextSeq, prepared, hpending, hprep, -⟩
      · have hsame : s.prepare messages request = s := by
          unfold Exchange.prepare
          rw [hprep]
        rw [hsame]
      · have hlen : (s.prepare messages request).turns.length = s.turns.length + 1 := by
          unfold Exchange.prepare
          rw [hprep]
          simp
        have hle := le_applied (s.prepare messages request)
        rw [applied_of_log_eq ((h.caught hpending).trans h.ids.symm)]
        omega
  | deliver body hbody =>
      obtain ⟨hnext, hall⟩ := h.deliver hrt hS hin hbody
      refine ⟨hnext, ?_⟩
      have hturns : (s.deliver body).turns = s.turns ∧ (s.deliver body).client = s.client := by
        unfold Exchange.deliver
        split
        · exact ⟨rfl, rfl⟩
        · split <;> exact ⟨rfl, rfl⟩
      by_cases hlog : s.log = s.client.shim.ids
      · rw [applied_of_log_eq hlog, applied_of_log_eq, hturns.1]
        rw [hall (hlog.trans h.ids), hturns.2, h.ids]
      · have hle := le_applied (s.deliver body)
        rw [hturns.1] at hle
        rwa [Exchange.applied, if_neg hlog]
  | applyAck root hroot =>
      have hnext := h.applyAck hS hin hroot
      refine ⟨hnext, le_of_eq ?_⟩
      obtain ⟨hids, -, -, hsid, -⟩ := s.client.shim.applyAck_spec root
      have hclient : (s.applyAck root).client.shim = (s.client.shim.applyAck root).2 := by
        simp only [Exchange.applyAck, ChatSession.applyAck]
        split_ifs <;> rfl
      have hlog : (s.applyAck root).log = s.log := by
        rw [Exchange.log, Exchange.sid, hclient, hsid]
        rfl
      rw [Exchange.applied, Exchange.applied, hlog, hclient, hids]
      rfl
  | other f hf =>
      obtain ⟨hnext, hlog⟩ := h.other hf
      refine ⟨hnext, le_of_eq ?_⟩
      rw [Exchange.applied, Exchange.applied, hlog]

/-- A whole run keeps the invariant and never takes a turn back. -/
theorem Consistent.run {s' : Exchange F} (h : s.Consistent sid sender c)
    (hrt : Compressor.RoundTrips sender c) {S : Set (List UInt8)} (hS : CollisionFree S)
    (hrun : Relation.ReflTransGen Step s s')
    (hin : ∀ x ∈ rootInputs rootZero s'.turns.flatten, x ∈ S) :
    s'.Consistent sid sender c ∧ s.applied ≤ s'.applied := by
  induction hrun with
  | refl => exact ⟨h, le_rfl⟩
  | tail _ hstep ih =>
      have hbefore := fun x hx => hin x
        (rootInputs_subset hstep.turns_prefix.flatten x hx)
      obtain ⟨hmid, hle⟩ := ih hbefore
      obtain ⟨hnext, hle'⟩ := hmid.step hrt hS hbefore hstep
      exact ⟨hnext, hle.trans hle'⟩

end Step

/-- In every run of a chat session against a receiver over a network that loses,
duplicates, delays and reorders bodies and ACKs: the receiver's log is the concatenation of
the first applied turns, their number never decreases, every ACK carries the root of the log
at that moment, and an ACK clears the pending request only if the receiver has the client's
whole log. -/
theorem lossy_exchange_exactly_once {s₀ s s' : Exchange F} {c : Compressor} (hinit : s₀.Initial c)
    (hrt : Compressor.RoundTrips (Compressor.default.withLevel SessionShim.appendLevel) c)
    (hrun : Relation.ReflTransGen Step s₀ s) (hrun' : Relation.ReflTransGen Step s s')
    {S : Set (List UInt8)} (hS : CollisionFree S)
    (hin : ∀ x ∈ rootInputs rootZero s'.turns.flatten, x ∈ S) :
    s'.log = (s'.turns.take s'.applied).flatten ∧ s.applied ≤ s'.applied ∧
      s'.client.shim.ids = s'.turns.flatten ∧
      (∀ body ∈ s'.bodies, ∀ frame ack receiver, bodyFrame body = some frame →
        s'.receiver.handleAppend frame = (.ok ack, receiver) →
        ack.root = rootOver rootZero (receiver.store.sessionIds s'.sid)) ∧
      ∀ root ∈ s'.acks, s'.client.pendingRoot.isSome = true →
        (s'.client.applyAck root).2.pendingRoot = none → s'.log = s'.client.shim.ids := by
  have hmid : s.Consistent s₀.sid _ c :=
    ((consistent_initial hinit).run hrt hS hrun fun x hx => hin x
      (rootInputs_subset (turns_prefix_of_run hrun').flatten x hx)).1
  obtain ⟨h, hle⟩ := hmid.run hrt hS hrun' hin
  refine ⟨h.log_eq, hle, h.ids, ?_, ?_⟩
  · intro body hbody frame ack receiver hframe hrun
    obtain ⟨-, -, -, -, -, hack⟩ := h.handleAppend hrt hS hin hbody hframe
    rw [h.session]
    rw [hrun] at hack
    exact hack ack rfl
  · intro root hroot hsome hnone
    rw [h.ids]
    apply h.cleared hS hin hroot
    -- only an ACK of the pending root clears it
    simp only [ChatSession.applyAck] at hnone
    split_ifs at hnone with hdone
    · exact hdone.2
    · rw [hnone] at hsome
      cases hsome

omit [DedupFilter F] [Blake3] [Zstd] [SerdeJson] in
/-- A turn of one message whose body is delivered twice before the first of its two ACKs
arrives. -/
theorem lossy_exchange_delivered_twice :
    letI := prefixHash
    letI := storedZstd
    letI := DedupFilter.exact
    letI := sampleJson [.object []]
    let message : Value := .object [("role", .string "user")]
    let s₀ : Exchange (List BlockId) := ⟨ChatSession.new "chat" [],
      Receiver.new ContentStore.new Compressor.default, [], [], []⟩
    let s₁ := s₀.prepare [message] (.object [])
    let body := s₁.bodies.headD []
    let s₂ := (s₁.deliver body).deliver body
    let root := s₂.acks.headD rootZero
    s₂.log = (s₂.turns.take s₂.applied).flatten ∧ s₂.acks = [root, root] ∧
      (s₂.client.applyAck root).2.pendingRoot = none ∧ s₂.log = s₂.client.shim.ids := by
  let _ := prefixHash
  let _ := storedZstd
  let _ := DedupFilter.exact
  let _ := sampleJson [.object []]
  intro message s₀ s₁ body s₂ root
  have hinit : s₀.Initial Compressor.default :=
    ⟨⟨"chat", [], by rfl⟩, by rfl, by decide +kernel, by rfl, by rfl, by rfl⟩
  have hsent : body ∈ s₁.bodies ∧ body ∈ (s₁.deliver body).bodies := by decide +kernel
  have hturns : s₂.turns.flatten = [Block.blockId ⟨.message, 1, message.print⟩] := by
    decide +kernel
  have hacks : s₂.acks = [root, root] := by decide +kernel
  have hpending : s₂.client.pendingRoot.isSome = true := by decide +kernel
  have hcleared : (s₂.client.applyAck root).2.pendingRoot = none := by decide +kernel
  have hrun₁ : Step s₀ s₁ := .prepare s₀ [message] (.object [])
  have hrun₂ : Step s₁ (s₁.deliver body) := .deliver s₁ body hsent.1
  have hrun₃ : Step (s₁.deliver body) s₂ := .deliver (s₁.deliver body) body hsent.2
  have hrun : Relation.ReflTransGen Step s₀ s₂ :=
    ((Relation.ReflTransGen.single hrun₁).tail hrun₂).tail hrun₃
  -- from here on the states are opaque, so that nothing evaluates them again
  clear_value s₂ root
  clear hrun₃ hrun₂ hrun₁ hsent
  clear_value s₀
  have honly : ∀ x ∈ rootInputs rootZero s₂.turns.flatten,
      x = rootZero.bytes ++ (Block.blockId ⟨.message, 1, message.print⟩).bytes := by
    rw [hturns]
    simp [rootInputs, Lib.HashChain.links]
  obtain ⟨hlog, -, -, -, hdone⟩ := lossy_exchange_exactly_once hinit
    (Compressor.roundTrips_storedZstd _ _) hrun .refl
    (S := {x | x ∈ rootInputs rootZero s₂.turns.flatten})
    ⟨fun x hx y hy _ => (honly x hx).trans (honly y hy).symm,
      fun x _ => prefixHash_ne_rootZero x⟩ fun x hx => hx
  refine ⟨hlog, hacks, hcleared, hdone root ?_ hpending hcleared⟩
  rw [hacks]
  exact List.mem_cons_self

end Exchange

end Dlr.Sidecar
