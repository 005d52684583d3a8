import Dlr.Core.Recovery
import Dlr.Receiver.Commitment
import Dlr.Receiver.Steps

/-!
# Durability of acknowledged APPENDs beside a BULK

An APPEND of one session and a BULK of another run on one receiver in any order
of their atomic steps, and each flushes the log before it answers. The block map
and the log are changed under different locks: a block that the BULK has put into
the map is visible to the APPEND before its content is logged. Replay drops a
reference to a block it does not know yet, so an APPEND that logs its reference
first is acknowledged with a root the log does not reproduce.

## Implementation notes

The invariant compares the maps with what the log recovers. They differ by the
one step that each request may stand behind: a block without its record, or an
id in the session log without its record.
-/

namespace Dlr

open Dlr.Core Coding Compress Lib Wal

/-- The request whose turn it is. -/
inductive Turn
  | append
  | bulk
  deriving DecidableEq

/-- An APPEND and a BULK in flight on one receiver. -/
structure Race where
  receiver : Receiver
  append : AppendPhase
  bulk : BulkPhase

namespace AppendPhase

/-- The block that the APPEND has put into the block map and not yet into the log. -/
def unlogged : AppendPhase → Option BlockId
  | pushing item true _ => some item.id
  | logging item true _ => some item.id
  | _ => none

/-- The entry that the APPEND is working on. -/
def current : AppendPhase → Option BlockId
  | pushing item _ _ => some item.id
  | logging item _ _ => some item.id
  | _ => none

/-- The checks under the sessions mutex have been passed. -/
def accepted : AppendPhase → Bool
  | applying _ => true
  | pushing _ _ _ => true
  | logging _ _ _ => true
  | flushing _ => true
  | _ => false

section

variable [Blake3]

/-- The session log in memory, from the one that the log file recovers. -/
def extend (log : SessionLog) : AppendPhase → SessionLog
  | logging item _ _ => ⟨log.ids ++ [item.id], appendRoot log.root item.id⟩
  | _ => log

/-- Every entry carries the address of its block, and only an inline one is new. -/
def Addressed : AppendPhase → Prop
  | validating _ _ resolved => ∀ x ∈ resolved, x.Addressed
  | applying rest => ∀ x ∈ rest, x.Addressed
  | pushing item newly rest =>
      item.Addressed ∧ (newly = true → ∃ id block, item = .inline id block) ∧
        ∀ x ∈ rest, x.Addressed
  | logging item newly rest =>
      item.Addressed ∧ (newly = true → ∃ id block, item = .inline id block) ∧
        ∀ x ∈ rest, x.Addressed
  | _ => True

end

end AppendPhase

namespace BulkPhase

/-- The block that the BULK has put into the block map and not yet into the log. -/
def unlogged : BulkPhase → Option BlockId
  | logging _ _ id _ => some id
  | _ => none

def Addressed [Blake3] : BulkPhase → Prop
  | storing _ rest => ∀ b ∈ rest, b.2 = b.1.blockId
  | logging _ block id rest => id = block.blockId ∧ ∀ b ∈ rest, b.2 = b.1.blockId
  | _ => True

end BulkPhase

namespace Race

section Run

variable [Blake3] [Zstd] (sync : Bool) (a : AppendFrame) (b : BulkFrame)

/-- Both requests have arrived and done nothing. -/
def start (r : Receiver) : Race := ⟨r, .resolving, .fetching⟩

/-- One atomic step of the request whose turn it is. -/
def act (w : Race) : Turn → Race
  | .append =>
      let (r, phase) := w.receiver.stepAppend sync a w.append
      ⟨r, phase, w.bulk⟩
  | .bulk =>
      let (r, phase) := w.receiver.stepBulk sync b w.append.locksSessions w.bulk
      ⟨r, w.append, phase⟩

def run (w : Race) (turns : List Turn) : Race := turns.foldl (act sync a b) w

/-- The APPEND is about to log a mere reference to a block whose content the BULK has
stored and not yet logged. -/
def Overtakes (w : Race) : Turn → Prop
  | .append =>
      match w.append with
      | .logging item false _ => w.bulk.unlogged = some item.id
      | _ => False
  | .bulk => False

omit [Blake3] [Zstd] in
instance (w : Race) (turn : Turn) : Decidable (w.Overtakes turn) :=
  match turn with
  | .bulk => .isFalse id
  | .append => by
      unfold Overtakes
      exact match w.append with
        | .logging item false _ => inferInstanceAs (Decidable (w.bulk.unlogged = some item.id))
        | .logging _ true _ => .isFalse id
        | .resolving | .validating _ _ _ | .applying _ | .pushing _ _ _ | .flushing _
        | .exposed _ | .refused _ | .unflushed _ => .isFalse id

/-- No step of the run logs a reference ahead of its content. -/
def Ordered (w : Race) : List Turn → Prop
  | [] => True
  | turn :: rest => ¬ w.Overtakes turn ∧ (w.act sync a b turn).Ordered rest

instance decidableOrdered (w : Race) (turns : List Turn) : Decidable (w.Ordered sync a b turns) :=
  match turns with
  | [] => .isTrue trivial
  | turn :: rest =>
      have := decidableOrdered (w.act sync a b turn) rest
      inferInstanceAs (Decidable (¬ w.Overtakes turn ∧ (w.act sync a b turn).Ordered sync a b rest))

end Run

end Race

namespace Core.Wal

/-- A content record leaves the session logs alone and adds a block. -/
theorem applyRecord_content [Blake3] (m : Maps) (sid : SessionId) (canonical : List UInt8) :
    (applyRecord m (.content sid canonical)).sessions = m.sessions ∧
      ∀ id, (m.blocks.get? id).isSome →
        ((applyRecord m (.content sid canonical)).blocks.get? id).isSome := by
  simp only [applyRecord]
  cases fromCanonical canonical with
  | error e => exact ⟨rfl, fun _ h => h⟩
  | ok block =>
      refine ⟨rfl, fun id h => ?_⟩
      obtain ⟨c, hc⟩ := Option.isSome_iff_exists.mp h
      exact Option.isSome_iff_exists.mpr ⟨c, putBlock_preserves _ _ hc⟩

end Core.Wal

namespace Core.ContentStore

variable [Blake3]

/-- After a crash that keeps at least the flushed part of the log, replay gives the
session this root and an id list whose every block is there. -/
def Survives (st : ContentStore) (sid : SessionId) (root : MerkleRoot) : Prop :=
  ∃ w, st.wal = some w ∧ ∀ cut, w.flushed ≤ cut → st.walError = none ∨ cut = w.flushed →
    ∀ writes flushes, ∃ recovered, withWal (w.bytes.take cut) writes flushes = .ok recovered ∧
      recovered.sessionRoot sid = root ∧
      ∀ id ∈ recovered.sessionIds sid, recovered.contains id = true

/-- A flushed part of the log recovers the session, and only content was logged since. -/
def Durable (st : ContentStore) (sid : SessionId) (root : MerkleRoot) : Prop :=
  ∃ (w : Wal) (base : List UInt8) (m : Maps) (rs : List Record) (torn : List UInt8),
    st.wal = some w ∧
    w.bytes = base ++ rs.flatMap Record.encode ++ torn ∧
    (st.walError = none → torn = []) ∧
    base.length ≤ w.flushed ∧ w.flushed ≤ (base ++ rs.flatMap Record.encode).length ∧
    Recovers base m ∧ (logOf m.sessions sid).root = root ∧
    (∀ id ∈ (logOf m.sessions sid).ids, (m.blocks.get? id).isSome) ∧
    ∀ r ∈ rs, r.Valid ∧ ∃ s canonical, r = .content s canonical

/-- Content records leave the session logs alone and add blocks. -/
theorem foldl_content {rs : List Record} (hrs : ∀ r ∈ rs, ∃ s canonical, r = .content s canonical)
    (m : Maps) :
    (rs.foldl applyRecord m).sessions = m.sessions ∧
      ∀ id, (m.blocks.get? id).isSome → ((rs.foldl applyRecord m).blocks.get? id).isSome := by
  induction rs generalizing m with
  | nil => exact ⟨rfl, fun _ h => h⟩
  | cons r rest ih =>
      obtain ⟨hsessions, hblocks⟩ :=
        ih (fun r hr => hrs r (List.mem_cons_of_mem _ hr)) (applyRecord m r)
      obtain ⟨s, canonical, rfl⟩ := hrs r List.mem_cons_self
      have hstep := applyRecord_content m s canonical
      exact ⟨hsessions.trans hstep.1, fun id h => hblocks id (hstep.2 id h)⟩

theorem Durable.survives {st : ContentStore} {sid : SessionId} {root : MerkleRoot}
    (h : st.Durable sid root) : st.Survives sid root := by
  obtain ⟨w, base, m, rs, torn, hw, hbytes, htorn, hbase, hflushed, hrec, hroot, hids, hrs⟩ := h
  refine ⟨w, hw, fun cut hcut hlast writes flushes => ?_⟩
  -- the crash keeps the base and a part of the content records
  have htake : w.bytes.take cut =
      base ++ (rs.flatMap Record.encode).take (cut - base.length) := by
    have hbefore : w.bytes.take cut = (base ++ rs.flatMap Record.encode).take cut := by
      rw [hbytes]
      rcases hlast with hnone | hlast
      · rw [htorn hnone, List.append_nil]
      · exact List.take_append_of_le_length (by omega)
    rw [hbefore, List.take_append, List.take_of_length_le (by omega)]
  obtain ⟨whole, later, st', hsplit, -, hreplay, hmaps⟩ :=
    hrec.cut (fun r hr => (hrs r hr).1) (List.take_prefix (cut - base.length) _)
  have hwhole : ∀ r ∈ whole, ∃ s canonical, r = .content s canonical :=
    fun r hr => (hrs r (by simp [hsplit, hr])).2
  have hcontent := foldl_content hwhole m
  rw [← hmaps] at hcontent
  refine ⟨_, by rw [htake, withWal, hreplay], ?_, ?_⟩
  · rw [← hroot, ← hcontent.1]
    rfl
  · intro id hid
    apply hcontent.2
    apply hids
    rw [← hcontent.1]
    exact hid

theorem Durable.congr {st st' : ContentStore} {sid : SessionId} {root : MerkleRoot}
    (h : st.Durable sid root) (hwal : st'.wal = st.wal) (herr : st'.walError = st.walError) :
    st'.Durable sid root := by
  unfold Durable
  rw [hwal, herr]
  exact h

/-- A further content record, written or torn, keeps the flushed part. -/
theorem Durable.logContent {st : ContentStore} {sid : SessionId} {root : MerkleRoot}
    (h : st.Durable sid root) (s : SessionId) (canonical : List UInt8) :
    (st.logWal (·.append (.content s canonical))).Durable sid root := by
  obtain ⟨w, base, m, rs, torn, hw, hbytes, htorn, hbase, hflushed, hrec, hroot, hids, hrs⟩ := h
  have hwal : (st.logWal (·.append (.content s canonical))).wal =
      some (w.append (.content s canonical)).2 := by simp [logWal_wal, hw]
  obtain ⟨added, hadded, -, hsame⟩ := append_bytes w (.content s canonical)
  by_cases hok : (st.logWal (·.append (.content s canonical))).walError = none
  · obtain ⟨hnone, hres⟩ := logWal_walError st _ hok
    obtain ⟨happ, hsize⟩ := append_ok (Prod.ext (hres w hw) rfl)
    refine ⟨_, base, m, rs ++ [.content s canonical], [], hwal, ?_, fun _ => rfl, ?_, ?_,
      hrec, hroot, hids, ?_⟩
    · rw [happ, hbytes, htorn hnone]
      simp
    · rw [hsame]
      exact hbase
    · rw [hsame, List.flatMap_append, ← List.append_assoc, List.length_append]
      omega
    · intro r hr
      rcases List.mem_append.mp hr with hr | hr
      · exact hrs r hr
      · cases List.mem_singleton.mp hr
        exact ⟨Record.valid_of_size hsize, s, canonical, rfl⟩
  · refine ⟨_, base, m, rs, torn ++ added, hwal, ?_, fun hnone => absurd hnone hok, ?_, ?_,
      hrec, hroot, hids, hrs⟩
    · rw [hadded, hbytes, List.append_assoc _ torn]
    · rw [hsame]
      exact hbase
    · rw [hsame]
      exact hflushed

theorem Durable.flushWal {st : ContentStore} {sid : SessionId} {root : MerkleRoot}
    (h : st.Durable sid root) (sync : Bool) : (st.flushWal sync).2.Durable sid root := by
  obtain ⟨w, base, m, rs, torn, hw, hbytes, htorn, hbase, hflushed, hrec, hroot, hids, hrs⟩ := h
  obtain ⟨w', hw', hbytes', ⟨-, hnone, -, hall⟩ | ⟨-, herr, hsame⟩⟩ := flushWal_wal hw sync
  · refine ⟨w', base, m, rs, [], hw', ?_, fun _ => rfl, ?_, ?_, hrec, hroot, hids, hrs⟩
    · rw [hbytes', hbytes, htorn hnone]
    · rw [hall, hbytes, List.length_append, List.length_append]
      omega
    · rw [hall, hbytes, htorn hnone, List.append_nil]
  · exact ⟨w', base, m, rs, torn, hw', hbytes'.trans hbytes, fun hnone => absurd hnone herr,
      hsame ▸ hbase, hsame ▸ hflushed, hrec, hroot, hids, hrs⟩

/-- A successful flush makes durable whatever the log recovers. -/
theorem durable_of_flush {st : ContentStore} {w : Wal} {m : Maps} {sid : SessionId}
    (hw : st.wal = some w) (hrec : Recovers w.bytes m)
    (hids : ∀ id ∈ (logOf m.sessions sid).ids, (m.blocks.get? id).isSome) {sync : Bool}
    {u : Unit} (hok : (st.flushWal sync).1 = .ok u) :
    (st.flushWal sync).2.Durable sid (logOf m.sessions sid).root := by
  obtain ⟨w', hw', hbytes', ⟨-, -, -, hall⟩ | ⟨⟨e, herr⟩, -, -⟩⟩ := flushWal_wal hw sync
  · refine ⟨w', w.bytes, m, [], [], hw', by simpa using hbytes', fun _ => rfl, hall.ge, ?_, hrec,
      rfl, hids, by simp⟩
    simp [hall]
  · rw [herr] at hok
    cases hok

end Core.ContentStore

namespace Race

variable [Blake3]

/-- How the receiver and the two phases relate to what the log recovers. -/
structure Tracks (sid : SessionId) (m : Maps) (r : Receiver) (append : AppendPhase)
    (bulk : BulkPhase) : Prop where
  stored : ∀ id, r.store.contains id = true →
    (m.blocks.get? id).isSome ∨ append.unlogged = some id ∨ bulk.unlogged = some id
  log : logOf r.store.sessions sid = append.extend (logOf m.sessions sid)
  complete : ∀ id ∈ (logOf m.sessions sid).ids,
    (m.blocks.get? id).isSome ∨ id ∈ (r.session sid).pending
  settled : append.accepted = true → (r.session sid).pending = ∅
  present : ∀ id ∈ append.current, r.store.contains id = true
  root : ∀ root, append = .flushing root → (logOf m.sessions sid).root = root

/-- The invariant of a run: what the log recovers is tracked until a write fails, and an
exposed root is durable from then on. -/
structure Sound (sid : SessionId) (w : Race) : Prop where
  append : w.append.Addressed
  bulk : w.bulk.Addressed
  attached : w.receiver.store.wal.isSome
  tracked : w.receiver.store.walError = none → ∀ wal, w.receiver.store.wal = some wal →
    ∃ m, Recovers wal.bytes m ∧ Tracks sid m w.receiver w.append w.bulk
  durable : ∀ root, w.append = .exposed root → w.receiver.store.Durable sid root

section Store

variable {sid : SessionId} {m : Maps} {r : Receiver} {append : AppendPhase} {bulk : BulkPhase}

/-- A step that only moves on to a phase with nothing in hand. -/
theorem Tracks.move (h : Tracks sid m r append bulk) {append' : AppendPhase}
    (hun : append.unlogged = none) (hext : append.extend (logOf m.sessions sid) =
      append'.extend (logOf m.sessions sid))
    (hacc : append'.accepted = true → (r.session sid).pending = ∅)
    (hcur : ∀ id ∈ append'.current, r.store.contains id = true)
    (hroot : ∀ root, append' = .flushing root → (logOf m.sessions sid).root = root) :
    Tracks sid m r append' bulk where
  stored := by
    intro id hid
    rcases h.stored id hid with hm | ha | hb
    · exact Or.inl hm
    · rw [hun] at ha
      cases ha
    · exact Or.inr (Or.inr hb)
  log := h.log.trans hext
  complete := h.complete
  settled := hacc
  present := hcur
  root := hroot

theorem Tracks.congr (h : Tracks sid m r append bulk) {r' : Receiver} (hstore : r'.store = r.store)
    (hsession : r'.session sid = r.session sid) : Tracks sid m r' append bulk where
  stored := hstore ▸ h.stored
  log := hstore ▸ h.log
  complete := hsession ▸ h.complete
  settled := hsession ▸ h.settled
  present := hstore ▸ h.present
  root := h.root

/-- The block-map step of the APPEND: a new block is the one it has yet to log. -/
theorem Tracks.storeInline {rest : List Resolved} (h : Tracks sid m r (.applying rest) bulk)
    (id : BlockId) (block : Block) (rest' : List Resolved) :
    Tracks sid m { r with store := (r.store.storeBlock block id).1 }
      (.pushing (.inline id block) (r.store.storeBlock block id).2 rest') bulk where
  stored := by
    intro k hk
    simp only [ContentStore.contains, ContentStore.storeBlock_blocks, putBlock_get?] at hk
    by_cases hold : r.store.contains k = true
    · rcases h.stored k hold with hm | ha | hb
      · exact Or.inl hm
      · cases ha
      · exact Or.inr (Or.inr hb)
    · have hnone : r.store.blocks.get? k = none := by
        simpa [ContentStore.contains] using hold
      by_cases hkid : k = id
      · subst hkid
        right
        left
        simp [AppendPhase.unlogged, hnone, Resolved.id]
      · simp [hkid, hnone] at hk
  log := by
    rw [ContentStore.storeBlock_sessions]
    exact h.log
  complete := h.complete
  settled := fun _ => h.settled rfl
  present := by
    intro k hk
    cases hk
    simp [ContentStore.contains, putBlock_self_isSome, Resolved.id]
  root := by simp

@[simp] theorem push_sessions (item : Resolved) (st : ContentStore) :
    (item.push sid st).sessions = pushLog st.sessions sid item.id := by
  cases item with
  | inline id block =>
      simp only [Resolved.push, ContentStore.pushInserted, Resolved.id]
      split_ifs <;> rfl
  | ref id => rfl

@[simp] theorem push_blocks (item : Resolved) (st : ContentStore) :
    (item.push sid st).blocks = st.blocks := by
  cases item with
  | inline id block =>
      simp only [Resolved.push, ContentStore.pushInserted]
      split_ifs <;> rfl
  | ref id => rfl

theorem push_wal (item : Resolved) (st : ContentStore) :
    (item.push sid st).wal = st.wal ∧ (item.push sid st).walError = st.walError := by
  cases item with
  | inline id block =>
      simp only [Resolved.push, ContentStore.pushInserted]
      split_ifs <;> exact ⟨rfl, rfl⟩
  | ref id => exact ⟨rfl, rfl⟩

/-- The session-log step of the APPEND puts its id ahead of what is logged. -/
theorem Tracks.push {item : Resolved} {newly : Bool} {rest : List Resolved}
    (h : Tracks sid m r (.pushing item newly rest) bulk) :
    Tracks sid m { r with store := item.push sid r.store } (.logging item newly rest) bulk where
  stored := by
    intro k hk
    simp only [ContentStore.contains, push_blocks] at hk
    refine (h.stored k hk).imp_right (Or.imp_left fun ha => ?_)
    cases newly with
    | false => cases ha
    | true => exact ha
  log := by
    have hlog : logOf r.store.sessions sid = logOf m.sessions sid := h.log
    simp only [push_sessions]
    rw [logOf_pushLog, if_pos rfl, hlog]
    rfl
  complete := h.complete
  settled := fun _ => h.settled rfl
  present := by
    intro k hk
    simpa [ContentStore.contains] using h.present k hk
  root := by simp

/-- What the record of an entry means once its block is recovered or comes with it. -/
theorem applyRecord_entry {item : Resolved} (haddr : item.Addressed) {newly : Bool}
    (hinline : newly = true → ∃ id block, item = .inline id block)
    (hvalid : (item.record sid newly).Valid)
    (hknown : newly = false → (m.blocks.get? item.id).isSome) :
    (applyRecord m (item.record sid newly)).sessions = pushLog m.sessions sid item.id ∧
      (∀ id, (m.blocks.get? id).isSome ∨ id = item.id →
        ((applyRecord m (item.record sid newly)).blocks.get? id).isSome) := by
  have hreference : (m.blocks.get? item.id).isSome →
      (applyRecord m (.reference sid item.id)).sessions = pushLog m.sessions sid item.id ∧
        (∀ id, (m.blocks.get? id).isSome ∨ id = item.id →
          ((applyRecord m (.reference sid item.id)).blocks.get? id).isSome) := by
    intro hsome
    simp only [applyRecord, hsome, if_true, true_and]
    rintro id (h | rfl)
    · exact h
    · exact hsome
  cases newly with
  | false =>
      have hrecord : item.record sid false = .reference sid item.id := by cases item <;> rfl
      rw [hrecord]
      exact hreference (hknown rfl)
  | true =>
      obtain ⟨id, block, rfl⟩ := hinline rfl
      have haddr : id = block.blockId := haddr
      subst haddr
      have hparse := ContentStore.fromCanonical_of_record hvalid.size
      simp only [Resolved.record, if_true, applyRecord, hparse, Resolved.id, true_and]
      rintro k (h | rfl)
      · obtain ⟨c, hc⟩ := Option.isSome_iff_exists.mp h
        exact Option.isSome_iff_exists.mpr ⟨c, putBlock_preserves _ _ hc⟩
      · exact putBlock_self_isSome _ _ _

/-- The log step of the APPEND: what the log recovers catches up with the maps. -/
theorem Tracks.logEntry {item : Resolved} {newly : Bool} {rest : List Resolved}
    (h : Tracks sid m r (.logging item newly rest) bulk)
    (haddr : (AppendPhase.logging item newly rest).Addressed)
    (hvalid : (item.record sid newly).Valid)
    (horder : newly = false → bulk.unlogged ≠ some item.id) :
    Tracks sid (applyRecord m (item.record sid newly))
      { r with store := r.store.logWal (·.append (item.record sid newly)) }
      (.applying rest) bulk := by
  have hknown : newly = false → (m.blocks.get? item.id).isSome := by
    rintro rfl
    rcases h.stored item.id (h.present _ rfl) with hm | ha | hb
    · exact hm
    · cases ha
    · exact absurd hb (horder rfl)
  obtain ⟨hsessions, hblocks⟩ := applyRecord_entry haddr.1 haddr.2.1 hvalid hknown
  have hlog : logOf (applyRecord m (item.record sid newly)).sessions sid =
      ⟨(logOf m.sessions sid).ids ++ [item.id], appendRoot (logOf m.sessions sid).root item.id⟩ := by
    rw [hsessions, logOf_pushLog, if_pos rfl]
  refine ⟨?_, ?_, ?_, fun _ => h.settled rfl, by simp [AppendPhase.current], by simp⟩
  · intro id hid
    simp only [ContentStore.contains, ContentStore.logWal_blocks] at hid
    rcases h.stored id hid with hm | ha | hb
    · exact Or.inl (hblocks id (Or.inl hm))
    · cases newly with
      | false => cases ha
      | true => exact Or.inl (hblocks id (Or.inr (Option.some.inj ha).symm))
    · exact Or.inr (Or.inr hb)
  · simp only [ContentStore.logWal_sessions]
    rw [hlog]
    exact h.log
  · intro id hid
    rw [hlog] at hid
    left
    rcases List.mem_append.mp hid with hid | hid
    · refine hblocks id (Or.inl ?_)
      exact (h.complete id hid).resolve_right (by simp [h.settled rfl])
    · exact hblocks id (Or.inr (List.mem_singleton.mp hid))

/-- A step of the BULK keeps everything the APPEND relies on, as long as what it stores
is logged or in its own hands. -/
theorem Tracks.beside (h : Tracks sid m r append bulk) {m' : Maps} {r' : Receiver}
    {bulk' : BulkPhase} (hsession : r'.session sid = r.session sid)
    (hsessions : r'.store.sessions = r.store.sessions) (hlogs : m'.sessions = m.sessions)
    (hblocks : ∀ id, (m.blocks.get? id).isSome → (m'.blocks.get? id).isSome)
    (hcontains : ∀ id, r.store.contains id = true → r'.store.contains id = true)
    (hnew : ∀ id, r'.store.contains id = true → r.store.contains id = true ∨
      bulk'.unlogged = some id)
    (hun : ∀ id, bulk.unlogged = some id →
      (m'.blocks.get? id).isSome ∨ bulk'.unlogged = some id) :
    Tracks sid m' r' append bulk' where
  stored := by
    intro id hid
    rcases hnew id hid with hold | hb
    · rcases h.stored id hold with hm | ha | hb
      · exact Or.inl (hblocks id hm)
      · exact Or.inr (Or.inl ha)
      · exact (hun id hb).imp_right Or.inr
    · exact Or.inr (Or.inr hb)
  log := by rw [hsessions, hlogs, h.log]
  complete := by
    intro id hid
    rw [hlogs] at hid
    rw [hsession]
    exact (h.complete id hid).imp_left (hblocks id)
  settled := fun hacc => hsession ▸ h.settled hacc
  present := fun id hid => hcontains id (h.present id hid)
  root := by
    intro root hroot
    rw [hlogs]
    exact h.root root hroot

end Store

section Step

variable {sid : SessionId} {w : Race}

/-- A step that leaves the log alone. -/
theorem Sound.keep (h : Sound sid w) {r : Receiver} {append : AppendPhase} {bulk : BulkPhase}
    (hwal : r.store.wal = w.receiver.store.wal)
    (herr : r.store.walError = w.receiver.store.walError) (ha : append.Addressed)
    (hb : bulk.Addressed)
    (htracks : ∀ m, Tracks sid m w.receiver w.append w.bulk → Tracks sid m r append bulk)
    (hexposed : ∀ root, append = .exposed root → w.append = .exposed root) :
    Sound sid ⟨r, append, bulk⟩ where
  append := ha
  bulk := hb
  attached := by
    rw [hwal]
    exact h.attached
  tracked := by
    intro hnone wal hw
    obtain ⟨m, hrec, ht⟩ := h.tracked (herr ▸ hnone) wal (hwal ▸ hw)
    exact ⟨m, hrec, htracks m ht⟩
  durable := fun root hroot => (h.durable root (hexposed root hroot)).congr hwal herr

/-- A step that appends one record to the log. -/
theorem Sound.log (h : Sound sid w) {record : Record} {append : AppendPhase} {bulk : BulkPhase}
    (ha : append.Addressed) (hb : bulk.Addressed)
    (htracks : ∀ m, record.Valid → Tracks sid m w.receiver w.append w.bulk →
      Tracks sid (applyRecord m record)
        { w.receiver with store := w.receiver.store.logWal (·.append record) } append bulk)
    (hdurable : ∀ root, append = .exposed root →
      (w.receiver.store.logWal (·.append record)).Durable sid root) :
    Sound sid ⟨{ w.receiver with store := w.receiver.store.logWal (·.append record) },
      append, bulk⟩ where
  append := ha
  bulk := hb
  attached := (ContentStore.logWal_isSome _ _).trans h.attached
  tracked := by
    intro hnone wal' hw'
    simp only [ContentStore.logWal_wal] at hw'
    obtain ⟨wal, hw, rfl⟩ := Option.map_eq_some_iff.mp hw'
    obtain ⟨hbefore, hres⟩ := ContentStore.logWal_walError _ _ hnone
    obtain ⟨m, hrec, ht⟩ := h.tracked hbefore wal hw
    obtain ⟨hbytes, hsize⟩ := append_ok (Prod.ext (hres wal hw) rfl)
    have hvalid := Record.valid_of_size hsize
    refine ⟨applyRecord m record, ?_, htracks m hvalid ht⟩
    rw [hbytes]
    exact hrec.append hvalid
  durable := hdurable

/-- A step that flushes the log. -/
theorem Sound.flush (h : Sound sid w) (sync : Bool) (append : AppendPhase) (bulk : BulkPhase)
    (ha : append.Addressed) (hb : bulk.Addressed)
    (htracks : ∀ m, Tracks sid m w.receiver w.append w.bulk →
      Tracks sid m w.receiver append bulk)
    (hdurable : ∀ root, append = .exposed root →
      (w.receiver.store.flushWal sync).2.Durable sid root) :
    Sound sid ⟨{ w.receiver with store := (w.receiver.store.flushWal sync).2 },
      append, bulk⟩ where
  append := ha
  bulk := hb
  attached := (ContentStore.flushWal_isSome _ sync).trans h.attached
  tracked := by
    intro hnone wal' hw'
    obtain ⟨wal, hw⟩ := Option.isSome_iff_exists.mp h.attached
    obtain ⟨w', hflushed, hbytes, ⟨-, hbefore, -, -⟩ | ⟨-, herr, -⟩⟩ :=
      ContentStore.flushWal_wal hw sync
    · cases hflushed.symm.trans hw'
      obtain ⟨m, hrec, ht⟩ := h.tracked hbefore wal hw
      refine ⟨m, hbytes ▸ hrec, ?_⟩
      have ht' := htracks m ht
      exact ⟨by simpa [ContentStore.contains] using ht'.stored, by simpa using ht'.log,
        ht'.complete, ht'.settled, by simpa [ContentStore.contains] using ht'.present, ht'.root⟩
    · exact absurd hnone herr
  durable := hdurable

/-- The exposed root of a successful flush is the one that the log recovers. -/
theorem Sound.durable_of_flushing (h : Sound sid w) {sync : Bool} {root : MerkleRoot}
    (hphase : w.append = .flushing root) {u : Unit}
    (hok : (w.receiver.store.flushWal sync).1 = .ok u) :
    (w.receiver.store.flushWal sync).2.Durable sid root := by
  obtain ⟨wal, hw⟩ := Option.isSome_iff_exists.mp h.attached
  obtain ⟨w', -, -, ⟨-, hbefore, -, -⟩ | ⟨⟨e, herr⟩, -, -⟩⟩ := ContentStore.flushWal_wal hw sync
  · obtain ⟨m, hrec, ht⟩ := h.tracked hbefore wal hw
    have hsettled := ht.settled (by rw [hphase]; rfl)
    have hids : ∀ id ∈ (logOf m.sessions sid).ids, (m.blocks.get? id).isSome := by
      intro id hid
      exact (ht.complete id hid).resolve_right (by simp [hsettled])
    rw [← ht.root root hphase]
    exact ContentStore.durable_of_flush hw hrec hids hok
  · rw [herr] at hok
    cases hok

/-- A step of the APPEND that moves between phases with nothing in hand. -/
theorem Sound.idle (h : Sound sid w) {p q : AppendPhase} (hp : w.append = p)
    (hun : p.unlogged = none) (hext : ∀ log, p.extend log = log)
    (hext' : ∀ log, q.extend log = log) (hq : q.Addressed) (hacc : q.accepted = false)
    (hcur : q.current = none) (hexp : ∀ root, q ≠ .exposed root) :
    Sound sid ⟨w.receiver, q, w.bulk⟩ := by
  refine h.keep rfl rfl hq h.bulk (fun m ht => ?_) (fun root hroot => absurd hroot (hexp root))
  rw [hp] at ht
  refine ht.move hun ?_ (by simp [hacc]) (by simp [hcur]) ?_
  · rw [hext, hext']
  · rintro root rfl
    cases hacc

/-- The locked checks of an APPEND. -/
theorem Sound.lock {a : AppendFrame} (h : Sound a.sessionId w) {available : List BlockId}
    {resolved : List Resolved} (hphase : w.append = .validating available [] resolved) :
    Sound a.sessionId ⟨(w.receiver.lockAppend a resolved).1,
      (w.receiver.lockAppend a resolved).2, w.bulk⟩ := by
  have haddr : ∀ x ∈ resolved, x.Addressed := by
    have := h.append
    rwa [hphase] at this
  have htouch : ∀ m, Tracks a.sessionId m w.receiver w.append w.bulk →
      Tracks a.sessionId m (w.receiver.touch a.sessionId) (.validating available [] resolved)
        w.bulk := by
    intro m ht
    rw [hphase] at ht
    exact ht.congr rfl (w.receiver.touch_session _ _)
  unfold Receiver.lockAppend
  simp only
  rw [← Receiver.touch]
  split_ifs with hpend hbase htarget
  · refine h.keep rfl rfl trivial h.bulk (fun m ht => ?_) (by simp)
    exact (htouch m ht).move rfl rfl (by simp [AppendPhase.accepted])
      (by simp [AppendPhase.current]) (by simp)
  · refine h.keep rfl rfl trivial h.bulk (fun m ht => ?_) (by simp)
    refine (htouch m ht).move rfl rfl (fun _ => not_not.mp hpend) (by simp [AppendPhase.current]) ?_
    intro root hroot
    cases hroot
    exact congrArg SessionLog.root (htouch m ht).log.symm
  · refine h.keep rfl rfl trivial h.bulk (fun m ht => ?_) (by simp)
    exact (htouch m ht).move rfl rfl (by simp [AppendPhase.accepted])
      (by simp [AppendPhase.current]) (by simp)
  · refine h.keep rfl rfl haddr h.bulk (fun m ht => ?_) (by simp)
    exact (htouch m ht).move rfl rfl (fun _ => not_not.mp hpend) (by simp [AppendPhase.current])
      (by simp)

variable [Zstd]

/-- A step of the check that all references are known. -/
theorem Sound.stepValidating {a : AppendFrame} {available : List BlockId}
    {rest resolved : List Resolved} (h : Sound a.sessionId w)
    (hphase : w.append = .validating available rest resolved) (sync : Bool) :
    Sound a.sessionId ⟨(w.receiver.stepAppend sync a (.validating available rest resolved)).1,
      (w.receiver.stepAppend sync a (.validating available rest resolved)).2, w.bulk⟩ := by
  have haddr := h.append
  rw [hphase] at haddr
  cases rest with
  | nil => exact h.lock hphase
  | cons item rest =>
      cases item with
      | inline id block =>
          simp only [Receiver.stepAppend]
          exact h.idle hphase rfl (fun _ => rfl) (fun _ => rfl) haddr rfl rfl (by simp)
      | ref id =>
          simp only [Receiver.stepAppend]
          split_ifs
          · exact h.idle hphase rfl (fun _ => rfl) (fun _ => rfl) haddr rfl rfl (by simp)
          · exact h.idle hphase rfl (fun _ => rfl) (fun _ => rfl) trivial rfl rfl (by simp)

/-- A step that takes the next block, or ends the application. -/
theorem Sound.stepApplying {a : AppendFrame} {rest : List Resolved} (h : Sound a.sessionId w)
    (hphase : w.append = .applying rest) (sync : Bool) :
    Sound a.sessionId ⟨(w.receiver.stepAppend sync a (.applying rest)).1,
      (w.receiver.stepAppend sync a (.applying rest)).2, w.bulk⟩ := by
  have haddr := h.append
  rw [hphase] at haddr
  cases rest with
  | nil =>
      simp only [Receiver.stepAppend]
      refine h.keep rfl rfl trivial h.bulk (fun m ht => ?_) (by simp)
      rw [hphase] at ht
      refine ht.move rfl rfl (fun _ => ht.settled rfl) (by simp [AppendPhase.current]) ?_
      intro root hroot
      cases hroot
      exact congrArg SessionLog.root ht.log.symm
  | cons item rest =>
      have hitem := haddr item List.mem_cons_self
      have hrest : ∀ x ∈ rest, x.Addressed := fun x hx => haddr x (List.mem_cons_of_mem _ hx)
      cases item with
      | inline id block =>
          simp only [Receiver.stepAppend]
          refine h.keep (ContentStore.storeBlock_wal _ _ _) (ContentStore.storeBlock_walError _ _ _)
            ⟨hitem, fun _ => ⟨id, block, rfl⟩, hrest⟩ h.bulk (fun m ht => ?_) (by simp)
          rw [hphase] at ht
          exact ht.storeInline id block rest
      | ref id =>
          simp only [Receiver.stepAppend]
          split_ifs with hid
          · refine h.keep rfl rfl ⟨hitem, by simp, hrest⟩ h.bulk (fun m ht => ?_) (by simp)
            rw [hphase] at ht
            refine ht.move rfl rfl (fun _ => ht.settled rfl) ?_ (by simp)
            intro k hk
            cases hk
            exact hid
          · exact h.idle hphase rfl (fun _ => rfl) (fun _ => rfl) trivial rfl rfl (by simp)

/-- The flush of the APPEND: its root is exposed only when it is durable. -/
theorem Sound.stepFlushing {a : AppendFrame} {root : MerkleRoot} (h : Sound a.sessionId w)
    (hphase : w.append = .flushing root) (sync : Bool) :
    Sound a.sessionId ⟨(w.receiver.stepAppend sync a (.flushing root)).1,
      (w.receiver.stepAppend sync a (.flushing root)).2, w.bulk⟩ := by
  simp only [Receiver.stepAppend]
  cases hflush : w.receiver.store.flushWal sync with
  | mk result store =>
      cases result with
      | error e =>
          have hsound := h.flush sync (.unflushed e) w.bulk trivial h.bulk
            (fun m ht => by
              rw [hphase] at ht
              exact ht.move rfl rfl (by simp [AppendPhase.accepted])
                (by simp [AppendPhase.current]) (by simp)) (by simp)
          rwa [hflush] at hsound
      | ok u =>
          have hsound := h.flush sync (.exposed root) w.bulk trivial h.bulk
            (fun m ht => by
              rw [hphase] at ht
              exact ht.move rfl rfl (by simp [AppendPhase.accepted])
                (by simp [AppendPhase.current]) (by simp))
            (fun root' hroot => by
              cases hroot
              exact h.durable_of_flushing hphase (congrArg Prod.fst hflush))
          rwa [hflush] at hsound

/-- A step of the APPEND that does not overtake the BULK. -/
theorem Sound.stepAppend {a : AppendFrame} (h : Sound a.sessionId w)
    (horder : ¬ w.Overtakes .append) (sync : Bool) :
    Sound a.sessionId ⟨(w.receiver.stepAppend sync a w.append).1,
      (w.receiver.stepAppend sync a w.append).2, w.bulk⟩ := by
  have haddr := h.append
  cases hphase : w.append with
  | resolving =>
      simp only [Receiver.stepAppend]
      cases hres : a.blocks.mapM (Receiver.resolveBlock w.receiver.compressor) with
      | error e =>
          exact h.idle hphase rfl (fun _ => rfl) (fun _ => rfl) trivial rfl rfl (by simp)
      | ok resolved =>
          exact h.idle hphase rfl (fun _ => rfl) (fun _ => rfl) (Receiver.resolve_addressed hres)
            rfl rfl (by simp)
  | validating available rest resolved => exact h.stepValidating hphase sync
  | applying rest => exact h.stepApplying hphase sync
  | pushing item newly rest =>
      rw [hphase] at haddr
      simp only [Receiver.stepAppend]
      refine h.keep (push_wal item _).1 (push_wal item _).2 haddr h.bulk (fun m ht => ?_) (by simp)
      rw [hphase] at ht
      exact ht.push
  | logging item newly rest =>
      rw [hphase] at haddr
      simp only [Receiver.stepAppend]
      refine h.log haddr.2.2 h.bulk (fun m hvalid ht => ?_) (by simp)
      rw [hphase] at ht
      refine ht.logEntry haddr hvalid ?_
      rintro rfl hb
      exact horder (by simpa [Overtakes, hphase] using hb)
  | flushing root => exact h.stepFlushing hphase sync
  | exposed root =>
      simp only [Receiver.stepAppend, ← hphase]
      exact h
  | refused e =>
      simp only [Receiver.stepAppend, ← hphase]
      exact h
  | unflushed e =>
      simp only [Receiver.stepAppend, ← hphase]
      exact h

/-- Decoding keeps a decoder and leaves nothing in hand. -/
theorem decodeGeneration_spec (r : Receiver) (b : BulkFrame) :
    ∃ d, (r.decodeGeneration b).1 = r.keepDecoder b d ∧
      (r.decodeGeneration b).2.Addressed ∧ (r.decodeGeneration b).2.unlogged = none := by
  unfold Receiver.decodeGeneration
  rcases (r.decoderOf b).addAll b.symbols with ⟨e | u, d⟩
  · exact ⟨d, rfl, trivial, rfl⟩
  · simp only
    rcases d.decode with ⟨e | symbols, d⟩
    · cases e <;> exact ⟨d, rfl, trivial, rfl⟩
    · simp only
      cases hrec : (Receiver.parseRecords symbols.flatten).mapM
          (Receiver.recoverBlock r.compressor) with
      | error e => exact ⟨d, rfl, trivial, rfl⟩
      | ok recovered =>
          refine ⟨d, rfl, ?_, rfl⟩
          exact Receiver.recovered_addressed hrec

omit [Zstd] in
/-- A step of the BULK that changes only the bookkeeping of its own session. -/
theorem Sound.bookkeep (h : Sound sid w) {r : Receiver} {bulk : BulkPhase}
    (hstore : r.store = w.receiver.store) (hsession : r.session sid = w.receiver.session sid)
    (hb : bulk.Addressed) (hun : w.bulk.unlogged = none) :
    Sound sid ⟨r, w.append, bulk⟩ := by
  refine h.keep (by rw [hstore]) (by rw [hstore]) h.append hb (fun m ht => ?_) (fun _ hr => hr)
  refine ht.beside hsession (by rw [hstore]) rfl (fun _ hm => hm) (by rw [hstore]; exact fun _ hc => hc)
    (by rw [hstore]; exact fun _ hc => Or.inl hc) ?_
  intro id hid
  rw [hun] at hid
  cases hid

omit [Zstd] in
/-- The block-map step of the BULK: a new block is the one it has yet to log. -/
theorem Sound.storeContent (h : Sound sid w) {ids : List BlockId} {block : Block} {id : BlockId}
    {rest : List (Block × BlockId)} (hphase : w.bulk = .storing ids ((block, id) :: rest)) :
    Sound sid ⟨{ w.receiver with store := (w.receiver.store.storeBlock block id).1 }, w.append,
      if (w.receiver.store.storeBlock block id).2 then .logging ids block id rest
      else .storing ids rest⟩ := by
  have haddr := h.bulk
  rw [hphase] at haddr
  have hrest : ∀ b ∈ rest, b.2 = b.1.blockId := fun b hb => haddr b (List.mem_cons_of_mem _ hb)
  refine h.keep (ContentStore.storeBlock_wal _ _ _) (ContentStore.storeBlock_walError _ _ _)
    h.append ?_ (fun m ht => ?_) (fun _ hr => hr)
  · split_ifs
    · exact ⟨haddr _ List.mem_cons_self, hrest⟩
    · exact hrest
  · refine ht.beside rfl (ContentStore.storeBlock_sessions _ _ _) rfl (fun _ hm => hm) ?_ ?_ ?_
    · intro k hk
      obtain ⟨c, hc⟩ := ContentStore.contains_iff.mp hk
      exact ContentStore.contains_iff.mpr
        ⟨c, by simpa using putBlock_preserves id block hc⟩
    · intro k hk
      simp only [ContentStore.contains, ContentStore.storeBlock_blocks, putBlock_get?] at hk
      by_cases hkid : k = id
      · subst hkid
        cases hold : w.receiver.store.blocks.get? k with
        | none =>
            right
            simp [hold, BulkPhase.unlogged]
        | some c => exact Or.inl (by simp [ContentStore.contains, hold])
      · rw [if_neg hkid] at hk
        exact Or.inl hk
    · intro k hk
      rw [hphase] at hk
      cases hk

omit [Zstd] in
/-- The log step of the BULK. -/
theorem Sound.logContent (h : Sound sid w) {ids : List BlockId} {block : Block} {id : BlockId}
    {rest : List (Block × BlockId)} (hphase : w.bulk = .logging ids block id rest)
    (s : SessionId) :
    Sound sid ⟨{ w.receiver with
      store := w.receiver.store.logWal (·.append (.content s (canonicalBytes block))) },
      w.append, .storing ids rest⟩ := by
  have haddr := h.bulk
  rw [hphase] at haddr
  obtain ⟨hid, hrest⟩ := haddr
  refine h.log h.append hrest (fun m hvalid ht => ?_)
    (fun root hroot => (h.durable root hroot).logContent s _)
  obtain ⟨hsessions, hblocks⟩ := applyRecord_content m s (canonicalBytes block)
  refine ht.beside rfl (ContentStore.logWal_sessions _ _) hsessions hblocks ?_ ?_ ?_
  · intro k hk
    simpa [ContentStore.contains] using hk
  · intro k hk
    left
    simpa [ContentStore.contains] using hk
  · intro k hk
    rw [hphase] at hk
    cases hk
    left
    have hparse := ContentStore.fromCanonical_of_record hvalid.size
    simp only [applyRecord, hparse, hid]
    exact putBlock_self_isSome _ _ _

/-- A step of the BULK of another session. -/
theorem Sound.stepBulk (h : Sound sid w) {b : BulkFrame} (hne : sid ≠ b.sessionId) (sync : Bool)
    (locked : Bool) :
    Sound sid ⟨(w.receiver.stepBulk sync b locked w.bulk).1, w.append,
      (w.receiver.stepBulk sync b locked w.bulk).2⟩ := by
  have hother : ∀ st, (w.receiver.setSession b.sessionId st).session sid =
      w.receiver.session sid := by
    intro st
    rw [Receiver.session_setSession, if_neg hne]
  have hkeep : ∀ d, (w.receiver.keepDecoder b d).session sid = w.receiver.session sid :=
    fun d => hother _
  cases hphase : w.bulk with
  | fetching =>
      simp only [Receiver.stepBulk]
      split_ifs
      · rw [← hphase]
        exact h
      · exact h.bookkeep rfl (hkeep _) trivial (by rw [hphase]; rfl)
  | decoding =>
      obtain ⟨d, hr, haddr, hun⟩ := decodeGeneration_spec w.receiver b
      simp only [Receiver.stepBulk]
      refine h.bookkeep (by rw [hr]; rfl) ?_ haddr (by rw [hphase]; rfl)
      rw [hr]
      exact hkeep d
  | storing ids rest =>
      cases rest with
      | nil =>
          simp only [Receiver.stepBulk]
          split_ifs
          · rw [← hphase]
            exact h
          · refine h.bookkeep ?_ ?_ trivial (by rw [hphase]; rfl)
            · unfold Receiver.retireGeneration
              simp only
              split_ifs <;> rfl
            · unfold Receiver.retireGeneration
              simp only
              split_ifs <;> exact hother _
      | cons item rest =>
          obtain ⟨block, id⟩ := item
          exact h.storeContent hphase
  | logging ids block id rest => exact h.logContent hphase b.sessionId
  | flushing completion =>
      have hflush : ∀ bulk : BulkPhase, bulk.Addressed →
          Sound sid ⟨{ w.receiver with store := (w.receiver.store.flushWal sync).2 }, w.append,
            bulk⟩ := by
        intro bulk hb
        refine h.flush sync w.append bulk h.append hb (fun m ht => ?_)
          (fun root hroot => (h.durable root hroot).flushWal sync)
        refine ht.beside rfl rfl rfl (fun _ hm => hm) (fun _ hc => hc) (fun _ hc => Or.inl hc) ?_
        intro id hid
        rw [hphase] at hid
        cases hid
      simp only [Receiver.stepBulk]
      cases hres : w.receiver.store.flushWal sync with
      | mk result store =>
          rw [hres] at hflush
          cases result with
          | error e => exact hflush (.unflushed e) trivial
          | ok u => exact hflush (.answered completion) trivial
  | answered completion =>
      simp only [Receiver.stepBulk, ← hphase]
      exact h
  | refused e =>
      simp only [Receiver.stepBulk, ← hphase]
      exact h
  | unflushed e =>
      simp only [Receiver.stepBulk, ← hphase]
      exact h

theorem Sound.act {a : AppendFrame} {b : BulkFrame} (h : Sound a.sessionId w)
    (hne : a.sessionId ≠ b.sessionId) (sync : Bool) {turn : Turn} (horder : ¬ w.Overtakes turn) :
    Sound a.sessionId (w.act sync a b turn) := by
  cases turn with
  | append => exact h.stepAppend horder sync
  | bulk => exact h.stepBulk hne sync w.append.locksSessions

theorem Sound.run {a : AppendFrame} {b : BulkFrame} (h : Sound a.sessionId w)
    (hne : a.sessionId ≠ b.sessionId) (sync : Bool) {turns : List Turn}
    (horder : w.Ordered sync a b turns) : Sound a.sessionId (w.run sync a b turns) := by
  induction turns generalizing w with
  | nil => exact h
  | cons turn rest ih => exact ih (h.act hne sync horder.1) horder.2

end Step

end Race

namespace Receiver

variable [Blake3] [Zstd]

/-- The log of every receiver that a run reaches recovers its maps until a write fails. -/
theorem Reaches.recoverable {P : Receiver → Action → Prop} {r : Receiver} (h : Reaches P r) :
    r.store.Recoverable := by
  induction h with
  | volatile c => exact ContentStore.new_recoverable
  | durable hopen c => exact ContentStore.withWal_recoverable hopen
  | @step r r' action _ _ hact ih =>
      cases action with
      | frame f =>
          cases hact
          obtain ⟨ops, haff, -⟩ := r.handleFrame_affects f
          rw [haff.store]
          exact ih.performAll ops
      | flush sync =>
          cases hact
          exact ih.flushWal sync
      | restart cut writes flushes =>
          obtain ⟨store, rfl, rfl | ⟨w, -, hopen⟩⟩ := act_restart hact
          · exact ContentStore.new_recoverable
          · exact ContentStore.withWal_recoverable hopen

end Receiver

namespace Race

variable [Blake3] [Zstd]

/-- A reachable receiver with a log, and two requests that have not started. -/
theorem sound_start {r : Receiver} (hr : Receiver.Reaches (fun _ _ => True) r)
    (hwal : r.store.wal.isSome) (sid : SessionId) : (start r).Sound sid where
  append := trivial
  bulk := trivial
  attached := hwal
  tracked := by
    intro hnone wal hw
    refine ⟨r.store.maps, (hr.recoverable wal hw).2 hnone, ?_, rfl, hr.wellFormed.complete sid,
      by simp [start, AppendPhase.accepted], by simp [start, AppendPhase.current], by simp [start]⟩
    intro id hid
    exact Or.inl hid
  durable := by simp [start]

/-- In every run of an APPEND and a BULK of different sessions in which the APPEND never
logs a reference ahead of its content, the root of an exposed ACK survives every crash. -/
theorem acked_append_survives {r : Receiver} (hr : Receiver.Reaches (fun _ _ => True) r)
    (hwal : r.store.wal.isSome) (sync : Bool) (a : AppendFrame) (b : BulkFrame)
    (hne : a.sessionId ≠ b.sessionId) (turns : List Turn)
    (horder : (start r).Ordered sync a b turns) {root : MerkleRoot}
    (hack : ((start r).run sync a b turns).append = .exposed root) :
    ((start r).run sync a b turns).receiver.store.Survives a.sessionId root :=
  (((sound_start hr hwal a.sessionId).run hne sync horder).durable root hack).survives

omit [Zstd] in
/-- A flushed log of nothing but a reference gives no session a root. -/
theorem not_survives_of_reference {st : ContentStore} {sid : SessionId} {id : BlockId}
    {root : MerkleRoot}
    (hlog : st.wal.map (fun wal => wal.bytes.take wal.flushed) =
      some (Record.reference sid id).encode) (hroot : rootZero ≠ root) :
    ¬ st.Survives sid root := by
  rintro ⟨wal, hwal, hcrash⟩
  obtain ⟨recovered, hopen, hsame, -⟩ := hcrash wal.flushed le_rfl (Or.inr rfl) [] []
  rw [hwal] at hlog
  have hbytes : wal.bytes.take wal.flushed = (Record.reference sid id).encode :=
    Option.some.inj hlog
  -- replay drops the reference, so the session is unknown
  have hsize : (Record.reference sid id).payload.length ≤ maxRecordBytes := by
    simp [Record.payload, id.size, maxRecordBytes]
  obtain ⟨st', hreplay, hmaps⟩ := recovers_nil.append (Record.valid_of_size hsize)
  rw [List.nil_append] at hreplay
  rw [hbytes, ContentStore.withWal, hreplay] at hopen
  cases hopen
  have hsessions : st'.sessions = Maps.empty.sessions := congrArg Maps.sessions hmaps
  have hzero : (logOf st'.sessions sid).root = rootZero := by
    rw [hsessions]
    rfl
  exact hroot (hzero.symm.trans hsame)

end Race

/-! ## Two schedules of the same requests -/

namespace Race

/-- The compressed canonical bytes of a block as a BULK frame of a single symbol. -/
private def bulkOf (sid : SessionId) (block : Block) : BulkFrame :=
  let stored := 0 :: canonicalBytes block
  let flat := Lib.Bytes.toLe 4 stored.length ++ stored
  ⟨sid, 0, 1, UInt32.ofNat flat.length, [[1, 0, 0, 0, 1] ++ flat]⟩

/-- The block as an inline entry on a fresh session. -/
private def appendOf (sid : SessionId) (block : Block) : AppendFrame :=
  ⟨sid, rootZero, [.inline ⟨block.kind, block.seq, 0 :: canonicalBytes block⟩]⟩

private def hello : Block := ⟨.message, 1, [7]⟩

private def openedEmpty : ContentStore := { ContentStore.new with wal := some ⟨[], 0, [], []⟩ }

private theorem openedEmpty_opens [Blake3] :
    ContentStore.withWal [] [] [] = .ok openedEmpty := by
  rw [ContentStore.withWal, Wal.replay, Wal.replayFrom_nil]
  rfl

/-- The content is logged just before the reference to it. -/
private def behind : List Turn :=
  List.replicate 3 Turn.bulk ++ List.replicate 5 Turn.append ++ [Turn.bulk] ++
    List.replicate 3 Turn.append

/-- The reference is logged while the content is still to be logged. -/
private def ahead : List Turn := List.replicate 3 Turn.bulk ++ List.replicate 8 Turn.append

private theorem behind_facts :
    letI := prefixHash
    letI := storedZstd
    let begun := start (Receiver.new openedEmpty Compressor.default)
    decide (begun.Ordered true (appendOf 5 hello) (bulkOf 7 hello) behind) = true ∧
      (begun.run true (appendOf 5 hello) (bulkOf 7 hello) behind).append =
        .exposed (rootOver rootZero [hello.blockId]) := by
  decide +kernel

private theorem ahead_facts :
    letI := prefixHash
    letI := storedZstd
    let w := (start (Receiver.new openedEmpty Compressor.default)).run true (appendOf 5 hello)
      (bulkOf 7 hello) ahead
    w.append = .exposed (rootOver rootZero [hello.blockId]) ∧
      w.receiver.store.wal.map (fun wal => wal.bytes.take wal.flushed) =
        some (Record.reference 5 hello.blockId).encode := by
  decide +kernel

/-- The BULK logs its content just before the APPEND of the same block logs its
reference. -/
theorem acked_append_survives_behind_content :
    letI := prefixHash
    letI := storedZstd
    ((start (Receiver.new openedEmpty Compressor.default)).run true (appendOf 5 hello)
      (bulkOf 7 hello) behind).receiver.store.Survives (appendOf 5 hello).sessionId
        (rootOver rootZero [hello.blockId]) :=
  @acked_append_survives prefixHash storedZstd _
    (@Receiver.Reaches.durable prefixHash storedZstd _ _ _ _
      (@openedEmpty_opens prefixHash) Compressor.default) rfl true _ _ (by decide) behind
    (of_decide_eq_true behind_facts.1) _ behind_facts.2

/-- The APPEND logs its reference to a block that the BULK has stored and not yet logged:
replaying the flushed log loses the acknowledged root. -/
theorem overtaken_content_loses_ack :
    letI := prefixHash
    letI := storedZstd
    ¬ ∀ r, Receiver.Reaches (fun _ _ => True) r → r.store.wal.isSome →
      ∀ (sync : Bool) (a : AppendFrame) (b : BulkFrame), a.sessionId ≠ b.sessionId →
      ∀ (turns : List Turn) (root : MerkleRoot),
        ((start r).run sync a b turns).append = .exposed root →
        ((start r).run sync a b turns).receiver.store.Survives a.sessionId root := by
  intro hall
  have hroot : rootZero ≠ @rootOver prefixHash rootZero [@Block.blockId prefixHash hello] := by
    decide
  refine @not_survives_of_reference prefixHash _ _ _ _ ahead_facts.2 hroot ?_
  exact hall _ (@Receiver.Reaches.durable prefixHash storedZstd _ _ _ _
    (@openedEmpty_opens prefixHash) Compressor.default) rfl true _ _ (by decide) ahead _
    ahead_facts.1

end Race

end Dlr
