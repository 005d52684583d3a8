import Dlr.Core.Replay
import Mathlib.Order.Bounds.Basic

/-!
# Crash consistency of the write-ahead log

A run of store operations and the log it writes are related by one invariant:
the log is a sequence of valid records and the store's maps are the fold of
their meanings. A crash leaves a byte prefix of the log; replaying it restores
the maps after the longest prefix of operations whose records survived.
-/

namespace Dlr.Core

open Lib Lib.Bytes Wal

/-- The mutations of a store. Inserted blocks carry their own address; the
caller may hand over the canonical bytes it has already built. -/
inductive StoreOp
  | insertWithCanonical (sid : SessionId) (block : Block) (given : Bool)
  | reference (sid : SessionId) (id : BlockId)
  | seedSession (sid : SessionId) (ids : List BlockId) (root : MerkleRoot)
  | storeContentWithId (sid : SessionId) (block : Block)

/-- The session an operation is made for. -/
def StoreOp.sid : StoreOp → SessionId
  | insertWithCanonical sid _ _ => sid
  | reference sid _ => sid
  | seedSession sid _ _ => sid
  | storeContentWithId sid _ => sid

namespace ContentStore

variable [Blake3]

/-- One operation on the store, forgetting its result. -/
def perform (st : ContentStore) : StoreOp → ContentStore
  | .insertWithCanonical sid block given =>
      (st.insertWithCanonical sid block block.blockId
        (if given then some (canonicalBytes block) else none)).1
  | .reference sid id => (st.reference sid id).1
  | .seedSession sid ids root => st.seedSession sid ids root
  | .storeContentWithId sid block => (st.storeContentWithId sid block block.blockId).1

def performAll (st : ContentStore) (ops : List StoreOp) : ContentStore := ops.foldl perform st

/-- Open a store on an existing log file: replay it, cut off an incomplete tail
and append after it. The two lists are the outcomes of later writes and flushes. -/
def withWal (file : List UInt8) (writes : List (Option (Nat × IoError)))
    (flushes : List (Option IoError)) : Except IoError ContentStore :=
  match replay file new with
  | .error e => .error e
  | .ok (st, validLen) =>
      .ok { st with wal := some ⟨file.take validLen, validLen, writes, flushes⟩ }

/-- The bytes of the attached log. -/
def walBytes (st : ContentStore) : List UInt8 := (st.wal.map Wal.bytes).getD []

/-- The record an operation logs in a given state, if any. -/
def loggedRecord (st : ContentStore) : StoreOp → Option Record
  | .insertWithCanonical sid block _ =>
      if (st.blocks.get? block.blockId).isNone then
        some (.insert sid (canonicalBytes block))
      else
        some (.reference sid block.blockId)
  | .reference sid id => if (st.blocks.get? id).isSome then some (.reference sid id) else none
  | .seedSession sid ids root => some (.seed sid ids root)
  | .storeContentWithId sid block =>
      if (st.blocks.get? block.blockId).isNone then
        some (.content sid (canonicalBytes block))
      else none

end ContentStore

/-! Records written by the operations are read back as themselves. -/

namespace Wal

/-- Skipping `i` digests of a concatenation leaves the later ones. -/
private theorem drop_flatMap_bytes (ids : List BlockId) (i : Nat) (rest : List UInt8)
    (hi : i ≤ ids.length) :
    (ids.flatMap Digest.bytes ++ rest).drop (i * 32) =
      (ids.drop i).flatMap Digest.bytes ++ rest := by
  induction i generalizing ids with
  | zero => simp
  | succ i ih =>
      cases ids with
      | nil => simp at hi
      | cons id ids =>
          have hsplit : (i + 1) * 32 = id.bytes.length + i * 32 := by
            rw [id.size]
            omega
          rw [List.flatMap_cons, List.append_assoc, hsplit, List.drop_append,
            List.drop_eq_nil_of_le (by omega), Nat.add_sub_cancel_left, List.nil_append,
            ih ids (by simpa using hi)]
          rfl

private theorem slice_seed (ids : List BlockId) (root : MerkleRoot) (i : Nat)
    (hi : i ≤ ids.length) (count : List UInt8) (hc : count.length = 4) :
    Digest.ofSlice (slice (count ++ (ids.flatMap Digest.bytes ++ root.bytes))
      (4 + i * 32) (4 + i * 32 + 32)) = (ids.drop i).headD root := by
  have hdrop : (count ++ (ids.flatMap Digest.bytes ++ root.bytes)).drop (4 + i * 32) =
      (ids.drop i).flatMap Digest.bytes ++ root.bytes := by
    rw [List.drop_append, List.drop_eq_nil_of_le (by omega), List.nil_append, hc,
      Nat.add_sub_cancel_left, drop_flatMap_bytes ids i _ hi]
  rw [slice, hdrop, Nat.add_sub_cancel_left]
  cases hd : ids.drop i with
  | nil =>
      simp only [List.flatMap_nil, List.nil_append, List.headD_nil]
      rw [List.take_of_length_le (by rw [root.size]), Digest.ofSlice_bytes]
  | cons id rest =>
      simp only [List.flatMap_cons, List.append_assoc, List.headD_cons]
      rw [List.take_left' id.size, Digest.ofSlice_bytes]

private theorem decode_seed (sid : SessionId) {ids : List BlockId} (root : MerkleRoot)
    (h : ids.length * 32 + 36 ≤ maxRecordBytes) :
    decodeRecord sid varSeed (Record.seed sid ids root).payload =
      some (Record.seed sid ids root) := by
  have hmax : ids.length * 32 + 36 ≤ 536870912 := by simpa [maxRecordBytes] using h
  have hcount : ofLe ((Record.seed sid ids root).payload.take 4) = ids.length := by
    rw [Record.payload, List.take_left' (by simp), ofLe_toLe (by norm_num; omega)]
  have hneed : seedNeed ids.length = some (ids.length * 32 + 36) := by
    rw [seedNeed, Lib.Machine.checkedMul_of_le (by simp only [Lib.Machine.usizeMax]; omega)]
    exact Lib.Machine.checkedAdd_of_le (by simp only [Lib.Machine.usizeMax]; omega)
  have hids : seedIds (Record.seed sid ids root).payload ids.length = ids := by
    apply List.ext_getElem
    · simp [seedIds]
    · intro i h₁ h₂
      simp only [seedIds, List.getElem_map, List.getElem_range, Record.payload]
      rw [slice_seed ids root i h₂.le _ (by simp), List.drop_eq_getElem_cons h₂]
      rfl
  have hroot : seedRoot (Record.seed sid ids root).payload ids.length = root := by
    rw [seedRoot, Record.payload, slice_seed ids root _ le_rfl _ (by simp)]
    simp
  simp only [decodeRecord, varInsert, varReference, varSeed, hcount, length_seed_payload,
    hneed, hids, hroot]
  simp

/-- Every record within the size limit is read back as itself. -/
theorem Record.valid_of_size {r : Record} (h : r.payload.length ≤ maxRecordBytes) :
    r.Valid := by
  refine ⟨h, ?_⟩
  cases r with
  | insert sid canonical => simp [decodeRecord, variant, Record.sid, payload]
  | reference sid id =>
      simp [decodeRecord, variant, Record.sid, payload, varInsert, varReference, id.size]
  | seed sid ids root => exact decode_seed sid root (by rwa [length_seed_payload] at h)
  | content sid canonical =>
      simp [decodeRecord, variant, Record.sid, payload, varInsert, varReference, varSeed,
        varContent]

end Wal

namespace ContentStore

variable [Blake3]

/-- The log is a sequence of valid records and the maps are their meaning. -/
structure Logged (st : ContentStore) (rs : List Record) : Prop where
  attached : st.wal.isSome
  bytes : st.walBytes = rs.flatMap Record.encode
  valid : ∀ r ∈ rs, r.Valid
  maps : st.maps = rs.foldl applyRecord Maps.empty

omit [Blake3] in
/-- An append that left the latch empty put exactly its record into the log. -/
theorem logWal_spec {st : ContentStore} {r : Record} (hw : st.wal.isSome)
    (hok : (st.logWal (·.append r)).walError = none) :
    st.walError = none ∧ (st.logWal (·.append r)).walBytes = st.walBytes ++ r.encode ∧
      r.Valid := by
  obtain ⟨w, hw⟩ := Option.isSome_iff_exists.mp hw
  obtain ⟨hnone, hres⟩ := logWal_walError st (·.append r) hok
  obtain ⟨hbytes, hsize⟩ := append_ok (Prod.ext (hres w hw) rfl)
  refine ⟨hnone, ?_, Record.valid_of_size hsize⟩
  simp [walBytes, logWal_wal, hw, hbytes]

omit [Blake3] in
/-- Canonical bytes within the record limit parse back to their block. -/
theorem fromCanonical_of_record {b : Block} (h : (canonicalBytes b).length ≤ maxRecordBytes) :
    fromCanonical (canonicalBytes b) = .ok b := by
  apply fromCanonical_canonicalBytes
  simp only [length_canonicalBytes, maxRecordBytes] at h
  simp only [maxBlockPayloadBytes]
  omega

/-- Log the record of an operation, if it has one. -/
def logRecord (st : ContentStore) : Option Record → ContentStore
  | none => st
  | some r => st.logWal (·.append r)

/-- An operation first changes the maps and then logs its record, which means the
same change. -/
theorem perform_logs (st : ContentStore) (op : StoreOp) :
    ∃ st₁ : ContentStore, st₁.wal = st.wal ∧ st₁.walError = st.walError ∧
      st.perform op = st₁.logRecord (st.loggedRecord op) ∧
      ((∀ r ∈ st.loggedRecord op, r.Valid) →
        st₁.maps = (st.loggedRecord op).toList.foldl applyRecord st.maps) := by
  have hparse : ∀ {block : Block} (r : Record), r.payload = canonicalBytes block → r.Valid →
      fromCanonical (canonicalBytes block) = .ok block := by
    intro block r hpayload hvalid
    exact fromCanonical_of_record (hpayload ▸ hvalid.size)
  cases op with
  | insertWithCanonical sid block given =>
      have hc : (if given then some (canonicalBytes block) else none).getD
          (canonicalBytes block) = canonicalBytes block := by cases given <;> rfl
      simp only [perform, loggedRecord, insertWithCanonical, hc, storeBlock_newly,
        storeBlock_sessions]
      cases hg : st.blocks.get? block.blockId with
      | none =>
          have hparse := hparse (.insert sid (canonicalBytes block)) rfl
          cases hs : (st.sessions.get? sid).isNone <;>
            refine ⟨_, ?_, ?_, rfl, fun hvalid => ?_⟩ <;> simp_all [maps, applyRecord]
      | some b =>
          cases hs : (st.sessions.get? sid).isNone <;>
            refine ⟨_, ?_, ?_, rfl, fun hvalid => ?_⟩ <;>
            simp_all [maps, applyRecord, putBlock]
  | reference sid id =>
      simp only [perform, loggedRecord]
      cases hg : st.blocks.get? id with
      | none =>
          rw [reference_of_absent _ _ _ hg]
          exact ⟨st, rfl, rfl, rfl, fun _ => rfl⟩
      | some b =>
          rw [reference, hg]
          refine ⟨_, ?_, ?_, rfl, fun _ => ?_⟩ <;> simp [maps, applyRecord, hg]
  | seedSession sid ids root =>
      simp only [perform, loggedRecord, seedSession]
      cases hs : (st.sessions.get? sid).isNone <;>
        refine ⟨_, ?_, ?_, rfl, fun _ => ?_⟩ <;> rfl
  | storeContentWithId sid block =>
      simp only [perform, loggedRecord, storeContentWithId, storeBlock_newly]
      cases hg : st.blocks.get? block.blockId with
      | none =>
          have hparse := hparse (.content sid (canonicalBytes block)) rfl
          refine ⟨_, ?_, ?_, rfl, fun hvalid => ?_⟩ <;> simp_all [maps, applyRecord]
      | some b =>
          refine ⟨_, ?_, ?_, rfl, fun _ => ?_⟩ <;> simp [maps, putBlock, hg]

/-- What one operation without a failed write does: its record, if it has one,
is appended to the log, is valid, and means the operation's effect. -/
theorem perform_spec {st : ContentStore} (hw : st.wal.isSome) (op : StoreOp)
    (hok : (st.perform op).walError = none) :
    st.walError = none ∧ (st.perform op).wal.isSome ∧
      (st.perform op).walBytes =
        st.walBytes ++ (st.loggedRecord op).toList.flatMap Record.encode ∧
      (∀ r ∈ st.loggedRecord op, r.Valid) ∧
      (st.perform op).maps = (st.loggedRecord op).toList.foldl applyRecord st.maps := by
  obtain ⟨st₁, hwal, herr, heq, hmaps⟩ := st.perform_logs op
  rw [heq] at hok ⊢
  have hbytes : st₁.walBytes = st.walBytes := by rw [walBytes, hwal, walBytes]
  cases hr : st.loggedRecord op with
  | none =>
      rw [hr] at hok hmaps
      exact ⟨herr ▸ hok, by simpa [logRecord, hwal] using hw, by simp [logRecord, hbytes],
        by simp, hmaps (by simp)⟩
  | some r =>
      rw [hr] at hok hmaps
      obtain ⟨hnone, happ, hvalid⟩ := logWal_spec (hwal ▸ hw) hok
      refine ⟨herr ▸ hnone, by simpa [logRecord, logWal_wal, hwal] using hw, ?_,
        by simpa using hvalid, ?_⟩
      · simpa [logRecord, hbytes] using happ
      · rw [← hmaps (by simpa using hvalid)]
        ext1 <;> simp [logRecord]

/-- One operation keeps the relation between the log and the maps. -/
theorem Logged.perform {st : ContentStore} {rs : List Record} (h : st.Logged rs) (op : StoreOp)
    (hok : (st.perform op).walError = none) :
    (st.perform op).Logged (rs ++ (st.loggedRecord op).toList) := by
  obtain ⟨-, hw, hbytes, hvalid, hmaps⟩ := perform_spec h.attached op hok
  refine ⟨hw, ?_, ?_, ?_⟩
  · rw [hbytes, h.bytes, List.flatMap_append]
  · intro r hr
    rcases List.mem_append.mp hr with hr | hr
    · exact h.valid r hr
    · exact hvalid r (by simpa using hr)
  · rw [hmaps, h.maps, List.foldl_append]

@[simp] theorem performAll_nil (st : ContentStore) : st.performAll [] = st := rfl

@[simp] theorem performAll_cons (st : ContentStore) (op : StoreOp) (ops : List StoreOp) :
    st.performAll (op :: ops) = (st.perform op).performAll ops := rfl

theorem performAll_append (st : ContentStore) (xs ys : List StoreOp) :
    st.performAll (xs ++ ys) = (st.performAll xs).performAll ys := by
  simp [performAll, List.foldl_append]

omit [Blake3] in
theorem logWal_isSome (st : ContentStore) (append : Wal → Except IoError Unit × Wal) :
    (st.logWal append).wal.isSome = st.wal.isSome := by
  simp [logWal_wal]

/-- No operation attaches or detaches a log. -/
theorem perform_isSome (st : ContentStore) (op : StoreOp) :
    (st.perform op).wal.isSome = st.wal.isSome := by
  obtain ⟨st₁, hwal, -, heq, -⟩ := st.perform_logs op
  rw [heq, ← hwal]
  cases st.loggedRecord op with
  | none => rfl
  | some r => exact logWal_isSome st₁ _

theorem performAll_isSome (st : ContentStore) (ops : List StoreOp) :
    (st.performAll ops).wal.isSome = st.wal.isSome := by
  induction ops generalizing st with
  | nil => rfl
  | cons op rest ih => exact (ih _).trans (perform_isSome st op)

/-- A latch that is empty at the end of a run was empty all along. -/
theorem performAll_walError {st : ContentStore} (ops : List StoreOp) (hw : st.wal.isSome)
    (hok : (st.performAll ops).walError = none) : st.walError = none := by
  induction ops generalizing st with
  | nil => exact hok
  | cons op rest ih =>
      exact (perform_spec hw op (ih ((perform_isSome st op).trans hw) hok)).1

/-- The records a whole run logs. -/
def loggedRecords (st : ContentStore) : List StoreOp → List Record
  | [] => []
  | op :: rest => (st.loggedRecord op).toList ++ (st.perform op).loggedRecords rest

theorem loggedRecords_append (st : ContentStore) (xs ys : List StoreOp) :
    st.loggedRecords (xs ++ ys) =
      st.loggedRecords xs ++ (st.performAll xs).loggedRecords ys := by
  induction xs generalizing st with
  | nil => rfl
  | cons op rest ih => simp [loggedRecords, ih]

/-- A run without a failed write keeps the relation between the log and the maps. -/
theorem Logged.performAll {st : ContentStore} {rs : List Record} (h : st.Logged rs)
    (ops : List StoreOp) (hok : (st.performAll ops).walError = none) :
    (st.performAll ops).Logged (rs ++ st.loggedRecords ops) := by
  induction ops generalizing st rs with
  | nil => simpa [loggedRecords] using h
  | cons op rest ih =>
      have hstep := performAll_walError rest ((perform_isSome st op).trans h.attached) hok
      have hrest := ih (h.perform op hstep) hok
      rwa [List.append_assoc] at hrest

/-- Replaying the complete log of a store restores its maps. -/
theorem Logged.replay_eq {st : ContentStore} {rs : List Record} (h : st.Logged rs) :
    ∃ recovered, replay st.walBytes new = .ok (recovered, st.walBytes.length) ∧
      recovered.maps = st.maps := by
  refine ⟨replayRecords new rs, ?_, ?_⟩
  · have hrun := replayFrom_records 0 rs [] new h.valid
    rw [List.append_nil, Nat.zero_add, replayFrom_nil] at hrun
    rw [replay, h.bytes, hrun]
  · rw [replayRecords_maps new h.valid, h.maps]
    rfl

/-- Two stores hold the same blocks and, for every session, the same log and root. -/
def SameContent (st st' : ContentStore) : Prop :=
  st.blocks = st'.blocks ∧
    ∀ sid, st.sessionIds sid = st'.sessionIds sid ∧ st.sessionRoot sid = st'.sessionRoot sid

omit [Blake3] in
theorem sameContent_of_maps {st st' : ContentStore} (h : st.maps = st'.maps) :
    st.SameContent st' := by
  have hb : st.blocks = st'.blocks := congrArg Maps.blocks h
  have hs : st.sessions = st'.sessions := congrArg Maps.sessions h
  exact ⟨hb, fun sid => by simp [sessionIds, sessionRoot, hs]⟩

/-- Opening an empty file gives an empty store with an empty log. -/
theorem withWal_nil {writes : List (Option (Nat × IoError))} {flushes : List (Option IoError)}
    {st : ContentStore} (h : withWal [] writes flushes = .ok st) :
    st.Logged [] ∧ st.walError = none := by
  rw [withWal, replay, replayFrom_nil] at h
  cases h
  exact ⟨⟨rfl, by simp [walBytes], by simp, rfl⟩, rfl⟩

/-- Opening a cut log keeps exactly the whole records before the cut. -/
theorem withWal_cut {rs : List Record} (hrs : ∀ r ∈ rs, r.Valid) {cut : List UInt8}
    (hcut : cut <+: rs.flatMap Record.encode) :
    ∃ whole later tail, rs = whole ++ later ∧ cut = whole.flatMap Record.encode ++ tail ∧
      (∀ next ∈ later.head?, tail.length < next.encode.length) ∧ (later = [] → tail = []) ∧
      replay cut new = .ok (replayRecords new whole, (whole.flatMap Record.encode).length) ∧
      ∀ writes flushes, ∃ st, withWal cut writes flushes = .ok st ∧ st.Logged whole := by
  obtain ⟨whole, later, tail, hsplit, hcut', hnext, hlast, hreplay⟩ :=
    replay_cut rs hrs cut hcut new
  refine ⟨whole, later, tail, hsplit, hcut', hnext, hlast, hreplay, fun writes flushes => ?_⟩
  have hwhole : ∀ r ∈ whole, r.Valid := fun r hr => hrs r (by simp [hsplit, hr])
  refine ⟨_, by rw [withWal, hreplay], ⟨rfl, ?_, hwhole, ?_⟩⟩
  · simp only [walBytes, Option.map_some, Option.getD_some]
    rw [hcut', List.take_left' rfl]
  · exact replayRecords_maps new hwhole

omit [Blake3] in
private theorem encode_take_le (rs : List Record) {a b : Nat} (h : a ≤ b) :
    ((rs.take a).flatMap Record.encode).length ≤ ((rs.take b).flatMap Record.encode).length := by
  obtain ⟨more, hmore⟩ : rs.take a <+: rs.take b := List.take_prefix_take_left h
  rw [← hmore, List.flatMap_append, List.length_append]
  omega

omit [Blake3] in
/-- Among the first records, exactly those before the cut fit into it. -/
private theorem encode_take_le_cut_iff {rs whole later : List Record} {cut tail : List UInt8}
    (hsplit : rs = whole ++ later) (hcut : cut = whole.flatMap Record.encode ++ tail)
    (hnext : ∀ next ∈ later.head?, tail.length < next.encode.length) {a : Nat}
    (ha : a ≤ rs.length) :
    ((rs.take a).flatMap Record.encode).length ≤ cut.length ↔ a ≤ whole.length := by
  have hwhole : rs.take whole.length = whole := by rw [hsplit, List.take_left' rfl]
  constructor
  · intro hle
    by_contra hlt
    cases later with
    | nil => simp [hsplit] at ha; omega
    | cons next rest =>
        have htake : rs.take (whole.length + 1) = whole ++ [next] := by
          rw [hsplit, List.take_append, List.take_of_length_le (by omega)]
          simp
        have hmono := encode_take_le rs (show whole.length + 1 ≤ a by omega)
        have hlong := hnext next (by simp)
        rw [htake, List.flatMap_append, List.length_append] at hmono
        simp only [List.flatMap_singleton] at hmono
        rw [hcut, List.length_append] at hle
        omega
  · intro hle
    have hmono := encode_take_le rs hle
    rw [hwhole] at hmono
    rw [hcut, List.length_append]
    omega

theorem loggedRecords_take_succ (st : ContentStore) (ops : List StoreOp) (n : Nat) :
    (st.loggedRecords (ops.take (n + 1))).length ≤
      (st.loggedRecords (ops.take n)).length + 1 := by
  rw [List.take_add_one, loggedRecords_append, List.length_append]
  cases hop : ops[n]? with
  | none => simp [loggedRecords]
  | some op =>
      cases hr : (st.performAll (ops.take n)).loggedRecord op <;> simp [loggedRecords, hr]

/-- The records of the first `n` operations are a prefix of all records. -/
theorem loggedRecords_take (st : ContentStore) (ops : List StoreOp) (n : Nat) :
    st.loggedRecords (ops.take n) =
      (st.loggedRecords ops).take (st.loggedRecords (ops.take n)).length := by
  have happ := loggedRecords_append st (ops.take n) (ops.drop n)
  rw [List.take_append_drop] at happ
  rw [happ, List.take_left' rfl]

/-- A log that is sound at the end was sound after every prefix of the operations. -/
theorem Logged.performAll_take {st : ContentStore} {rs : List Record} (h : st.Logged rs)
    {ops : List StoreOp} (hok : (st.performAll ops).walError = none) (n : Nat) :
    (st.performAll (ops.take n)).Logged (rs ++ st.loggedRecords (ops.take n)) := by
  have hsplit := performAll_append st (ops.take n) (ops.drop n)
  rw [List.take_append_drop] at hsplit
  have hn := performAll_walError (ops.drop n)
    ((performAll_isSome st _).trans h.attached) (hsplit ▸ hok)
  exact h.performAll (ops.take n) hn

/-- Where `fits` says that the records of the first `n` operations are among `whole`, the greatest
such `n` has all of `whole`. -/
theorem loggedRecords_findGreatest (st : ContentStore) (ops : List StoreOp) {fits : Nat → Prop}
    [DecidablePred fits] {whole later : List Record}
    (hsplit : st.loggedRecords ops = whole ++ later)
    (hfits : ∀ n, fits n ↔ (st.loggedRecords (ops.take n)).length ≤ whole.length) :
    st.loggedRecords (ops.take (Nat.findGreatest fits ops.length)) = whole := by
  set n := Nat.findGreatest fits ops.length with hn
  have hzero : fits 0 := (hfits 0).mpr (by simp [loggedRecords])
  have hle := (hfits n).mp (Nat.findGreatest_spec (Nat.zero_le _) hzero)
  have hge : whole.length ≤ (st.loggedRecords (ops.take n)).length := by
    rcases Nat.lt_or_ge n ops.length with hlt | hge
    · have hmore : ¬ fits (n + 1) := Nat.findGreatest_is_greatest (Nat.lt_succ_self n) hlt
      have hsucc := loggedRecords_take_succ st ops n
      have := mt (hfits (n + 1)).mpr hmore
      omega
    · rw [List.take_of_length_le hge, hsplit, List.length_append]
      omega
  rw [loggedRecords_take st ops n, Nat.le_antisymm hle hge, hsplit, List.take_left' rfl]

/-- After a crash at any byte of the log, replay restores the store after the
longest prefix of operations whose records are all inside the surviving bytes,
and reports where the last complete record ends. The repaired log stays
replayable while further operations append to it. -/
theorem wal_crash_consistent {writes : List (Option (Nat × IoError))}
    {flushes : List (Option IoError)} {st : ContentStore}
    (hopen : withWal [] writes flushes = .ok st) (ops : List StoreOp)
    (hok : (st.performAll ops).walError = none) (cut : List UInt8)
    (hcut : cut <+: (st.performAll ops).walBytes) :
    ∃ n recovered,
      IsGreatest {n | n ≤ ops.length ∧
        (st.performAll (ops.take n)).walBytes.length ≤ cut.length} n ∧
      replay cut new = .ok (recovered, (st.performAll (ops.take n)).walBytes.length) ∧
      recovered.SameContent (st.performAll (ops.take n)) ∧
      ∀ writes' flushes', ∃ reopened, withWal cut writes' flushes' = .ok reopened ∧
        reopened.SameContent recovered ∧
        ∀ more, (reopened.performAll more).walError = none →
          ∃ final, replay (reopened.performAll more).walBytes new =
              .ok (final, (reopened.performAll more).walBytes.length) ∧
            final.SameContent (reopened.performAll more) := by
  obtain ⟨hlog, -⟩ := withWal_nil hopen
  have htake : ∀ n, (st.performAll (ops.take n)).Logged (st.loggedRecords (ops.take n)) :=
    hlog.performAll_take hok
  have hfull := htake ops.length
  rw [List.take_length] at hfull
  rw [hfull.bytes] at hcut
  obtain ⟨whole, later, tail, hsplit, hcut', hnext, hlast, hreplay, hreopen⟩ :=
    withWal_cut hfull.valid hcut
  let fits := fun n => (st.performAll (ops.take n)).walBytes.length ≤ cut.length
  have hfits : ∀ n, fits n ↔ (st.loggedRecords (ops.take n)).length ≤ whole.length := by
    intro n
    have hlen : (st.loggedRecords (ops.take n)).length ≤ (st.loggedRecords ops).length := by
      rw [loggedRecords_take st ops n]
      exact List.length_take_le' _ _
    simp only [fits]
    rw [(htake n).bytes, ← encode_take_le_cut_iff hsplit hcut' hnext hlen,
      ← loggedRecords_take st ops n]
  let n := Nat.findGreatest fits ops.length
  have hn : fits n :=
    Nat.findGreatest_spec (Nat.zero_le _) ((hfits 0).mpr (by simp [loggedRecords]))
  have hwhole : st.loggedRecords (ops.take n) = whole :=
    loggedRecords_findGreatest st ops hsplit hfits
  have hbytes : (st.performAll (ops.take n)).walBytes.length =
      (whole.flatMap Record.encode).length := by
    rw [(htake n).bytes, hwhole]
  have hmaps : (replayRecords new whole).maps = (st.performAll (ops.take n)).maps := by
    rw [replayRecords_maps new (hwhole ▸ (htake n).valid), (htake n).maps, hwhole]
    rfl
  refine ⟨n, replayRecords new whole, ⟨⟨Nat.findGreatest_le _, hn⟩, fun m hm =>
    Nat.le_findGreatest hm.1 hm.2⟩, by rw [hreplay, hbytes], sameContent_of_maps hmaps, ?_⟩
  intro writes' flushes'
  obtain ⟨reopened, hr, hlogged⟩ := hreopen writes' flushes'
  refine ⟨reopened, hr, sameContent_of_maps ?_, fun more hmore => ?_⟩
  · rw [hlogged.maps, replayRecords_maps new hlogged.valid]
    rfl
  · obtain ⟨final, hfinal, hm⟩ := (hlogged.performAll more hmore).replay_eq
    exact ⟨final, hfinal, sameContent_of_maps hm⟩

omit [Blake3] in
/-- A log of an insert and a reference, cut inside the second record. -/
theorem wal_crash_consistent_inside_reference :
    letI := prefixHash
    let block : Block := ⟨.message, 1, [7]⟩
    let ops : List StoreOp := [.insertWithCanonical 1 block true, .reference 2 block.blockId]
    let st : ContentStore := { new with wal := some ⟨[], 0, [], []⟩ }
    (st.performAll ops).walError = none ∧
      ∃ n recovered,
        IsGreatest {n | n ≤ ops.length ∧
          (st.performAll (ops.take n)).walBytes.length ≤
            ((st.performAll ops).walBytes.take 50).length} n ∧
        replay ((st.performAll ops).walBytes.take 50) new =
          .ok (recovered, (st.performAll (ops.take n)).walBytes.length) ∧
        recovered.SameContent (st.performAll (ops.take n)) := by
  let _ := prefixHash
  intro block ops st
  have hok : (st.performAll ops).walError = none := by decide
  have hopen : withWal [] [] [] = .ok st := by
    rw [withWal, replay, replayFrom_nil]
    rfl
  obtain ⟨n, recovered, hn, hreplay, hsame, -⟩ :=
    wal_crash_consistent hopen ops hok _ (List.take_prefix 50 _)
  exact ⟨hok, n, recovered, hn, hreplay, hsame⟩

end ContentStore

end Dlr.Core
