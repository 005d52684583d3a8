import Dlr.Core.Merkle

/-!
# The write-ahead log

One record is `session_id : 16 | variant : 1 | len : 4 | bytes[len]`, little
endian. A record is written by several small writes; each of them may fail
after some of its bytes reached the file, and later writes may succeed again.

## Implementation notes

The operating system is the list of outcomes of the upcoming writes and
flushes. A run in which nothing fails is one whose outcome lists are empty, or
whose error latch is still empty at the end.
-/

namespace Dlr.Core

open Lib.Bytes Lib.Machine

/-- The error kinds the log produces itself, and the device's own. -/
inductive IoErrorKind
  | invalidInput
  | invalidData
  | device
  deriving DecidableEq, Repr

/-- An I/O error with its message. -/
structure IoError where
  kind : IoErrorKind
  message : String
  deriving DecidableEq, Repr

/-- The open log file behind its mutex and buffered writer. -/
structure Wal where
  /-- Every byte the writes managed to put into the log, in order. -/
  bytes : List UInt8
  /-- How many of these bytes the last successful flush made durable. -/
  flushed : Nat := 0
  /-- Outcome of each upcoming write: all bytes, or an error after some of them. -/
  writes : List (Option (Nat × IoError)) := []
  /-- Outcome of each upcoming flush. -/
  flushes : List (Option IoError) := []
  deriving DecidableEq

namespace Wal

/-- Write all of `data`, or as much of it as the device accepts before it fails. -/
def writeAll (w : Wal) (data : List UInt8) : Except IoError Unit × Wal :=
  match w.writes with
  | some (n, e) :: rest => (.error e, { w with bytes := w.bytes ++ data.take n, writes := rest })
  | none :: rest => (.ok (), { w with bytes := w.bytes ++ data, writes := rest })
  | [] => (.ok (), { w with bytes := w.bytes ++ data })

/-- The writes of one record, stopping at the first failure. -/
def writeParts : List (List UInt8) → Wal → Except IoError Unit × Wal
  | [], w => (.ok (), w)
  | part :: rest, w =>
      match w.writeAll part with
      | (.error e, w') => (.error e, w')
      | (.ok (), w') => writeParts rest w'

def varInsert : UInt8 := 0
def varReference : UInt8 := 1
def varSeed : UInt8 := 2
def varContent : UInt8 := 3

/-- The fixed record header length. -/
def header : Nat := 16 + 1 + 4

def maxRecordBytes : Nat := 512 * 1024 * 1024

/-- The length field of a record, refused above the safety limit. -/
def recordLen (len : Nat) : Except IoError Nat :=
  if len > maxRecordBytes then
    .error ⟨.invalidInput, s!"WAL record length {len} exceeds safety limit"⟩
  else if len < 2 ^ 32 then
    .ok len
  else
    .error ⟨.invalidInput, "WAL record too large"⟩

/-- The header fields in the order they are written. -/
def headerParts (sid : SessionId) (variant : UInt8) (len : Nat) : List (List UInt8) :=
  [toLe 16 sid.toNat, [variant], toLe 4 len]

/-- The common shape of the two records that carry canonical bytes. -/
def appendCanonical (variant : UInt8) (w : Wal) (sid : SessionId) (canonical : List UInt8) :
    Except IoError Unit × Wal :=
  match recordLen canonical.length with
  | .error e => (.error e, w)
  | .ok len => writeParts (headerParts sid variant len ++ [canonical]) w

def appendInsert : Wal → SessionId → List UInt8 → Except IoError Unit × Wal :=
  appendCanonical varInsert

def appendReference (w : Wal) (sid : SessionId) (id : BlockId) : Except IoError Unit × Wal :=
  writeParts (headerParts sid varReference 32 ++ [id.bytes]) w

def appendSeed (w : Wal) (sid : SessionId) (ids : List BlockId) (root : MerkleRoot) :
    Except IoError Unit × Wal :=
  match (checkedMul ids.length 32).bind fun len => checkedAdd len 36 with
  | none => (.error ⟨.invalidInput, "WAL seed too large"⟩, w)
  | some payloadLen =>
      match recordLen payloadLen with
      | .error e => (.error e, w)
      | .ok len =>
          if ids.length < 2 ^ 32 then
            writeParts (headerParts sid varSeed len ++ [toLe 4 ids.length] ++
              ids.map Digest.bytes ++ [root.bytes]) w
          else
            (.error ⟨.invalidInput, "WAL seed has too many ids"⟩, w)

def appendContent : Wal → SessionId → List UInt8 → Except IoError Unit × Wal :=
  appendCanonical varContent

/-- Flush the buffer; with `sync` also wait for the device. -/
def flush (w : Wal) (_sync : Bool) : Except IoError Unit × Wal :=
  match w.flushes with
  | some e :: rest => (.error e, { w with flushes := rest })
  | none :: rest => (.ok (), { w with flushed := w.bytes.length, flushes := rest })
  | [] => (.ok (), { w with flushed := w.bytes.length })

/-- A record as the log means it. -/
inductive Record
  | insert (sid : SessionId) (canonical : List UInt8)
  | reference (sid : SessionId) (id : BlockId)
  | seed (sid : SessionId) (ids : List BlockId) (root : MerkleRoot)
  | content (sid : SessionId) (canonical : List UInt8)

namespace Record

def sid : Record → SessionId
  | insert sid _ => sid
  | reference sid _ => sid
  | seed sid _ _ => sid
  | content sid _ => sid

def variant : Record → UInt8
  | insert .. => varInsert
  | reference .. => varReference
  | seed .. => varSeed
  | content .. => varContent

def payload : Record → List UInt8
  | insert _ canonical => canonical
  | reference _ id => id.bytes
  | seed _ ids root => toLe 4 ids.length ++ (ids.flatMap Digest.bytes ++ root.bytes)
  | content _ canonical => canonical

/-- The bytes of a record on disk. -/
def encode (r : Record) : List UInt8 :=
  toLe 16 r.sid.toNat ++ [r.variant] ++ toLe 4 r.payload.length ++ r.payload

theorem length_encode (r : Record) : r.encode.length = header + r.payload.length := by
  simp [encode, header]
  omega

end Record

/-- Append one record by the writer of its kind. -/
def append (w : Wal) : Record → Except IoError Unit × Wal
  | .insert sid canonical => w.appendInsert sid canonical
  | .reference sid id => w.appendReference sid id
  | .seed sid ids root => w.appendSeed sid ids root
  | .content sid canonical => w.appendContent sid canonical

/-- A sequence of writes, successful or not, only adds a first part of its bytes. -/
theorem writeParts_bytes (parts : List (List UInt8)) (w : Wal) :
    ∃ added, (writeParts parts w).2.bytes = w.bytes ++ added ∧ added <+: parts.flatten ∧
      (writeParts parts w).2.flushed = w.flushed := by
  induction parts generalizing w with
  | nil => exact ⟨[], by simp [writeParts], by simp, rfl⟩
  | cons part rest ih =>
      have hstep : ∃ added, (w.writeAll part).2.bytes = w.bytes ++ added ∧ added <+: part ∧
          (w.writeAll part).2.flushed = w.flushed ∧
          ((w.writeAll part).1 = .ok () → added = part) := by
        unfold writeAll
        split
        · exact ⟨part.take _, rfl, List.take_prefix _ _, rfl, fun h => by cases h⟩
        · exact ⟨part, rfl, List.prefix_rfl, rfl, fun _ => rfl⟩
        · exact ⟨part, rfl, List.prefix_rfl, rfl, fun _ => rfl⟩
      obtain ⟨added, hbytes, hpre, hflushed, hall⟩ := hstep
      unfold writeParts
      cases hw : w.writeAll part with
      | mk result w' =>
          rw [hw] at hbytes hflushed hall
          cases result with
          | error e =>
              exact ⟨added, hbytes, hpre.trans (by simp), hflushed⟩
          | ok u =>
              obtain ⟨more, hmore, hpre', hflushed'⟩ := ih w'
              refine ⟨part ++ more, ?_, ?_, hflushed'.trans hflushed⟩
              · simp only
                rw [hmore, hbytes, hall rfl, List.append_assoc]
              · rw [List.flatten_cons]
                exact (List.prefix_append_right_inj part).mpr hpre'

/-- A successful sequence of writes puts exactly its parts into the file. -/
theorem writeParts_ok {parts : List (List UInt8)} {w w' : Wal}
    (h : writeParts parts w = (.ok (), w')) : w'.bytes = w.bytes ++ parts.flatten := by
  induction parts generalizing w with
  | nil =>
      cases h
      simp
  | cons part rest ih =>
      have hstep : ∀ v, w.writeAll part = (.ok (), v) → v.bytes = w.bytes ++ part := by
        intro v hv
        unfold writeAll at hv
        split at hv <;> cases hv <;> rfl
      unfold writeParts at h
      split at h
      · cases h
      · rename_i v hv
        rw [ih h, hstep v hv, List.flatten_cons, List.append_assoc]

theorem recordLen_of_le {n : Nat} (h : n ≤ maxRecordBytes) : recordLen n = .ok n := by
  have hmax : maxRecordBytes < 2 ^ 32 := by norm_num [maxRecordBytes]
  rw [recordLen, if_neg (by omega), if_pos (by omega)]

theorem recordLen_of_gt {n : Nat} (h : maxRecordBytes < n) :
    ∃ message, recordLen n = .error ⟨.invalidInput, message⟩ := by
  rw [recordLen, if_pos h]
  exact ⟨_, rfl⟩

theorem length_flatMap_bytes (ids : List BlockId) :
    (ids.flatMap Digest.bytes).length = ids.length * 32 := by
  induction ids with
  | nil => rfl
  | cons id rest ih =>
      rw [List.flatMap_cons, List.length_append, ih, id.size, List.length_cons]
      omega

theorem length_seed_payload (sid : SessionId) (ids : List BlockId) (root : MerkleRoot) :
    (Record.seed sid ids root).payload.length = ids.length * 32 + 36 := by
  simp only [Record.payload, List.length_append, length_toLe, length_flatMap_bytes, root.size]
  omega

/-- The single writes that make up a record. -/
def Record.parts : Record → List (List UInt8)
  | insert sid canonical => headerParts sid varInsert canonical.length ++ [canonical]
  | reference sid id => headerParts sid varReference 32 ++ [id.bytes]
  | seed sid ids root =>
      headerParts sid varSeed (ids.length * 32 + 36) ++ [toLe 4 ids.length] ++
        ids.map Digest.bytes ++ [root.bytes]
  | content sid canonical => headerParts sid varContent canonical.length ++ [canonical]

theorem Record.parts_flatten (r : Record) : r.parts.flatten = r.encode := by
  cases r with
  | insert sid canonical => simp [parts, headerParts, encode, Record.sid, variant, payload]
  | content sid canonical => simp [parts, headerParts, encode, Record.sid, variant, payload]
  | reference sid id =>
      simp [parts, headerParts, encode, Record.sid, variant, payload, id.size]
  | seed sid ids root =>
      rw [encode, length_seed_payload]
      simp [parts, headerParts, Record.sid, variant, payload, List.flatMap]

/-- A record within the size limit is written part by part. -/
theorem append_of_fits (w : Wal) {r : Record} (h : r.payload.length ≤ maxRecordBytes) :
    w.append r = writeParts r.parts w := by
  cases r with
  | insert sid canonical =>
      rw [append, appendInsert, appendCanonical,
        recordLen_of_le (show canonical.length ≤ maxRecordBytes from h)]
      rfl
  | content sid canonical =>
      rw [append, appendContent, appendCanonical,
        recordLen_of_le (show canonical.length ≤ maxRecordBytes from h)]
      rfl
  | reference sid id => rfl
  | seed sid ids root =>
      rw [length_seed_payload] at h
      have hmax : ids.length * 32 + 36 ≤ 536870912 := by simpa [maxRecordBytes] using h
      have hmul : checkedMul ids.length 32 = some (ids.length * 32) :=
        checkedMul_of_le (by simp only [usizeMax]; omega)
      have hadd : checkedAdd (ids.length * 32) 36 = some (ids.length * 32 + 36) :=
        checkedAdd_of_le (by simp only [usizeMax]; omega)
      rw [append, appendSeed, hmul, Option.bind_some, hadd]
      simp only [recordLen_of_le h]
      rw [if_pos (by omega)]
      rfl

/-- A record above the size limit is refused and nothing of it is written. -/
theorem append_of_oversized (w : Wal) {r : Record} (h : maxRecordBytes < r.payload.length) :
    ∃ message, w.append r = (.error ⟨.invalidInput, message⟩, w) := by
  obtain ⟨message, hlen⟩ := recordLen_of_gt h
  cases r with
  | insert sid canonical =>
      exact ⟨message, by rw [append, appendInsert, appendCanonical]; simp_all [Record.payload]⟩
  | content sid canonical =>
      exact ⟨message, by rw [append, appendContent, appendCanonical]; simp_all [Record.payload]⟩
  | reference sid id => simp [Record.payload, id.size, maxRecordBytes] at h
  | seed sid ids root =>
      rw [length_seed_payload] at hlen
      rw [append, appendSeed]
      cases hpl : (checkedMul ids.length 32).bind fun len => checkedAdd len 36 with
      | none => exact ⟨_, rfl⟩
      | some payloadLen =>
          have heq : payloadLen = ids.length * 32 + 36 := by
            cases hm : checkedMul ids.length 32 with
            | none => simp [hm] at hpl
            | some len =>
                rw [hm, Option.bind_some] at hpl
                rw [checkedAdd_eq_some hpl, checkedMul_eq_some hm]
          subst heq
          exact ⟨message, by simp only [hlen]⟩

/-- A successful append puts exactly its record into the file. -/
theorem append_ok {w w' : Wal} {r : Record} (h : w.append r = (.ok (), w')) :
    w'.bytes = w.bytes ++ r.encode ∧ r.payload.length ≤ maxRecordBytes := by
  by_cases hsize : r.payload.length ≤ maxRecordBytes
  · rw [append_of_fits w hsize] at h
    exact ⟨by rw [writeParts_ok h, r.parts_flatten], hsize⟩
  · obtain ⟨message, hrefused⟩ := append_of_oversized w (Nat.lt_of_not_le hsize)
    rw [hrefused] at h
    cases h

/-- An append, successful or not, only adds a first part of its record. -/
theorem append_bytes (w : Wal) (r : Record) :
    ∃ added, (w.append r).2.bytes = w.bytes ++ added ∧ added <+: r.encode ∧
      (w.append r).2.flushed = w.flushed := by
  by_cases hsize : r.payload.length ≤ maxRecordBytes
  · rw [append_of_fits w hsize, ← r.parts_flatten]
    exact writeParts_bytes r.parts w
  · obtain ⟨message, hrefused⟩ := append_of_oversized w (Nat.lt_of_not_le hsize)
    rw [hrefused]
    exact ⟨[], by simp, by simp, rfl⟩

end Wal

end Dlr.Core
