import Dlr.Coding.Fountain
import Dlr.Compress.Compressor
import Dlr.Core.Frame
import Dlr.Core.Store
import Mathlib.Data.Finset.Dedup

/-!
# The receiver

The receiver keeps the content-addressed store and, per session, what the store
cannot recover: which manifest blocks are still missing, whether the cold start
was acknowledged, and the decoders of unfinished generations.

## Implementation notes

Every handler returns its answer together with the next receiver, because an
error can leave a changed state behind: an entry created on first contact, or
the symbols a decoder has already taken. The locks of the program serialise the
handlers of one session and are not part of the sequential model.
-/

namespace Dlr

open Dlr.Core Coding Compress Lib Lib.Bytes

inductive ReceiverError
  | fountain (message : String)
  | compress (message : String)
  | frame (message : String)
  | missingRef
  | noSession (sid : SessionId)
  | coldStartInProgress (sid : SessionId)
  | baseRootMismatch (sid : SessionId) (client current : MerkleRoot)
  deriving DecidableEq

def ReceiverError.toText : ReceiverError → String
  | fountain message => "fountain: " ++ message
  | compress message => "compress: " ++ message
  | frame message => "frame: " ++ message
  | missingRef => "referenced block id not in store"
  | noSession sid => "session " ++ toString sid.toNat ++ " not found"
  | coldStartInProgress sid =>
      "session " ++ toString sid.toNat ++
        " cold start in progress; bulk transfer not yet complete"
  | baseRootMismatch sid client current =>
      "session " ++ toString sid.toNat ++ " base root mismatch: client " ++
        toString (client.bytes.map UInt8.toNat) ++ ", receiver " ++
        toString (current.bytes.map UInt8.toNat)

/-- Cold-start bookkeeping of one session. -/
structure SessionState where
  /-- Manifest blocks not yet recovered. -/
  pending : Finset BlockId := ∅
  /-- Whether the completion of the cold start was acknowledged. -/
  acked : Bool := false
  decoders : FinMap UInt32 FountainDecoder := ∅

structure Receiver where
  store : ContentStore
  compressor : Compressor
  sessions : FinMap SessionId SessionState

/-- An APPEND entry after decompression and parsing. -/
inductive Resolved
  | inline (id : BlockId) (block : Block)
  | ref (id : BlockId)
  deriving DecidableEq

def Resolved.id : Resolved → BlockId
  | inline id _ => id
  | ref id => id

namespace Receiver

/-- Recover the bookkeeping of every session of a replayed store. -/
def new (store : ContentStore) (compressor : Compressor) : Receiver where
  store := store
  compressor := compressor
  sessions := store.sessions.mapValues fun _ log =>
    let pending := (log.ids.filter fun id => !store.contains id).toFinset
    { pending, acked := pending = ∅ }

/-- The entry of a session, with the one that first contact creates as default. -/
def session (r : Receiver) (sid : SessionId) : SessionState := (r.sessions.get? sid).getD {}

def setSession (r : Receiver) (sid : SessionId) (st : SessionState) : Receiver :=
  { r with sessions := r.sessions.set sid st }

/-- Every reference is stored already or appears inline earlier in the frame. -/
def refsAvailable (store : ContentStore) : List BlockId → List Resolved → Bool
  | _, [] => true
  | available, .inline id _ :: rest => refsAvailable store (id :: available) rest
  | available, .ref id :: rest =>
      (store.contains id || decide (id ∈ available)) && refsAvailable store available rest

section Records

/-- The records `[len:u32][bytes]` of a decoded stream, up to the zero padding or a
truncated tail. -/
def parseRecordsFrom : Nat → List UInt8 → List (List UInt8)
  | 0, _ => []
  | fuel + 1, flat =>
      match takeExact 4 flat with
      | none => []
      | some (len, rest) =>
          let blen := ofLe len
          if blen = 0 then []
          else
            match takeExact blen rest with
            | none => []
            | some (record, rest) => record :: parseRecordsFrom fuel rest

/-- A record takes more than four bytes, so the stream length bounds their number. -/
def parseRecords (flat : List UInt8) : List (List UInt8) := parseRecordsFrom flat.length flat

end Records

section Handlers

variable [Blake3] [Zstd]

/-- Decompress and parse one compressed canonical block. -/
def recoverBlock (c : Compressor) (comp : List UInt8) :
    Except ReceiverError (Block × BlockId) :=
  match c.decompress comp with
  | .error e => .error (.compress e.toText)
  | .ok canon =>
      match fromCanonicalOwned canon with
      | .error e => .error (.frame e)
      | .ok recovered => .ok recovered

def resolveBlock (c : Compressor) : FrameBlock → Except ReceiverError Resolved
  | .inline wireBlock => (recoverBlock c wireBlock.payload).map fun b => .inline b.2 b.1
  | .ref id => .ok (.ref id)

/-- Append the resolved entries to the session log in frame order. -/
def applyResolved (sid : SessionId) :
    List Resolved → ContentStore → Except ReceiverError Unit × ContentStore
  | [], store => (.ok (), store)
  | .inline id block :: rest, store => applyResolved sid rest (store.insertWithId sid block id).1
  | .ref id :: rest, store =>
      match store.reference sid id with
      | (store, .ok ()) => applyResolved sid rest store
      | (store, .error _) => (.error .missingRef, store)

/-- Handle an APPEND whose blocks are resolved and whose references are available. -/
def appendResolved (r : Receiver) (frame : AppendFrame) (resolved : List Resolved) :
    Except ReceiverError AckFrame × Receiver :=
  let sid := frame.sessionId
  let r := r.setSession sid (r.session sid)
  if (r.session sid).pending ≠ ∅ then
    (.error (.coldStartInProgress sid), r)
  else
    let curRoot := r.store.sessionRoot sid
    let targetRoot := resolved.foldl (fun root item => appendRoot root item.id) frame.baseRoot
    if frame.baseRoot ≠ curRoot then
      if targetRoot = curRoot then (.ok ⟨sid, curRoot⟩, r)
      else (.error (.baseRootMismatch sid frame.baseRoot curRoot), r)
    else
      match applyResolved sid resolved r.store with
      | (.error e, store) => (.error e, { r with store })
      | (.ok (), store) => (.ok ⟨sid, store.sessionRoot sid⟩, { r with store })

/-- Handle an APPEND: resolve every block, check the references, then extend the log
or recognise a replayed frame by the root it leads to. -/
def handleAppend (r : Receiver) (frame : AppendFrame) :
    Except ReceiverError AckFrame × Receiver :=
  match frame.blocks.mapM (resolveBlock r.compressor) with
  | .error e => (.error e, r)
  | .ok resolved =>
      if refsAvailable r.store [] resolved then r.appendResolved frame resolved
      else (.error .missingRef, r)

/-- Handle a RESYNC: seed the log with the manifest and name the missing blocks. -/
def handleResync (r : Receiver) (frame : ResyncFrame) : List BlockId × Receiver :=
  let missing := frame.manifest.filter fun id => !r.store.contains id
  let store := r.store.seedSession frame.sessionId frame.manifest frame.clientRoot
  let st := { r.session frame.sessionId with
    pending := missing.toFinset, acked := missing.isEmpty }
  (missing, ({ r with store } : Receiver).setSession frame.sessionId st)

/-- Store the content of every recovered block. -/
def storeRecovered (sid : SessionId) (recovered : List (Block × BlockId)) (store : ContentStore) :
    ContentStore :=
  recovered.foldl (fun store b => (store.storeContentWithId sid b.1 b.2).1) store

/-- Store a recovered generation, retire its ids and detect the end of the cold start. -/
def finishGeneration (r : Receiver) (sid : SessionId) (generation : UInt32)
    (recovered : List (Block × BlockId)) : Option MerkleRoot × Receiver :=
  let store := storeRecovered sid recovered r.store
  let st := r.session sid
  let pending := st.pending \ (recovered.map Prod.snd).toFinset
  let decoders := st.decoders.unset generation
  if pending = ∅ ∧ st.acked = false then
    (some (store.sessionRoot sid),
      ({ r with store } : Receiver).setSession sid { pending, acked := true, decoders })
  else
    (none, ({ r with store } : Receiver).setSession sid { st with pending, decoders })

/-- The errors of the records that cannot be recovered, in order. -/
def recordErrors (c : Compressor) (records : List (List UInt8)) : List ReceiverError :=
  records.filterMap fun record =>
    match recoverBlock c record with
    | .error e => some e
    | .ok _ => none

/-- Recover every record. They are recovered in parallel, and when several fail the
scheduling decides whose error is reported: `winner` stands for it. -/
def recoverRecords (winner : Nat) (c : Compressor) (records : List (List UInt8)) :
    Except ReceiverError (List (Block × BlockId)) :=
  match records.mapM (recoverBlock c) with
  | .ok recovered => .ok recovered
  | .error e =>
      let errors := recordErrors c records
      .error ((errors[winner % errors.length]?).getD e)

theorem recordErrors_head? {c : Compressor} {records : List (List UInt8)} {e : ReceiverError}
    (h : records.mapM (recoverBlock c) = .error e) : (recordErrors c records)[0]? = some e := by
  induction records with
  | nil => cases h
  | cons record rest ih =>
      rw [List.mapM_cons] at h
      cases hrecord : recoverBlock c record with
      | error e' =>
          rw [hrecord] at h
          cases h
          simp [recordErrors, hrecord]
      | ok recovered =>
          rw [hrecord] at h
          cases hrest : rest.mapM (recoverBlock c) with
          | error e' =>
              rw [hrest] at h
              cases h
              simpa [recordErrors, hrecord] using ih hrest
          | ok others =>
              rw [hrest] at h
              cases h

/-- The first winner is the one of the sequential map. -/
@[simp] theorem recoverRecords_zero (c : Compressor) (records : List (List UInt8)) :
    recoverRecords 0 c records = records.mapM (recoverBlock c) := by
  unfold recoverRecords
  cases h : records.mapM (recoverBlock c) with
  | error e => simp [recordErrors_head? h]
  | ok recovered => rfl

theorem mapM_of_recoverRecords {winner : Nat} {c : Compressor} {records : List (List UInt8)}
    {recovered : List (Block × BlockId)} (h : recoverRecords winner c records = .ok recovered) :
    records.mapM (recoverBlock c) = .ok recovered := by
  unfold recoverRecords at h
  split at h
  · rename_i hall
    cases h
    exact hall
  · cases h

/-- Handle a BULK frame: feed the generation's decoder, and once it decodes store the
recovered blocks. Returns the root to acknowledge when the cold start completes. -/
def handleBulkWith (winner : Nat) (r : Receiver) (frame : BulkFrame) :
    Except ReceiverError (Option MerkleRoot) × Receiver :=
  let sid := frame.sessionId
  let st := r.session sid
  let keep := fun d => r.setSession sid { st with decoders := st.decoders.set frame.generation d }
  let d := (st.decoders.get? frame.generation).getD
    (FountainDecoder.new frame.k.toNat frame.symbolSize.toNat)
  match d.addAll frame.symbols with
  | (.error e, d) => (.error (.fountain e.toText), keep d)
  | (.ok (), d) =>
      match d.decode with
      | (.error (.underdetermined _ _), d) => (.ok none, keep d)
      | (.error e, d) => (.error (.fountain e.toText), keep d)
      | (.ok symbols, d) =>
          match recoverRecords winner r.compressor (parseRecords symbols.flatten) with
          | .error e => (.error e, keep d)
          | .ok recovered =>
              let (completion, r) := (keep d).finishGeneration sid frame.generation recovered
              (.ok completion, r)

/-- A BULK frame of which the first error is the one that is reported. Which one it is
changes nothing else: `handleBulkWith_agrees`. -/
def handleBulk (r : Receiver) (frame : BulkFrame) :
    Except ReceiverError (Option MerkleRoot) × Receiver :=
  r.handleBulkWith 0 frame

/-- Which error is reported changes neither the answer to an accepted BULK frame nor the
receiver after it. -/
theorem handleBulkWith_agrees (winner : Nat) (r : Receiver) (frame : BulkFrame) :
    (r.handleBulkWith winner frame).1.toOption = (r.handleBulk frame).1.toOption ∧
      (r.handleBulkWith winner frame).2 = (r.handleBulk frame).2 := by
  simp only [handleBulk, handleBulkWith, recoverRecords_zero]
  split
  · exact ⟨rfl, rfl⟩
  · split
    · exact ⟨rfl, rfl⟩
    · exact ⟨rfl, rfl⟩
    · rename_i symbols d _
      cases hrec : (parseRecords symbols.flatten).mapM (recoverBlock r.compressor) with
      | error e =>
          simp only [recoverRecords, hrec]
          exact ⟨rfl, trivial⟩
      | ok recovered =>
          simp only [recoverRecords, hrec]
          exact ⟨trivial, trivial⟩

/-- Handle any frame and return the frame to send back. -/
def handleFrame (r : Receiver) : Frame → Except ReceiverError (Option Frame) × Receiver
  | .append a =>
      match r.handleAppend a with
      | (.error e, r) => (.error e, r)
      | (.ok ack, r) => (.ok (some (.ack ack)), r)
  | .resync f =>
      let (missing, r) := r.handleResync f
      if missing = [] then
        (.ok (some (.ack ⟨f.sessionId, r.store.sessionRoot f.sessionId⟩)), r)
      else
        (.ok (some (.missing ⟨f.sessionId, missing⟩)), r)
  | .bulk b =>
      match r.handleBulk b with
      | (.error e, r) => (.error e, r)
      | (.ok (some root), r) => (.ok (some (.ack ⟨b.sessionId, root⟩)), r)
      | (.ok none, r) => (.ok none, r)
  | .ack _ => (.ok none, r)
  | .missing _ => (.ok none, r)

/-- Handle any frame, with a say in which of several record errors is reported. -/
def handleFrameWith (winner : Nat) (r : Receiver) (f : Frame) :
    Except ReceiverError (Option Frame) × Receiver :=
  match f with
  | .bulk b =>
      match r.handleBulkWith winner b with
      | (.error e, r) => (.error e, r)
      | (.ok (some root), r) => (.ok (some (.ack ⟨b.sessionId, root⟩)), r)
      | (.ok none, r) => (.ok none, r)
  | f => r.handleFrame f

/-- The receiver after a sequence of frames. -/
def handleAll (r : Receiver) (frames : List Frame) : Receiver :=
  frames.foldl (fun r f => (r.handleFrame f).2) r

end Handlers

/-- The log of a session the receiver knows; empty otherwise. -/
def reconstruct (r : Receiver) (sid : SessionId) : List Block :=
  if (r.sessions.get? sid).isSome then r.store.reconstruct sid else []

def reconstructRange (r : Receiver) (sid : SessionId) (lo hi : Nat) : Option (List Block) :=
  if (r.sessions.get? sid).isSome then r.store.reconstructRange sid lo hi else some []

/-- The root the receiver acknowledges, if it knows the session. -/
def sessionRoot (r : Receiver) (sid : SessionId) : Option MerkleRoot :=
  if (r.sessions.get? sid).isSome then some (r.store.sessionRoot sid) else none

end Receiver

end Dlr
