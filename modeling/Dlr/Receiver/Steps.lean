import Dlr.Receiver.Effects
import Mathlib.Logic.Relation

/-!
# The atomic steps of APPEND and BULK

Requests of different sessions run side by side on one receiver. What happens at
once is an access to one entry of a shared map, one locked append to the log, one
flush, and the bookkeeping under the sessions mutex. An APPEND holds that mutex
from its checks to its last log record; a BULK takes it only to fetch a decoder
and to retire a generation, so its store pass runs beside any APPEND.

## Implementation notes

A request is its phase: what it still has to do, with everything it has read. A
request that runs alone ends as the sequential handler does.
-/

namespace Dlr

open Dlr.Core Coding Compress Lib Lib.Bytes

namespace Core.ContentStore

variable [Blake3]

/-- The session-log step of an insert. -/
def pushInserted (st : ContentStore) (sid : SessionId) (id : BlockId) : ContentStore :=
  let wasNewSession := (st.sessions.get? sid).isNone
  let st := { st with sessions := pushLog st.sessions sid id }
  if wasNewSession then
    { st with stats := { st.stats with sessions := st.stats.sessions + 1 } }
  else st

/-- The session-log step of a reference. -/
def pushReferenced (st : ContentStore) (sid : SessionId) (id : BlockId) : ContentStore :=
  { st with
    sessions := pushLog st.sessions sid id
    stats := { st.stats with blocksDeduped := st.stats.blocksDeduped + 1 } }

end Core.ContentStore

namespace Resolved

/-- The session-log step of an entry. -/
def push [Blake3] (sid : SessionId) (st : ContentStore) : Resolved → ContentStore
  | inline id _ => st.pushInserted sid id
  | ref id => st.pushReferenced sid id

/-- The record of an entry: in full when its block is newly stored, else by its id. -/
def record (sid : SessionId) (newly : Bool) : Resolved → Wal.Record
  | inline id block =>
      if newly then .insert sid (canonicalBytes block) else .reference sid id
  | ref id => .reference sid id

end Resolved

/-- What is left to do of an APPEND. -/
inductive AppendPhase
  | resolving
  | validating (available : List BlockId) (rest resolved : List Resolved)
  | applying (rest : List Resolved)
  /-- The block of `item` is in the block map. -/
  | pushing (item : Resolved) (newly : Bool) (rest : List Resolved)
  /-- The id of `item` is in the session log, its record is not written. -/
  | logging (item : Resolved) (newly : Bool) (rest : List Resolved)
  | flushing (root : MerkleRoot)
  /-- The log is flushed and the ACK with this root is sent. -/
  | exposed (root : MerkleRoot)
  | refused (e : ReceiverError)
  | unflushed (e : IoError)
  deriving DecidableEq

/-- What is left to do of a BULK. -/
inductive BulkPhase
  | fetching
  | decoding
  | storing (ids : List BlockId) (rest : List (Block × BlockId))
  /-- The block is in the block map, its record is not written. -/
  | logging (ids : List BlockId) (block : Block) (id : BlockId) (rest : List (Block × BlockId))
  | flushing (completion : Option MerkleRoot)
  | answered (completion : Option MerkleRoot)
  | refused (e : ReceiverError)
  | unflushed (e : IoError)
  deriving DecidableEq

/-- Whether the APPEND holds the sessions mutex. -/
def AppendPhase.locksSessions : AppendPhase → Bool
  | applying _ => true
  | pushing _ _ _ => true
  | logging _ _ _ => true
  | _ => false

namespace Receiver

variable [Blake3] [Zstd]

/-- Take the sessions mutex and decide what becomes of an APPEND. The mutex is kept only
for its mutation. -/
def lockAppend (r : Receiver) (frame : AppendFrame) (resolved : List Resolved) :
    Receiver × AppendPhase :=
  let sid := frame.sessionId
  let r := r.setSession sid (r.session sid)
  if (r.session sid).pending ≠ ∅ then
    (r, .refused (.coldStartInProgress sid))
  else
    let curRoot := r.store.sessionRoot sid
    let targetRoot := resolved.foldl (fun root item => appendRoot root item.id) frame.baseRoot
    if frame.baseRoot ≠ curRoot then
      if targetRoot = curRoot then (r, .flushing curRoot)
      else (r, .refused (.baseRootMismatch sid frame.baseRoot curRoot))
    else (r, .applying resolved)

/-- The next step of an APPEND. -/
def stepAppend (sync : Bool) (frame : AppendFrame) (r : Receiver) :
    AppendPhase → Receiver × AppendPhase
  | .resolving =>
      match frame.blocks.mapM (resolveBlock r.compressor) with
      | .error e => (r, .refused e)
      | .ok resolved => (r, .validating [] resolved resolved)
  | .validating available (.inline id _ :: rest) resolved =>
      (r, .validating (id :: available) rest resolved)
  | .validating available (.ref id :: rest) resolved =>
      if r.store.contains id || decide (id ∈ available) then
        (r, .validating available rest resolved)
      else (r, .refused .missingRef)
  | .validating _ [] resolved => r.lockAppend frame resolved
  | .applying (.inline id block :: rest) =>
      let (store, newly) := r.store.storeBlock block id
      ({ r with store }, .pushing (.inline id block) newly rest)
  | .applying (.ref id :: rest) =>
      if r.store.contains id then (r, .pushing (.ref id) false rest)
      else (r, .refused .missingRef)
  | .applying [] => (r, .flushing (r.store.sessionRoot frame.sessionId))
  | .pushing item newly rest =>
      ({ r with store := item.push frame.sessionId r.store }, .logging item newly rest)
  | .logging item newly rest =>
      ({ r with store := r.store.logWal (·.append (item.record frame.sessionId newly)) },
        .applying rest)
  | .flushing root =>
      match r.store.flushWal sync with
      | (.ok (), store) => ({ r with store }, .exposed root)
      | (.error e, store) => ({ r with store }, .unflushed e)
  | .exposed root => (r, .exposed root)
  | .refused e => (r, .refused e)
  | .unflushed e => (r, .unflushed e)

/-- Keep a decoder of the frame's generation. -/
def keepDecoder (r : Receiver) (frame : BulkFrame) (d : FountainDecoder) : Receiver :=
  let st := r.session frame.sessionId
  r.setSession frame.sessionId { st with decoders := st.decoders.set frame.generation d }

/-- The decoder of the frame's generation, a new one on first contact. -/
def decoderOf (r : Receiver) (frame : BulkFrame) : FountainDecoder :=
  ((r.session frame.sessionId).decoders.get? frame.generation).getD
    (FountainDecoder.new frame.k.toNat frame.symbolSize.toNat)

/-- Retire a recovered generation and detect the end of the cold start. -/
def retireGeneration (r : Receiver) (sid : SessionId) (generation : UInt32)
    (ids : List BlockId) : Option MerkleRoot × Receiver :=
  let st := r.session sid
  let pending := st.pending \ ids.toFinset
  let decoders := st.decoders.unset generation
  if pending = ∅ ∧ st.acked = false then
    (some (r.store.sessionRoot sid), r.setSession sid { pending, acked := true, decoders })
  else
    (none, r.setSession sid { st with pending, decoders })

/-- Feed the decoder and try to decode, parse and decompress its generation. Of several
records that fail the error of the first is kept; no later step depends on which it is. -/
def decodeGeneration (r : Receiver) (frame : BulkFrame) : Receiver × BulkPhase :=
  match (r.decoderOf frame).addAll frame.symbols with
  | (.error e, d) => (r.keepDecoder frame d, .refused (.fountain e.toText))
  | (.ok (), d) =>
      match d.decode with
      | (.error (.underdetermined _ _), d) => (r.keepDecoder frame d, .flushing none)
      | (.error e, d) => (r.keepDecoder frame d, .refused (.fountain e.toText))
      | (.ok symbols, d) =>
          match (parseRecords symbols.flatten).mapM (recoverBlock r.compressor) with
          | .error e => (r.keepDecoder frame d, .refused e)
          | .ok recovered =>
              (r.keepDecoder frame d, .storing (recovered.map Prod.snd) recovered)

/-- The next step of a BULK. It waits where it needs the sessions mutex and `locked`
says that an APPEND holds it. -/
def stepBulk (sync : Bool) (frame : BulkFrame) (locked : Bool) (r : Receiver) :
    BulkPhase → Receiver × BulkPhase
  | .fetching =>
      if locked then (r, .fetching) else (r.keepDecoder frame (r.decoderOf frame), .decoding)
  | .decoding => r.decodeGeneration frame
  | .storing ids ((block, id) :: rest) =>
      let (store, newly) := r.store.storeBlock block id
      ({ r with store }, if newly then .logging ids block id rest else .storing ids rest)
  | .storing ids [] =>
      if locked then (r, .storing ids [])
      else
        let (completion, r) := r.retireGeneration frame.sessionId frame.generation ids
        (r, .flushing completion)
  | .logging ids block _ rest =>
      ({ r with
          store := r.store.logWal (·.append (.content frame.sessionId (canonicalBytes block))) },
        .storing ids rest)
  | .flushing completion =>
      match r.store.flushWal sync with
      | (.ok (), store) => ({ r with store }, .answered completion)
      | (.error e, store) => ({ r with store }, .unflushed e)
  | .answered completion => (r, .answered completion)
  | .refused e => (r, .refused e)
  | .unflushed e => (r, .unflushed e)

/-! ## A request that runs alone -/

section Alone

variable (sync : Bool)

/-- The states an APPEND that runs alone passes through. -/
abbrev AppendAlone (frame : AppendFrame) : Receiver × AppendPhase → Receiver × AppendPhase → Prop :=
  Relation.ReflTransGen fun p q => stepAppend sync frame p.1 p.2 = q

/-- The states a BULK that runs alone passes through. -/
abbrev BulkAlone (frame : BulkFrame) : Receiver × BulkPhase → Receiver × BulkPhase → Prop :=
  Relation.ReflTransGen fun p q => stepBulk sync frame false p.1 p.2 = q

theorem validating_alone (r : Receiver) (frame : AppendFrame) (resolved rest : List Resolved)
    (available : List BlockId) :
    AppendAlone sync frame (r, .validating available rest resolved)
      (if refsAvailable r.store available rest then r.lockAppend frame resolved
        else (r, .refused .missingRef)) := by
  induction rest generalizing available with
  | nil => exact .single rfl
  | cons item rest ih =>
      cases item with
      | inline id block => exact .head rfl (ih (id :: available))
      | ref id =>
          by_cases hid : (r.store.contains id || decide (id ∈ available)) = true
          · refine .head (b := (r, .validating available rest resolved))
              (by simp only [stepAppend, hid, if_true]) ?_
            simp only [refsAvailable, hid, Bool.true_and]
            exact ih available
          · refine .single ?_
            simp only [stepAppend, refsAvailable, hid, Bool.false_and]
            rfl

theorem applying_alone (frame : AppendFrame) (rest : List Resolved) (r : Receiver) :
    AppendAlone sync frame (r, .applying rest)
      (match applyResolved frame.sessionId rest r.store with
        | (.error e, store) => ({ r with store }, .refused e)
        | (.ok (), store) => ({ r with store }, .flushing (store.sessionRoot frame.sessionId))) := by
  induction rest generalizing r with
  | nil => exact .single rfl
  | cons item rest ih =>
      cases item with
      | inline id block =>
          refine .head rfl (.head rfl (.head rfl ?_))
          have hinsert : (r.store.insertWithId frame.sessionId block id).1 =
              ((r.store.storeBlock block id).1.pushInserted frame.sessionId id).logWal
                (·.append (Resolved.record frame.sessionId (r.store.storeBlock block id).2
                  (.inline id block))) := by
            simp only [ContentStore.insertWithId, ContentStore.insertWithCanonical,
              Resolved.record]
            cases (r.store.storeBlock block id).2 <;> rfl
          simp only [applyResolved, hinsert]
          exact ih _
      | ref id =>
          cases hid : r.store.blocks.get? id with
          | none =>
              refine .single ?_
              simp only [stepAppend, applyResolved, ContentStore.contains, hid,
                ContentStore.reference_of_absent _ _ _ hid]
              rfl
          | some b =>
              refine .head (b := (r, .pushing (.ref id) false rest)) ?_
                (.head rfl (.head rfl ?_))
              · simp [stepAppend, ContentStore.contains, hid]
              · simp only [applyResolved, ContentStore.reference, hid]
                exact ih _

/-- An APPEND that runs alone ends as the handler does. -/
theorem handleAppend_alone (r : Receiver) (frame : AppendFrame) :
    AppendAlone sync frame (r, .resolving)
      (match r.handleAppend frame with
        | (.error e, r) => (r, .refused e)
        | (.ok ack, r) => (r, .flushing ack.root)) := by
  unfold handleAppend
  cases hres : frame.blocks.mapM (resolveBlock r.compressor) with
  | error e => exact .single (by simp [stepAppend, hres])
  | ok resolved =>
      have hvalid := validating_alone sync r frame resolved resolved []
      refine .head (b := (r, .validating [] resolved resolved)) (by simp [stepAppend, hres]) ?_
      by_cases havail : refsAvailable r.store [] resolved = true
      · rw [if_pos havail] at hvalid
        simp only [havail, if_true, appendResolved]
        refine hvalid.trans ?_
        unfold lockAppend
        simp only
        split_ifs with hpend hbase htarget
        · exact .refl
        · exact .refl
        · exact .refl
        · refine (applying_alone sync frame resolved _).trans ?_
          rcases applyResolved frame.sessionId resolved
            (r.setSession frame.sessionId (r.session frame.sessionId)).store with ⟨e | u, store⟩
          · exact .refl
          · exact .refl
      · rw [if_neg havail] at hvalid
        simp only
        rw [if_neg havail]
        exact hvalid

theorem storing_alone (frame : BulkFrame) (ids : List BlockId) (rest : List (Block × BlockId))
    (r : Receiver) :
    BulkAlone sync frame (r, .storing ids rest)
      ({ r with store := storeRecovered frame.sessionId rest r.store }, .storing ids []) := by
  induction rest generalizing r with
  | nil => exact .refl
  | cons b rest ih =>
      obtain ⟨block, id⟩ := b
      simp only [storeRecovered, List.foldl_cons, ContentStore.storeContentWithId]
      cases hnew : (r.store.storeBlock block id).2 with
      | false =>
          refine .head (b := ({ r with store := (r.store.storeBlock block id).1 },
            .storing ids rest)) ?_ (ih _)
          simp only [stepBulk, hnew]
          rfl
      | true =>
          refine .head (b := ({ r with store := (r.store.storeBlock block id).1 },
            .logging ids block id rest)) ?_ (.head rfl (ih _))
          simp only [stepBulk, hnew]
          rfl

/-- A BULK that runs alone ends as the handler does. -/
theorem handleBulk_alone (r : Receiver) (frame : BulkFrame) :
    BulkAlone sync frame (r, .fetching)
      (match r.handleBulk frame with
        | (.error e, r) => (r, .refused e)
        | (.ok completion, r) => (r, .flushing completion)) := by
  have hdecoder : ∀ d, (r.keepDecoder frame d).decoderOf frame = d := by
    intro d
    simp [decoderOf, keepDecoder]
  have hkeep : ∀ d d', (r.keepDecoder frame d).keepDecoder frame d' = r.keepDecoder frame d' := by
    intro d d'
    simp only [keepDecoder, session_setSession_self, FinMap.set_set]
    simp [setSession]
  refine .head (b := (r.keepDecoder frame (r.decoderOf frame), .decoding)) rfl ?_
  have hstep : stepBulk sync frame false (r.keepDecoder frame (r.decoderOf frame)) .decoding =
      (r.keepDecoder frame (r.decoderOf frame)).decodeGeneration frame := rfl
  simp only [handleBulk, handleBulkWith, recoverRecords_zero]
  rw [← decoderOf]
  unfold decodeGeneration at hstep
  rw [hdecoder] at hstep
  rcases hadd : (r.decoderOf frame).addAll frame.symbols with ⟨e | u, d⟩
  · simp only [hadd, hkeep] at hstep
    exact .single hstep
  · simp only [hadd] at hstep ⊢
    rcases hdec : d.decode with ⟨e | symbols, d'⟩
    · cases e <;>
        · simp only [hdec, hkeep] at hstep
          exact .single hstep
    · simp only [hdec, hkeep] at hstep
      simp only
      cases hrec : (parseRecords symbols.flatten).mapM (recoverBlock r.compressor) with
      | error e =>
          have hrec' : (parseRecords symbols.flatten).mapM
              (recoverBlock (r.keepDecoder frame (r.decoderOf frame)).compressor) = .error e := hrec
          simp only [hrec'] at hstep
          exact .single hstep
      | ok recovered =>
          have hrec' : (parseRecords symbols.flatten).mapM
              (recoverBlock (r.keepDecoder frame (r.decoderOf frame)).compressor) =
                .ok recovered := hrec
          simp only [hrec'] at hstep
          refine .head hstep ((storing_alone sync frame _ recovered _).trans ?_)
          exact .single rfl

end Alone

end Receiver

end Dlr
