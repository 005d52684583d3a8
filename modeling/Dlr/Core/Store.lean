import Dlr.Core.Wal
import Dlr.Lib.FinMap

/-!
# Content-addressed store

The store maps block ids to blocks and sessions to their ordered id list and
running root. Every mutation is shadowed to the write-ahead log when one is
attached. A mutation consists of at most three atomic steps: the block-map
entry, the session-log entry and one locked append to the log.

## Implementation notes

A map entry update is a definition of its own (`putBlock`, `pushLog`), shared
by the live operations and by replay, so that a theorem relating the two never
opens an operation again.
-/

namespace Dlr.Core

open Lib

/-- Counters for observability. -/
structure StoreStats where
  blocksStored : Nat := 0
  bytesStored : Nat := 0
  blocksDeduped : Nat := 0
  sessions : Nat := 0
  deriving DecidableEq, Repr

/-- The ordered ids of one session and the root over them. -/
structure SessionLog where
  ids : List BlockId
  root : MerkleRoot
  deriving DecidableEq

/-- The content-addressed block store with its session logs. -/
structure ContentStore where
  blocks : FinMap BlockId Block := ∅
  sessions : FinMap SessionId SessionLog := ∅
  stats : StoreStats := {}
  wal : Option Wal := none
  /-- The first append failure, surfaced by every later flush. -/
  walError : Option IoError := none

/-- A block-map entry update keeps the block that is already there. -/
def putBlock (blocks : FinMap BlockId Block) (id : BlockId) (b : Block) :
    FinMap BlockId Block :=
  match blocks.get? id with
  | some _ => blocks
  | none => blocks.set id b

/-- The id list and root of a session; an unknown session has the empty log. -/
def logOf (sessions : FinMap SessionId SessionLog) (sid : SessionId) : SessionLog :=
  (sessions.get? sid).getD ⟨[], rootZero⟩

/-- A session-log entry update appends one id and advances the root. -/
def pushLog [Blake3] (sessions : FinMap SessionId SessionLog) (sid : SessionId)
    (id : BlockId) : FinMap SessionId SessionLog :=
  match sessions.get? sid with
  | some log => sessions.set sid ⟨log.ids ++ [id], appendRoot log.root id⟩
  | none => sessions.set sid ⟨[id], appendRoot rootZero id⟩

namespace ContentStore

def new : ContentStore := {}

/-- Keep the first failure. -/
def latchWalError (st : ContentStore) (e : IoError) : ContentStore :=
  { st with walError := st.walError.or (some e) }

def recordWalResult (st : ContentStore) : Except IoError Unit → ContentStore
  | .ok () => st
  | .error e => st.latchWalError e

/-- Run one append on the attached log, if any, and latch its failure. -/
def logWal (st : ContentStore) (append : Wal → Except IoError Unit × Wal) : ContentStore :=
  match st.wal with
  | none => st
  | some w => ({ st with wal := some (append w).2 } : ContentStore).recordWalResult (append w).1

/-- Flush the log. A latched append failure is reported before anything else. -/
def flushWal (st : ContentStore) (sync : Bool) : Except IoError Unit × ContentStore :=
  match st.walError with
  | some e => (.error e, st)
  | none =>
      match st.wal with
      | none => (.ok (), st)
      | some w =>
          match w.flush sync with
          | (.ok (), w') => (.ok (), { st with wal := some w' })
          | (.error e, w') => (.error e, ({ st with wal := some w' } : ContentStore).latchWalError e)

/-- The block-map step: `true` when the block is newly stored. -/
def storeBlock (st : ContentStore) (block : Block) (id : BlockId) : ContentStore × Bool :=
  match st.blocks.get? id with
  | some _ =>
      ({ st with stats := { st.stats with blocksDeduped := st.stats.blocksDeduped + 1 } }, false)
  | none =>
      ({ st with
          blocks := putBlock st.blocks id block
          stats := { st.stats with
            blocksStored := st.stats.blocksStored + 1
            bytesStored := st.stats.bytesStored + block.payload.length } }, true)

section Log

variable [Blake3]

/-- Insert a block whose id the caller has computed, appending it to the session
log. A new block is logged in full, a known one by its id. -/
def insertWithCanonical (st : ContentStore) (sid : SessionId) (block : Block) (id : BlockId)
    (canonical : Option (List UInt8)) : ContentStore × Bool :=
  let (st, newly) := st.storeBlock block id
  let wasNewSession := (st.sessions.get? sid).isNone
  let st := { st with sessions := pushLog st.sessions sid id }
  let st := if wasNewSession then
      { st with stats := { st.stats with sessions := st.stats.sessions + 1 } }
    else st
  if newly then
    (st.logWal fun w => w.appendInsert sid (canonical.getD (canonicalBytes block)), true)
  else
    (st.logWal fun w => w.appendReference sid id, false)

def insertWithId (st : ContentStore) (sid : SessionId) (block : Block) (id : BlockId) :
    ContentStore × Bool :=
  st.insertWithCanonical sid block id none

def insert (st : ContentStore) (sid : SessionId) (block : Block) : ContentStore × Bool :=
  st.insertWithId sid block block.blockId

/-- Append an already stored block to a session log. -/
def reference (st : ContentStore) (sid : SessionId) (id : BlockId) :
    ContentStore × Except String Unit :=
  match st.blocks.get? id with
  | none => (st, .error "referenced block not present in store")
  | some _ =>
      let st := { st with
        sessions := pushLog st.sessions sid id
        stats := { st.stats with blocksDeduped := st.stats.blocksDeduped + 1 } }
      (st.logWal fun w => w.appendReference sid id, .ok ())

end Log

/-- Replace a session log by a manifest and its claimed root. -/
def seedSession (st : ContentStore) (sid : SessionId) (ids : List BlockId)
    (root : MerkleRoot) : ContentStore :=
  let wasNew := (st.sessions.get? sid).isNone
  let st := { st with sessions := st.sessions.set sid ⟨ids, root⟩ }
  let st := if wasNew then
      { st with stats := { st.stats with sessions := st.stats.sessions + 1 } }
    else st
  st.logWal fun w => w.appendSeed sid ids root

/-- Store block content without touching the session log. -/
def storeContentWithId (st : ContentStore) (sid : SessionId) (block : Block) (id : BlockId) :
    ContentStore × Bool :=
  let (st, newly) := st.storeBlock block id
  if newly then
    (st.logWal fun w => w.appendContent sid (canonicalBytes block), true)
  else
    (st, false)

def storeContent [Blake3] (st : ContentStore) (sid : SessionId) (block : Block) : ContentStore × Bool :=
  st.storeContentWithId sid block block.blockId

def get (st : ContentStore) (id : BlockId) : Option Block := st.blocks.get? id

def contains (st : ContentStore) (id : BlockId) : Bool := (st.blocks.get? id).isSome

def sessionRoot (st : ContentStore) (sid : SessionId) : MerkleRoot := (logOf st.sessions sid).root

def sessionIds (st : ContentStore) (sid : SessionId) : List BlockId := (logOf st.sessions sid).ids

def sessionLen (st : ContentStore) (sid : SessionId) : Nat := (st.sessionIds sid).length

/-- The stored blocks of a session in log order; ids without content are skipped. -/
def reconstruct (st : ContentStore) (sid : SessionId) : List Block :=
  (st.sessionIds sid).filterMap st.get

/-- The stored blocks at log positions `lo..hi`, both clamped to the log length. Slicing a
range that runs backwards panics: `none`. -/
def reconstructRange (st : ContentStore) (sid : SessionId) (lo hi : Nat) : Option (List Block) :=
  let lo := min lo (st.sessionLen sid)
  let hi := min hi (st.sessionLen sid)
  if hi < lo then none
  else some ((((st.sessionIds sid).drop lo).take (hi - lo)).filterMap st.get)

/-- A range with ordered bounds is sliced, whatever the length of the log. -/
theorem reconstructRange_of_le (st : ContentStore) (sid : SessionId) {lo hi : Nat} (h : lo ≤ hi) :
    st.reconstructRange sid lo hi =
      some ((((st.sessionIds sid).drop (min lo (st.sessionLen sid))).take
        (min hi (st.sessionLen sid) - min lo (st.sessionLen sid))).filterMap st.get) :=
  if_neg (Nat.not_lt.mpr (min_le_min_right _ h))

section LogWal

variable (st : ContentStore) (append : Wal → Except IoError Unit × Wal)

@[simp] theorem recordWalResult_blocks (r : Except IoError Unit) :
    (st.recordWalResult r).blocks = st.blocks := by
  cases r <;> rfl

@[simp] theorem recordWalResult_sessions (r : Except IoError Unit) :
    (st.recordWalResult r).sessions = st.sessions := by
  cases r <;> rfl

@[simp] theorem recordWalResult_wal (r : Except IoError Unit) :
    (st.recordWalResult r).wal = st.wal := by
  cases r <;> rfl

@[simp] theorem logWal_blocks : (st.logWal append).blocks = st.blocks := by
  unfold logWal
  split <;> simp

@[simp] theorem logWal_sessions : (st.logWal append).sessions = st.sessions := by
  unfold logWal
  split <;> simp

theorem logWal_wal : (st.logWal append).wal = st.wal.map fun w => (append w).2 := by
  unfold logWal
  split <;> simp_all

/-- A latch that is still empty after an append was empty before, and the append
succeeded. -/
theorem logWal_walError (h : (st.logWal append).walError = none) :
    st.walError = none ∧ ∀ w, st.wal = some w → (append w).1 = .ok () := by
  unfold logWal at h
  split at h
  · rename_i hw
    exact ⟨h, fun w hw' => by rw [hw] at hw'; cases hw'⟩
  · rename_i w hw
    unfold recordWalResult at h
    split at h
    · rename_i hr
      refine ⟨h, fun w' hw' => ?_⟩
      rw [hw] at hw'
      cases hw'
      exact hr
    · rename_i e hr
      simp [latchWalError] at h

end LogWal

section Flush

variable (st : ContentStore) (sync : Bool)

@[simp] theorem flushWal_blocks : (st.flushWal sync).2.blocks = st.blocks := by
  unfold flushWal
  split
  · rfl
  · split
    · rfl
    · split <;> rfl

@[simp] theorem flushWal_sessions : (st.flushWal sync).2.sessions = st.sessions := by
  unfold flushWal
  split
  · rfl
  · split
    · rfl
    · split <;> rfl

end Flush

/-! The effect of each operation on the two maps. -/

section Effects

variable (st : ContentStore) (sid : SessionId) (block : Block) (id : BlockId)

@[simp] theorem storeBlock_blocks :
    (st.storeBlock block id).1.blocks = putBlock st.blocks id block := by
  unfold storeBlock putBlock
  cases h : st.blocks.get? id <;> simp

@[simp] theorem storeBlock_sessions : (st.storeBlock block id).1.sessions = st.sessions := by
  unfold storeBlock
  split <;> rfl

@[simp] theorem storeBlock_wal : (st.storeBlock block id).1.wal = st.wal := by
  unfold storeBlock
  split <;> rfl

@[simp] theorem storeBlock_walError : (st.storeBlock block id).1.walError = st.walError := by
  unfold storeBlock
  split <;> rfl

@[simp] theorem storeBlock_newly :
    (st.storeBlock block id).2 = (st.blocks.get? id).isNone := by
  unfold storeBlock
  split <;> simp_all

@[simp] theorem storeContentWithId_blocks :
    (st.storeContentWithId sid block id).1.blocks = putBlock st.blocks id block := by
  unfold storeContentWithId
  simp only
  split_ifs <;> simp

@[simp] theorem storeContentWithId_sessions :
    (st.storeContentWithId sid block id).1.sessions = st.sessions := by
  unfold storeContentWithId
  simp only
  split_ifs <;> simp

@[simp] theorem seedSession_blocks (ids : List BlockId) (root : MerkleRoot) :
    (st.seedSession sid ids root).blocks = st.blocks := by
  unfold seedSession
  simp only [logWal_blocks]
  split_ifs <;> rfl

@[simp] theorem seedSession_sessions (ids : List BlockId) (root : MerkleRoot) :
    (st.seedSession sid ids root).sessions = st.sessions.set sid ⟨ids, root⟩ := by
  unfold seedSession
  simp only [logWal_sessions]
  split_ifs <;> rfl

variable [Blake3]

@[simp] theorem insertWithCanonical_blocks (c : Option (List UInt8)) :
    (st.insertWithCanonical sid block id c).1.blocks = putBlock st.blocks id block := by
  unfold insertWithCanonical
  simp only
  split_ifs <;> simp

@[simp] theorem insertWithCanonical_sessions (c : Option (List UInt8)) :
    (st.insertWithCanonical sid block id c).1.sessions = pushLog st.sessions sid id := by
  unfold insertWithCanonical
  simp only
  split_ifs <;> simp

@[simp] theorem reference_blocks : (st.reference sid id).1.blocks = st.blocks := by
  unfold reference
  split <;> simp

theorem reference_of_contains {b : Block} (h : st.blocks.get? id = some b) :
    (st.reference sid id).1.sessions = pushLog st.sessions sid id ∧
      (st.reference sid id).2 = .ok () := by
  unfold reference
  simp [h]

theorem reference_of_absent (h : st.blocks.get? id = none) :
    st.reference sid id = (st, .error "referenced block not present in store") := by
  unfold reference
  simp [h]

end Effects

end ContentStore

section Maps

theorem putBlock_get? (blocks : FinMap BlockId Block) (id k : BlockId) (b : Block) :
    (putBlock blocks id b).get? k =
      if k = id then some ((blocks.get? id).getD b) else blocks.get? k := by
  unfold putBlock
  cases h : blocks.get? id with
  | some c =>
      by_cases hk : k = id
      · subst hk; simp [h]
      · simp [hk]
  | none => simp [FinMap.get?_set]

/-- A stored block stays under its id. -/
theorem putBlock_preserves {blocks : FinMap BlockId Block} {k : BlockId} {c : Block}
    (id : BlockId) (b : Block) (h : blocks.get? k = some c) :
    (putBlock blocks id b).get? k = some c := by
  rw [putBlock_get?]
  by_cases hk : k = id
  · subst hk; simp [h]
  · simp [hk, h]

theorem putBlock_self_isSome (blocks : FinMap BlockId Block) (id : BlockId) (b : Block) :
    ((putBlock blocks id b).get? id).isSome := by
  simp [putBlock_get?]

theorem logOf_set (sessions : FinMap SessionId SessionLog) (sid s : SessionId)
    (log : SessionLog) :
    logOf (sessions.set sid log) s = if s = sid then log else logOf sessions s := by
  unfold logOf
  by_cases hs : s = sid <;> simp [hs]

theorem logOf_pushLog [Blake3] (sessions : FinMap SessionId SessionLog) (sid s : SessionId)
    (id : BlockId) :
    logOf (pushLog sessions sid id) s =
      if s = sid then
        ⟨(logOf sessions sid).ids ++ [id], appendRoot (logOf sessions sid).root id⟩
      else logOf sessions s := by
  unfold pushLog
  cases h : sessions.get? sid with
  | some log => by_cases hs : s = sid <;> simp [logOf, h, hs]
  | none => by_cases hs : s = sid <;> simp [logOf, h, hs]

end Maps

end Dlr.Core
