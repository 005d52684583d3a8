import Dlr.Core.CrashConsistency

/-!
# Counters and contents of the store

The counters for stored blocks and bytes follow the block map, because only one place adds to
either. The counter for sessions follows the session map only as far as each operation that can
create a session remembers it, and a reference does not.

## Implementation notes

The counters are 64-bit atomics that wrap; a snapshot of them is the exact count modulo `2 ^ 64`.
An operation takes the id from its caller, whether or not it is the hash of the block.
-/

namespace Dlr.Core

open Lib Wal

/-- What `stats()` reads. -/
def StoreStats.snapshot (stats : StoreStats) : StoreStats where
  blocksStored := stats.blocksStored % 2 ^ 64
  bytesStored := stats.bytesStored % 2 ^ 64
  blocksDeduped := stats.blocksDeduped % 2 ^ 64
  sessions := stats.sessions % 2 ^ 64

/-- The operations that change a store. -/
inductive Mutation
  | insertWithCanonical (sid : SessionId) (block : Block) (id : BlockId)
      (canonical : Option (List UInt8))
  | reference (sid : SessionId) (id : BlockId)
  | seedSession (sid : SessionId) (ids : List BlockId) (root : MerkleRoot)
  | storeContentWithId (sid : SessionId) (block : Block) (id : BlockId)

namespace ContentStore

/-- The payload bytes of all blocks. -/
def payloadBytes (st : ContentStore) : Nat := st.blocks.sumOf fun b => b.payload.length

/-- The counters are right about the maps. -/
structure StatsMatch (st : ContentStore) : Prop where
  blocks : st.stats.snapshot.blocksStored = st.blocks.size
  bytes : st.stats.snapshot.bytesStored = st.payloadBytes
  sessions : st.stats.snapshot.sessions = st.sessions.size

/-- The contents can be counted in 64 bits. -/
structure Countable (st : ContentStore) : Prop where
  blocks : st.blocks.size < 2 ^ 64
  bytes : st.payloadBytes < 2 ^ 64
  sessions : st.sessions.size < 2 ^ 64

section Run

variable [Blake3]

def mutate (st : ContentStore) : Mutation → ContentStore
  | .insertWithCanonical sid block id canonical =>
      (st.insertWithCanonical sid block id canonical).1
  | .reference sid id => (st.reference sid id).1
  | .seedSession sid ids root => st.seedSession sid ids root
  | .storeContentWithId sid block id => (st.storeContentWithId sid block id).1

def mutateAll (st : ContentStore) (ops : List Mutation) : ContentStore := ops.foldl mutate st

end Run

/-- A reference of a stored block that creates its session. -/
def Untracked (st : ContentStore) : Mutation → Prop
  | .reference sid id => (st.blocks.get? id).isSome ∧ (st.sessions.get? sid).isNone
  | _ => False

/-- No step of a run creates its session by a reference. -/
def AllTracked [Blake3] : ContentStore → List Mutation → Prop
  | _, [] => True
  | st, op :: ops => ¬ st.Untracked op ∧ (st.mutate op).AllTracked ops

/-! ## One operation -/

/-- The exact counters: those of the block map agree with it, and the one for sessions misses
`lost` of them. -/
structure Accounts (st : ContentStore) (lost : Nat) : Prop where
  blocks : st.stats.blocksStored = st.blocks.size
  bytes : st.stats.bytesStored = st.payloadBytes
  sessions : st.stats.sessions + lost = st.sessions.size

theorem accounts_new : new.Accounts 0 := ⟨rfl, rfl, rfl⟩

@[simp] theorem recordWalResult_stats (st : ContentStore) (r : Except IoError Unit) :
    (st.recordWalResult r).stats = st.stats := by
  cases r <;> rfl

@[simp] theorem logWal_stats (st : ContentStore) (append : Wal → Except IoError Unit × Wal) :
    (st.logWal append).stats = st.stats := by
  unfold logWal
  split <;> simp

/-- Logging does not touch what is counted. -/
theorem Accounts.logWal {st : ContentStore} {lost : Nat} (h : st.Accounts lost)
    (append : Wal → Except IoError Unit × Wal) : (st.logWal append).Accounts lost := by
  refine ⟨?_, ?_, ?_⟩
  · rw [logWal_stats, logWal_blocks, h.blocks]
  · rw [logWal_stats, payloadBytes, logWal_blocks, h.bytes, payloadBytes]
  · rw [logWal_stats, logWal_sessions, h.sessions]

theorem Accounts.storeBlock {st : ContentStore} {lost : Nat} (h : st.Accounts lost) (block : Block)
    (id : BlockId) : (st.storeBlock block id).1.Accounts lost := by
  unfold ContentStore.storeBlock
  cases hget : st.blocks.get? id with
  | some b => exact ⟨h.blocks, h.bytes, h.sessions⟩
  | none =>
      have hput : putBlock st.blocks id block = st.blocks.set id block := by rw [putBlock, hget]
      refine ⟨?_, ?_, h.sessions⟩
      · change st.stats.blocksStored + 1 = (putBlock st.blocks id block).size
        rw [hput, FinMap.size_set_of_none block hget, h.blocks]
      · change st.stats.bytesStored + block.payload.length =
          (putBlock st.blocks id block).sumOf fun b => b.payload.length
        rw [hput, FinMap.sumOf_set _ block hget, h.bytes, payloadBytes, Nat.add_comm]

/-- A session entry that is written and counted when it is new. -/
theorem Accounts.writeSession {st : ContentStore} {lost : Nat} (h : st.Accounts lost)
    (sid : SessionId) (log : SessionLog) :
    (if (st.sessions.get? sid).isNone then
      { st with sessions := st.sessions.set sid log,
                stats := { st.stats with sessions := st.stats.sessions + 1 } }
    else { st with sessions := st.sessions.set sid log } : ContentStore).Accounts lost := by
  cases hget : st.sessions.get? sid with
  | none =>
      refine ⟨h.blocks, h.bytes, ?_⟩
      change st.stats.sessions + 1 + lost = (st.sessions.set sid log).size
      rw [FinMap.size_set_of_none log hget, ← h.sessions]
      omega
  | some old =>
      refine ⟨h.blocks, h.bytes, ?_⟩
      change st.stats.sessions + lost = (st.sessions.set sid log).size
      rw [FinMap.size_set_of_some log hget, h.sessions]

theorem pushLog_eq_set [Blake3] (sessions : FinMap SessionId SessionLog) (sid : SessionId)
    (id : BlockId) : ∃ log, pushLog sessions sid id = sessions.set sid log := by
  unfold pushLog
  cases sessions.get? sid with
  | none => exact ⟨_, rfl⟩
  | some log => exact ⟨_, rfl⟩

theorem Accounts.seedSession {st : ContentStore} {lost : Nat} (h : st.Accounts lost)
    (sid : SessionId) (ids : List BlockId) (root : MerkleRoot) :
    (st.seedSession sid ids root).Accounts lost := by
  have hwrite := h.writeSession sid ⟨ids, root⟩
  unfold ContentStore.seedSession
  apply Accounts.logWal
  cases hget : st.sessions.get? sid with
  | none =>
      rw [hget] at hwrite
      exact hwrite
  | some old =>
      rw [hget] at hwrite
      exact hwrite

theorem Accounts.storeContentWithId {st : ContentStore} {lost : Nat} (h : st.Accounts lost)
    (sid : SessionId) (block : Block) (id : BlockId) :
    (st.storeContentWithId sid block id).1.Accounts lost := by
  have hstore := h.storeBlock block id
  unfold ContentStore.storeContentWithId
  cases hnew : (st.storeBlock block id).2 with
  | true => simp only [hnew]; exact hstore.logWal _
  | false => simp only [hnew]; exact hstore

theorem Accounts.insertWithCanonical [Blake3] {st : ContentStore} {lost : Nat}
    (h : st.Accounts lost) (sid : SessionId) (block : Block) (id : BlockId)
    (canonical : Option (List UInt8)) :
    (st.insertWithCanonical sid block id canonical).1.Accounts lost := by
  obtain ⟨log, hlog⟩ := pushLog_eq_set (st.storeBlock block id).1.sessions sid id
  have hwrite := (h.storeBlock block id).writeSession sid log
  unfold ContentStore.insertWithCanonical
  simp only [hlog]
  split_ifs at hwrite ⊢ with hsession hnew
  all_goals exact hwrite.logWal _

/-- A reference to an unknown session is the one step that loses a session. -/
theorem Accounts.reference [Blake3] {st : ContentStore} {lost : Nat} (h : st.Accounts lost)
    (sid : SessionId) (id : BlockId) :
    ∃ more, (st.reference sid id).1.Accounts (lost + more) ∧
      (more = 0 ↔ ¬ st.Untracked (.reference sid id)) := by
  cases hblock : st.blocks.get? id with
  | none =>
      rw [reference_of_absent st sid id hblock]
      refine ⟨0, h, iff_of_true rfl ?_⟩
      rintro ⟨hstored, -⟩
      rw [hblock] at hstored
      cases hstored
  | some b =>
      obtain ⟨log, hlog⟩ := pushLog_eq_set st.sessions sid id
      unfold ContentStore.reference
      rw [hblock]
      dsimp only
      rw [hlog]
      cases hsession : st.sessions.get? sid with
      | none =>
          refine ⟨1, Accounts.logWal ?_ _, ?_⟩
          · refine ⟨h.blocks, h.bytes, ?_⟩
            change st.stats.sessions + (lost + 1) = (st.sessions.set sid log).size
            rw [FinMap.size_set_of_none log hsession, ← h.sessions]
            omega
          · refine iff_of_false Nat.one_ne_zero ?_
            rw [not_not]
            exact ⟨by rw [hblock]; rfl, by rw [hsession]; rfl⟩
      | some old =>
          refine ⟨0, Accounts.logWal ?_ _, iff_of_true rfl ?_⟩
          · refine ⟨h.blocks, h.bytes, ?_⟩
            change st.stats.sessions + lost = (st.sessions.set sid log).size
            rw [FinMap.size_set_of_some log hsession, h.sessions]
          · rintro ⟨-, hnew⟩
            rw [hsession] at hnew
            cases hnew

theorem Accounts.mutate [Blake3] {st : ContentStore} {lost : Nat} (h : st.Accounts lost)
    (op : Mutation) :
    ∃ more, (st.mutate op).Accounts (lost + more) ∧ (more = 0 ↔ ¬ st.Untracked op) := by
  cases op with
  | insertWithCanonical sid block id canonical =>
      exact ⟨0, h.insertWithCanonical sid block id canonical, iff_of_true rfl fun hop => hop⟩
  | reference sid id => exact h.reference sid id
  | seedSession sid ids root => exact ⟨0, h.seedSession sid ids root, iff_of_true rfl fun hop => hop⟩
  | storeContentWithId sid block id =>
      exact ⟨0, h.storeContentWithId sid block id, iff_of_true rfl fun hop => hop⟩

/-! ## Whole runs -/

theorem Accounts.mutateAll [Blake3] {st : ContentStore} {lost : Nat} (h : st.Accounts lost)
    (ops : List Mutation) :
    ∃ more, (st.mutateAll ops).Accounts (lost + more) ∧ (more = 0 ↔ st.AllTracked ops) := by
  induction ops generalizing st lost with
  | nil => exact ⟨0, h, iff_of_true rfl trivial⟩
  | cons op rest ih =>
      obtain ⟨first, hfirst, hiff⟩ := h.mutate op
      obtain ⟨later, hlater, hiff'⟩ := ih hfirst
      refine ⟨first + later, ?_, ?_⟩
      · rw [← Nat.add_assoc]
        exact hlater
      · rw [AllTracked, ← hiff, ← hiff']
        omega

/-- The counters are right exactly when no session was lost and the contents can be counted. -/
theorem Accounts.statsMatch_iff {st : ContentStore} {lost : Nat} (h : st.Accounts lost) :
    st.StatsMatch ↔ lost = 0 ∧ st.Countable := by
  have hblocks := h.blocks
  have hbytes := h.bytes
  have hsessions := h.sessions
  constructor
  · rintro ⟨hb, hy, hs⟩
    simp only [StoreStats.snapshot] at hb hy hs
    refine ⟨by omega, by omega, by omega, by omega⟩
  · rintro ⟨rfl, hb, hy, hs⟩
    refine ⟨?_, ?_, ?_⟩
    all_goals
      simp only [StoreStats.snapshot]
      omega

end ContentStore

/-! ## Replay -/

namespace Wal

variable [Blake3]

/-- The operation that replay makes of a record; one without a block in it is skipped. -/
def recordMutation : Record → Option Mutation
  | .insert sid canonical =>
      match fromCanonical canonical with
      | .ok block => some (.insertWithCanonical sid block block.blockId none)
      | .error _ => none
  | .reference sid id => some (.reference sid id)
  | .seed sid ids root => some (.seedSession sid ids root)
  | .content sid canonical =>
      match fromCanonical canonical with
      | .ok block => some (.storeContentWithId sid block block.blockId)
      | .error _ => none

def decodeMutation (sid : SessionId) (variant : UInt8) (payload : List UInt8) : Option Mutation :=
  (decodeRecord sid variant payload).bind recordMutation

theorem replayRecord_eq_mutateAll (st : ContentStore) (sid : SessionId) (variant : UInt8)
    (payload : List UInt8) :
    replayRecord st sid variant payload =
      st.mutateAll (decodeMutation sid variant payload).toList := by
  unfold replayRecord decodeMutation decodeRecord
  split_ifs with h₁ h₂ h₃ h₄ h₅ h₆
  · rw [Option.bind_some, recordMutation]
    cases fromCanonical payload <;> rfl
  · rfl
  · rfl
  · dsimp only
    rw [if_pos h₆.2]
    rfl
  · dsimp only
    rw [if_neg fun hneed => h₆ ⟨h₅, hneed⟩]
    rfl
  · exact absurd ‹_ ∧ _›.1 h₅
  · rfl
  · rw [Option.bind_some, recordMutation]
    cases fromCanonical payload <;> rfl
  · rfl

/-- The operations that replay makes of a file. -/
def mutations (file : List UInt8) : List Mutation :=
  match _h : readRecord file with
  | .error _ => []
  | .ok none => []
  | .ok (some (sid, variant, payload, rest)) =>
      (decodeMutation sid variant payload).toList ++ mutations rest
  termination_by file.length
  decreasing_by
    rw [readRecord_length _h]
    simp only [header]
    omega

theorem mutations_of_read {file rest payload : List UInt8} {sid : SessionId} {variant : UInt8}
    (h : readRecord file = .ok (some (sid, variant, payload, rest))) :
    mutations file = (decodeMutation sid variant payload).toList ++ mutations rest := by
  rw [mutations]
  split <;> simp_all

theorem mutations_of_end {file : List UInt8} (h : readRecord file = .ok none) :
    mutations file = [] := by
  rw [mutations]
  split <;> simp_all

/-- Replay is a run of the operations of the file. -/
theorem replayFrom_eq_mutateAll {start stop : Nat} {file : List UInt8} {st st' : ContentStore}
    (h : replayFrom start file st = .ok (st', stop)) : st' = st.mutateAll (mutations file) := by
  apply replayFrom_rule (motive := fun _ file st => st' = st.mutateAll (mutations file)) ?_ ?_ h
  · intro file hend
    rw [mutations_of_end hend]
    rfl
  · intro _ file st sid variant payload rest hread hrest
    rw [hrest, mutations_of_read hread, replayRecord_eq_mutateAll, ContentStore.mutateAll,
      ContentStore.mutateAll, ContentStore.mutateAll, List.foldl_append]

end Wal

namespace ContentStore

section Opened

variable [Blake3]

/-- A store opened on a log has lost the sessions that its records lose. -/
theorem accounts_withWal {file : List UInt8} {writes : List (Option (Nat × IoError))}
    {flushes : List (Option IoError)} {st : ContentStore}
    (h : withWal file writes flushes = .ok st) :
    ∃ lost, st.Accounts lost ∧ (lost = 0 ↔ new.AllTracked (mutations file)) := by
  unfold withWal at h
  cases hrun : replay file new with
  | error e =>
      rw [hrun] at h
      cases h
  | ok result =>
      obtain ⟨rebuilt, stop⟩ := result
      rw [hrun] at h
      cases h
      obtain ⟨lost, hlost, hiff⟩ := accounts_new.mutateAll (mutations file)
      rw [← replayFrom_eq_mutateAll hrun, Nat.zero_add] at hlost
      exact ⟨lost, ⟨hlost.blocks, hlost.bytes, hlost.sessions⟩, hiff⟩

/-- In every run from a new store, and from one rebuilt from any log, the counters are right about
the maps exactly as long as no reference of a stored block has created a session and the contents
can be counted. -/
theorem stats_match_iff :
    (∀ ops, (new.mutateAll ops).StatsMatch ↔
      new.AllTracked ops ∧ (new.mutateAll ops).Countable) ∧
    ∀ file writes flushes st, withWal file writes flushes = .ok st → ∀ ops,
      ((st.mutateAll ops).StatsMatch ↔
        (new.AllTracked (mutations file) ∧ st.AllTracked ops) ∧ (st.mutateAll ops).Countable) := by
  constructor
  · intro ops
    obtain ⟨lost, hlost, hiff⟩ := accounts_new.mutateAll ops
    rw [hlost.statsMatch_iff, Nat.zero_add, hiff]
  · intro file writes flushes st hopen ops
    obtain ⟨before, hbefore, hiff⟩ := accounts_withWal hopen
    obtain ⟨more, hmore, hiff'⟩ := hbefore.mutateAll ops
    rw [hmore.statsMatch_iff, Nat.add_eq_zero_iff, hiff, hiff']

end Opened

theorem stats_match_iff_empty_log :
    letI := prefixHash
    ∃ st, withWal [] [] [] = .ok st ∧
      (st.mutateAll [.insertWithCanonical 1 ⟨.message, 0, [7]⟩
          (Block.blockId ⟨.message, 0, [7]⟩) none,
        .reference 1 (Block.blockId ⟨.message, 0, [7]⟩)]).StatsMatch := by
  let _ := prefixHash
  have hopen : withWal [] [] [] = .ok { new with wal := some ⟨[], 0, [], []⟩ } := by
    rw [withWal, replay, replayFrom_nil]
    rfl
  refine ⟨_, hopen, (stats_match_iff.2 [] [] [] _ hopen _).mpr ⟨⟨?_, ?_⟩, ?_⟩⟩
  · rw [mutations_of_end (by simp [readRecord, Bytes.takeExact, header])]
    trivial
  · refine ⟨fun hop => hop, ?_, trivial⟩
    rintro ⟨-, hnew⟩
    revert hnew
    decide
  · exact ⟨by decide, by decide, by decide⟩

/-- A reference to a session that does not exist yet: two sessions, and one is counted. -/
theorem reference_loses_session :
    letI := prefixHash
    ¬ (new.mutateAll [.insertWithCanonical 1 ⟨.message, 0, [7]⟩
          (Block.blockId ⟨.message, 0, [7]⟩) none,
        .reference 2 (Block.blockId ⟨.message, 0, [7]⟩)]).StatsMatch := by
  intro hmatch
  have hsessions := hmatch.sessions
  revert hsessions
  decide

end ContentStore

end Dlr.Core
