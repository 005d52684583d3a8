import Dlr.Receiver.Invariants
import Dlr.Shim.Turn

/-!
# Histories of a shim

A shim is used by a sequence of calls. Its store and its filter may be shared with
the other sessions of the host, which change them in between.
-/

namespace Dlr

open Dlr.Core Compress Lib

namespace SessionShim

variable {F : Type} [DedupFilter F] [Blake3] [Zstd]

/-- A call on a shim, or a step of another session on the shared store and filter. -/
inductive Call (F : Type)
  | ingestTurn (blocks : List Block)
  | ingestCoalesced (turns : List (List Block))
  | applyAck (acked : MerkleRoot)
  | shared (op : StoreOp) (filter : F)

def call (shim : SessionShim F) : Call F → SessionShim F
  | .ingestTurn blocks => (shim.ingestTurn blocks).2
  | .ingestCoalesced turns => (shim.ingestCoalesced turns).2
  | .applyAck acked => (shim.applyAck acked).2
  | .shared op filter => { shim with store := shim.store.perform op, filter }

def callAll (shim : SessionShim F) (calls : List (Call F)) : SessionShim F := calls.foldl call shim

theorem callAll_append (shim : SessionShim F) (calls calls' : List (Call F)) :
    shim.callAll (calls ++ calls') = (shim.callAll calls).callAll calls' :=
  List.foldl_append

/-- The blocks a call ingests. -/
def Call.blocks : Call F → List Block
  | ingestTurn blocks => blocks
  | ingestCoalesced turns => turns.flatten
  | applyAck _ => []
  | shared _ _ => []

/-- Everything the client has ingested, in order. -/
def ingested (calls : List (Call F)) : List Block := calls.flatMap Call.blocks

/-- What every call keeps fixed. -/
structure SameSetup (shim shim' : SessionShim F) : Prop where
  sessionId : shim'.sessionId = shim.sessionId
  compressor : shim'.compressor = shim.compressor
  appendCompressor : shim'.appendCompressor = shim.appendCompressor
  fountainK : shim'.fountainK = shim.fountainK
  fountainSymbolSize : shim'.fountainSymbolSize = shim.fountainSymbolSize

omit [DedupFilter F] [Blake3] [Zstd] in
theorem SameSetup.refl (shim : SessionShim F) : SameSetup shim shim := ⟨rfl, rfl, rfl, rfl, rfl⟩

omit [DedupFilter F] [Blake3] [Zstd] in
theorem SameSetup.trans {a b c : SessionShim F} (h : SameSetup a b) (h' : SameSetup b c) :
    SameSetup a c :=
  ⟨h'.sessionId.trans h.sessionId, h'.compressor.trans h.compressor,
    h'.appendCompressor.trans h.appendCompressor, h'.fountainK.trans h.fountainK,
    h'.fountainSymbolSize.trans h.fountainSymbolSize⟩

theorem ingestTurn_sameSetup (shim : SessionShim F) (blocks : List Block) :
    SameSetup shim (shim.ingestTurn blocks).2 := by
  have hspec := shim.ingestTurn_spec blocks
  exact ⟨hspec.sessionId, hspec.compressor, hspec.appendCompressor, hspec.fountainK,
    hspec.fountainSymbolSize⟩

omit [DedupFilter F] [Zstd] in
theorem applyAck_sameSetup (shim : SessionShim F) (acked : MerkleRoot) :
    SameSetup shim (shim.applyAck acked).2 := by
  unfold SessionShim.applyAck
  split_ifs
  · exact ⟨rfl, rfl, rfl, rfl, rfl⟩
  · exact SameSetup.refl shim
  · split
    · exact ⟨rfl, rfl, rfl, rfl, rfl⟩
    · exact SameSetup.refl shim

theorem call_sameSetup (shim : SessionShim F) (c : Call F) : SameSetup shim (shim.call c) := by
  cases c with
  | ingestTurn blocks => exact shim.ingestTurn_sameSetup blocks
  | ingestCoalesced turns => exact shim.ingestTurn_sameSetup turns.flatten
  | applyAck acked => exact shim.applyAck_sameSetup acked
  | shared op filter => exact ⟨rfl, rfl, rfl, rfl, rfl⟩

theorem callAll_sameSetup (shim : SessionShim F) (calls : List (Call F)) :
    SameSetup shim (shim.callAll calls) := by
  induction calls generalizing shim with
  | nil => exact SameSetup.refl shim
  | cons c rest ih => exact (shim.call_sameSetup c).trans (ih _)

theorem rooted_callAll {shim : SessionShim F} (h : shim.Rooted) (calls : List (Call F)) :
    (shim.callAll calls).Rooted := by
  induction calls generalizing shim with
  | nil => exact h
  | cons c rest ih =>
      apply ih
      cases c with
      | ingestTurn blocks => exact h.ingestTurn blocks
      | ingestCoalesced turns => exact h.ingestTurn turns.flatten
      | applyAck acked => exact h.applyAck acked
      | shared op filter => exact ⟨h.root, h.baseLen, h.baseRoot⟩

/-- The shim's log names exactly these blocks, and its store holds an entry for each. -/
structure HoldsLog (shim : SessionShim F) (blocks : List Block) : Prop where
  ids : shim.ids = blocks.map Block.blockId
  stored : ∀ b ∈ blocks, shim.store.contains b.blockId = true
  addressed : shim.store.maps.Addressed

/-- A stored block was stored before, or it is the one that is ingested. -/
theorem stored_ingestBlock (shim : SessionShim F) {x : Block} {id : BlockId} {b : Block}
    (h : (shim.ingestBlock x).2.store.get id = some b) : shim.store.get id = some b ∨ b = x := by
  unfold ingestBlock at h
  simp only [canonicalBytesAndId_eq] at h
  split at h
  · rw [ContentStore.get, ContentStore.reference_blocks] at h
    exact Or.inl h
  · rw [ContentStore.get, ContentStore.insertWithCanonical_blocks, putBlock_get?] at h
    split_ifs at h with hid
    · cases hget : shim.store.blocks.get? x.blockId with
      | none =>
          rw [hget] at h
          exact Or.inr (Option.some.inj h).symm
      | some b' =>
          rw [hget] at h
          exact Or.inl (by rw [hid, ContentStore.get, hget]; exact h)
    · exact Or.inl h

/-- A turn stores nothing but its own blocks. -/
theorem stored_ingestBlocks (shim : SessionShim F) {blocks : List Block} {id : BlockId} {b : Block}
    (h : (shim.ingestBlocks blocks).2.store.get id = some b) :
    shim.store.get id = some b ∨ b ∈ blocks := by
  induction blocks generalizing shim with
  | nil => exact Or.inl h
  | cons x rest ih =>
      rcases ih (shim.ingestBlock x).2 h with hone | hrest
      · rcases stored_ingestBlock shim hone with hold | rfl
        · exact Or.inl hold
        · exact Or.inr List.mem_cons_self
      · exact Or.inr (List.mem_cons_of_mem _ hrest)

/-- Ingesting a block keeps the store addressed by content. -/
theorem ingestBlock_addressed (shim : SessionShim F) (b : Block)
    (h : shim.store.maps.Addressed) : (shim.ingestBlock b).2.store.maps.Addressed := by
  unfold ingestBlock
  simp only [canonicalBytesAndId_eq]
  split
  · exact perform_addressed (.reference shim.sessionId b.blockId) h
  · exact perform_addressed (.insertWithCanonical shim.sessionId b true) h

theorem ingestBlocks_addressed (shim : SessionShim F) (blocks : List Block)
    (h : shim.store.maps.Addressed) : (shim.ingestBlocks blocks).2.store.maps.Addressed := by
  induction blocks generalizing shim with
  | nil => exact h
  | cons b rest ih => exact ih _ (shim.ingestBlock_addressed b h)

theorem HoldsLog.ingestTurn {shim : SessionShim F} {log : List Block} (h : shim.HoldsLog log)
    (blocks : List Block) : (shim.ingestTurn blocks).2.HoldsLog (log ++ blocks) where
  ids := by
    rw [(shim.ingestTurn_spec blocks).ids, h.ids, List.map_append]
  stored := by
    intro b hb
    apply ((shim.ingestTurn_spec blocks).contains _).mpr
    rcases List.mem_append.mp hb with hold | hnew
    · exact Or.inl (h.stored b hold)
    · exact Or.inr (List.mem_map_of_mem hnew)
  addressed := shim.ingestBlocks_addressed blocks h.addressed

omit [DedupFilter F] [Zstd] in
theorem HoldsLog.applyAck {shim : SessionShim F} {log : List Block} (h : shim.HoldsLog log)
    (acked : MerkleRoot) : (shim.applyAck acked).2.HoldsLog log := by
  obtain ⟨hids, -, hstore, -⟩ := shim.applyAck_spec acked
  exact ⟨hids.trans h.ids, hstore ▸ h.stored, hstore ▸ h.addressed⟩

theorem HoldsLog.callAll {shim : SessionShim F} {log : List Block} (h : shim.HoldsLog log)
    (calls : List (Call F)) : (shim.callAll calls).HoldsLog (log ++ ingested calls) := by
  induction calls generalizing shim log with
  | nil => simpa [SessionShim.callAll, ingested] using h
  | cons c rest ih =>
      have hsplit : log ++ ingested (c :: rest) = (log ++ c.blocks) ++ ingested rest := by
        simp [ingested]
      rw [hsplit]
      apply ih
      cases c with
      | ingestTurn blocks => exact h.ingestTurn blocks
      | ingestCoalesced turns => exact h.ingestTurn turns.flatten
      | applyAck acked =>
          rw [Call.blocks, List.append_nil]
          exact h.applyAck acked
      | shared op filter =>
          rw [Call.blocks, List.append_nil]
          exact ⟨h.ids, fun b hb => ContentStore.contains_performAll [op] (h.stored b hb),
            perform_addressed op h.addressed⟩

omit [DedupFilter F] [Zstd] in
theorem holdsLog_withFilter (sid : SessionId) {store : ContentStore} (h : store.Opened)
    (c : Compressor) (filter : F) : (withFilter sid store c filter).HoldsLog [] :=
  ⟨rfl, by simp, h.addressed⟩

end SessionShim

end Dlr
