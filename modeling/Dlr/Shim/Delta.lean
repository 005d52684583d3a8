import Dlr.Shim.History

/-!
# When an APPEND frame is the delta since its base

A frame carries the blocks of one call, but its base is the root of the last ACK.
The two meet exactly when nothing was ingested since that ACK.
-/

namespace Dlr

open Dlr.Core Compress Lib Lib.Machine

namespace SessionShim

variable {F : Type} [DedupFilter F] [Blake3] [Zstd]

/-- The frame of a call leads from its base to the shim's root after the call, and a
receiver that stands at the base and accepts it ends with the shim's log. -/
def IsDelta (c : Compressor) (blocks : List Block) (frame : AppendFrame)
    (before after : SessionShim F) : Prop :=
  rootOver frame.baseRoot (blocks.map Block.blockId) = after.root ∧
    ∀ (r r' : Receiver) (ack : AckFrame), r.compressor = c →
      r.store.sessionRoot frame.sessionId = frame.baseRoot →
      r.store.sessionIds frame.sessionId = before.ids.take before.baseLen →
      r.handleAppend frame = (.ok ack, r') →
      ack.root = after.root ∧ r'.store.sessionRoot frame.sessionId = after.root ∧
        r'.store.sessionIds frame.sessionId = after.ids

/-- A receiver at the base of a frame that accepts it appends the ingested ids. -/
theorem handleAppend_at_base (shim : SessionShim F) (blocks : List Block) {r r' : Receiver}
    {ack : AckFrame} (hrt : Compressor.RoundTrips shim.appendCompressor r.compressor)
    (hfit : ∀ b ∈ blocks, b.payload.length ≤ usizeMax)
    (hroot : r.store.sessionRoot shim.sessionId = shim.baseRoot)
    (h : r.handleAppend (shim.ingestTurn blocks).1 = (.ok ack, r')) :
    ack.root = rootOver shim.baseRoot (blocks.map Block.blockId) ∧
      r'.store.sessionRoot shim.sessionId = rootOver shim.baseRoot (blocks.map Block.blockId) ∧
      r'.store.sessionIds shim.sessionId =
        r.store.sessionIds shim.sessionId ++ blocks.map Block.blockId := by
  rw [ingestTurn_frame] at h
  rcases r.handleAppend_cases _ with ⟨e, r₁, hr, -⟩ | ⟨resolved, hres, havail, -, hr | hr⟩
  · rw [hr] at h
    cases h
  · exact absurd hroot.symm hr.1
  · have hids := resolve_ids hrt (shim.ingestBlocks_spec blocks).wire hfit hres
    obtain ⟨-, -, hlog, -⟩ := Receiver.applyResolved_spec shim.sessionId r.store
      (Receiver.resolve_addressed hres) (fun id hid => by simpa using hid) havail
    have hself := hlog shim.sessionId
    rw [if_pos rfl] at hself
    rw [hr.2] at h
    cases h
    refine ⟨by rw [hids], ?_, ?_⟩
    · simp only [ContentStore.sessionRoot, hself, Receiver.extendLog, hids]
      rw [← hroot]
      rfl
    · simp only [ContentStore.sessionIds, hself, Receiver.extendLog, hids]

/-- After any calls, the frame of a turn or of coalesced turns is the delta since its base
if and only if the base is the shim's root before the call: every ingested turn has been
acknowledged. -/
theorem append_is_delta_iff (sid : SessionId) (store : ContentStore) (compressor c : Compressor)
    (filter : F) (calls : List (Call F)) (blocks : List Block)
    (hrt : Compressor.RoundTrips (compressor.withLevel appendLevel) c)
    (hfit : ∀ b ∈ blocks, b.payload.length ≤ usizeMax)
    (hS : CollisionFree {x | x ∈ rootInputs rootZero
        ((((withFilter sid store compressor filter).callAll calls).ingestTurn blocks).2.ids) ∨
      x ∈ rootInputs ((withFilter sid store compressor filter).callAll calls).baseRoot
        (blocks.map Block.blockId)}) :
    let before := (withFilter sid store compressor filter).callAll calls
    (IsDelta c blocks (before.ingestTurn blocks).1 before (before.ingestTurn blocks).2 ↔
        before.baseRoot = before.root) ∧
      ∀ turns : List (List Block), turns.flatten = blocks →
        (IsDelta c blocks (before.ingestCoalesced turns).1 before
            (before.ingestCoalesced turns).2 ↔
          before.baseRoot = before.root) := by
  intro before
  -- a coalesced call is the turn of all its blocks
  suffices hturn : IsDelta c blocks (before.ingestTurn blocks).1 before
      (before.ingestTurn blocks).2 ↔ before.baseRoot = before.root by
    refine ⟨hturn, ?_⟩
    rintro turns rfl
    exact hturn
  have hrooted : before.Rooted := rooted_callAll (rooted_withFilter sid store compressor filter) calls
  have hspec := before.ingestTurn_spec blocks
  have hcomp : before.appendCompressor = compressor.withLevel appendLevel :=
    (callAll_sameSetup _ calls).appendCompressor
  have hinputs : ∀ x ∈ rootInputs before.root (blocks.map Block.blockId),
      x ∈ rootInputs rootZero (before.ingestTurn blocks).2.ids := by
    intro x hx
    rw [hspec.ids, rootInputs_append, ← hrooted.root]
    exact List.mem_append_right _ hx
  constructor
  · rintro ⟨hdelta, -⟩
    rw [ingestTurn_frame, hspec.root] at hdelta
    exact rootOver_start_injective hS (fun x hx => Or.inr hx)
      (fun x hx => Or.inl (hinputs x hx)) hdelta
  · intro hbase
    refine ⟨by rw [ingestTurn_frame, hspec.root, ← hbase], ?_⟩
    intro r r' ack hc hroot hids happ
    have hprefix : before.ids.take before.baseLen = before.ids := by
      refine rootOver_injective hS (fun x hx => Or.inl ?_) (fun x hx => Or.inl ?_) ?_
      · refine rootInputs_subset ?_ x hx
        rw [hspec.ids]
        exact (List.take_prefix _ _).trans (List.prefix_append _ _)
      · refine rootInputs_subset ?_ x hx
        rw [hspec.ids]
        exact List.prefix_append _ _
      · rw [← hrooted.baseRoot, hbase, hrooted.root]
    rw [ingestTurn_frame] at hroot hids
    obtain ⟨hack, hroot', hids'⟩ := before.handleAppend_at_base blocks
      (by rw [hcomp, hc]; exact hrt) hfit hroot happ
    rw [ingestTurn_frame, hspec.root, hspec.ids, ← hbase]
    refine ⟨hack, hroot', hids'.trans ?_⟩
    rw [show r.store.sessionIds before.sessionId = _ from hids, hprefix]

omit [Blake3] [Zstd] in
/-- The turn after an ACK is the delta since the acknowledged root. -/
theorem turn_after_ack_is_delta :
    letI := prefixHash
    letI := storedZstd
    letI := DedupFilter.exact
    let b₁ : Block := ⟨.message, 0, [7]⟩
    let b₂ : Block := ⟨.message, 1, [8]⟩
    let root := rootOver rootZero [b₁.blockId]
    let before := (withFilter 5 ContentStore.new Compressor.default ([] : List BlockId)).callAll
      [.ingestTurn [b₁], .applyAck root]
    before.baseRoot = root ∧ IsDelta Compressor.default [b₂] (before.ingestTurn [b₂]).1 before
      (before.ingestTurn [b₂]).2 := by
  let _ := prefixHash
  let _ := storedZstd
  let _ := DedupFilter.exact
  intro b₁ b₂ root before
  have hacked : before.baseRoot = root ∧ before.root = root := by decide +kernel
  have hids : (before.ingestTurn [b₂]).2.ids = [b₁.blockId, b₂.blockId] := by decide +kernel
  have hne : Blake3.hash (rootZero.bytes ++ b₁.blockId.bytes) ≠
      Blake3.hash (root.bytes ++ b₂.blockId.bytes) := by decide +kernel
  refine ⟨hacked.1, (append_is_delta_iff 5 ContentStore.new Compressor.default Compressor.default []
    [.ingestTurn [b₁], .applyAck root] [b₂] (Compressor.roundTrips_storedZstd _ _)
    (by simp [b₂, usizeMax]) ((collisionFree_pair hne).mono ?_)).1.2
      (hacked.1.trans hacked.2.symm)⟩
  -- the chains hash two strings, which differ in the root they start with
  rw [hids, hacked.1]
  rintro x (hx | hx)
  · exact List.mem_pair.mp hx
  · exact Or.inr (List.mem_singleton.mp hx)

omit [Blake3] [Zstd] in
/-- Two turns before an ACK: the second frame starts from the empty root without the first
turn, and a receiver standing there accepts it and ends with the second turn alone. -/
theorem unacked_turn_not_delta :
    letI := prefixHash
    letI := storedZstd
    letI := DedupFilter.exact
    let b₁ : Block := ⟨.message, 0, [7]⟩
    let b₂ : Block := ⟨.message, 1, [8]⟩
    let fresh := withFilter 5 ContentStore.new Compressor.default ([] : List BlockId)
    let before := fresh.callAll [.ingestTurn [b₁]]
    let frame := (before.ingestTurn [b₂]).1
    let after := (before.ingestTurn [b₂]).2
    rootOver frame.baseRoot [b₂.blockId] ≠ after.root ∧
      ¬ IsDelta Compressor.default [b₂] frame before after ∧
      ((Receiver.new ContentStore.new Compressor.default).handleAppend frame).2.store.sessionIds 5
        = [b₂.blockId] := by
  let _ := prefixHash
  let _ := storedZstd
  let _ := DedupFilter.exact
  intro b₁ b₂ fresh before frame after
  have hroot : rootOver frame.baseRoot [b₂.blockId] ≠ after.root := by decide
  exact ⟨hroot, fun h => hroot h.1, by decide⟩

end SessionShim

end Dlr
