import Dlr.Receiver.Effects
import Dlr.Shim.SessionShim

/-!
# A turn and its APPEND frame

Ingesting a turn extends the client log by the turn's ids. A receiver resolves
the frame to the same ids, and finds every reference among the blocks the shim's
store held before or earlier in the frame.
-/

namespace Dlr

open Dlr.Core Compress Lib Lib.Machine

namespace SessionShim

variable {F : Type} [DedupFilter F] [Blake3] [Zstd]

/-- What ingesting a turn does. -/
structure TurnIngested (shim : SessionShim F) (blocks : List Block) (fbs : List FrameBlock)
    (shim' : SessionShim F) : Prop where
  ids : shim'.ids = shim.ids ++ blocks.map Block.blockId
  root : shim'.root = rootOver shim.root (blocks.map Block.blockId)
  wire : List.Forall₂ (WireOf shim.appendCompressor) blocks fbs
  contains : ∀ id, shim'.store.contains id = true ↔
    shim.store.contains id = true ∨ id ∈ blocks.map Block.blockId
  preserves : ∀ k c, shim.store.blocks.get? k = some c → shim'.store.blocks.get? k = some c
  sessionId : shim'.sessionId = shim.sessionId
  baseRoot : shim'.baseRoot = shim.baseRoot
  baseLen : shim'.baseLen = shim.baseLen
  compressor : shim'.compressor = shim.compressor
  appendCompressor : shim'.appendCompressor = shim.appendCompressor
  fountainK : shim'.fountainK = shim.fountainK
  fountainSymbolSize : shim'.fountainSymbolSize = shim.fountainSymbolSize

theorem ingestBlocks_spec (shim : SessionShim F) (blocks : List Block) :
    TurnIngested shim blocks (shim.ingestBlocks blocks).1 (shim.ingestBlocks blocks).2 := by
  induction blocks generalizing shim with
  | nil =>
      exact ⟨by simp [ingestBlocks], rfl, .nil, by simp [ingestBlocks], fun _ _ h => h,
        rfl, rfl, rfl, rfl, rfl, rfl, rfl⟩
  | cons b rest ih =>
      have hb := shim.ingestBlock_spec b
      have hrest := ih (shim.ingestBlock b).2
      have hwire := hrest.wire
      rw [hb.appendCompressor] at hwire
      refine ⟨?_, ?_, .cons hb.wire hwire, fun id => ?_, fun k c h => hrest.preserves k c
        (hb.preserves k c h), hrest.sessionId.trans hb.sessionId, hrest.baseRoot.trans hb.baseRoot,
        hrest.baseLen.trans hb.baseLen, hrest.compressor.trans hb.compressor,
        hrest.appendCompressor.trans hb.appendCompressor, hrest.fountainK.trans hb.fountainK,
        hrest.fountainSymbolSize.trans hb.fountainSymbolSize⟩
      · refine hrest.ids.trans ?_
        rw [hb.ids]
        simp
      · refine hrest.root.trans ?_
        rw [hb.root]
        rfl
      · refine (hrest.contains id).trans ?_
        rw [hb.contains id, List.map_cons, List.mem_cons, or_assoc]

theorem ingestTurn_frame (shim : SessionShim F) (blocks : List Block) :
    (shim.ingestTurn blocks).1 =
      ⟨shim.sessionId, shim.baseRoot, (shim.ingestBlocks blocks).1⟩ := by
  have hspec := shim.ingestBlocks_spec blocks
  simp only [ingestTurn, hspec.sessionId, hspec.baseRoot]

theorem ingestTurn_spec (shim : SessionShim F) (blocks : List Block) :
    TurnIngested shim blocks (shim.ingestTurn blocks).1.blocks (shim.ingestTurn blocks).2 :=
  shim.ingestBlocks_spec blocks

/-! ## The receiver's view of the frame -/

section Resolve

variable {sender c : Compressor}

omit [DedupFilter F] in
/-- A wire block resolves to the ingested block, if at all. -/
theorem resolveBlock_id (hrt : Compressor.RoundTrips sender c) {b : Block} {fb : FrameBlock}
    (hw : WireOf sender b fb) (hfit : b.payload.length ≤ usizeMax) {x : Resolved}
    (h : Receiver.resolveBlock c fb = .ok x) : x.id = b.blockId := by
  cases fb with
  | ref id =>
      cases h
      exact hw
  | inline w =>
      obtain ⟨z, hz, hdec⟩ := hrt (canonicalBytes b)
      simp only [WireOf, hz] at hw
      simp only [Receiver.resolveBlock, Receiver.recoverBlock, hw, hdec,
        fromCanonicalOwned_eq] at h
      cases hp : fromCanonical (canonicalBytes b) with
      | error e => rw [hp] at h; cases h
      | ok b' =>
          rw [hp] at h
          cases h
          rw [eq_of_fromCanonical_canonicalBytes hfit hp]
          rfl

omit [DedupFilter F] in
theorem resolve_ids (hrt : Compressor.RoundTrips sender c) {blocks : List Block}
    {fbs : List FrameBlock} (hw : List.Forall₂ (WireOf sender) blocks fbs)
    (hfit : ∀ b ∈ blocks, b.payload.length ≤ usizeMax) {resolved : List Resolved}
    (h : fbs.mapM (Receiver.resolveBlock c) = .ok resolved) :
    resolved.map Resolved.id = blocks.map Block.blockId := by
  have hall := mapM_eq_ok h
  clear h
  induction hw generalizing resolved with
  | nil =>
      cases hall
      rfl
  | cons hb _ ih =>
      cases hall with
      | cons hx hrest =>
          rw [List.map_cons, List.map_cons, resolveBlock_id hrt hb (hfit _ List.mem_cons_self) hx,
            ih (fun b hb => hfit b (List.mem_cons_of_mem _ hb)) hrest]

omit [DedupFilter F] in
/-- A wire block within the size limit resolves: references to themselves, inline
entries to the ingested block. -/
theorem resolveBlock_of_wire (hrt : Compressor.RoundTrips sender c) {b : Block} {fb : FrameBlock}
    (hw : WireOf sender b fb) (hmax : b.payload.length ≤ maxBlockPayloadBytes) :
    (∃ id, fb = .ref id ∧ id = b.blockId ∧ Receiver.resolveBlock c fb = .ok (.ref id)) ∨
      Receiver.resolveBlock c fb = .ok (.inline b.blockId b) := by
  cases fb with
  | ref id => exact Or.inl ⟨id, rfl, hw, rfl⟩
  | inline w =>
      obtain ⟨z, hz, -⟩ := hrt (canonicalBytes b)
      simp only [WireOf, hz] at hw
      refine Or.inr ?_
      simp only [Receiver.resolveBlock, hw, Receiver.recoverBlock_compressed hrt hmax hz]
      rfl

omit [DedupFilter F] in
/-- An inline block above the size limit does not resolve. -/
theorem resolveBlock_oversized (hrt : Compressor.RoundTrips sender c) {b w : Block}
    (hw : WireOf sender b (.inline w))
    (hfit : b.payload.length ≤ usizeMax) (hbig : maxBlockPayloadBytes < b.payload.length) :
    ∃ e, Receiver.resolveBlock c (.inline w) = .error e := by
  obtain ⟨z, hz, hdec⟩ := hrt (canonicalBytes b)
  simp only [WireOf, hz] at hw
  cases hp : fromCanonical (canonicalBytes b) with
  | ok b' =>
      have hle := payload_le_of_fromCanonical hp
      rw [eq_of_fromCanonical_canonicalBytes hfit hp] at hle
      omega
  | error e =>
      refine ⟨.frame e, ?_⟩
      simp only [Receiver.resolveBlock, Receiver.recoverBlock, hw, hdec, fromCanonicalOwned_eq, hp]
      rfl

end Resolve

/-- What the frame of a turn needs at a receiver that holds some ids: every block that is
known when the shim comes to it is held or carried by an earlier entry, and the blocks that
are carried are within the size limit. -/
def Covered (shim : SessionShim F) (held : BlockId → Prop) : List Block → Prop
  | [] => True
  | b :: rest =>
      if known shim.filter shim.store b.blockId then
        held b.blockId ∧ (shim.ingestBlock b).2.Covered held rest
      else
        b.payload.length ≤ maxBlockPayloadBytes ∧
          (shim.ingestBlock b).2.Covered (fun id => held id ∨ id = b.blockId) rest

/-- A turn is covered once the receiver holds those of its blocks that the shim's store held. -/
theorem covered_of_held (shim : SessionShim F) {blocks : List Block} {held : BlockId → Prop}
    (hmax : ∀ b ∈ blocks, b.payload.length ≤ maxBlockPayloadBytes)
    (hheld : ∀ b ∈ blocks, shim.store.contains b.blockId = true → held b.blockId) :
    shim.Covered held blocks := by
  induction blocks generalizing shim held with
  | nil => trivial
  | cons b rest ih =>
      have hb := shim.ingestBlock_spec b
      have hmaxr := fun b hb => hmax b (List.mem_cons_of_mem _ hb)
      have hrest := fun b hb => hheld b (List.mem_cons_of_mem _ hb)
      unfold Covered
      split_ifs with hk
      · have hfirst := hheld b List.mem_cons_self (contains_of_known hk)
        refine ⟨hfirst, ih _ hmaxr fun k hmem hstored => ?_⟩
        rcases (hb.contains _).mp hstored with hold | heq
        · exact hrest k hmem hold
        · exact heq ▸ hfirst
      · refine ⟨hmax b List.mem_cons_self, ih _ hmaxr fun k hmem hstored => ?_⟩
        exact ((hb.contains _).mp hstored).imp (hrest k hmem) id

/-- When the first entry of a turn resolves, the rest of the turn decides. -/
theorem ingestBlocks_cons_resolves (shim : SessionShim F) (b : Block) (rest : List Block)
    {c : Compressor} {x : Resolved}
    (hx : Receiver.resolveBlock c (shim.ingestBlock b).1 = .ok x) (P : List Resolved → Prop) :
    (∃ resolved, (shim.ingestBlocks (b :: rest)).1.mapM (Receiver.resolveBlock c) =
        .ok resolved ∧ P resolved) ↔
      ∃ resolved, ((shim.ingestBlock b).2.ingestBlocks rest).1.mapM (Receiver.resolveBlock c) =
        .ok resolved ∧ P (x :: resolved) := by
  simp only [ingestBlocks, List.mapM_cons, hx]
  cases hm : ((shim.ingestBlock b).2.ingestBlocks rest).1.mapM (Receiver.resolveBlock c) with
  | error e =>
      constructor
      · rintro ⟨_, h, -⟩
        cases h
      · rintro ⟨_, h, -⟩
        cases h
  | ok resolved =>
      constructor
      · rintro ⟨_, h, hP⟩
        cases h
        exact ⟨resolved, rfl, hP⟩
      · rintro ⟨_, h, hP⟩
        cases h
        exact ⟨_, rfl, hP⟩

/-- A frame resolves at a receiver that restores compressed blocks, with all its references
available there, exactly when its turn is covered. -/
theorem ingestBlocks_resolves_iff (shim : SessionShim F) (blocks : List Block) {c : Compressor}
    (hrt : Compressor.RoundTrips shim.appendCompressor c)
    (hfit : ∀ b ∈ blocks, b.payload.length ≤ usizeMax) (store : ContentStore)
    (available : List BlockId) {held : BlockId → Prop}
    (hav : ∀ id, store.contains id = true ∨ id ∈ available ↔ held id) :
    (∃ resolved, (shim.ingestBlocks blocks).1.mapM (Receiver.resolveBlock c) = .ok resolved ∧
      Receiver.refsAvailable store available resolved = true) ↔ shim.Covered held blocks := by
  induction blocks generalizing shim available held with
  | nil => exact ⟨fun _ => trivial, fun _ => ⟨[], rfl, rfl⟩⟩
  | cons b rest ih =>
      have hb := shim.ingestBlock_spec b
      have hrest := fun b hb => hfit b (List.mem_cons_of_mem _ hb)
      have hrt' : Compressor.RoundTrips (shim.ingestBlock b).2.appendCompressor c :=
        hb.appendCompressor ▸ hrt
      have hwire := hb.wire
      unfold Covered
      split_ifs with hk
      · have hfb : (shim.ingestBlock b).1 = .ref b.blockId := by
          simp [ingestBlock, canonicalBytesAndId_eq, hk]
        have hx : Receiver.resolveBlock c (shim.ingestBlock b).1 = .ok (.ref b.blockId) := by
          rw [hfb]
          rfl
        rw [shim.ingestBlocks_cons_resolves b rest hx, ← ih _ hrt' hrest _ hav, ← hav]
        simp only [Receiver.refsAvailable, Bool.and_eq_true, Bool.or_eq_true, decide_eq_true_eq]
        constructor
        · rintro ⟨resolved, hres, hid, hrefs⟩
          exact ⟨hid, resolved, hres, hrefs⟩
        · rintro ⟨hid, resolved, hres, hrefs⟩
          exact ⟨resolved, hres, hid, hrefs⟩
      · obtain ⟨w, hfb⟩ : ∃ w, (shim.ingestBlock b).1 = .inline w := by
          simp [ingestBlock, canonicalBytesAndId_eq, hk]
        rw [hfb] at hwire
        by_cases hsize : b.payload.length ≤ maxBlockPayloadBytes
        · have hx : Receiver.resolveBlock c (shim.ingestBlock b).1 = .ok (.inline b.blockId b) := by
            rw [hfb]
            rcases resolveBlock_of_wire hrt hwire hsize with ⟨id, hid, -⟩ | hx
            · cases hid
            · exact hx
          rw [shim.ingestBlocks_cons_resolves b rest hx]
          simp only [Receiver.refsAvailable, hsize, true_and]
          refine ih _ hrt' hrest _ fun id => ?_
          rw [List.mem_cons, ← hav id]
          tauto
        · obtain ⟨e, he⟩ := resolveBlock_oversized hrt hwire (hfit b List.mem_cons_self)
            (Nat.lt_of_not_le hsize)
          simp only [hsize, false_and, iff_false]
          rintro ⟨resolved, hres, -⟩
          simp only [ingestBlocks, List.mapM_cons, hfb, he] at hres
          cases hres

/-- A frame resolves at a receiver that restores compressed blocks, and all its
references are available there, once the receiver holds those of the turn's blocks that
the shim's store held. -/
theorem ingestBlocks_resolves (shim : SessionShim F) (blocks : List Block) {c : Compressor}
    (hrt : Compressor.RoundTrips shim.appendCompressor c)
    (hmax : ∀ b ∈ blocks, b.payload.length ≤ maxBlockPayloadBytes)
    (store : ContentStore) (available : List BlockId)
    (hav : ∀ b ∈ blocks, shim.store.contains b.blockId = true →
      store.contains b.blockId = true ∨ b.blockId ∈ available) :
    ∃ resolved, (shim.ingestBlocks blocks).1.mapM (Receiver.resolveBlock c) = .ok resolved ∧
      resolved.map Resolved.id = blocks.map Block.blockId ∧
      Receiver.refsAvailable store available resolved = true := by
  have hfit : ∀ b ∈ blocks, b.payload.length ≤ usizeMax := fun b hb =>
    (hmax b hb).trans (by simp [maxBlockPayloadBytes, usizeMax])
  obtain ⟨resolved, hres, hrefs⟩ := (shim.ingestBlocks_resolves_iff blocks hrt hfit store _
    fun _ => Iff.rfl).mpr (shim.covered_of_held hmax hav)
  exact ⟨resolved, hres, resolve_ids hrt (shim.ingestBlocks_spec blocks).wire hfit hres, hrefs⟩

/-- A receiver at the base of the frame accepts it exactly when the turn is covered by what
it holds. -/
theorem handleAppend_accepts_iff (shim : SessionShim F) (blocks : List Block) {r : Receiver}
    (hrt : Compressor.RoundTrips shim.appendCompressor r.compressor)
    (hfit : ∀ b ∈ blocks, b.payload.length ≤ usizeMax)
    (hpend : (r.session shim.sessionId).pending = ∅)
    (hbase : shim.baseRoot = r.store.sessionRoot shim.sessionId) :
    (∃ ack, (r.handleAppend (shim.ingestTurn blocks).1).1 = .ok ack) ↔
      shim.Covered (fun id => r.store.contains id = true) blocks := by
  rw [← shim.ingestBlocks_resolves_iff blocks hrt hfit r.store [] (by simp)]
  simp only [Receiver.handleAppend, ingestTurn_frame]
  cases hres : (shim.ingestBlocks blocks).1.mapM (Receiver.resolveBlock r.compressor) with
  | error e => simp
  | ok resolved =>
      by_cases hrefs : Receiver.refsAvailable r.store [] resolved = true
      · simp only [Except.ok.injEq, exists_eq_left', hrefs, iff_true]
        rw [Receiver.appendResolved_eq r _ (Receiver.resolve_addressed hres) hrefs]
        simp [hpend, ← hbase]
      · simp [hrefs]

/-! ## The acknowledged prefix -/

omit [DedupFilter F] [Zstd] in
/-- The scan finds a prefix with the acknowledged root. -/
theorem findPrefix_eq_some {acked r : MerkleRoot} {i n : Nat} {ids : List BlockId}
    (h : findPrefix acked r i ids = some n) :
    i < n ∧ n ≤ i + ids.length ∧ rootOver r (ids.take (n - i)) = acked := by
  induction ids generalizing r i with
  | nil => cases h
  | cons id rest ih =>
      unfold findPrefix at h
      split_ifs at h with hroot
      · cases h
        refine ⟨by omega, by simp, ?_⟩
        simpa using hroot
      · obtain ⟨hlt, hle, hrec⟩ := ih h
        refine ⟨by omega, by simp only [List.length_cons]; omega, ?_⟩
        obtain ⟨m, rfl⟩ : ∃ m, n = i + 1 + m := ⟨n - (i + 1), by omega⟩
        rw [Nat.add_sub_cancel_left] at hrec
        rw [Nat.add_assoc, Nat.add_sub_cancel_left, Nat.add_comm 1 m, List.take_succ_cons,
          rootOver_cons]
        exact hrec

/-- The roots a shim keeps are roots over its own ids. -/
structure Rooted (shim : SessionShim F) : Prop where
  root : shim.root = rootOver rootZero shim.ids
  baseLen : shim.baseLen ≤ shim.ids.length
  baseRoot : shim.baseRoot = rootOver rootZero (shim.ids.take shim.baseLen)

omit [DedupFilter F] [Zstd] in
theorem rooted_withFilter (sid : SessionId) (store : ContentStore) (c : Compressor) (filter : F) :
    (withFilter sid store c filter).Rooted :=
  ⟨rfl, le_rfl, rfl⟩

theorem Rooted.ingestTurn {shim : SessionShim F} (h : shim.Rooted) (blocks : List Block) :
    (shim.ingestTurn blocks).2.Rooted := by
  have hspec := shim.ingestTurn_spec blocks
  refine ⟨?_, ?_, ?_⟩
  · rw [hspec.root, h.root, hspec.ids, rootOver_append]
  · rw [hspec.baseLen, hspec.ids, List.length_append]
    exact h.baseLen.trans (Nat.le_add_right _ _)
  · rw [hspec.baseRoot, hspec.ids, hspec.baseLen, List.take_append_of_le_length h.baseLen]
    exact h.baseRoot

omit [DedupFilter F] [Zstd] in
theorem Rooted.applyAck {shim : SessionShim F} (h : shim.Rooted) (acked : MerkleRoot) :
    (shim.applyAck acked).2.Rooted := by
  unfold SessionShim.applyAck
  split_ifs with hroot hbase
  · exact ⟨h.root, le_rfl, by rw [hroot, h.root, List.take_length]⟩
  · exact h
  · split
    · rename_i len hlen
      obtain ⟨-, hle, hrec⟩ := findPrefix_eq_some hlen
      exact ⟨h.root, by simpa using hle, by simpa using hrec.symm⟩
    · exact h

omit [DedupFilter F] [Zstd] in
/-- An ACK that is applied names the root of some prefix, which becomes the base. -/
theorem applyAck_spec (shim : SessionShim F) (acked : MerkleRoot) :
    (shim.applyAck acked).2.ids = shim.ids ∧ (shim.applyAck acked).2.root = shim.root ∧
      (shim.applyAck acked).2.store = shim.store ∧
      (shim.applyAck acked).2.sessionId = shim.sessionId ∧
      (shim.applyAck acked).2.appendCompressor = shim.appendCompressor ∧
      ((shim.applyAck acked).1 = true → (shim.applyAck acked).2.baseRoot = acked) ∧
      ((shim.applyAck acked).1 = false → (shim.applyAck acked).2 = shim) := by
  unfold SessionShim.applyAck
  split_ifs with hroot hbase
  · exact ⟨rfl, rfl, rfl, rfl, rfl, fun _ => rfl, by simp⟩
  · exact ⟨rfl, rfl, rfl, rfl, rfl, fun _ => hbase.symm, by simp⟩
  · split
    · exact ⟨rfl, rfl, rfl, rfl, rfl, fun _ => rfl, by simp⟩
    · exact ⟨rfl, rfl, rfl, rfl, rfl, by simp, fun _ => rfl⟩

end SessionShim

end Dlr
