import Dlr.Receiver.TwoRuns
import Dlr.Shim.History

/-!
# The dedup filter is only a hint

The filter decides whether a block that the store already holds travels as a reference or
inline. Both ways store and log the same block, at the shim and at the receiver, so two
shims that differ in nothing but their filters stay alike.

## Implementation notes

A filter is any type with any answers. Between the calls of a session the other sessions
may change the shared filter; `Call.Alike` lets the two runs change theirs differently.
-/

namespace Dlr

open Dlr.Core Compress Lib Lib.Machine

namespace Core

variable [Blake3]

/-- A block is stored unless it is there, and its id is appended to the session's log. -/
def Maps.pushBlock (sid : SessionId) (m : Maps) (b : Block) : Maps :=
  ⟨putBlock m.blocks b.blockId b, pushLog m.sessions sid b.blockId⟩

/-- Logging a reference to a stored block is all that pushing the block does. -/
theorem ContentStore.reference_maps {st : ContentStore} (sid : SessionId) (b : Block)
    (h : st.contains b.blockId = true) :
    (st.reference sid b.blockId).1.maps = st.maps.pushBlock sid b := by
  obtain ⟨old, hold⟩ := ContentStore.contains_iff.mp h
  apply Maps.ext
  · simp [Maps.pushBlock, putBlock, hold]
  · simp [Maps.pushBlock, (ContentStore.reference_of_contains st sid b.blockId hold).1]

end Core

namespace SessionShim

variable {F G : Type} [DedupFilter F] [DedupFilter G] [Blake3] [Zstd]

/-! ## The shim -/

omit [DedupFilter G] in
/-- Whatever the filter answers, ingesting a block pushes it. -/
theorem ingestBlock_maps (shim : SessionShim F) (b : Block) :
    (shim.ingestBlock b).2.store.maps = shim.store.maps.pushBlock shim.sessionId b := by
  unfold ingestBlock
  simp only [canonicalBytesAndId_eq]
  by_cases hk : known shim.filter shim.store b.blockId = true
  · rw [if_pos hk]
    exact ContentStore.reference_maps shim.sessionId b (contains_of_known hk)
  · rw [if_neg hk]
    apply Maps.ext
    · simp [Maps.pushBlock]
    · simp [Maps.pushBlock]

omit [DedupFilter G] in
theorem ingestBlocks_maps (shim : SessionShim F) (blocks : List Block) :
    (shim.ingestBlocks blocks).2.store.maps =
      blocks.foldl (Maps.pushBlock shim.sessionId) shim.store.maps := by
  induction blocks generalizing shim with
  | nil => rfl
  | cons b rest ih =>
      have hrest := ih (shim.ingestBlock b).2
      rw [(shim.ingestBlock_spec b).sessionId, ingestBlock_maps] at hrest
      exact hrest

/-- Two shims that differ in nothing but their filters and their counters. -/
structure Alike (shim : SessionShim F) (shim' : SessionShim G) : Prop where
  sessionId : shim'.sessionId = shim.sessionId
  ids : shim'.ids = shim.ids
  root : shim'.root = shim.root
  baseRoot : shim'.baseRoot = shim.baseRoot
  baseLen : shim'.baseLen = shim.baseLen
  appendCompressor : shim'.appendCompressor = shim.appendCompressor
  maps : shim'.store.maps = shim.store.maps

/-- The same call in two runs; the other sessions leave behind what filters they like. -/
inductive Call.Alike : Call F → Call G → Prop
  | ingestTurn (blocks : List Block) : Alike (.ingestTurn blocks) (.ingestTurn blocks)
  | ingestCoalesced (turns : List (List Block)) :
      Alike (.ingestCoalesced turns) (.ingestCoalesced turns)
  | applyAck (acked : MerkleRoot) : Alike (.applyAck acked) (.applyAck acked)
  | shared (op : StoreOp) (filter : F) (filter' : G) :
      Alike (.shared op filter) (.shared op filter')

section Alike

variable {shim : SessionShim F} {shim' : SessionShim G}

theorem Alike.ingestTurn (h : Alike shim shim') (blocks : List Block) :
    Alike (shim.ingestTurn blocks).2 (shim'.ingestTurn blocks).2 := by
  have hspec := shim.ingestTurn_spec blocks
  have hspec' := shim'.ingestTurn_spec blocks
  refine ⟨?_, ?_, ?_, ?_, ?_, ?_, ?_⟩
  · rw [hspec'.sessionId, h.sessionId, hspec.sessionId]
  · rw [hspec'.ids, h.ids, hspec.ids]
  · rw [hspec'.root, h.root, hspec.root]
  · rw [hspec'.baseRoot, h.baseRoot, hspec.baseRoot]
  · rw [hspec'.baseLen, h.baseLen, hspec.baseLen]
  · rw [hspec'.appendCompressor, h.appendCompressor, hspec.appendCompressor]
  · have hmaps : (shim.ingestTurn blocks).2.store.maps = _ := shim.ingestBlocks_maps blocks
    have hmaps' : (shim'.ingestTurn blocks).2.store.maps = _ := shim'.ingestBlocks_maps blocks
    rw [hmaps, hmaps', h.sessionId, h.maps]

omit [DedupFilter F] [DedupFilter G] [Zstd] in
theorem Alike.applyAck (h : Alike shim shim') (acked : MerkleRoot) :
    Alike (shim.applyAck acked).2 (shim'.applyAck acked).2 := by
  unfold SessionShim.applyAck
  rw [h.root, h.baseRoot, h.ids]
  split_ifs
  · exact ⟨h.sessionId, rfl, rfl, rfl, rfl, h.appendCompressor, h.maps⟩
  · exact h
  · cases findPrefix acked rootZero 0 shim.ids with
    | some len => exact ⟨h.sessionId, rfl, rfl, rfl, rfl, h.appendCompressor, h.maps⟩
    | none => exact h

theorem Alike.callAll (h : Alike shim shim') {calls : List (Call F)} {calls' : List (Call G)}
    (hcalls : List.Forall₂ Call.Alike calls calls') :
    Alike (shim.callAll calls) (shim'.callAll calls') := by
  induction hcalls generalizing shim shim' with
  | nil => exact h
  | cons hc _ ih =>
      apply ih
      cases hc with
      | ingestTurn blocks => exact h.ingestTurn blocks
      | ingestCoalesced turns => exact h.ingestTurn turns.flatten
      | applyAck acked => exact h.applyAck acked
      | shared op filter filter' =>
          exact ⟨h.sessionId, h.ids, h.root, h.baseRoot, h.baseLen, h.appendCompressor,
            ContentStore.perform_maps_congr h.maps op⟩

omit [DedupFilter F] [DedupFilter G] [Blake3] [Zstd] in
theorem alike_withFilter (sid : SessionId) (store : ContentStore) (c : Compressor) (filter : F)
    (filter' : G) : Alike (withFilter sid store c filter) (withFilter sid store c filter') :=
  ⟨rfl, rfl, rfl, rfl, rfl, rfl, rfl⟩

end Alike

/-! ## The receiver -/

/-- An entry that resolves to a block, or to a reference to it. -/
def StandsFor (b : Block) (x : Resolved) : Prop := x = .ref b.blockId ∨ x = .inline b.blockId b

omit [DedupFilter F] [DedupFilter G] [Zstd] in
/-- Whichever way a block is resolved, applying its entry pushes it. -/
theorem perform_op_maps {store : ContentStore} (sid : SessionId) {b : Block} {x : Resolved}
    (hx : StandsFor b x) (href : ∀ id, x = .ref id → store.contains id = true) :
    (store.perform (x.op sid)).maps = store.maps.pushBlock sid b := by
  rcases hx with rfl | rfl
  · exact ContentStore.reference_maps sid b (href _ rfl)
  · apply Maps.ext
    · simp [Maps.pushBlock, Resolved.op, ContentStore.perform]
    · simp [Maps.pushBlock, Resolved.op, ContentStore.perform]

omit [DedupFilter F] [DedupFilter G] [Zstd] in
theorem performAll_op_maps {store checked : ContentStore} {available : List BlockId}
    (sid : SessionId) {blocks : List Block} {resolved : List Resolved}
    (hstands : List.Forall₂ StandsFor blocks resolved)
    (hav : ∀ id, checked.contains id = true ∨ id ∈ available → store.contains id = true)
    (h : Receiver.refsAvailable checked available resolved = true) :
    (store.performAll (resolved.map (Resolved.op sid))).maps =
      blocks.foldl (Maps.pushBlock sid) store.maps := by
  induction hstands generalizing store available with
  | nil => rfl
  | @cons b x blocks rest hx _ ih =>
      have href : ∀ id, x = .ref id → store.contains id = true := by
        rintro id rfl
        simp only [Receiver.refsAvailable, Bool.and_eq_true, Bool.or_eq_true,
          decide_eq_true_eq] at h
        exact hav id h.1
      have hmaps := perform_op_maps sid hx href
      have hmono : ∀ id, store.contains id = true →
          (store.perform (x.op sid)).contains id = true :=
        fun id hid => ContentStore.contains_performAll [x.op sid] hid
      rw [List.foldl_cons, ← hmaps]
      cases x with
      | inline id block =>
          apply ih _ h
          intro k hk
          rcases hk with hk | hk
          · exact hmono k (hav k (Or.inl hk))
          · rcases List.mem_cons.mp hk with rfl | hk
            · rcases hx with hx | hx <;> cases hx
              simp [ContentStore.contains, ContentStore.perform, Resolved.op, putBlock_self_isSome]
            · exact hmono k (hav k (Or.inr hk))
      | ref id =>
          simp only [Receiver.refsAvailable, Bool.and_eq_true] at h
          exact ih (fun k hk => hmono k (hav k hk)) h.2

omit [DedupFilter F] [DedupFilter G] in
theorem resolve_standsFor {sender c : Compressor} (hrt : Compressor.RoundTrips sender c)
    {blocks : List Block} {fbs : List FrameBlock}
    (hw : List.Forall₂ (WireOf sender) blocks fbs)
    (hmax : ∀ b ∈ blocks, b.payload.length ≤ maxBlockPayloadBytes) {resolved : List Resolved}
    (h : fbs.mapM (Receiver.resolveBlock c) = .ok resolved) :
    List.Forall₂ StandsFor blocks resolved := by
  have hall := mapM_eq_ok h
  clear h
  induction hw generalizing resolved with
  | nil =>
      cases hall
      exact .nil
  | cons hb _ ih =>
      cases hall with
      | cons hx hrest =>
          refine .cons ?_ (ih (fun b hb => hmax b (List.mem_cons_of_mem _ hb)) hrest)
          rcases resolveBlock_of_wire hrt hb (hmax _ List.mem_cons_self) with
            ⟨id, rfl, rfl, hres⟩ | hres
          · exact Or.inl (Except.ok.inj (hx.symm.trans hres))
          · exact Or.inr (Except.ok.inj (hx.symm.trans hres))

omit [DedupFilter G] in
/-- A receiver at the base of a turn's frame that holds what the shim's store held does with
it what no filter can change. -/
theorem handleAppend_pushes (shim : SessionShim F) (blocks : List Block) {r : Receiver}
    (hrt : Compressor.RoundTrips shim.appendCompressor r.compressor)
    (hmax : ∀ b ∈ blocks, b.payload.length ≤ maxBlockPayloadBytes)
    (hav : ∀ id, shim.store.contains id = true → r.store.contains id = true)
    (hbase : r.store.sessionRoot shim.sessionId = shim.baseRoot) :
    (r.handleAppend (shim.ingestTurn blocks).1).1 =
        (if (r.session shim.sessionId).pending ≠ ∅ then
          .error (.coldStartInProgress shim.sessionId)
        else .ok ⟨shim.sessionId, rootOver shim.baseRoot (blocks.map Block.blockId)⟩) ∧
      (r.handleAppend (shim.ingestTurn blocks).1).2.store.maps =
        if (r.session shim.sessionId).pending ≠ ∅ then r.store.maps
        else blocks.foldl (Maps.pushBlock shim.sessionId) r.store.maps := by
  obtain ⟨resolved, hres, hids, hrefs⟩ := shim.ingestBlocks_resolves blocks hrt hmax r.store []
    fun b _ hstored => Or.inl (hav _ hstored)
  have hstands := resolve_standsFor hrt (shim.ingestBlocks_spec blocks).wire hmax hres
  simp only [Receiver.handleAppend, ingestTurn_frame, hres, if_pos hrefs]
  rw [Receiver.appendResolved_eq r _ (Receiver.resolve_addressed hres) hrefs]
  simp only
  by_cases hpend : (r.session shim.sessionId).pending ≠ ∅
  · rw [if_pos hpend, if_pos hpend, if_pos hpend]
    exact ⟨rfl, rfl⟩
  · rw [if_neg hpend, if_neg hpend, if_neg hpend, if_neg (not_not.mpr hbase.symm), hids]
    exact ⟨rfl, performAll_op_maps shim.sessionId hstands (fun id hid => by simpa using hid) hrefs⟩

omit [DedupFilter G] in
/-- No filter gets a turn with an oversized block resolved, as long as the store does not
know it: its first occurrence travels inline. -/
theorem ingestBlocks_oversized (shim : SessionShim F) {blocks : List Block} {c : Compressor}
    (hrt : Compressor.RoundTrips shim.appendCompressor c)
    (hfit : ∀ b ∈ blocks, b.payload.length ≤ usizeMax)
    (hbig : ∃ b ∈ blocks, maxBlockPayloadBytes < b.payload.length)
    (hnew : ∀ b ∈ blocks, maxBlockPayloadBytes < b.payload.length →
      shim.store.contains b.blockId = false)
    (hinj : ∀ b ∈ blocks, maxBlockPayloadBytes < b.payload.length →
      ∀ b' ∈ blocks, b.blockId = b'.blockId → b = b') :
    ∃ e, (shim.ingestBlocks blocks).1.mapM (Receiver.resolveBlock c) = .error e := by
  induction blocks generalizing shim with
  | nil => simp at hbig
  | cons b rest ih =>
      have hb := shim.ingestBlock_spec b
      simp only [ingestBlocks, List.mapM_cons]
      by_cases hsize : maxBlockPayloadBytes < b.payload.length
      · have hunknown := hnew b List.mem_cons_self hsize
        cases hfb : (shim.ingestBlock b).1 with
        | ref id =>
            have hwire := hb.wire
            rw [hfb] at hwire
            have hstored := hb.ref id hfb
            rw [show id = b.blockId from hwire, hunknown] at hstored
            cases hstored
        | inline w =>
            have hwire := hb.wire
            rw [hfb] at hwire
            obtain ⟨e, he⟩ :=
              resolveBlock_oversized hrt hwire (hfit b List.mem_cons_self) hsize
            exact ⟨e, by rw [he]; rfl⟩
      · -- a later oversized block is not the one just stored
        obtain ⟨e, he⟩ : ∃ e, ((shim.ingestBlock b).2.ingestBlocks rest).1.mapM
            (Receiver.resolveBlock c) = .error e := by
          apply ih
          · exact hb.appendCompressor ▸ hrt
          · exact fun b' hb' => hfit b' (List.mem_cons_of_mem _ hb')
          · obtain ⟨b', hb', hbig'⟩ := hbig
            rcases List.mem_cons.mp hb' with rfl | hmem
            · exact absurd hbig' hsize
            · exact ⟨b', hmem, hbig'⟩
          · intro b' hb' hbig'
            rw [Bool.eq_false_iff]
            intro hstored
            rcases (hb.contains _).mp hstored with hold | heq
            · rw [hnew b' (List.mem_cons_of_mem _ hb') hbig'] at hold
              cases hold
            · obtain rfl := hinj b' (List.mem_cons_of_mem _ hb') hbig' b List.mem_cons_self heq
              exact hsize hbig'
          · exact fun x hx hbig' y hy =>
              hinj x (List.mem_cons_of_mem _ hx) hbig' y (List.mem_cons_of_mem _ hy)
        cases hres : Receiver.resolveBlock c (shim.ingestBlock b).1 with
        | error e' => exact ⟨e', rfl⟩
        | ok x => exact ⟨e, by rw [he]; rfl⟩

/-- The hash tells every oversized block of a turn from the turn's other blocks and from
those a receiver holds. -/
def OversizedApart (blocks : List Block) (r : Receiver) : Prop :=
  ∀ b ∈ blocks, maxBlockPayloadBytes < b.payload.length →
    ∀ b' : Block, (b' ∈ blocks ∨ ∃ id, r.store.blocks.get? id = some b') →
      Blake3.hash (canonicalBytes b) = Blake3.hash (canonicalBytes b') →
      canonicalBytes b = canonicalBytes b'

omit [DedupFilter G] in
/-- A receiver refuses a turn with an oversized block. -/
theorem handleAppend_oversized (shim : SessionShim F) {blocks : List Block} {r : Receiver}
    (hr : r.WellFormed) (hsized : r.store.maps.Sized)
    (hrt : Compressor.RoundTrips shim.appendCompressor r.compressor)
    (hfit : ∀ b ∈ blocks, b.payload.length ≤ usizeMax)
    (hbig : ∃ b ∈ blocks, maxBlockPayloadBytes < b.payload.length)
    (hav : ∀ id b, shim.store.blocks.get? id = some b → r.store.blocks.get? id = some b)
    (hinj : OversizedApart blocks r) :
    ∃ e, r.handleAppend (shim.ingestTurn blocks).1 = (.error e, r) := by
  have hturn : ∀ b ∈ blocks, maxBlockPayloadBytes < b.payload.length → ∀ b' : Block,
      (b' ∈ blocks ∨ ∃ id, r.store.blocks.get? id = some b') →
      b.blockId = b'.blockId → b = b' := by
    intro b hb hsize b' hb' heq
    rw [blockId_eq_hash, blockId_eq_hash] at heq
    exact canonicalBytes_injective (hinj b hb hsize b' hb' heq)
  obtain ⟨e, he⟩ := shim.ingestBlocks_oversized hrt hfit hbig
    (fun b hb hbig => by
      rw [Bool.eq_false_iff]
      intro hstored
      obtain ⟨old, hold⟩ := ContentStore.contains_iff.mp hstored
      have hheld := hav _ _ hold
      obtain rfl := hturn b hb hbig old (Or.inr ⟨_, hheld⟩) (hr.addressed _ _ hheld)
      exact absurd (hsized _ _ hheld) (Nat.not_le.mpr hbig))
    fun b hb hsize b' hb' => hturn b hb hsize b' (Or.inl hb')
  refine ⟨e, ?_⟩
  simp only [Receiver.handleAppend, ingestTurn_frame, he]

/-- Two runs of the same calls under any two filters give the same ids, root, block map and
session logs. A further turn's frames, applied to one reachable receiver that stands at
their base and holds every block the shim's store held, have the same answer and leave the
same block map and session logs. -/
theorem filter_is_a_hint (sid : SessionId) (store : ContentStore) (compressor : Compressor)
    (filter : F) (filter' : G) {calls : List (Call F)} {calls' : List (Call G)}
    (hcalls : List.Forall₂ Call.Alike calls calls') (blocks : List Block)
    (hfit : ∀ b ∈ blocks, b.payload.length ≤ usizeMax) :
    let shim := (withFilter sid store compressor filter).callAll calls
    let shim' := (withFilter sid store compressor filter').callAll calls'
    let turn := shim.ingestTurn blocks
    let turn' := shim'.ingestTurn blocks
    (turn'.2.ids = turn.2.ids ∧ turn'.2.root = turn.2.root ∧
      turn'.2.store.blocks = turn.2.store.blocks ∧
      turn'.2.store.sessions = turn.2.store.sessions) ∧
    ∀ (opened : ContentStore) (c : Compressor) (frames : List Frame), opened.Opened →
      Compressor.RoundTrips (compressor.withLevel appendLevel) c →
      let r := (Receiver.new opened c).handleAll frames
      r.store.sessionRoot sid = turn.1.baseRoot →
      (∀ id b, shim.store.blocks.get? id = some b → r.store.blocks.get? id = some b) →
      OversizedApart blocks r →
      turn'.1.baseRoot = turn.1.baseRoot ∧
        (r.handleAppend turn'.1).1.toOption = (r.handleAppend turn.1).1.toOption ∧
        (r.handleAppend turn'.1).2.store.blocks = (r.handleAppend turn.1).2.store.blocks ∧
        (r.handleAppend turn'.1).2.store.sessions =
          (r.handleAppend turn.1).2.store.sessions := by
  intro shim shim' turn turn'
  have halike : Alike shim shim' := (alike_withFilter sid store compressor filter filter').callAll
    hcalls
  have hturn : Alike turn.2 turn'.2 := halike.ingestTurn blocks
  refine ⟨⟨hturn.ids, hturn.root, congrArg Maps.blocks hturn.maps,
    congrArg Maps.sessions hturn.maps⟩, ?_⟩
  intro opened c frames hopen hrt r hroot hheld hinj
  have hsetup := callAll_sameSetup (withFilter sid store compressor filter) calls
  have hsid : shim.sessionId = sid := hsetup.sessionId
  have hcomp : shim.appendCompressor = compressor.withLevel appendLevel := hsetup.appendCompressor
  have hbase : turn.1.baseRoot = shim.baseRoot := by rw [ingestTurn_frame]
  have hbase' : turn'.1.baseRoot = shim.baseRoot := by rw [ingestTurn_frame, halike.baseRoot]
  have hrc : r.compressor = c := Receiver.handleAll_compressor _ frames
  have hrt₁ : Compressor.RoundTrips shim.appendCompressor r.compressor := by
    rw [hcomp, hrc]
    exact hrt
  have hrt₂ : Compressor.RoundTrips shim'.appendCompressor r.compressor := by
    rw [halike.appendCompressor]
    exact hrt₁
  have hblocks : shim'.store.blocks = shim.store.blocks := congrArg Maps.blocks halike.maps
  have hheld' : ∀ id b, shim'.store.blocks.get? id = some b →
      r.store.blocks.get? id = some b := fun id b hb => hheld id b (hblocks ▸ hb)
  refine ⟨hbase'.trans hbase.symm, ?_⟩
  by_cases hbig : ∃ b ∈ blocks, maxBlockPayloadBytes < b.payload.length
  · have hwf : r.WellFormed := (Receiver.wellFormed_new hopen c).handleAll frames
    have hsized : r.store.maps.Sized := Receiver.handleAll_sized hopen.sized frames
    obtain ⟨e, he⟩ := shim.handleAppend_oversized hwf hsized hrt₁ hfit hbig hheld hinj
    obtain ⟨e', he'⟩ := shim'.handleAppend_oversized hwf hsized hrt₂ hfit hbig hheld' hinj
    rw [he, he']
    exact ⟨rfl, rfl, rfl⟩
  · have hmax : ∀ b ∈ blocks, b.payload.length ≤ maxBlockPayloadBytes := by
      intro b hb
      by_contra hlt
      exact hbig ⟨b, hb, Nat.lt_of_not_le hlt⟩
    have hcontains : ∀ s : ContentStore,
        (∀ id b, s.blocks.get? id = some b → r.store.blocks.get? id = some b) →
        ∀ id, s.contains id = true → r.store.contains id = true := by
      intro s hs id hid
      obtain ⟨b, hb⟩ := ContentStore.contains_iff.mp hid
      exact ContentStore.contains_iff.mpr ⟨b, hs id b hb⟩
    obtain ⟨hres, hmaps⟩ := shim.handleAppend_pushes blocks hrt₁ hmax
      (hcontains _ hheld) (by rw [hsid, hroot, hbase])
    obtain ⟨hres', hmaps'⟩ := shim'.handleAppend_pushes blocks hrt₂ hmax
      (hcontains _ hheld') (by rw [halike.sessionId, halike.baseRoot, hsid, hroot, hbase])
    rw [halike.sessionId, halike.baseRoot] at hres'
    rw [halike.sessionId] at hmaps'
    refine ⟨by rw [hres, hres'], ?_, ?_⟩
    · exact congrArg Maps.blocks (hmaps'.trans hmaps.symm)
    · exact congrArg Maps.sessions (hmaps'.trans hmaps.symm)

/-- A filter that never knows anything. -/
@[reducible] def blindFilter : DedupFilter Unit := ⟨fun _ _ => false, fun _ _ => ()⟩

/-- A turn that sends the same block twice. -/
private def twice : List Block := [⟨.message, 0, [7]⟩, ⟨.message, 0, [7]⟩]

omit [Blake3] [Zstd] in
/-- The block that a turn repeats is a reference under one filter and inline under another. -/
theorem filter_is_a_hint_blind :
    letI := prefixHash
    letI := storedZstd
    letI := DedupFilter.exact
    letI := blindFilter
    let shim := (withFilter 5 ContentStore.new Compressor.default ([] : List BlockId)).callAll []
    let shim' := (withFilter 5 ContentStore.new Compressor.default ()).callAll []
    let r := (Receiver.new ContentStore.new Compressor.default).handleAll []
    (shim'.ingestTurn twice).1 ≠ (shim.ingestTurn twice).1 ∧
      (shim'.ingestTurn twice).2.root = (shim.ingestTurn twice).2.root ∧
      (r.handleAppend (shim'.ingestTurn twice).1).1.toOption =
        (r.handleAppend (shim.ingestTurn twice).1).1.toOption ∧
      (r.handleAppend (shim'.ingestTurn twice).1).2.store.sessions =
        (r.handleAppend (shim.ingestTurn twice).1).2.store.sessions := by
  obtain ⟨⟨-, hroot, -⟩, happ⟩ := @filter_is_a_hint (List BlockId) Unit DedupFilter.exact
    blindFilter prefixHash storedZstd 5 ContentStore.new Compressor.default [] () _ _ .nil twice
    (by simp [twice, usizeMax])
  obtain ⟨-, hack, -, hlogs⟩ := happ ContentStore.new Compressor.default []
    (@ContentStore.Opened.fresh prefixHash) (Compressor.roundTrips_storedZstd _ _)
    (by decide +kernel) (fun id b hb => by cases hb)
    (fun b hb hsize => by simp [twice] at hb; simp [hb, maxBlockPayloadBytes] at hsize)
  exact ⟨by decide +kernel, hroot, hack, hlogs⟩

end SessionShim

end Dlr
