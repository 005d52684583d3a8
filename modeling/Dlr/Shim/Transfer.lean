import Dlr.Receiver.Effects
import Dlr.Shim.SessionShim

/-!
# The coded transfer of missing blocks

The shim compresses every missing block into a self-framed record, packs whole
records into chunks, and codes a chunk as one generation in one frame. A receiver
that starts a decoder on such a frame gets exactly the blocks of its chunk back:
the zero padding of the generation ends the record stream.
-/

namespace Dlr

open Dlr.Core Coding Compress Lib Lib.Bytes Lib.Machine

/-! ## Reading the records back -/

namespace Receiver

open SessionShim (bulkRecord)

/-- The parser takes one record off the front of the stream. -/
theorem parseRecordsFrom_record (fuel : Nat) {z : List UInt8} (hne : z ≠ [])
    (hlen : z.length < 256 ^ 4) (rest : List UInt8) :
    parseRecordsFrom (fuel + 1) (bulkRecord z ++ rest) = z :: parseRecordsFrom fuel rest := by
  have hpos : z.length ≠ 0 := by simpa using hne
  have hlenField : takeExact 4 (bulkRecord z ++ rest) = some (toLe 4 z.length, z ++ rest) := by
    rw [bulkRecord, List.append_assoc]
    exact takeExact_append _ (length_toLe 4 _)
  simp only [parseRecordsFrom, hlenField, ofLe_toLe hlen, if_neg hpos, takeExact_append rest rfl]

/-- The parser stops at the zero padding. -/
theorem parseRecordsFrom_padding (fuel pad : Nat) :
    parseRecordsFrom fuel (List.replicate pad 0) = [] := by
  cases fuel with
  | zero => rfl
  | succ fuel =>
      by_cases hpad : pad < 4
      · have hnone : takeExact 4 (List.replicate pad (0 : UInt8)) = none :=
          takeExact_eq_none_iff.mpr (by simpa using hpad)
        simp only [parseRecordsFrom, hnone]
      · obtain ⟨m, rfl⟩ : ∃ m, pad = 4 + m := ⟨pad - 4, by omega⟩
        have hsome : takeExact 4 (List.replicate (4 + m) (0 : UInt8)) =
            some (List.replicate 4 0, List.replicate m 0) := by
          rw [← List.replicate_append_replicate]
          exact takeExact_append _ (by simp)
        simp only [parseRecordsFrom, hsome]
        exact if_pos (by decide)

/-- The records of a padded chunk are read back one by one. -/
theorem parseRecords_chunk (zs : List (List UInt8))
    (h : ∀ z ∈ zs, z ≠ [] ∧ z.length < 256 ^ 4) (pad : Nat) :
    parseRecords ((zs.map bulkRecord).flatten ++ List.replicate pad 0) = zs := by
  have hfuel : ∀ fuel, zs.length ≤ fuel →
      parseRecordsFrom fuel ((zs.map bulkRecord).flatten ++ List.replicate pad 0) = zs := by
    induction zs with
    | nil =>
        intro fuel _
        exact parseRecordsFrom_padding fuel pad
    | cons z rest ih =>
        intro fuel hle
        obtain ⟨m, rfl⟩ : ∃ m, fuel = m + 1 :=
          ⟨fuel - 1, by simp only [List.length_cons] at hle; omega⟩
        obtain ⟨hne, hlen⟩ := h z List.mem_cons_self
        rw [List.map_cons, List.flatten_cons, List.append_assoc,
          parseRecordsFrom_record m hne hlen, ih (fun y hy => h y (List.mem_cons_of_mem _ hy)) m
            (by simpa using hle)]
  apply hfuel
  have hcount : zs.length ≤ (zs.map bulkRecord).flatten.length := by
    clear hfuel h
    induction zs with
    | nil => simp
    | cons z rest ih =>
        simp only [List.map_cons, List.flatten_cons, List.length_append, List.length_cons,
          bulkRecord, length_toLe]
        omega
  rw [List.length_append]
  omega

end Receiver

namespace SessionShim

variable {F : Type}

/-! ## Packing records into chunks -/

/-- Packing only groups consecutive items; every chunk is nonempty and within the
limit, or a single large item. -/
theorem packChunks_groups {α : Type*} (enc : α → List UInt8) {limit bound : Nat}
    (hlimit : limit ≤ bound) {items : List α}
    (hitems : ∀ x ∈ items, enc x ≠ [] ∧ (enc x).length ≤ bound) (group : List α)
    (hgroup : ∀ x ∈ group, enc x ≠ []) (hcur : (group.map enc).flatten.length ≤ bound) :
    ∃ groups : List (List α),
      packChunks limit (items.map enc) (group.map enc).flatten =
        groups.map (fun g => (g.map enc).flatten) ∧
      groups.flatten = group ++ items ∧
      ∀ g ∈ groups, g ≠ [] ∧ (g.map enc).flatten.length ≤ bound := by
  induction items generalizing group with
  | nil =>
      by_cases hempty : (group.map enc).flatten = []
      · refine ⟨[], by simp [packChunks, hempty], ?_, by simp⟩
        cases group with
        | nil => rfl
        | cons x rest =>
            have hx : enc x = [] := by
              rw [List.map_cons, List.flatten_cons] at hempty
              exact (List.append_eq_nil_iff.mp hempty).1
            exact absurd hx (hgroup x List.mem_cons_self)
      · refine ⟨[group], by simp [packChunks, hempty], by simp, ?_⟩
        intro g hg
        obtain rfl : g = group := by simpa using hg
        refine ⟨?_, hcur⟩
        rintro rfl
        exact hempty rfl
  | cons x rest ih =>
      obtain ⟨hx, hxlen⟩ := hitems x List.mem_cons_self
      have hrest := fun y hy => hitems y (List.mem_cons_of_mem _ hy)
      rw [List.map_cons, packChunks]
      split_ifs with hsplit
      · -- the current chunk is closed and `x` starts the next one
        obtain ⟨groups, hpack, hflat, hbound⟩ := ih hrest [x] (by simpa using hx)
          (by simpa using hxlen)
        rw [List.map_singleton, List.flatten_singleton] at hpack
        refine ⟨group :: groups, by rw [hpack, List.map_cons], by simp [hflat], ?_⟩
        intro g hg
        rcases List.mem_cons.mp hg with rfl | hmem
        · refine ⟨?_, hcur⟩
          rintro rfl
          exact hsplit.1 rfl
        · exact hbound g hmem
      · have happend : (group.map enc).flatten ++ enc x = ((group ++ [x]).map enc).flatten := by
          simp
        have hfits : ((group ++ [x]).map enc).flatten.length ≤ bound := by
          rw [← happend, List.length_append]
          by_cases hempty : (group.map enc).flatten = []
          · rw [hempty]
            simpa using hxlen
          · have hle : ¬ (group.map enc).flatten.length + (enc x).length > limit :=
              fun hgt => hsplit ⟨hempty, hgt⟩
            omega
        obtain ⟨groups, hpack, hflat, hbound⟩ := ih hrest (group ++ [x]) (by
          intro y hy
          rcases List.mem_append.mp hy with hold | hnew
          · exact hgroup y hold
          · obtain rfl : y = x := by simpa using hnew
            exact hx) hfits
        rw [happend]
        exact ⟨groups, hpack, by simp [hflat], hbound⟩

/-! ## One generation -/

section Generation

variable [Blake3] [Zstd]

/-- A decoder started on the frame yields exactly these blocks. -/
def Delivers (c : Compressor) (frame : BulkFrame) (blocks : List Block) : Prop :=
  ∃ d syms, (FountainDecoder.new frame.k.toNat frame.symbolSize.toNat).addAll frame.symbols =
      (.ok (), d) ∧ d.decode.1 = .ok syms ∧
    (Receiver.parseRecords syms.flatten).mapM (Receiver.recoverBlock c) =
      .ok (blocks.map fun b => (b, b.blockId))

/-- A frame delivers one list of blocks at most. -/
theorem Delivers.unique {c : Compressor} {frame : BulkFrame} {blocks blocks' : List Block}
    (h : Delivers c frame blocks) (h' : Delivers c frame blocks') : blocks = blocks' := by
  obtain ⟨d, syms, hadd, hdec, hrec⟩ := h
  obtain ⟨d', syms', hadd', hdec', hrec'⟩ := h'
  cases hadd.symm.trans hadd'
  cases hdec.symm.trans hdec'
  have hpairs := congrArg (List.map Prod.fst) (Except.ok.inj (hrec.symm.trans hrec'))
  simpa [Function.comp_def] using hpairs

/-- A block with the compressed bytes that travel for it. -/
def Travels (shim : SessionShim F) (x : Block × List UInt8) : Prop :=
  shim.compressor.compress (canonicalBytes x.1) = .ok x.2 ∧
    x.1.payload.length ≤ maxBlockPayloadBytes ∧ (bulkRecord x.2).length ≤ 65536 * 1024

omit [Blake3] in
theorem Travels.record {shim : SessionShim F} {x : Block × List UInt8} (h : shim.Travels x) :
    x.2 ≠ [] ∧ x.2.length < 256 ^ 4 := by
  obtain ⟨hz, -, hlen⟩ := h
  refine ⟨Compressor.compress_ne_nil hz, ?_⟩
  simp only [bulkRecord, List.length_append, length_toLe] at hlen
  omega

omit [Blake3] [Zstd] in
/-- Without repair symbols a chunk takes one symbol of 1029 bytes for every started KiB. -/
theorem encodeChunk_symbols [FloatChoices]
    (hzero : ∀ k, FloatChoices.repairCount k (FloatChoices.ofPercent 0) = 0)
    {shim : SessionShim F} (hsym : shim.fountainSymbolSize = 1024) {chunk : List UInt8}
    (hne : chunk ≠ []) {gen : Nat} {frame : BulkFrame}
    (h : shim.encodeChunk 0 chunk gen = .ok frame) :
    frame.symbols.length = max (divCeil chunk.length 1024) 1 ∧
      ∀ s ∈ frame.symbols, s.length = 1029 := by
  simp only [encodeChunk, hsym] at h
  cases henc : Bulk.encode chunk
      ⟨max (divCeil chunk.length 1024) 1, 1024, FloatChoices.ofPercent 0, 0⟩ with
  | error e => rw [henc] at h; cases h
  | ok coded =>
      rw [henc] at h
      obtain rfl := Except.ok.inj h
      obtain ⟨hcount, hsize⟩ := encode_systematic _ hne (Nat.zero_lt_succ 1023) rfl (hzero _) henc
      refine ⟨by rw [List.length_map, hcount], ?_⟩
      intro s hs
      obtain ⟨w, hw, rfl⟩ := List.mem_map.mp hs
      exact hsize w hw

/-- The frame of a chunk delivers the blocks of the chunk. -/
theorem encodeChunk_delivers [FloatChoices] {shim : SessionShim F} {c : Compressor}
    (hrt : Compressor.RoundTrips shim.compressor c) (hsym : shim.fountainSymbolSize = 1024)
    {group : List (Block × List UInt8)} (hgroup : ∀ x ∈ group, shim.Travels x) (hne : group ≠ [])
    (hlen : (group.map fun x => bulkRecord x.2).flatten.length ≤ 65536 * 1024)
    (margin : UInt32) (gen : Nat) :
    ∃ frame, shim.encodeChunk margin (group.map fun x => bulkRecord x.2).flatten gen = .ok frame ∧
      frame.sessionId = shim.sessionId ∧ Delivers c frame (group.map Prod.fst) := by
  set chunk := (group.map fun x => bulkRecord x.2).flatten with hchunk
  have hpayload : chunk ≠ [] := by
    cases group with
    | nil => exact absurd rfl hne
    | cons x rest =>
        intro hnil
        have hzero := congrArg List.length hnil
        simp [hchunk, bulkRecord] at hzero
  have hk : max (divCeil chunk.length 1024) 1 ≤ 65536 := by
    have hle : divCeil chunk.length 1024 ≤ 65536 := divCeil_le hlen
    omega
  obtain ⟨wires, d, syms, pad, henc, hadd, hdec, hflat⟩ := encode_single
    ⟨max (divCeil chunk.length 1024) 1, 1024, FloatChoices.ofPercent margin, 0⟩
    hpayload (Nat.zero_lt_succ 1023) rfl hk (by
      refine (Nat.mul_le_mul_right 1024 hk).trans ?_
      decide)
  have hktoNat : (UInt32.ofNat (max (divCeil chunk.length 1024) 1)).toNat =
      max (divCeil chunk.length 1024) 1 :=
    UInt32.toNat_ofNat_of_lt' (by
      have hsize : UInt32.size = 4294967296 := rfl
      omega)
  refine ⟨⟨shim.sessionId, UInt32.ofNat gen, UInt32.ofNat (max (divCeil chunk.length 1024) 1),
    UInt32.ofNat 1024, wires⟩, ?_, rfl, d, syms, ?_, hdec, ?_⟩
  · simp only [encodeChunk, hsym, henc, List.map_map]
    simp
  · rw [hktoNat]
    exact hadd
  · have hparse := Receiver.parseRecords_chunk (group.map Prod.snd) (by
      intro z hz
      obtain ⟨x, hx, rfl⟩ := List.mem_map.mp hz
      exact (hgroup x hx).record) pad
    rw [List.map_map] at hparse
    rw [hflat, hchunk]
    refine (congrArg (fun records => List.mapM (Receiver.recoverBlock c) records) hparse).trans ?_
    apply mapM_of_forall₂
    rw [List.map_map, List.forall₂_map_left_iff, List.forall₂_map_right_iff, List.forall₂_same]
    intro x hx
    obtain ⟨hz, hmax, -⟩ := hgroup x hx
    exact Receiver.recoverBlock_compressed hrt hmax hz

/-! ## The whole transfer -/

section Transfer

variable [FloatChoices] {shim : SessionShim F} {c : Compressor}

/-- Consecutive chunks become frames that deliver their groups in order. -/
theorem encodeChunks_deliver (hrt : Compressor.RoundTrips shim.compressor c)
    (hsym : shim.fountainSymbolSize = 1024) {groups : List (List (Block × List UInt8))}
    (hgroups : ∀ g ∈ groups, g ≠ [] ∧
      (g.map fun x => bulkRecord x.2).flatten.length ≤ 65536 * 1024)
    (htravels : ∀ g ∈ groups, ∀ x ∈ g, shim.Travels x) (margin : UInt32) (start : Nat) :
    ∃ frames, ((groups.map fun g => (g.map fun x => bulkRecord x.2).flatten).zipIdx start).mapM
        (fun chunk => shim.encodeChunk margin chunk.1 chunk.2) = .ok frames ∧
      List.Forall₂ (fun frame g => frame.sessionId = shim.sessionId ∧ Delivers c frame g) frames
        (groups.map fun g => g.map Prod.fst) := by
  induction groups generalizing start with
  | nil => exact ⟨[], rfl, .nil⟩
  | cons g rest ih =>
      obtain ⟨hne, hlen⟩ := hgroups g List.mem_cons_self
      obtain ⟨frame, hframe, hsid, hdel⟩ := encodeChunk_delivers hrt hsym
        (htravels g List.mem_cons_self) hne hlen margin start
      obtain ⟨frames, hframes, hall⟩ := ih (fun g hg => hgroups g (List.mem_cons_of_mem _ hg))
        (fun g hg => htravels g (List.mem_cons_of_mem _ hg)) (start + 1)
      refine ⟨frame :: frames, ?_, .cons ⟨hsid, hdel⟩ hall⟩
      rw [List.map_cons, List.zipIdx_cons, List.mapM_cons, hframe, hframes]
      rfl

omit [Blake3] [Zstd] [FloatChoices] in
/-- Looking up stored ids gives their blocks. -/
theorem filterMap_get_eq {store : ContentStore} {ids : List BlockId} {blocks : List Block}
    (h : List.Forall₂ (fun id b => store.get id = some b) ids blocks) :
    ids.filterMap store.get = blocks := by
  induction h with
  | nil => rfl
  | cons hb _ ih => rw [List.filterMap_cons_some hb, ih]

/-- The transfer of stored blocks succeeds, and its frames deliver consecutive groups of
the blocks. -/
theorem bulkFramesFor_delivers (hrt : Compressor.RoundTrips shim.compressor c)
    (hk : shim.fountainK = 64) (hsym : shim.fountainSymbolSize = 1024)
    (missing : List BlockId)
    (hmax : ∀ b ∈ missing.filterMap shim.store.get, b.payload.length ≤ maxBlockPayloadBytes)
    (hrec : ∀ b ∈ missing.filterMap shim.store.get, ∀ z,
      shim.compressor.compress (canonicalBytes b) = .ok z → (bulkRecord z).length ≤ 65536 * 1024)
    (margin : UInt32) :
    ∃ frames groups, shim.bulkFramesFor missing margin = .ok frames ∧
      List.flatten groups = missing.filterMap shim.store.get ∧
      List.Forall₂ (fun frame g => frame.sessionId = shim.sessionId ∧ Delivers c frame g)
        frames groups := by
  by_cases hmissing : missing = []
  · subst hmissing
    exact ⟨[], [], rfl, rfl, .nil⟩
  set blocks := missing.filterMap shim.store.get with hblocks
  choose z hz hdec using hrt
  set items := blocks.map fun b => (b, z (canonicalBytes b)) with hitemsEq
  have htravels : ∀ x ∈ items, shim.Travels x := by
    intro x hx
    obtain ⟨b, hb, rfl⟩ := List.mem_map.mp hx
    exact ⟨hz _, hmax b hb, hrec b hb _ (hz _)⟩
  have hrecords : blocks.mapM shim.encodeRecord = .ok (items.map fun x => bulkRecord x.2) := by
    apply mapM_of_forall₂
    rw [hitemsEq, List.map_map, List.forall₂_map_right_iff, List.forall₂_same]
    intro b _
    simp only [encodeRecord, hz, Function.comp]
  obtain ⟨groups, hpack, hflat, hbound⟩ := packChunks_groups
    (fun x : Block × List UInt8 => bulkRecord x.2) (show 64 * 1024 ≤ 65536 * 1024 by decide)
    (fun x hx => ⟨by simp [bulkRecord, (htravels x hx).record.1], (htravels x hx).2.2⟩) []
    (by simp) (by simp)
  obtain ⟨frames, hframes, hall⟩ := encodeChunks_deliver
    (fun input => ⟨z input, hz input, hdec input⟩) hsym hbound
    (fun g hg x hx => htravels x (by
      rw [List.nil_append] at hflat
      rw [← hflat]
      exact List.mem_flatten_of_mem hg hx)) margin 0
  refine ⟨frames, groups.map fun g => g.map Prod.fst, ?_, ?_, hall⟩
  · rw [bulkFramesFor, if_neg hmissing, ← hblocks, hrecords, hk, hsym]
    simp only [bind, Except.bind]
    rw [show packChunks (64 * 1024) (items.map fun x => bulkRecord x.2) [] = _ from hpack]
    exact hframes
  · rw [← List.map_flatten, hflat, List.nil_append, hitemsEq, List.map_map]
    exact List.map_id' blocks

end Transfer

end Generation

end SessionShim

end Dlr
