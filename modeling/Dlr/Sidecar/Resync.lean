import Dlr.Shim.History
import Dlr.Shim.Transfer
import Dlr.Sidecar.ChatSession

/-!
# Resynchronising what was appended

A request is bounded before it is compressed, by the sizes of its messages. The frames of a
coded transfer are not bounded by anything: a record larger than one generation becomes a
generation of its own, and every symbol of it adds its header and its length field. A block
within the one bound can exceed the other when compression does not shrink it.
-/

namespace Dlr

open Dlr.Core Coding Compress Lib Lib.Bytes Lib.Machine

namespace SessionShim

variable {F : Type}

/-! ## The size of a coded transfer -/

/-- Chunks are within a bound above the packing limit exactly when the records are. -/
theorem packChunks_le_iff {limit bound : Nat} (hlimit : limit ≤ bound)
    (records : List (List UInt8)) (cur : List UInt8) :
    (∀ chunk ∈ packChunks limit records cur, chunk.length ≤ bound) ↔
      cur.length ≤ bound ∧ ∀ rec ∈ records, rec.length ≤ bound := by
  induction records generalizing cur with
  | nil =>
      by_cases hcur : cur = []
      · simp [packChunks, hcur]
      · simp [packChunks, hcur]
  | cons rec rest ih =>
      rw [packChunks]
      split_ifs with hsplit
      · rw [List.forall_mem_cons, ih, List.forall_mem_cons]
      · rw [ih, List.forall_mem_cons, List.length_append, ← and_assoc]
        apply and_congr_left'
        by_cases hcur : cur = []
        · simp [hcur]
        · have hle : ¬ cur.length + rec.length > limit := fun hgt => hsplit ⟨hcur, hgt⟩
          constructor <;> omega

theorem packChunks_ne_nil (limit : Nat) (records : List (List UInt8)) (cur : List UInt8) :
    ∀ chunk ∈ packChunks limit records cur, chunk ≠ [] := by
  induction records generalizing cur with
  | nil =>
      intro chunk hchunk
      rw [packChunks] at hchunk
      split_ifs at hchunk with hcur
      · cases hchunk
      · rw [List.mem_singleton.mp hchunk]
        exact hcur
  | cons rec rest ih =>
      rw [packChunks]
      split_ifs with hsplit
      · rw [List.forall_mem_cons]
        exact ⟨hsplit.1, ih rec⟩
      · exact ih (cur ++ rec)

section Size

variable [FloatChoices]

/-- Without repair symbols the frame of a chunk takes 1033 bytes for every started KiB. -/
theorem length_encodeChunk (hzero : ∀ k, FloatChoices.repairCount k (FloatChoices.ofPercent 0) = 0)
    {shim : SessionShim F} (hsym : shim.fountainSymbolSize = 1024) {chunk : List UInt8}
    (hne : chunk ≠ []) {gen : Nat} {frame : BulkFrame}
    (h : shim.encodeChunk 0 chunk gen = .ok frame) :
    (encodeFrame (.bulk frame)).length = 33 + max (divCeil chunk.length 1024) 1 * 1033 := by
  obtain ⟨hcount, hsize⟩ := encodeChunk_symbols hzero hsym hne h
  rw [length_encodeFrame_bulk (n := 1029) hsize, hcount]

/-- A frame fits into a request exactly when its chunk has at most 64964 symbols. -/
theorem encodeChunk_fits_iff
    (hzero : ∀ k, FloatChoices.repairCount k (FloatChoices.ofPercent 0) = 0)
    {shim : SessionShim F} (hsym : shim.fountainSymbolSize = 1024) {chunk : List UInt8}
    (hne : chunk ≠ []) {gen : Nat} {frame : BulkFrame}
    (h : shim.encodeChunk 0 chunk gen = .ok frame) :
    chunk.length ≤ 64964 * 1024 ↔
      (encodeFrame (.bulk frame)).length ≤ Sidecar.maxRequestBytes := by
  rw [length_encodeChunk hzero hsym hne h, Sidecar.maxRequestBytes]
  constructor
  · intro hlen
    have hle : divCeil chunk.length 1024 ≤ 64964 := divCeil_le hlen
    omega
  · intro hfits
    have hcount : divCeil chunk.length 1024 ≤ 64964 := by omega
    calc chunk.length
        ≤ divCeil chunk.length 1024 * 1024 := le_divCeil_mul _ (by norm_num)
      _ ≤ 64964 * 1024 := Nat.mul_le_mul_right _ hcount

variable [Zstd]

omit [FloatChoices] in
theorem encodeRecord_le_iff {shim : SessionShim F} {b : Block} {rec : List UInt8}
    (h : shim.encodeRecord b = .ok rec) (bound : Nat) :
    (∀ z, shim.compressor.compress (canonicalBytes b) = .ok z → z.length + 4 ≤ bound) ↔
      rec.length ≤ bound := by
  unfold encodeRecord at h
  cases hz : shim.compressor.compress (canonicalBytes b) with
  | error e => rw [hz] at h; cases h
  | ok z =>
      rw [hz] at h
      obtain rfl := Except.ok.inj h
      simp only [Except.ok.injEq, forall_eq', bulkRecord, List.length_append, length_toLe]
      omega

/-- The frames of a coded transfer fit into a request each exactly when every compressed
block stays below 64964 symbols. -/
theorem bulkFramesFor_fit_iff
    (hzero : ∀ k, FloatChoices.repairCount k (FloatChoices.ofPercent 0) = 0)
    {shim : SessionShim F} (hk : shim.fountainK = 64) (hsym : shim.fountainSymbolSize = 1024)
    {missing : List BlockId} {frames : List BulkFrame}
    (h : shim.bulkFramesFor missing 0 = .ok frames) :
    (∀ frame ∈ frames, (encodeFrame (.bulk frame)).length ≤ Sidecar.maxRequestBytes) ↔
      ∀ id ∈ missing, ∀ b, shim.store.get id = some b →
        ∀ z, shim.compressor.compress (canonicalBytes b) = .ok z →
          z.length + 4 ≤ 64964 * 1024 := by
  by_cases hmissing : missing = []
  · subst hmissing
    obtain rfl := Except.ok.inj h
    simp
  · rw [bulkFramesFor, if_neg hmissing, hk, hsym] at h
    cases hrecords : (missing.filterMap shim.store.get).mapM shim.encodeRecord with
    | error e => rw [hrecords] at h; cases h
    | ok records =>
        rw [hrecords] at h
        -- the frames are bounded as the chunks, the chunks as the records, these as the blocks
        have hframes := forall_mem_iff_of_forall₂ (mapM_eq_ok h) fun chunk hchunk frame hf =>
          encodeChunk_fits_iff hzero hsym
            (packChunks_ne_nil _ _ _ _ (List.fst_mem_of_mem_zipIdx hchunk)) hf
        have hblocks := forall_mem_iff_of_forall₂ (mapM_eq_ok hrecords)
          fun b _ rec hrec => encodeRecord_le_iff hrec (64964 * 1024)
        have hchunks := packChunks_le_iff (show 64 * 1024 ≤ 64964 * 1024 by decide) records []
        have hindex : (∀ chunk ∈ (packChunks (64 * 1024) records []).zipIdx,
            chunk.1.length ≤ 64964 * 1024) ↔
            ∀ chunk ∈ packChunks (64 * 1024) records [], chunk.length ≤ 64964 * 1024 := by
          conv_rhs => rw [← List.zipIdx_map_fst 0 (packChunks (64 * 1024) records [])]
          rw [List.forall_mem_map]
        rw [← hframes, hindex, hchunks, ← hblocks]
        simp only [List.length_nil, Nat.zero_le, true_and, List.mem_filterMap,
          forall_exists_index, and_imp]
        constructor
        · intro hall id hid b hb
          exact hall b id hid hb
        · intro hall b id hid hb
          exact hall id hid b hb

end Size

end SessionShim

namespace Sidecar.ChatSession

variable {F : Type} [DedupFilter F] [Blake3] [Zstd] [SerdeJson]

/-- Sessions that successful requests and the acknowledgements between them lead to. -/
inductive Built : ChatSession F → Prop
  | new (key : String) (filter : F) : Built (ChatSession.new key filter)
  | prepare {session session' : ChatSession F} {newMessages : List Value} {request : Value}
      {prepared : PreparedChatRequest} (h : Built session)
      (hprepare : session.prepareRef newMessages request = (.ok prepared, session')) :
      Built session'
  | ack {session : ChatSession F} (h : Built session) (root : MerkleRoot) :
      Built (session.applyAck root).2

/-- A built session codes with the defaults it was created with. -/
theorem Built.setup {session : ChatSession F} (h : Built session) :
    session.shim.fountainK = 64 ∧ session.shim.fountainSymbolSize = 1024 ∧
      session.shim.compressor = Compressor.default := by
  induction h with
  | new key filter => exact ⟨rfl, rfl, rfl⟩
  | @prepare session session' newMessages request prepared h hprepare ih =>
      obtain ⟨e, herror⟩ | ⟨nextSeq, prepared', -, hok, -⟩ :=
        session.prepareRef_cases newMessages request
      · rw [herror] at hprepare
        cases hprepare
      · rw [hok] at hprepare
        cases hprepare
        have hsame := session.shim.ingestTurn_sameSetup (session.turn newMessages)
        exact ⟨hsame.fountainK.trans ih.1, hsame.fountainSymbolSize.trans ih.2.1,
          hsame.compressor.trans ih.2.2⟩
  | @ack session h root ih =>
      have hsame := session.shim.applyAck_sameSetup root
      have hshim : (session.applyAck root).2.shim = (session.shim.applyAck root).2 := by
        simp only [ChatSession.applyAck]
        split_ifs <;> rfl
      rw [hshim]
      exact ⟨hsame.fountainK.trans ih.1, hsame.fountainSymbolSize.trans ih.2.1,
        hsame.compressor.trans ih.2.2⟩

variable [FloatChoices]

omit [DedupFilter F] [Blake3] [SerdeJson] in
theorem bulkFramesFor_fit_iff
    (hzero : ∀ k, FloatChoices.repairCount k (FloatChoices.ofPercent 0) = 0)
    {session : ChatSession F} (hk : session.shim.fountainK = 64)
    (hsym : session.shim.fountainSymbolSize = 1024) {missing : List BlockId}
    {frames : List (List UInt8)} (h : session.bulkFramesFor missing 0 = .ok frames) :
    (∀ frame ∈ frames, frame.length ≤ maxRequestBytes) ↔
      ∀ id ∈ missing, ∀ b, session.shim.store.get id = some b →
        ∀ z, session.shim.compressor.compress (canonicalBytes b) = .ok z →
          z.length + 4 ≤ 64964 * 1024 := by
  unfold ChatSession.bulkFramesFor at h
  cases hbulk : session.shim.bulkFramesFor missing 0 with
  | error e => rw [hbulk] at h; cases h
  | ok bulk =>
      rw [hbulk] at h
      obtain rfl := Except.ok.inj h
      rw [List.forall_mem_map]
      exact SessionShim.bulkFramesFor_fit_iff hzero hk hsym hbulk

/-- Whatever was appended: the coded transfer of any of its blocks without a repair margin
fits into requests exactly when none of them stays above the limit after compression. -/
theorem resync_within_request_limit_iff
    (hzero : ∀ k, FloatChoices.repairCount k (FloatChoices.ofPercent 0) = 0)
    {session : ChatSession F} (hbuilt : session.Built) {missing : List BlockId}
    {frames : List (List UInt8)} (h : session.bulkFramesFor missing 0 = .ok frames) :
    (∀ frame ∈ frames, frame.length ≤ maxRequestBytes) ↔
      ∀ id ∈ missing, ∀ b, session.shim.store.get id = some b →
        ∀ z, Compressor.default.compress (canonicalBytes b) = .ok z →
          z.length + 4 ≤ 64964 * 1024 := by
  obtain ⟨hk, hsym, hcompressor⟩ := hbuilt.setup
  rw [bulkFramesFor_fit_iff hzero hk hsym h, hcompressor]

omit [DedupFilter F] [Blake3] [Zstd] [SerdeJson] [FloatChoices] in
/-- A short message is resynchronised within the limit. -/
theorem resync_within_request_limit_short :
    letI := prefixHash
    letI := storedZstd
    letI := percentChoices
    letI := DedupFilter.exact
    letI := sampleJson []
    let message : Value := .object [("content", .string "hi"), ("role", .string "user")]
    let session := ((ChatSession.new "chat" ([] : List BlockId)).prepareRef [message]
      (.object [])).2
    ∃ frame, session.bulkFramesFor session.shim.ids 0 = .ok [frame] ∧
      frame.length ≤ maxRequestBytes := by
  let _ := prefixHash
  let _ := storedZstd
  let _ := percentChoices
  let _ := DedupFilter.exact
  let _ := sampleJson []
  intro message session
  have hget : session.shim.ids.map session.shim.store.get =
      [some ⟨.message, 1, message.print⟩] := by decide +kernel
  have hone : ((session.bulkFramesFor session.shim.ids 0).toOption.map List.length) = some 1 := by
    decide +kernel
  have hbuilt : session.Built := by
    obtain ⟨nextSeq, prepared, -, hprepare, -⟩ := prepareRef_of_check
      (show checkPrepare (ChatSession.new "chat" ([] : List BlockId)).pendingRoot [message]
        (.object []) = .ok [(.message, message.print)] by rfl)
    rw [show session = _ from congrArg Prod.snd hprepare]
    exact .prepare (.new "chat" []) hprepare
  have hprint : message.print.length = 30 := by decide +kernel
  clear_value session
  cases hframes : session.bulkFramesFor session.shim.ids 0 with
  | error e => rw [hframes] at hone; cases hone
  | ok frames =>
      rw [hframes] at hone
      obtain ⟨frame, rfl⟩ := List.length_eq_one_iff.mp (Option.some.inj hone)
      refine ⟨frame, rfl, ?_⟩
      apply (resync_within_request_limit_iff percentChoices_repairCount_zero hbuilt hframes).mpr
      · intro id hid b hb z hz
        have hmem := List.mem_map_of_mem (f := session.shim.store.get) hid
        rw [hget, hb, List.mem_singleton, Option.some.injEq] at hmem
        have hle := Compressor.length_compress_le hz
        rw [hmem, length_canonicalBytes, hprint] at hle
        omega
      · exact List.mem_cons_self

end Sidecar.ChatSession

/-! ## Text that does not compress -/

namespace Sidecar

/-- `n` numbers of a stream. -/
def draws : Nat → ImplRng → List Nat
  | 0, _ => []
  | n + 1, rng =>
      let (z, rng) := rng.nextU64
      (z >>> 40).toNat :: draws n rng

/-- A printable ASCII character that JSON does not escape. -/
def narrowChar (d : Nat) : Char :=
  let d := d % 93
  Char.ofNat (if d < 2 then 0x20 + d else if d < 59 then 0x21 + d else 0x22 + d)

/-- A character of two bytes. -/
def wideChar (d : Nat) : Char := Char.ofNat (0x80 + d % 1920)

/-- A character of three bytes. -/
def tallChar (d : Nat) : Char := Char.ofNat (0x800 + d % 51200)

/-- Sixteen bytes of text. The mix keeps every byte value below one in 128, where a
byte-wise entropy coder no longer tries. -/
def noiseChars (i : Nat) : List Char :=
  (draws 9 (ImplRng.new (UInt64.ofNat (3 * i)))).map narrowChar ++
    (draws 2 (ImplRng.new (UInt64.ofNat (3 * i + 1)))).map wideChar ++
    (draws 1 (ImplRng.new (UInt64.ofNat (3 * i + 2)))).map tallChar

def noise (n : Nat) : String := String.ofList ((List.range n).flatMap noiseChars)

theorem length_draws (n : Nat) (rng : ImplRng) : (draws n rng).length = n := by
  induction n generalizing rng with
  | zero => rfl
  | succ n ih => simp [draws, ih]

theorem val_ofNat {n : Nat} (h : n < 0xD800) : (Char.ofNat n).val.toNat = n := by
  unfold Char.ofNat
  rw [dif_pos (Or.inl h)]
  rfl

theorem utf8Size_narrowChar (d : Nat) : (narrowChar d).utf8Size = 1 := by
  have hd : d % 93 < 93 := Nat.mod_lt d (by norm_num)
  unfold narrowChar Char.utf8Size
  simp only [UInt32.le_iff_toNat_le]
  rw [val_ofNat (by split_ifs <;> omega), if_pos]
  split_ifs <;> simp <;> omega

theorem utf8Size_wideChar (d : Nat) : (wideChar d).utf8Size = 2 := by
  have hd : d % 1920 < 1920 := Nat.mod_lt d (by norm_num)
  unfold wideChar Char.utf8Size
  simp only [UInt32.le_iff_toNat_le]
  rw [val_ofNat (by omega), if_neg, if_pos] <;> simp <;> omega

theorem utf8Size_tallChar (d : Nat) : (tallChar d).utf8Size = 3 := by
  have hd : d % 51200 < 51200 := Nat.mod_lt d (by norm_num)
  unfold tallChar Char.utf8Size
  simp only [UInt32.le_iff_toNat_le]
  rw [val_ofNat (by omega), if_neg, if_neg, if_pos] <;> simp <;> omega

theorem utf8ByteSize_ofList (cs : List Char) :
    (String.ofList cs).utf8ByteSize = (cs.map Char.utf8Size).sum := by
  induction cs with
  | nil => rfl
  | cons c rest ih =>
      rw [← String.size_toByteArray, String.toByteArray_ofList] at ih ⊢
      rw [List.utf8Encode_cons, ByteArray.size_append, ih]
      simp [List.utf8Encode_singleton]

theorem utf8ByteSize_noise (n : Nat) : (noise n).utf8ByteSize = 16 * n := by
  unfold noise
  rw [utf8ByteSize_ofList]
  induction n with
  | zero => rfl
  | succ n ih =>
      rw [List.range_succ, List.flatMap_append, List.map_append, List.sum_append, ih]
      simp [noiseChars, Function.comp_def, utf8Size_narrowChar, utf8Size_wideChar,
        utf8Size_tallChar, length_draws]
      omega

/-- A user message. -/
def userMessage (content : String) : Value :=
  .object [("content", .string content), ("role", .string "user")]

theorem length_print_userMessage (content : String) :
    (userMessage content).print.length = 28 + content.utf8ByteSize := by
  have hcontent : content.toUTF8.data.toList.length = content.utf8ByteSize := rfl
  have hkeys : ("content".toUTF8.data.toList.length = 7 ∧ "role".toUTF8.data.toList.length = 4) ∧
      "user".toUTF8.data.toList.length = 4 := by decide +kernel
  simp only [userMessage, Value.print, Value.printMembers, List.length_append, hcontent, hkeys,
    List.length_cons, List.length_nil, List.isEmpty_cons, List.isEmpty_nil, Bool.false_eq_true,
    if_true, if_false]
  omega

section Oversized

variable [SerdeJson] (hprint : ∀ v, SerdeJson.toVec v = v.print)

include hprint in
/-- A user message within the append-side bound passes every check of `prepare`. -/
theorem checkPrepare_userMessage {content : String}
    (hfit : content.utf8ByteSize ≤ maxRequestBytes - 144) :
    checkPrepare none [userMessage content] (.object []) =
      .ok [(.message, (userMessage content).print)] := by
  have hlen := length_print_userMessage content
  have husize : usizeMax = 2 ^ 64 - 1 := rfl
  have hmeta : (requestMetadata (.object [])).length = 14 := by
    rw [requestMetadata, hprint]
    decide +kernel
  have hserialize : serializeMessages 0 [userMessage content] =
      .ok [(.message, (userMessage content).print)] := by
    rw [← hprint]
    rfl
  have hvalidate : validateRequestValue (.object []) = .ok () := by rfl
  simp only [maxRequestBytes] at hfit
  have hworst : worstCaseSize 14 [(.message, (userMessage content).print)] =
      some (144 + content.utf8ByteSize) := by
    simp only [worstCaseSize, List.foldl_cons, List.foldl_nil, hlen]
    rw [checkedAdd_of_le (by omega), Option.bind_some, checkedAdd_of_le (by omega),
      Option.bind_some, checkedAdd_of_le (by omega), Option.bind_some,
      checkedAdd_of_le (by omega)]
    congr 1
    omega
  have hwithin : ¬ 144 + content.utf8ByteSize > maxRequestBytes := by
    simp only [maxRequestBytes]
    omega
  simp only [checkPrepare, Option.isSome_none, Value.asObject, hserialize, hvalidate, hmeta,
    bind, Except.bind, hworst, hwithin]
  rfl

variable {F : Type} [DedupFilter F] [Blake3] [Zstd] [FloatChoices]

include hprint in
/-- With a codec that does not shrink the message, its transfer outgrows a request. -/
theorem oversized_resync (hstored : ∀ input, Compressor.default.compress input = .ok (0x00 :: input))
    (hzero : ∀ k, FloatChoices.repairCount k (FloatChoices.ofPercent 0) = 0) {content : String}
    (key : String) (filter : F) (hlow : 64964 * 1024 - 50 < content.utf8ByteSize)
    (hfit : content.utf8ByteSize ≤ maxRequestBytes - 144) :
    ∃ prepared session, ∃ b : Block, ∃ frames,
      (ChatSession.new key filter).prepareRef [userMessage content] (.object []) =
        (.ok prepared, session) ∧ session.shim.ids = [b.blockId] ∧
      session.bulkFramesFor [b.blockId] 0 = .ok frames ∧
      ∃ frame ∈ frames, maxRequestBytes < frame.length := by
  obtain ⟨nextSeq, prepared, -, hprepare, -⟩ := ChatSession.prepareRef_of_check
    (show checkPrepare (ChatSession.new key filter).pendingRoot [userMessage content]
      (.object []) = _ from checkPrepare_userMessage hprint hfit)
  set b : Block := ⟨.message, 1, (userMessage content).print⟩ with hb
  have hturn : (ChatSession.new key filter).turn [userMessage content] = [b] := by
    rw [hb, ← hprint]
    rfl
  rw [hturn] at hprepare
  set shim' := ((ChatSession.new key filter).shim.ingestTurn [b]).2 with hshim
  have hbuilt := ChatSession.Built.prepare (.new key filter) hprepare
  obtain ⟨hk, hsym, hcompressor⟩ := hbuilt.setup
  have hids : shim'.ids = _ := ((ChatSession.new key filter).shim.ingestTurn_spec [b]).ids
  have hget : shim'.store.get b.blockId = some b :=
    ((ChatSession.new key filter).shim.ingestBlock_spec b).stored rfl
  have hlen : b.payload.length = 28 + content.utf8ByteSize := length_print_userMessage content
  simp only [maxRequestBytes] at hfit
  have hrt : Compressor.RoundTrips Compressor.default Compressor.default :=
    fun input => ⟨_, hstored input, rfl⟩
  rw [← hcompressor] at hrt
  have hfound : [b.blockId].filterMap shim'.store.get = [b] := List.filterMap_cons_some hget
  obtain ⟨bulk, groups, hbulk, -⟩ := SessionShim.bulkFramesFor_delivers hrt hk hsym [b.blockId] (by
      rw [hfound]
      simp only [List.mem_singleton, forall_eq, maxBlockPayloadBytes]
      omega) (by
      rw [hfound, hcompressor]
      simp only [List.mem_singleton, forall_eq, hstored, Except.ok.injEq, forall_eq',
        SessionShim.bulkRecord, List.length_append, length_toLe, List.length_cons,
        length_canonicalBytes]
      omega) 0
  have hframes : ChatSession.bulkFramesFor ⟨shim', nextSeq, some shim'.root⟩ [b.blockId] 0 =
      .ok (bulk.map fun frame => encodeFrame (.bulk frame)) := by
    unfold ChatSession.bulkFramesFor
    rw [hbulk]
  refine ⟨prepared, _, b, _, hprepare, ?_, hframes, ?_⟩
  · rw [hids]
    rfl
  · by_contra hnone
    push Not at hnone
    have hall := (ChatSession.bulkFramesFor_fit_iff hzero hk hsym hframes).mp hnone b.blockId
      List.mem_cons_self b hget
    rw [hcompressor] at hall
    have hle := hall _ (hstored _)
    rw [List.length_cons, length_canonicalBytes] at hle
    omega

end Oversized

/-- A message of 67 040 000 bytes that can be appended, and whose transfer is too large for
the body limit of the sidecar. -/
theorem incompressible_message_not_resynchronised :
    letI := prefixHash
    letI := storedZstd
    letI := percentChoices
    letI := DedupFilter.exact
    letI := sampleJson []
    ∃ prepared session, ∃ b : Block, ∃ frames,
      (ChatSession.new "chat" ([] : List BlockId)).prepareRef [userMessage (noise 4190000)]
        (.object []) = (.ok prepared, session) ∧ session.shim.ids = [b.blockId] ∧
      session.bulkFramesFor [b.blockId] 0 = .ok frames ∧
      ∃ frame ∈ frames, maxRequestBytes < frame.length := by
  have hsize := utf8ByteSize_noise 4190000
  have hlimit : maxRequestBytes = 67108864 := rfl
  exact @oversized_resync (sampleJson []) (fun _ => rfl) _ DedupFilter.exact prefixHash storedZstd
    percentChoices (Compressor.compress_storedZstd _) percentChoices_repairCount_zero _ "chat" []
    (by omega) (by omega)

end Sidecar

end Dlr
