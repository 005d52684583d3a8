import Dlr.Core.FrameRead

/-!
# The frame codec is prefix-free, and what it accepts

Two more descriptions of a reader: it refuses every proper prefix of its bytes, and
whatever it accepts was laid out in a certain way. Both compose along the layout of a
frame. The first makes the codec a prefix-free round trip; the second says how far an
accepted buffer may differ from the encoding of its frame.

## Implementation notes

A refusal is an error value. A reader that indexes outside its window panics, which is
not a refusal.
-/

namespace Dlr.Core

open Lib.Bytes Lib.Machine

namespace Reader

variable {α β : Type}

/-- Every proper prefix of these bytes is refused. -/
def Rejects (p : Reader α) (w : List UInt8) : Prop :=
  ∀ v, v <+: w → v.length < w.length → ∃ e, p.run v = .error (.error e)

/-- The reader returns this value from these bytes and from no proper prefix of them. -/
structure Reads (p : Reader α) (w : List UInt8) (a : α) : Prop where
  consumes : Consumes p w a
  rejects : Rejects p w

theorem Reads.pure (a : α) : Reads (Pure.pure a) [] a :=
  ⟨Consumes.pure a, fun _ _ hlt => by simp at hlt⟩

theorem Reads.bind {p : Reader α} {q : α → Reader β} {w w' : List UInt8} {a : α} {b : β}
    (hp : Reads p w a) (hq : Reads (q a) w' b) : Reads (p >>= q) (w ++ w') b where
  consumes := hp.consumes.bind hq.consumes
  rejects := by
    intro v hv hlt
    rw [StateT.run_bind]
    by_cases hshort : v.length < w.length
    · obtain ⟨e, he⟩ := hp.rejects v
        (List.prefix_of_prefix_length_le hv (List.prefix_append _ _) hshort.le) hshort
      exact ⟨e, by rw [he]; rfl⟩
    · obtain ⟨v', rfl⟩ : w <+: v :=
        List.prefix_of_prefix_length_le (List.prefix_append _ _) hv (Nat.le_of_not_lt hshort)
      rw [List.length_append, List.length_append] at hlt
      obtain ⟨e, he⟩ := hq.rejects v' ((List.prefix_append_right_inj w).mp hv) (by omega)
      refine ⟨e, ?_⟩
      rw [hp.consumes v']
      exact he

theorem Reads.map {p : Reader α} {w : List UInt8} {a : α} (hp : Reads p w a) (f : α → β) :
    Reads (p >>= fun a => Pure.pure (f a)) w (f a) := by
  have hread := Reads.bind (q := fun a => Pure.pure (f a)) hp (Reads.pure (f a))
  rwa [List.append_nil] at hread

/-- A reader that needs the whole of its bytes. -/
theorem rejects_of_short {p : Reader α} {w : List UInt8}
    (h : ∀ v : List UInt8, v.length < w.length → p.run v = .error (.error .truncated)) :
    Rejects p w :=
  fun v _ hlt => ⟨.truncated, h v hlt⟩

theorem take_of_short {n : Nat} {v : List UInt8} (h : v.length < n) :
    (take n).run v = .error (.error .truncated) := by
  have hnone : takeExact n v = none := takeExact_eq_none_iff.mpr h
  simp only [take, StateT.run_bind, StateT.run_get, pure_bind, hnone]
  rfl

theorem take_run (n : Nat) (r : List UInt8) :
    (take n).run r =
      if r.length < n then .error (.error .truncated) else .ok (r.take n, r.drop n) := by
  split_ifs with hshort
  · exact take_of_short hshort
  · have hlen : (r.take n).length = n := List.length_take_of_le (Nat.le_of_not_lt hshort)
    have hread := consumes_take hlen (r.drop n)
    rwa [List.take_append_drop] at hread

theorem takeU32_run (r : List UInt8) :
    takeU32.run r =
      if r.length < 4 then .error (.error .truncated) else .ok (ofLe (r.take 4), r.drop 4) := by
  rw [takeU32, StateT.run_bind, take_run]
  split_ifs
  all_goals rfl

theorem takeU128_run (r : List UInt8) :
    takeU128.run r = if r.length < 16 then .error (.error .truncated)
      else .ok (BitVec.ofNat 128 (ofLe (r.take 16)), r.drop 16) := by
  rw [takeU128, StateT.run_bind, take_run]
  split_ifs
  all_goals rfl

theorem reads_take {n : Nat} {field : List UInt8} (h : field.length = n) :
    Reads (take n) field field :=
  ⟨consumes_take h, rejects_of_short fun _ hv => take_of_short (h ▸ hv)⟩

theorem reads_takeU32 {n : Nat} (h : n < 256 ^ 4) : Reads takeU32 (toLe 4 n) n := by
  have hread := (reads_take (length_toLe 4 n)).map ofLe
  rwa [ofLe_toLe h] at hread

theorem reads_takeCount {n : Nat} (h : n ≤ maxFrameCount) : Reads takeCount (toLe 4 n) n := by
  have hread : Reads takeU32 (toLe 4 n) n :=
    reads_takeU32 (by simp only [maxFrameCount] at h; omega)
  have hcheck : Reads (if n > maxFrameCount then fail (.tooLarge n) else return n) [] n := by
    rw [if_neg (by omega)]
    exact Reads.pure n
  have hboth := Reads.bind
    (q := fun n => if n > maxFrameCount then fail (.tooLarge n) else return n) hread hcheck
  rwa [List.append_nil] at hboth

theorem reads_takeU128 (sid : SessionId) : Reads takeU128 (toLe 16 sid.toNat) sid := by
  refine ⟨consumes_takeU128 sid, ?_⟩
  exact ((reads_take (length_toLe 16 sid.toNat)).map
    fun field => BitVec.ofNat 128 (ofLe field)).rejects

theorem takeBlockId_of_short {v : List UInt8} (hv : v.length < 32) :
    takeBlockId.run v = .error (.error .truncated) := by
  have hnone : takeExact 32 v = none := takeExact_eq_none_iff.mpr hv
  simp only [takeBlockId, StateT.run_bind, StateT.run_get, pure_bind, hnone]
  rfl

theorem reads_takeBlockId (id : BlockId) : Reads takeBlockId id.bytes id :=
  ⟨consumes_takeBlockId id, rejects_of_short fun _ hv => takeBlockId_of_short (id.size ▸ hv)⟩

theorem reads_repeated {item : Reader α} (encode : α → List UInt8) {items : List α}
    (h : ∀ a ∈ items, Reads item (encode a) a) :
    Reads (repeated item items.length) (items.flatMap encode) items := by
  induction items with
  | nil => exact Reads.pure []
  | cons a rest ih =>
      have hrest := ih fun b hb => h b (List.mem_cons_of_mem _ hb)
      exact (h a List.mem_cons_self).bind (hrest.map fun bs => a :: bs)

theorem reads_symbol {s : List UInt8} (h : s.length ≤ maxInlinePayloadBytes) :
    Reads symbol (toLe 4 s.length ++ s) s := by
  have hread : Reads takeU32 (toLe 4 s.length) s.length :=
    reads_takeU32 (by simp only [maxInlinePayloadBytes] at h; omega)
  have hbody : Reads (if s.length > maxInlinePayloadBytes then fail (.tooLarge s.length)
      else take s.length) s s := by
    rw [if_neg (by omega)]
    exact reads_take rfl
  exact hread.bind (q := fun len =>
    if len > maxInlinePayloadBytes then fail (.tooLarge len) else take len) hbody

/-- The length field of an entry is checked against the window before anything else. -/
theorem rejects_frameBlock {len : Nat} {w : List UInt8} (hlen : len < 256 ^ 4)
    (hw : w.length = len) : Rejects frameBlock (toLe 4 len ++ w) := by
  intro v hv hlt
  refine ⟨.truncated, ?_⟩
  rw [frameBlock_run]
  by_cases hshort : v.length < 4
  · rw [takeU32, StateT.run_bind, take_of_short hshort]
    rfl
  · obtain ⟨v', rfl⟩ : toLe 4 len <+: v :=
      List.prefix_of_prefix_length_le (List.prefix_append _ _) hv (by simpa using hshort)
    rw [List.length_append, List.length_append, hw] at hlt
    have hwindow : v'.length < len := by omega
    rw [(reads_takeU32 hlen).consumes v']
    exact if_pos hwindow

theorem reads_frameBlock {fb : FrameBlock}
    (h : ∀ b, fb = .inline b → b.payload.length ≤ maxInlinePayloadBytes) :
    Reads frameBlock (encodeFrameBlock fb) fb := by
  refine ⟨consumes_frameBlock h, ?_⟩
  cases fb with
  | inline b =>
      have hb := h b rfl
      simp only [maxInlinePayloadBytes] at hb
      simp only [encodeFrameBlock, List.append_assoc]
      exact rejects_frameBlock (by omega) (by simp; omega)
  | ref id =>
      simp only [encodeFrameBlock, List.append_assoc]
      exact rejects_frameBlock (by decide) (by simp [id.size])

end Reader

/-- The limits of the wire format: the number of entries and the size of each. -/
def Frame.WithinLimits : Frame → Prop
  | .append a => a.blocks.length ≤ maxFrameCount ∧
      ∀ b, .inline b ∈ a.blocks → b.payload.length ≤ maxInlinePayloadBytes
  | .resync r => r.manifest.length ≤ maxFrameCount
  | .bulk b => b.symbols.length ≤ maxFrameCount ∧
      ∀ s ∈ b.symbols, s.length ≤ maxInlinePayloadBytes
  | .ack _ => True
  | .missing m => m.missing.length ≤ maxFrameCount

/-- The encoding of a frame is its tag and a body that is read back. -/
theorem encodeFrame_reads {f : Frame} (h : f.WithinLimits) :
    ∃ tag w, encodeFrame f = tag :: w ∧ Reader.Reads (Reader.body tag) w f := by
  cases f with
  | append a =>
      have hblocks := Reader.reads_repeated encodeFrameBlock fun fb hfb =>
        Reader.reads_frameBlock fun b hb => h.2 b (hb ▸ hfb)
      refine ⟨tagAppend, toLe 16 a.sessionId.toNat ++ (a.baseRoot.bytes ++
        (toLe 4 a.blocks.length ++ a.blocks.flatMap encodeFrameBlock)), by simp [encodeFrame], ?_⟩
      rw [Reader.body, if_pos rfl]
      refine (Reader.reads_takeU128 a.sessionId).bind ?_
      refine (Reader.reads_takeBlockId a.baseRoot).bind ?_
      refine (Reader.reads_takeCount h.1).bind ?_
      exact hblocks.map fun blocks => Frame.append ⟨a.sessionId, a.baseRoot, blocks⟩
  | resync r =>
      have hids := Reader.reads_repeated Digest.bytes
        (fun id (_ : id ∈ r.manifest) => Reader.reads_takeBlockId id)
      refine ⟨tagResync, toLe 16 r.sessionId.toNat ++ (r.clientRoot.bytes ++
        (toLe 4 r.manifest.length ++ r.manifest.flatMap Digest.bytes)), by simp [encodeFrame], ?_⟩
      rw [Reader.body, if_neg (by decide), if_pos rfl]
      refine (Reader.reads_takeU128 r.sessionId).bind ?_
      refine (Reader.reads_takeBlockId r.clientRoot).bind ?_
      refine (Reader.reads_takeCount h).bind ?_
      exact hids.map fun ids => Frame.resync ⟨r.sessionId, r.clientRoot, ids⟩
  | bulk b =>
      have hsymbols := Reader.reads_repeated (fun s : List UInt8 => toLe 4 s.length ++ s)
        (fun s hs => Reader.reads_symbol (h.2 s hs))
      refine ⟨tagBulk, toLe 16 b.sessionId.toNat ++ (toLe 4 b.generation.toNat ++
        (toLe 4 b.k.toNat ++ (toLe 4 b.symbolSize.toNat ++ (toLe 4 b.symbols.length ++
          b.symbols.flatMap fun s => toLe 4 s.length ++ s)))), by simp [encodeFrame], ?_⟩
      rw [Reader.body, if_neg (by decide), if_neg (by decide), if_pos rfl]
      refine (Reader.reads_takeU128 b.sessionId).bind ?_
      refine (Reader.reads_takeU32 b.generation.toNat_lt).bind ?_
      refine (Reader.reads_takeU32 b.k.toNat_lt).bind ?_
      refine (Reader.reads_takeU32 b.symbolSize.toNat_lt).bind ?_
      refine (Reader.reads_takeCount h.1).bind ?_
      have hread := hsymbols.map fun symbols => Frame.bulk ⟨b.sessionId,
        UInt32.ofNat b.generation.toNat, UInt32.ofNat b.k.toNat, UInt32.ofNat b.symbolSize.toNat,
        symbols⟩
      simpa using hread
  | ack a =>
      refine ⟨tagAck, toLe 16 a.sessionId.toNat ++ a.root.bytes, by simp [encodeFrame], ?_⟩
      rw [Reader.body, if_neg (by decide), if_neg (by decide), if_neg (by decide), if_pos rfl]
      refine (Reader.reads_takeU128 a.sessionId).bind ?_
      exact (Reader.reads_takeBlockId a.root).map fun root => Frame.ack ⟨a.sessionId, root⟩
  | missing m =>
      have hids := Reader.reads_repeated Digest.bytes
        (fun id (_ : id ∈ m.missing) => Reader.reads_takeBlockId id)
      refine ⟨tagMissing, toLe 16 m.sessionId.toNat ++ (toLe 4 m.missing.length ++
        m.missing.flatMap Digest.bytes), by simp [encodeFrame], ?_⟩
      rw [Reader.body, if_neg (by decide), if_neg (by decide), if_neg (by decide),
        if_neg (by decide), if_pos rfl]
      refine (Reader.reads_takeU128 m.sessionId).bind ?_
      refine (Reader.reads_takeCount h).bind ?_
      exact hids.map fun ids => Frame.missing ⟨m.sessionId, ids⟩

/-- Every frame within the wire limits is read back. -/
theorem decodeFrame_encodeFrame {f : Frame} (h : f.WithinLimits) :
    decodeFrame (encodeFrame f) = .ok f := by
  obtain ⟨tag, w, hw, hreads⟩ := encodeFrame_reads h
  have hrun := hreads.consumes []
  rw [List.append_nil] at hrun
  simp only [hw, decodeFrame, hrun]
  rfl

/-- Every frame within the wire limits is read back from its encoding, and no proper
prefix of the encoding is read as any frame. -/
theorem frame_prefix_free_round_trip (f : Frame) (h : f.WithinLimits) :
    decodeFrame (encodeFrame f) = .ok f ∧
      ∀ v, v <+: encodeFrame f → v ≠ encodeFrame f → ∃ e, decodeFrame v = .error (.error e) := by
  refine ⟨decodeFrame_encodeFrame h, ?_⟩
  intro v hv hne
  obtain ⟨tag, w, hw, hreads⟩ := encodeFrame_reads h
  rw [hw] at hv hne
  cases v with
  | nil => exact ⟨.truncated, rfl⟩
  | cons t v =>
      obtain ⟨rfl, hv'⟩ := List.cons_prefix_cons.mp hv
      have hlt : v.length < w.length := by
        refine Nat.lt_of_le_of_ne hv'.length_le fun hlen => hne ?_
        rw [hv'.eq_of_length hlen]
      obtain ⟨e, he⟩ := hreads.rejects v hv' hlt
      exact ⟨e, by simp only [decodeFrame, he]; rfl⟩

/-- An APPEND of an inline block and a reference. -/
theorem frame_prefix_free_round_trip_append :
    let f : Frame := .append ⟨5, rootZero, [.inline ⟨.message, 1, [7, 8]⟩, .ref rootZero]⟩
    f.WithinLimits ∧ decodeFrame (encodeFrame f) = .ok f := by
  intro f
  have h : f.WithinLimits := by
    refine ⟨by decide, ?_⟩
    intro b hb
    simp at hb
    subst hb
    decide
  exact ⟨h, (frame_prefix_free_round_trip f h).1⟩

/-! ## What the decoder accepts -/

namespace Reader

variable {α β : Type}

/-- Whatever the reader returns, it consumed bytes that are laid out as `W` says. -/
def Accepts (p : Reader α) (W : α → List UInt8 → Prop) : Prop :=
  ∀ buf a rest, p.run buf = .ok (a, rest) → ∃ used, buf = used ++ rest ∧ W a used

theorem Accepts.mono {p : Reader α} {W W' : α → List UInt8 → Prop} (h : Accepts p W)
    (hW : ∀ a used, W a used → W' a used) : Accepts p W' := by
  intro buf a rest hrun
  obtain ⟨used, hbuf, hused⟩ := h buf a rest hrun
  exact ⟨used, hbuf, hW a used hused⟩

theorem Accepts.pure (a : α) : Accepts (Pure.pure a) fun b used => b = a ∧ used = [] := by
  intro buf b rest hrun
  cases hrun
  exact ⟨[], rfl, rfl, rfl⟩

theorem accepts_fail (e : FrameError) (W : α → List UInt8 → Prop) : Accepts (fail e) W := by
  intro buf b rest hrun
  cases hrun

theorem Accepts.bind {p : Reader α} {q : α → Reader β} {W : α → List UInt8 → Prop}
    {W' : α → β → List UInt8 → Prop} (hp : Accepts p W) (hq : ∀ a, Accepts (q a) (W' a)) :
    Accepts (p >>= q) fun b used =>
      ∃ a first second, used = first ++ second ∧ W a first ∧ W' a b second := by
  intro buf b rest hrun
  rw [StateT.run_bind] at hrun
  cases hfirst : p.run buf with
  | error e =>
      rw [hfirst] at hrun
      cases hrun
  | ok result =>
      obtain ⟨a, rest₁⟩ := result
      rw [hfirst] at hrun
      obtain ⟨first, rfl, hW⟩ := hp buf a rest₁ hfirst
      obtain ⟨second, rfl, hW'⟩ := hq a rest₁ b rest hrun
      exact ⟨first ++ second, (List.append_assoc _ _ _).symm, a, first, second, rfl, hW, hW'⟩

theorem accepts_take (n : Nat) :
    Accepts (take n) fun field used => used = field ∧ field.length = n := by
  intro buf field rest hrun
  by_cases hshort : buf.length < n
  · rw [take_of_short hshort] at hrun
    cases hrun
  · obtain ⟨first, second, rfl, hfirst⟩ : ∃ first second, buf = first ++ second ∧
        first.length = n :=
      ⟨buf.take n, buf.drop n, (List.take_append_drop n buf).symm,
        List.length_take_of_le (Nat.le_of_not_lt hshort)⟩
    rw [consumes_take hfirst second] at hrun
    cases hrun
    exact ⟨field, rfl, rfl, hfirst⟩

/-- A fixed-width field is its own value written back. -/
theorem accepts_takeU32 : Accepts takeU32 fun n used => used = toLe 4 n ∧ n < 256 ^ 4 := by
  refine ((accepts_take 4).bind fun field => Accepts.pure (ofLe field)).mono ?_
  rintro n used ⟨field, first, second, rfl, ⟨rfl, hlen⟩, rfl, rfl⟩
  refine ⟨?_, hlen ▸ ofLe_lt first⟩
  rw [List.append_nil, ← hlen, toLe_ofLe]

theorem accepts_takeCount :
    Accepts takeCount fun n used => used = toLe 4 n ∧ n ≤ maxFrameCount := by
  have hcheck : ∀ n, Accepts (if n > maxFrameCount then fail (.tooLarge n) else return n)
      fun m used => m = n ∧ used = [] ∧ n ≤ maxFrameCount := by
    intro n
    split_ifs with hlarge
    · exact accepts_fail _ _
    · refine (Accepts.pure n).mono ?_
      rintro m used ⟨rfl, rfl⟩
      exact ⟨rfl, rfl, Nat.le_of_not_lt hlarge⟩
  refine (accepts_takeU32.bind hcheck).mono ?_
  rintro n used ⟨m, first, second, rfl, ⟨rfl, -⟩, rfl, rfl, hle⟩
  exact ⟨List.append_nil _, hle⟩

theorem accepts_takeU128 :
    Accepts takeU128 fun sid used => used = toLe 16 (BitVec.toNat sid) := by
  refine ((accepts_take 16).bind
    fun field => Accepts.pure (BitVec.ofNat 128 (ofLe field) : SessionId)).mono ?_
  rintro sid used ⟨field, first, second, rfl, ⟨rfl, hlen⟩, rfl, rfl⟩
  have hlt : ofLe first < 2 ^ 128 := by
    have h := ofLe_lt first
    rw [hlen] at h
    calc ofLe first < 256 ^ 16 := h
      _ = 2 ^ 128 := by norm_num
  rw [List.append_nil, BitVec.toNat_ofNat, Nat.mod_eq_of_lt hlt, ← hlen, toLe_ofLe]

theorem accepts_takeBlockId : Accepts takeBlockId fun id used => used = Digest.bytes id := by
  intro buf id rest hrun
  by_cases hshort : buf.length < 32
  · rw [takeBlockId_of_short hshort] at hrun
    cases hrun
  · have hfirst : (buf.take 32).length = 32 := List.length_take_of_le (Nat.le_of_not_lt hshort)
    have hread := consumes_takeBlockId ⟨buf.take 32, hfirst⟩ (buf.drop 32)
    rw [List.take_append_drop] at hread
    rw [hread] at hrun
    cases hrun
    exact ⟨buf.take 32, (List.take_append_drop 32 buf).symm, rfl⟩

theorem accepts_repeated {item : Reader α} {W : α → List UInt8 → Prop} (h : Accepts item W)
    (n : Nat) :
    Accepts (repeated item n) fun items used =>
      items.length = n ∧ ∃ parts, List.Forall₂ W items parts ∧ used = parts.flatten := by
  induction n with
  | zero =>
      refine (Accepts.pure []).mono ?_
      rintro items used ⟨rfl, rfl⟩
      exact ⟨rfl, [], .nil, rfl⟩
  | succ n ih =>
      refine (h.bind fun a => ih.bind fun items => Accepts.pure (a :: items)).mono ?_
      rintro items used ⟨a, first, second, rfl, hfirst, rest, used', tail, rfl,
        ⟨hlen, parts, hparts, rfl⟩, rfl, rfl⟩
      refine ⟨by simp [hlen], first :: parts, .cons hfirst hparts, by simp⟩

theorem accepts_symbol : Accepts symbol fun s used => used = toLe 4 s.length ++ s := by
  have hbody : ∀ len, Accepts (if len > maxInlinePayloadBytes then fail (.tooLarge len)
      else take len) fun s used => used = s ∧ s.length = len := by
    intro len
    split_ifs
    · exact accepts_fail _ _
    · exact accepts_take len
  refine (accepts_takeU32.bind hbody).mono ?_
  rintro s used ⟨len, first, second, rfl, ⟨rfl, -⟩, rfl, rfl⟩
  rfl

end Reader

/-- The bytes a block entry can be read from. Neither the length field of an inline entry
nor the low bits of a reference marker are determined by the entry. -/
def FrameBlock.WrittenAs : FrameBlock → List UInt8 → Prop
  | .inline b, used => ∃ len : List UInt8, len.length = 4 ∧
      used = len ++ (encodeFrameBlock (.inline b)).drop 4
  | .ref id, used => ∃ marker : UInt8, marker &&& refBit ≠ 0 ∧
      used = toLe 4 33 ++ [marker] ++ id.bytes

/-- The bytes a frame can be read from: its encoding, for an APPEND up to the freedom of
its entries. -/
def Frame.WrittenAs : Frame → List UInt8 → Prop
  | .append a, used => ∃ entries, List.Forall₂ FrameBlock.WrittenAs a.blocks entries ∧
      used = [tagAppend] ++ toLe 16 a.sessionId.toNat ++ a.baseRoot.bytes ++
        toLe 4 a.blocks.length ++ entries.flatten
  | f, used => used = encodeFrame f

namespace Reader

/-- A marker with the reference bit clear is its own kind byte. -/
theorem marker_of_clear {marker : UInt8} (h : marker &&& refBit = 0) :
    (marker &&& ~~~refBit) &&& ~~~refBit = marker := by
  apply UInt8.toBitVec_inj.mp
  apply BitVec.eq_of_getLsbD_eq
  intro i hi
  have hbit := congrArg (fun b : UInt8 => b.toBitVec.getLsbD i) h
  simp only [UInt8.toBitVec_and, UInt8.toBitVec_not, BitVec.getLsbD_and, BitVec.getLsbD_not]
    at hbit ⊢
  simp only [hi, decide_true, Bool.true_and, Bool.and_assoc, Bool.and_self]
  cases hr : refBit.toBitVec.getLsbD i with
  | false => simp
  | true => simpa [hr] using hbit.symm

theorem drop_eq_slice_append (w : List UInt8) {lo hi : Nat} (h : lo ≤ hi) :
    w.drop lo = slice w lo hi ++ w.drop hi := by
  have hsplit := List.take_append_drop (hi - lo) (w.drop lo)
  rw [List.drop_drop, Nat.add_sub_cancel' h] at hsplit
  exact hsplit.symm

theorem length_slice {w : List UInt8} {lo hi : Nat} (h : hi ≤ w.length) :
    (slice w lo hi).length = hi - lo := by
  simp only [slice, List.length_take, List.length_drop]
  omega

/-- The fields of an inline body, written back, are the bytes they were read from. -/
theorem inline_layout {marker : UInt8} {tail : List UInt8} {kind : BlockKind}
    (hmarker : marker &&& refBit = 0)
    (hkind : BlockKind.fromByte (marker &&& ~~~refBit) = some kind)
    (hlong : 17 + ofLe (slice (marker :: tail) 9 17) ≤ (marker :: tail).length) :
    marker :: tail =
      ((kind.toByte &&& ~~~refBit) ::
        (toLe 8 (UInt64.ofNat (ofLe (slice (marker :: tail) 1 9))).toNat ++
          (toLe 8 (slice (marker :: tail) 17 (17 + ofLe (slice (marker :: tail) 9 17))).length ++
            slice (marker :: tail) 17 (17 + ofLe (slice (marker :: tail) 9 17))))) ++
        (marker :: tail).drop (1 + 16 + ofLe (slice (marker :: tail) 9 17)) := by
  have hfirst : kind.toByte &&& ~~~refBit = marker := by
    rw [BlockKind.toByte_of_fromByte hkind]
    exact marker_of_clear hmarker
  have hr : marker :: tail = marker :: (marker :: tail).drop 1 := rfl
  generalize (marker :: tail) = r at hlong hr ⊢
  set plen := ofLe (slice r 9 17) with hplen
  have hseq : toLe 8 (UInt64.ofNat (ofLe (slice r 1 9))).toNat = slice r 1 9 := by
    have h8 : (slice r 1 9).length = 8 := length_slice (by omega)
    have hlt := ofLe_lt (slice r 1 9)
    rw [h8] at hlt
    rw [UInt64.toNat_ofNat_of_lt' (by norm_num at hlt ⊢; exact hlt), ← h8, toLe_ofLe]
  have hfield : toLe 8 (slice r 17 (17 + plen)).length = slice r 9 17 := by
    have h8 : (slice r 9 17).length = 8 := length_slice (by omega)
    rw [length_slice hlong, Nat.add_sub_cancel_left, hplen, ← h8, toLe_ofLe]
  rw [hfirst, hseq, hfield]
  have e₁ := drop_eq_slice_append r (show 1 ≤ 9 by omega)
  have e₂ := drop_eq_slice_append r (show 9 ≤ 17 by omega)
  have e₃ := drop_eq_slice_append r (show 17 ≤ 17 + plen by omega)
  calc r = marker :: r.drop 1 := hr
    _ = marker :: (slice r 1 9 ++ (slice r 9 17 ++
          (slice r 17 (17 + plen) ++ r.drop (17 + plen)))) := by rw [e₁, e₂, e₃]
    _ = _ := by simp

/-- An accepted entry is a reference behind its exact length, or an inline body that ends
where its payload does. -/
theorem entryOf_ok {len : Nat} {r rest : List UInt8} {fb : FrameBlock}
    (h : entryOf len r = .ok (fb, rest)) :
    (∃ id marker, fb = .ref id ∧ len = 33 ∧ marker &&& refBit ≠ 0 ∧
        r = marker :: id.bytes ++ rest) ∨
      ∃ b, fb = .inline b ∧ b.payload.length ≤ maxInlinePayloadBytes ∧
        17 + b.payload.length ≤ len ∧ len ≤ r.length ∧
        r = (encodeFrameBlock (.inline b)).drop 4 ++ rest := by
  unfold entryOf at h
  by_cases hlen : r.length < len
  · rw [if_pos hlen] at h
    cases h
  rw [if_neg hlen] at h
  cases r with
  | nil => cases h
  | cons marker tail =>
      simp only at h
      by_cases hmarker : marker &&& refBit ≠ 0
      · rw [if_pos hmarker] at h
        split_ifs at h with hsize hid
        cases h
        left
        obtain rfl : len = 33 := not_not.mp hsize
        refine ⟨_, marker, rfl, rfl, hmarker, ?_⟩
        have htail := drop_eq_slice_append (marker :: tail) (show 1 ≤ 33 by omega)
        simpa using htail
      · rw [if_neg hmarker] at h
        right
        cases hkind : BlockKind.fromByte (marker &&& ~~~refBit) with
        | none =>
            rw [hkind] at h
            cases h
        | some kind =>
            simp only [hkind] at h
            split_ifs at h with h₁ h₂ h₃
            cases h
            have hpayload : (slice (marker :: tail) 17
                (17 + ofLe (slice (marker :: tail) 9 17))).length =
                ofLe (slice (marker :: tail) 9 17) := by
              rw [length_slice (by omega), Nat.add_sub_cancel_left]
            refine ⟨_, rfl, ?_, ?_, Nat.le_of_not_lt hlen, ?_⟩
            · simp only [hpayload]
              omega
            · simp only [hpayload]
              omega
            · rw [drop_encodeFrameBlock_inline]
              exact inline_layout (not_not.mp hmarker) hkind (by omega)

theorem accepts_frameBlock : Accepts frameBlock FrameBlock.WrittenAs := by
  intro buf fb rest hrun
  rw [frameBlock_run] at hrun
  cases hlen : takeU32.run buf with
  | error e =>
      rw [hlen] at hrun
      cases hrun
  | ok result =>
      obtain ⟨len, r⟩ := result
      obtain ⟨first, rfl, rfl, -⟩ := accepts_takeU32 buf len r hlen
      rw [hlen] at hrun
      rcases entryOf_ok hrun with ⟨id, marker, rfl, rfl, hmarker, rfl⟩ | ⟨b, rfl, -, -, -, rfl⟩
      · exact ⟨toLe 4 33 ++ [marker] ++ id.bytes, by simp, marker, hmarker, rfl⟩
      · exact ⟨toLe 4 len ++ (encodeFrameBlock (.inline b)).drop 4, (List.append_assoc _ _ _).symm,
          toLe 4 len, length_toLe 4 len, rfl⟩

end Reader

/-- The identifiers of a list field, written back. -/
theorem ids_flatten {ids : List BlockId} {parts : List (List UInt8)}
    (h : List.Forall₂ (fun id used => used = Digest.bytes id) ids parts) :
    parts.flatten = ids.flatMap Digest.bytes := by
  induction h with
  | nil => rfl
  | cons hid _ ih => rw [List.flatten_cons, List.flatMap_cons, ih, hid]

theorem symbols_flatten {symbols parts : List (List UInt8)}
    (h : List.Forall₂ (fun s used => used = toLe 4 s.length ++ s) symbols parts) :
    parts.flatten = symbols.flatMap fun s => toLe 4 s.length ++ s := by
  induction h with
  | nil => rfl
  | cons hs _ ih => rw [List.flatten_cons, List.flatMap_cons, ih, hs]

theorem Reader.accepts_body (tag : UInt8) :
    Accepts (body tag) fun f used => f.WrittenAs (tag :: used) := by
  unfold body
  split_ifs with h₁ h₂ h₃ h₄ h₅
  · subst h₁
    refine (accepts_takeU128.bind fun sid => accepts_takeBlockId.bind fun root =>
      accepts_takeCount.bind fun n => (accepts_repeated accepts_frameBlock n).bind fun blocks =>
        Accepts.pure (Frame.append ⟨sid, root, blocks⟩)).mono ?_
    rintro f used ⟨sid, _, _, rfl, rfl, root, _, _, rfl, rfl, n, _, _, rfl, ⟨rfl, -⟩, blocks, _, _, rfl,
      ⟨rfl, entries, hentries, rfl⟩, rfl, rfl⟩
    exact ⟨entries, hentries, by simp⟩
  · subst h₂
    refine (accepts_takeU128.bind fun sid => accepts_takeBlockId.bind fun root =>
      accepts_takeCount.bind fun n => (accepts_repeated accepts_takeBlockId n).bind fun ids =>
        Accepts.pure (Frame.resync ⟨sid, root, ids⟩)).mono ?_
    rintro f used ⟨sid, _, _, rfl, rfl, root, _, _, rfl, rfl, n, _, _, rfl, ⟨rfl, -⟩, ids, _, _, rfl,
      ⟨rfl, parts, hparts, rfl⟩, rfl, rfl⟩
    simp [Frame.WrittenAs, encodeFrame, ids_flatten hparts]
  · subst h₃
    refine (accepts_takeU128.bind fun sid => accepts_takeU32.bind fun generation =>
      accepts_takeU32.bind fun k => accepts_takeU32.bind fun size =>
      accepts_takeCount.bind fun n => (accepts_repeated accepts_symbol n).bind fun symbols =>
        Accepts.pure (Frame.bulk ⟨sid, UInt32.ofNat generation, UInt32.ofNat k,
          UInt32.ofNat size, symbols⟩)).mono ?_
    rintro f used ⟨sid, _, _, rfl, rfl, generation, _, _, rfl, ⟨rfl, hgeneration⟩, k, _, _, rfl,
      ⟨rfl, hk⟩, size, _, _, rfl, ⟨rfl, hsize⟩, n, _, _, rfl, ⟨rfl, -⟩, symbols, _, _, rfl,
      ⟨rfl, parts, hparts, rfl⟩, rfl, rfl⟩
    have hback : ∀ {n : Nat}, n < 256 ^ 4 → (UInt32.ofNat n).toNat = n := fun hn =>
      UInt32.toNat_ofNat_of_lt' (by norm_num at hn ⊢; exact hn)
    simp only [Frame.WrittenAs, encodeFrame, hback hgeneration, hback hk, hback hsize,
      symbols_flatten hparts]
    simp
  · subst h₄
    refine (accepts_takeU128.bind fun sid => accepts_takeBlockId.bind fun root =>
      Accepts.pure (Frame.ack ⟨sid, root⟩)).mono ?_
    rintro f used ⟨sid, _, _, rfl, rfl, root, _, _, rfl, rfl, rfl, rfl⟩
    simp [Frame.WrittenAs, encodeFrame]
  · subst h₅
    refine (accepts_takeU128.bind fun sid => accepts_takeCount.bind fun n =>
      (accepts_repeated accepts_takeBlockId n).bind fun ids =>
        Accepts.pure (Frame.missing ⟨sid, ids⟩)).mono ?_
    rintro f used ⟨sid, _, _, rfl, rfl, n, _, _, rfl, ⟨rfl, -⟩, ids, _, _, rfl,
      ⟨rfl, parts, hparts, rfl⟩, rfl, rfl⟩
    simp [Frame.WrittenAs, encodeFrame, ids_flatten hparts]
  · exact accepts_fail _ _

/-- An accepted buffer starts with the bytes of its frame, up to the length fields of
inline entries and the low bits of reference markers; whatever follows is ignored. -/
theorem accepted_starts_with_frame {w : List UInt8} {f : Frame} (h : decodeFrame w = .ok f) :
    ∃ used trailing, w = used ++ trailing ∧ f.WrittenAs used := by
  cases w with
  | nil => cases h
  | cons tag body =>
      simp only [decodeFrame] at h
      cases hrun : (Reader.body tag).run body with
      | error e =>
          rw [hrun] at h
          cases h
      | ok result =>
          obtain ⟨g, rest⟩ := result
          rw [hrun] at h
          cases h
          obtain ⟨used, rfl, hused⟩ := Reader.accepts_body tag body g rest hrun
          exact ⟨tag :: used, rest, rfl, hused⟩

/-- A turn with an inline entry and a reference, and two trailing bytes. -/
theorem accepted_starts_with_frame_append :
    let f : Frame := .append ⟨5, rootZero, [.inline ⟨.message, 1, [7, 8]⟩, .ref rootZero]⟩
    ∃ used trailing, encodeFrame f ++ [0, 1] = used ++ trailing ∧ f.WrittenAs used := by
  intro f
  have h : decodeFrame (encodeFrame f ++ [0, 1]) = .ok f := by decide +kernel
  exact accepted_starts_with_frame h

/-- A trailing byte after an ACK is ignored, so what is accepted need not be an encoding. -/
theorem trailing_byte_accepted :
    ¬ ∀ w f, decodeFrame w = .ok f → encodeFrame f = w := by
  intro hall
  have hlen := congrArg List.length
    (hall (encodeFrame (.ack ⟨5, rootZero⟩) ++ [0]) (.ack ⟨5, rootZero⟩) (by decide +kernel))
  simp at hlen

end Dlr.Core
