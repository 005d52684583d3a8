import Dlr.Core.Store

/-!
# Replaying the write-ahead log

Replay reads whole records and interprets each of them on the store it
rebuilds. An incomplete tail ends the loop without an error and its start
offset is returned, so that the caller can cut it off.

## Implementation notes

The content that replay has to restore is the pair of maps. `applyRecord` is
the meaning of a record on that pair; the byte-level loop is shown to be a fold
of `applyRecord` over the decoded records.
-/

namespace Dlr.Core

open Lib Lib.Bytes Lib.Machine

/-- Copy a slice into a fixed-size array. -/
def Digest.ofSlice (bytes : List UInt8) : Digest :=
  if h : bytes.length = 32 then ⟨bytes, h⟩ else rootZero

@[simp] theorem Digest.ofSlice_bytes (d : Digest) : Digest.ofSlice d.bytes = d := by
  simp [Digest.ofSlice, d.size]

/-- The replicated content of a store: its two maps. -/
@[ext] structure Maps where
  blocks : FinMap BlockId Block
  sessions : FinMap SessionId SessionLog

def Maps.empty : Maps := ⟨∅, ∅⟩

def ContentStore.maps (st : ContentStore) : Maps := ⟨st.blocks, st.sessions⟩

@[simp] theorem ContentStore.maps_blocks (st : ContentStore) : st.maps.blocks = st.blocks := rfl

@[simp] theorem ContentStore.maps_sessions (st : ContentStore) :
    st.maps.sessions = st.sessions := rfl

namespace Wal

/-- The ids of a seed payload: `count` consecutive digests after the count field. -/
def seedIds (payload : List UInt8) (count : Nat) : List BlockId :=
  (List.range count).map fun i =>
    Digest.ofSlice (slice payload (4 + i * 32) (4 + i * 32 + 32))

def seedRoot (payload : List UInt8) (count : Nat) : MerkleRoot :=
  Digest.ofSlice (slice payload (4 + count * 32) (4 + count * 32 + 32))

/-- The payload length a seed with this count must have. -/
def seedNeed (count : Nat) : Option Nat :=
  (checkedMul count 32).bind fun n => checkedAdd n 36

variable [Blake3]

/-- Interpret one record on the store being rebuilt. A record that does not
parse, and a variant from a future version, is skipped. -/
def replayRecord (st : ContentStore) (sid : SessionId) (variant : UInt8)
    (payload : List UInt8) : ContentStore :=
  if variant = varInsert then
    match fromCanonical payload with
    | .ok block => (st.insert sid block).1
    | .error _ => st
  else if variant = varReference then
    if payload.length = 32 then (st.reference sid (Digest.ofSlice payload)).1 else st
  else if variant = varSeed then
    if payload.length ≥ 4 then
      let count := ofLe (payload.take 4)
      if seedNeed count = some payload.length then
        st.seedSession sid (seedIds payload count) (seedRoot payload count)
      else st
    else st
  else if variant = varContent then
    match fromCanonical payload with
    | .ok block => (st.storeContent sid block).1
    | .error _ => st
  else st

/-- Read one record: its session, variant and payload with the bytes after it,
or nothing when the file ends inside it. -/
def readRecord (file : List UInt8) :
    Except IoError (Option (SessionId × UInt8 × List UInt8 × List UInt8)) :=
  match takeExact header file with
  | none => .ok none
  | some (hdr, rest) =>
      let sid : SessionId := BitVec.ofNat 128 (ofLe (slice hdr 0 16))
      let variant := (hdr.drop 16).headD 0
      let len := ofLe (slice hdr 17 21)
      if len > maxRecordBytes then
        .error ⟨.invalidData, s!"WAL record length {len} exceeds safety limit"⟩
      else
        match takeExact len rest with
        | none => .ok none
        | some (payload, rest) => .ok (some (sid, variant, payload, rest))

omit [Blake3] in
theorem readRecord_length {file payload rest : List UInt8} {sid : SessionId} {variant : UInt8}
    (h : readRecord file = .ok (some (sid, variant, payload, rest))) :
    file.length = header + payload.length + rest.length := by
  unfold readRecord at h
  split at h
  · cases h
  rename_i hdr rest₁ hhdr
  simp only at h
  split at h
  · cases h
  split at h
  · cases h
  rename_i pay rest₂ hpay
  cases h
  obtain ⟨rfl, hh⟩ := takeExact_eq_some_iff.mp hhdr
  obtain ⟨rfl, -⟩ := takeExact_eq_some_iff.mp hpay
  simp only [List.length_append, hh]
  omega

/-- The replay loop at offset `start`: the rebuilt store and the end offset of
the last complete record. -/
def replayFrom (start : Nat) (file : List UInt8) (st : ContentStore) :
    Except IoError (ContentStore × Nat) :=
  match _h : readRecord file with
  | .error e => .error e
  | .ok none => .ok (st, start)
  | .ok (some (sid, variant, payload, rest)) =>
      replayFrom (start + header + payload.length) rest (replayRecord st sid variant payload)
  termination_by file.length
  decreasing_by
    rw [readRecord_length _h]
    simp only [header]
    omega

theorem replayFrom_of_read {start : Nat} {file rest payload : List UInt8} {st : ContentStore}
    {sid : SessionId} {variant : UInt8}
    (h : readRecord file = .ok (some (sid, variant, payload, rest))) :
    replayFrom start file st =
      replayFrom (start + header + payload.length) rest
        (replayRecord st sid variant payload) := by
  rw [replayFrom]
  split <;> simp_all

theorem replayFrom_of_end {start : Nat} {file : List UInt8} {st : ContentStore}
    (h : readRecord file = .ok none) : replayFrom start file st = .ok (st, start) := by
  rw [replayFrom]
  split <;> simp_all

theorem replayFrom_of_error {start : Nat} {file : List UInt8} {st : ContentStore} {e : IoError}
    (h : readRecord file = .error e) : replayFrom start file st = .error e := by
  rw [replayFrom]
  split <;> simp_all

def replay (file : List UInt8) (st : ContentStore) : Except IoError (ContentStore × Nat) :=
  replayFrom 0 file st

/-- The meaning of a record on the two maps. -/
def applyRecord (m : Maps) : Record → Maps
  | .insert sid canonical =>
      match fromCanonical canonical with
      | .ok b => ⟨putBlock m.blocks b.blockId b, pushLog m.sessions sid b.blockId⟩
      | .error _ => m
  | .reference sid id =>
      if (m.blocks.get? id).isSome then ⟨m.blocks, pushLog m.sessions sid id⟩ else m
  | .seed sid ids root => ⟨m.blocks, m.sessions.set sid ⟨ids, root⟩⟩
  | .content _ canonical =>
      match fromCanonical canonical with
      | .ok b => ⟨putBlock m.blocks b.blockId b, m.sessions⟩
      | .error _ => m

/-- The record that a variant byte and a payload stand for. -/
def decodeRecord (sid : SessionId) (variant : UInt8) (payload : List UInt8) : Option Record :=
  if variant = varInsert then some (.insert sid payload)
  else if variant = varReference then
    if payload.length = 32 then some (.reference sid (Digest.ofSlice payload)) else none
  else if variant = varSeed then
    if payload.length ≥ 4 ∧ seedNeed (ofLe (payload.take 4)) = some payload.length then
      some (.seed sid (seedIds payload (ofLe (payload.take 4)))
        (seedRoot payload (ofLe (payload.take 4))))
    else none
  else if variant = varContent then some (.content sid payload)
  else none

/-- Replaying a record acts on the maps as its decoded meaning. -/
theorem replayRecord_maps (st : ContentStore) (sid : SessionId) (variant : UInt8)
    (payload : List UInt8) :
    (replayRecord st sid variant payload).maps =
      (decodeRecord sid variant payload).elim st.maps (applyRecord st.maps) := by
  unfold replayRecord decodeRecord
  split_ifs with h₁ h₂ h₃ h₄ h₅ h₆
  · cases hp : fromCanonical payload with
    | error e => simp [applyRecord, hp]
    | ok b =>
        ext1 <;> simp [applyRecord, hp, ContentStore.insert, ContentStore.insertWithId]
  · cases hg : st.blocks.get? (Digest.ofSlice payload) with
    | none => simp [applyRecord, hg, ContentStore.reference_of_absent _ _ _ hg]
    | some b =>
        have hr := ContentStore.reference_of_contains st sid _ hg
        ext1 <;> simp [applyRecord, hg, hr.1]
  · rfl
  · simp only
    rw [if_pos h₆.2]
    ext1 <;> simp [applyRecord]
  · simp only
    rw [if_neg fun h => h₆ ⟨h₅, h⟩]
    rfl
  · exact absurd ‹_ ∧ _›.1 h₅
  · rfl
  · cases hp : fromCanonical payload with
    | error e => simp [applyRecord, hp]
    | ok b => ext1 <;> simp [applyRecord, hp, ContentStore.storeContent]
  · rfl

/-- The loop of replay as a rule: what holds at the end of the file and goes back over each
record holds of every replay that ends in this store. -/
theorem replayFrom_rule {motive : Nat → List UInt8 → ContentStore → Prop} {st' : ContentStore}
    {stop : Nat} (hend : ∀ file, readRecord file = .ok none → motive stop file st')
    (hrecord : ∀ start file st sid variant payload rest,
      readRecord file = .ok (some (sid, variant, payload, rest)) →
      motive (start + header + payload.length) rest (replayRecord st sid variant payload) →
      motive start file st)
    {start : Nat} {file : List UInt8} {st : ContentStore}
    (h : replayFrom start file st = .ok (st', stop)) : motive start file st := by
  induction hn : file.length using Nat.strong_induction_on generalizing start file st with
  | _ n ih =>
      subst hn
      cases hread : readRecord file with
      | error e =>
          rw [replayFrom_of_error hread] at h
          cases h
      | ok record =>
          cases record with
          | none =>
              rw [replayFrom_of_end hread] at h
              cases h
              exact hend file hread
          | some record =>
              obtain ⟨sid, variant, payload, rest⟩ := record
              have hlen := readRecord_length hread
              simp only [header] at hlen
              rw [replayFrom_of_read hread] at h
              exact hrecord start file st sid variant payload rest hread
                (ih rest.length (by omega) h rfl)

/-- Whatever every record preserves holds of the store rebuilt from any file. -/
theorem replayFrom_preserves {P : ContentStore → Prop}
    (hstep : ∀ st sid variant payload, P st → P (replayRecord st sid variant payload))
    {start : Nat} {file : List UInt8} {st st' : ContentStore} {stop : Nat}
    (h : replayFrom start file st = .ok (st', stop)) (hst : P st) : P st' := by
  revert hst
  apply replayFrom_rule (motive := fun _ _ st => P st → P st') ?_ ?_ h
  · exact fun _ _ hst => hst
  · intro _ _ st sid variant payload _ _ hrest hst
    exact hrest (hstep st sid variant payload hst)

theorem replayFrom_invariant {P : Maps → Prop} (hstep : ∀ m r, P m → P (applyRecord m r))
    {start : Nat} {file : List UInt8} {st st' : ContentStore} {stop : Nat}
    (h : replayFrom start file st = .ok (st', stop)) (hst : P st.maps) : P st'.maps := by
  refine replayFrom_preserves (P := fun st => P st.maps) ?_ h hst
  intro st sid variant payload hm
  rw [replayRecord_maps]
  cases decodeRecord sid variant payload with
  | none => exact hm
  | some r => exact hstep _ r hm

/-! The byte-level loop on encoded records. -/

omit [Blake3] in
private theorem encode_split (r : Record) (rest : List UInt8) :
    r.encode ++ rest =
      (toLe 16 r.sid.toNat ++ [r.variant] ++ toLe 4 r.payload.length) ++ (r.payload ++ rest) := by
  simp [Record.encode]

omit [Blake3] in
private theorem header_fields (sid : SessionId) (variant : UInt8) {len : Nat}
    (hlen : len < 2 ^ 32) (hdr : List UInt8)
    (hh : hdr = toLe 16 sid.toNat ++ [variant] ++ toLe 4 len) :
    BitVec.ofNat 128 (ofLe (slice hdr 0 16)) = sid ∧ (hdr.drop 16).headD 0 = variant ∧
      ofLe (slice hdr 17 21) = len := by
  subst hh
  refine ⟨?_, ?_, ?_⟩
  · have hslice : slice (toLe 16 sid.toNat ++ [variant] ++ toLe 4 len) 0 16 =
        toLe 16 sid.toNat := by
      rw [slice, List.drop_zero, List.append_assoc, List.take_left' (by simp)]
    have hlt : sid.toNat < 256 ^ 16 := by
      have := sid.isLt
      norm_num at this ⊢
      exact this
    rw [hslice, ofLe_toLe hlt, BitVec.ofNat_toNat, BitVec.setWidth_eq]
  · rw [List.append_assoc, List.drop_left' (by simp)]
    rfl
  · have hslice : slice (toLe 16 sid.toNat ++ [variant] ++ toLe 4 len) 17 21 = toLe 4 len := by
      rw [slice, List.drop_left' (by simp), List.take_of_length_le (by simp)]
    rw [hslice, ofLe_toLe (by norm_num; omega)]

omit [Blake3] in
theorem readRecord_encode (r : Record) (rest : List UInt8)
    (hr : r.payload.length ≤ maxRecordBytes) :
    readRecord (r.encode ++ rest) = .ok (some (r.sid, r.variant, r.payload, rest)) := by
  have hlen : r.payload.length < 2 ^ 32 := by
    simp only [maxRecordBytes] at hr
    omega
  obtain ⟨hsid, hvar, hsize⟩ := header_fields r.sid r.variant hlen _ rfl
  have hhdr := takeExact_append (r.payload ++ rest)
    (show (toLe 16 r.sid.toNat ++ [r.variant] ++ toLe 4 r.payload.length).length = header by
      simp [header])
  have hpay : takeExact r.payload.length (r.payload ++ rest) = some (r.payload, rest) :=
    takeExact_append _ rfl
  unfold readRecord
  rw [encode_split, hhdr]
  simp only [hsid, hvar, hsize, hpay]
  rw [if_neg (by omega)]

/-- A whole record is consumed and interpreted. -/
theorem replayFrom_record (start : Nat) (r : Record) (rest : List UInt8) (st : ContentStore)
    (hr : r.payload.length ≤ maxRecordBytes) :
    replayFrom start (r.encode ++ rest) st =
      replayFrom (start + r.encode.length) rest
        (replayRecord st r.sid r.variant r.payload) := by
  rw [replayFrom_of_read (readRecord_encode r rest hr), Record.length_encode, Nat.add_assoc]

omit [Blake3] in
/-- A proper prefix of a record reads as the end of the file. -/
theorem readRecord_torn (r : Record) (tail : List UInt8)
    (hr : r.payload.length ≤ maxRecordBytes) (hpre : tail <+: r.encode)
    (hlt : tail.length < r.encode.length) : readRecord tail = .ok none := by
  have hlen : r.payload.length < 2 ^ 32 := by
    simp only [maxRecordBytes] at hr
    omega
  obtain ⟨-, -, hsize⟩ := header_fields r.sid r.variant hlen _ rfl
  rw [Record.length_encode] at hlt
  unfold readRecord
  by_cases hh : tail.length < header
  · simp only [takeExact_eq_none_iff.mpr hh]
  · -- the header is complete, so the cut is inside the payload
    have hfull := encode_split r []
    rw [List.append_nil, List.append_nil] at hfull
    have hhead : toLe 16 r.sid.toNat ++ [r.variant] ++ toLe 4 r.payload.length <+: tail :=
      List.prefix_of_prefix_length_le (hfull ▸ List.prefix_append _ _) hpre
        (by simp only [header] at hh; simp; omega)
    obtain ⟨part, rfl⟩ := hhead
    have hshort : takeExact r.payload.length part = none := by
      rw [takeExact_eq_none_iff]
      simp only [header, List.length_append, length_toLe, List.length_singleton] at hlt
      omega
    rw [takeExact_append part (by simp [header])]
    simp only [hsize, hshort]
    rw [if_neg (by omega)]

/-- A record whose encoding is read back as itself, within the size limit. -/
structure Record.Valid (r : Record) : Prop where
  size : r.payload.length ≤ maxRecordBytes
  decode : decodeRecord r.sid r.variant r.payload = some r

/-- Replay the records of a list one after the other. -/
def replayRecords (st : ContentStore) (rs : List Record) : ContentStore :=
  rs.foldl (fun st r => replayRecord st r.sid r.variant r.payload) st

theorem replayRecords_maps (st : ContentStore) {rs : List Record} (hrs : ∀ r ∈ rs, r.Valid) :
    (replayRecords st rs).maps = rs.foldl applyRecord st.maps := by
  induction rs generalizing st with
  | nil => rfl
  | cons r rest ih =>
      simp only [replayRecords, List.foldl_cons]
      have hr := (hrs r (by simp)).decode
      have hrest := ih (replayRecord st r.sid r.variant r.payload)
        (fun r' hr' => hrs r' (by simp [hr']))
      rw [replayRecord_maps, hr] at hrest
      exact hrest

/-- Replay consumes every whole record and stops in front of the cut one. -/
theorem replayFrom_records (start : Nat) (rs : List Record) (rest : List UInt8)
    (st : ContentStore) (hrs : ∀ r ∈ rs, r.Valid) :
    replayFrom start (rs.flatMap Record.encode ++ rest) st =
      replayFrom (start + (rs.flatMap Record.encode).length) rest (replayRecords st rs) := by
  induction rs generalizing start st with
  | nil => simp [replayRecords]
  | cons r rs ih =>
      rw [List.flatMap_cons, List.append_assoc,
        replayFrom_record start r _ st (hrs r (by simp)).size,
        ih _ _ (fun r' hr' => hrs r' (by simp [hr'])), List.length_append, Nat.add_assoc]
      rfl

theorem replayFrom_nil (start : Nat) (st : ContentStore) :
    replayFrom start [] st = .ok (st, start) := by
  apply replayFrom_of_end
  simp [readRecord, takeExact, header]

/-- Replaying any byte prefix of a log of valid records. -/
theorem replayFrom_cut (start : Nat) (rs : List Record) (hrs : ∀ r ∈ rs, r.Valid)
    (cut : List UInt8) (hcut : cut <+: rs.flatMap Record.encode) (st : ContentStore) :
    ∃ whole later tail, rs = whole ++ later ∧ cut = whole.flatMap Record.encode ++ tail ∧
      (∀ next ∈ later.head?, tail.length < next.encode.length) ∧ (later = [] → tail = []) ∧
      replayFrom start cut st =
        .ok (replayRecords st whole, start + (whole.flatMap Record.encode).length) := by
  obtain ⟨whole, later, tail, hsplit, hcuteq, hlast⟩ := cut_flatMap Record.encode rs cut hcut
  have hwhole : ∀ r ∈ whole, r.Valid := fun r hr => hrs r (by simp [hsplit, hr])
  refine ⟨whole, later, tail, hsplit, hcuteq, ?_, ?_, ?_⟩
  · rcases hlast with ⟨rfl, rfl⟩ | ⟨next, rest, rfl, _, hlt⟩
    · simp
    · simpa using hlt
  · rintro rfl
    rcases hlast with ⟨_, h⟩ | ⟨next, rest, h, _⟩
    · exact h
    · cases h
  · rw [hcuteq, replayFrom_records _ _ _ _ hwhole]
    rcases hlast with ⟨_, rfl⟩ | ⟨next, rest, rfl, hpre, hlt⟩
    · exact replayFrom_nil _ _
    · exact replayFrom_of_end
        (readRecord_torn next tail (hrs next (by simp [hsplit])).size hpre hlt)

theorem replay_cut (rs : List Record) (hrs : ∀ r ∈ rs, r.Valid) (cut : List UInt8)
    (hcut : cut <+: rs.flatMap Record.encode) (st : ContentStore) :
    ∃ whole later tail, rs = whole ++ later ∧ cut = whole.flatMap Record.encode ++ tail ∧
      (∀ next ∈ later.head?, tail.length < next.encode.length) ∧ (later = [] → tail = []) ∧
      replay cut st = .ok (replayRecords st whole, (whole.flatMap Record.encode).length) := by
  have h := replayFrom_cut 0 rs hrs cut hcut st
  simp only [Nat.zero_add] at h
  exact h

end Wal

end Dlr.Core
