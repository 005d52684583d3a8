import Dlr.Core.FrameCodec

/-!
# Every index of the frame decoder

The readers of a frame once more, with every index and slice of the program written out: an access
outside its buffer panics. The readers above, which take fields from a window, agree with them, so
the only access that can fail is the marker byte of a block entry. It fails exactly when the
entries of an APPEND end in a length field of zero with nothing behind it.

## Implementation notes

Inline payloads and symbols are sliced out of the whole body, at the offset that the window has
reached. This is in bounds because the window is a suffix of the body.
-/

namespace Dlr.Core

open Lib.Bytes Lib.Machine

namespace Indexed

/-- `buf[i]`. -/
def byteAt (buf : List UInt8) (i : Nat) : Except (Fault FrameError) UInt8 :=
  match buf[i]? with
  | none => .error .panic
  | some b => .ok b

/-- `&buf[lo..hi]`. -/
def range (buf : List UInt8) (lo hi : Nat) : Except (Fault FrameError) (List UInt8) :=
  if lo ≤ hi ∧ hi ≤ buf.length then .ok (slice buf lo hi) else .error .panic

/-- Copy a slice into an array of `n` bytes. -/
def copyFromSlice (n : Nat) (src : List UInt8) :
    Except (Fault FrameError) { l : List UInt8 // l.length = n } :=
  if h : src.length = n then .ok ⟨src, h⟩ else .error .panic

/-- `a - b` on lengths. -/
def lenSub (a b : Nat) : Except (Fault FrameError) Nat :=
  if b ≤ a then .ok (a - b) else .error .panic

def takeU32 : Reader Nat := fun r =>
  if r.length < 4 then .error (.error .truncated)
  else do
    let b₀ ← byteAt r 0
    let b₁ ← byteAt r 1
    let b₂ ← byteAt r 2
    let b₃ ← byteAt r 3
    let rest ← range r 4 r.length
    return (ofLe [b₀, b₁, b₂, b₃], rest)

def takeCount : Reader Nat := do
  let n ← takeU32
  if n > maxFrameCount then Reader.fail (.tooLarge n) else return n

def takeU128 : Reader SessionId := fun r =>
  if r.length < 16 then .error (.error .truncated)
  else do
    let a ← copyFromSlice 16 (← range r 0 16)
    let rest ← range r 16 r.length
    return (BitVec.ofNat 128 (ofLe a.1), rest)

def takeBlockId : Reader BlockId := fun r =>
  if r.length < 32 then .error (.error .truncated)
  else do
    let id ← copyFromSlice 32 (← range r 0 32)
    let rest ← range r 32 r.length
    return (⟨id.1, id.2⟩, rest)

/-- One bulk symbol, a slice of the body. -/
def symbol (body : List UInt8) : Reader (List UInt8) := fun r => do
  let (len, r) ← takeU32 r
  if len > maxInlinePayloadBytes then .error (.error (.tooLarge len))
  else if r.length < len then .error (.error .truncated)
  else
    let off ← lenSub body.length r.length
    let sym ← range body off (off + len)
    let rest ← range r len r.length
    return (sym, rest)

/-- A block entry behind its length field. -/
def entryAt (body : List UInt8) (len : Nat) (r : List UInt8) :
    Except (Fault FrameError) (FrameBlock × List UInt8) :=
  if r.length < len then .error (.error .truncated)
  else do
    let off ← lenSub body.length r.length
    let marker ← byteAt r 0
    if marker &&& refBit ≠ 0 then
      if len ≠ 33 then .error (.error .truncated)
      else
        let id ← copyFromSlice 32 (← range r 1 33)
        let rest ← range r len r.length
        return (.ref ⟨id.1, id.2⟩, rest)
    else
      match BlockKind.fromByte (marker &&& ~~~refBit) with
      | none => .error (.error (.unknownKind marker))
      | some kind =>
          if len < 1 + 16 then .error (.error .truncated)
          else
            let seq ← copyFromSlice 8 (← range r 1 9)
            let plen ← copyFromSlice 8 (← range r 9 17)
            if ofLe plen.1 > maxInlinePayloadBytes then
              .error (.error (.tooLarge (ofLe plen.1)))
            else if len < 1 + 16 + ofLe plen.1 then .error (.error .truncated)
            else
              let payload ← range body (off + 1 + 16) (off + 1 + 16 + ofLe plen.1)
              let rest ← range r (1 + 16 + ofLe plen.1) r.length
              return (.inline ⟨kind, UInt64.ofNat (ofLe seq.1), payload⟩, rest)

/-- One block entry. -/
def decodeFrameBlock (body : List UInt8) : Reader FrameBlock := fun r => do
  let (len, r) ← takeU32 r
  entryAt body len r

/-- The body of a frame after its tag byte. -/
def decodeBody (tag : UInt8) (body : List UInt8) : Reader Frame :=
  if tag = tagAppend then do
    let sessionId ← takeU128
    let baseRoot ← takeBlockId
    let blocks ← Reader.repeated (decodeFrameBlock body) (← takeCount)
    return .append ⟨sessionId, baseRoot, blocks⟩
  else if tag = tagResync then do
    let sessionId ← takeU128
    let clientRoot ← takeBlockId
    let manifest ← Reader.repeated takeBlockId (← takeCount)
    return .resync ⟨sessionId, clientRoot, manifest⟩
  else if tag = tagBulk then do
    let sessionId ← takeU128
    let generation ← takeU32
    let k ← takeU32
    let symbolSize ← takeU32
    let symbols ← Reader.repeated (symbol body) (← takeCount)
    return .bulk ⟨sessionId, UInt32.ofNat generation, UInt32.ofNat k,
      UInt32.ofNat symbolSize, symbols⟩
  else if tag = tagAck then do
    let sessionId ← takeU128
    let root ← takeBlockId
    return .ack ⟨sessionId, root⟩
  else if tag = tagMissing then do
    let sessionId ← takeU128
    let missing ← Reader.repeated takeBlockId (← takeCount)
    return .missing ⟨sessionId, missing⟩
  else
    Reader.fail (.unknownTag tag)

/-- Decode a borrowed buffer, whose body is copied first. -/
def decodeFrame (buf : List UInt8) : Except (Fault FrameError) Frame :=
  if buf = [] then .error (.error .truncated)
  else do
    let tag ← byteAt buf 0
    let owned ← range buf 1 buf.length
    let (frame, _) ← (decodeBody tag owned).run owned
    return frame

/-- Decode a shared buffer, whose body is a view of it. -/
def decodeFrameBytes (buf : List UInt8) : Except (Fault FrameError) Frame :=
  if buf = [] then .error (.error .truncated)
  else do
    let tag ← byteAt buf 0
    let body ← range buf 1 buf.length
    let (frame, _) ← (decodeBody tag body).run body
    return frame

/-! ## Agreement with the window readers -/

theorem range_eq {buf : List UInt8} {lo hi : Nat} (h : lo ≤ hi) (hbuf : hi ≤ buf.length) :
    range buf lo hi = .ok (slice buf lo hi) := if_pos ⟨h, hbuf⟩

theorem range_to_end {buf : List UInt8} {lo : Nat} (h : lo ≤ buf.length) :
    range buf lo buf.length = .ok (buf.drop lo) := by
  rw [range_eq h le_rfl, slice, List.take_of_length_le (by rw [List.length_drop])]

theorem copyFromSlice_eq {n : Nat} {src : List UInt8} (h : src.length = n) :
    copyFromSlice n src = .ok ⟨src, h⟩ := dif_pos h

theorem takeU32_eq : takeU32 = Reader.takeU32 := by
  funext r
  change _ = Reader.takeU32.run r
  rw [Reader.takeU32_run, takeU32]
  split_ifs with hshort
  · rfl
  · obtain ⟨b₀, b₁, b₂, b₃, rest, rfl⟩ : ∃ b₀ b₁ b₂ b₃ rest, r = b₀ :: b₁ :: b₂ :: b₃ :: rest := by
      rcases r with _ | ⟨b₀, _ | ⟨b₁, _ | ⟨b₂, _ | ⟨b₃, rest⟩⟩⟩⟩
      · exact absurd (by simp) hshort
      · exact absurd (by simp) hshort
      · exact absurd (by simp) hshort
      · exact absurd (by simp) hshort
      · exact ⟨b₀, b₁, b₂, b₃, rest, rfl⟩
    rw [range_to_end (by simp)]
    rfl

theorem takeCount_eq : takeCount = Reader.takeCount := by
  rw [takeCount, takeU32_eq]
  rfl

theorem takeU128_eq : takeU128 = Reader.takeU128 := by
  funext r
  change _ = Reader.takeU128.run r
  rw [Reader.takeU128_run, takeU128]
  split_ifs with hshort
  · rfl
  · have hlen : 16 ≤ r.length := Nat.le_of_not_lt hshort
    rw [range_eq (Nat.zero_le _) hlen, range_to_end hlen]
    have hfield : (slice r 0 16).length = 16 := Reader.length_slice hlen
    simp only [bind, Except.bind]
    rw [copyFromSlice_eq hfield]
    rfl

theorem takeBlockId_eq : takeBlockId = Reader.takeBlockId := by
  funext r
  change _ = Reader.takeBlockId.run r
  by_cases hshort : r.length < 32
  · rw [Reader.takeBlockId_of_short hshort, takeBlockId, if_pos hshort]
  · have hlen : 32 ≤ r.length := Nat.le_of_not_lt hshort
    have hid : (slice r 0 32).length = 32 := Reader.length_slice hlen
    have hread := Reader.consumes_takeBlockId ⟨slice r 0 32, hid⟩ (r.drop 32)
    rw [show (Digest.bytes ⟨slice r 0 32, hid⟩) = r.take 32 from rfl,
      List.take_append_drop] at hread
    rw [hread, takeBlockId, if_neg hshort, range_eq (Nat.zero_le _) hlen, range_to_end hlen]
    simp only [bind, Except.bind]
    rw [copyFromSlice_eq hid]
    rfl

/-- The two readers agree on every window of the body. -/
def AgreesOn {α : Type} (body : List UInt8) (p q : Reader α) : Prop :=
  ∀ r, r <:+ body → p.run r = q.run r

section Agreement

variable {α β : Type} {body : List UInt8}

theorem AgreesOn.refl (p : Reader α) : AgreesOn body p p := fun _ _ => rfl

theorem AgreesOn.bind {p p' : Reader α} {q q' : α → Reader β} {W : α → List UInt8 → Prop}
    (hp : AgreesOn body p p') (hW : Reader.Accepts p' W) (hq : ∀ a, AgreesOn body (q a) (q' a)) :
    AgreesOn body (p >>= q) (p' >>= q') := by
  intro r hr
  rw [StateT.run_bind, StateT.run_bind, hp r hr]
  cases hrun : p'.run r with
  | error e => rfl
  | ok result =>
      obtain ⟨a, rest⟩ := result
      obtain ⟨used, rfl, -⟩ := hW r a rest hrun
      exact hq a rest ((List.suffix_append used rest).trans hr)

theorem AgreesOn.repeated {p p' : Reader α} {W : α → List UInt8 → Prop}
    (hp : AgreesOn body p p') (hW : Reader.Accepts p' W) (n : Nat) :
    AgreesOn body (Reader.repeated p n) (Reader.repeated p' n) := by
  induction n with
  | zero => exact AgreesOn.refl _
  | succ n ih =>
      exact hp.bind hW fun a => ih.bind (Reader.accepts_repeated hW n) fun rest =>
        AgreesOn.refl _

theorem lenSub_of_suffix {r : List UInt8} (hr : r <:+ body) :
    lenSub body.length r.length = .ok (body.length - r.length) := if_pos hr.length_le

/-- A slice of the body at the offset of the window is a slice of the window. -/
theorem range_of_suffix {r : List UInt8} (hr : r <:+ body) {lo hi : Nat} (h : lo ≤ hi)
    (hlen : hi ≤ r.length) :
    range body (body.length - r.length + lo) (body.length - r.length + hi) =
      .ok (slice r lo hi) := by
  obtain ⟨used, rfl⟩ := hr
  have hoff : (used ++ r).length - r.length = used.length := by simp
  rw [hoff, range_eq (by omega) (by rw [List.length_append]; omega)]
  simp [slice, ← List.drop_drop, Nat.add_sub_add_left]

theorem symbol_agrees (body : List UInt8) : AgreesOn body (symbol body) Reader.symbol := by
  intro r hr
  have hplain : Reader.symbol.run r = Reader.takeU32.run r >>= fun p =>
      (if p.1 > maxInlinePayloadBytes then Reader.fail (.tooLarge p.1)
        else Reader.take p.1 : Reader (List UInt8)).run p.2 := by
    rw [Reader.symbol, StateT.run_bind]
  change (takeU32.run r >>= _) = _
  rw [hplain, takeU32_eq]
  cases hrun : Reader.takeU32.run r with
  | error e => rfl
  | ok result =>
      obtain ⟨len, w⟩ := result
      obtain ⟨used, rfl, -⟩ := Reader.accepts_takeU32 r len w hrun
      have hw : w <:+ body := (List.suffix_append used w).trans hr
      simp only [bind, Except.bind]
      by_cases hlarge : len > maxInlinePayloadBytes
      · rw [if_pos hlarge, if_pos hlarge]
        rfl
      · rw [if_neg hlarge, if_neg hlarge, Reader.take_run]
        split_ifs with hshort
        · rfl
        · have hslice := range_of_suffix hw (Nat.zero_le len) (Nat.le_of_not_lt hshort)
          rw [Nat.add_zero] at hslice
          rw [lenSub_of_suffix hw]
          simp only
          rw [hslice, range_to_end (Nat.le_of_not_lt hshort)]
          rfl

theorem entryAt_eq {r : List UInt8} (hr : r <:+ body) (len : Nat) :
    entryAt body len r = Reader.entryOf len r := by
  unfold entryAt Reader.entryOf
  by_cases hlen : r.length < len
  · rw [if_pos hlen, if_pos hlen]
  rw [if_neg hlen, if_neg hlen, lenSub_of_suffix hr]
  cases r with
  | nil => rfl
  | cons marker tail =>
      simp only [bind, Except.bind]
      rw [show byteAt (marker :: tail) 0 = .ok marker from rfl]
      simp only
      by_cases hmarker : marker &&& refBit ≠ 0
      · rw [if_pos hmarker, if_pos hmarker]
        by_cases hsize : len ≠ 33
        · rw [if_pos hsize, if_pos hsize]
        · obtain rfl : len = 33 := not_not.mp hsize
          have hfit : 33 ≤ (marker :: tail).length := Nat.le_of_not_lt hlen
          have hid : (slice (marker :: tail) 1 33).length = 32 := Reader.length_slice hfit
          rw [if_neg hsize, if_neg hsize, dif_pos hid, range_eq (by omega) hfit,
            range_to_end hfit]
          simp only
          rw [copyFromSlice_eq hid]
          rfl
      · rw [if_neg hmarker, if_neg hmarker]
        cases BlockKind.fromByte (marker &&& ~~~refBit) with
        | none => rfl
        | some kind =>
            simp only
            by_cases hfixed : len < 1 + 16
            · rw [if_pos hfixed, if_pos hfixed]
            have hfit : 17 ≤ (marker :: tail).length := by omega
            have hseq : (slice (marker :: tail) 1 9).length = 8 := Reader.length_slice (by omega)
            have hplen : (slice (marker :: tail) 9 17).length = 8 := Reader.length_slice hfit
            rw [if_neg hfixed, if_neg hfixed, range_eq (by omega) (by omega),
              range_eq (by omega) hfit]
            simp only
            rw [copyFromSlice_eq hseq, copyFromSlice_eq hplen]
            simp only
            split_ifs with hlarge hcut
            · rfl
            · rfl
            · rw [Nat.add_assoc, Nat.add_assoc, range_of_suffix hr (by omega) (by omega),
                range_to_end (by omega)]
              rfl

theorem decodeFrameBlock_agrees (body : List UInt8) :
    AgreesOn body (decodeFrameBlock body) Reader.frameBlock := by
  intro r hr
  change (takeU32.run r >>= _) = _
  rw [Reader.frameBlock_run, takeU32_eq]
  cases hrun : Reader.takeU32.run r with
  | error e => rfl
  | ok result =>
      obtain ⟨len, w⟩ := result
      obtain ⟨used, rfl, -⟩ := Reader.accepts_takeU32 r len w hrun
      exact entryAt_eq ((List.suffix_append used w).trans hr) len

theorem decodeBody_agrees (tag : UInt8) (body : List UInt8) :
    AgreesOn body (decodeBody tag body) (Reader.body tag) := by
  unfold decodeBody Reader.body
  rw [takeU32_eq, takeCount_eq, takeU128_eq, takeBlockId_eq]
  split_ifs
  · exact (AgreesOn.refl _).bind Reader.accepts_takeU128 fun sid =>
      (AgreesOn.refl _).bind Reader.accepts_takeBlockId fun root =>
      (AgreesOn.refl _).bind Reader.accepts_takeCount fun n =>
      ((decodeFrameBlock_agrees body).repeated Reader.accepts_frameBlock n).bind
        (Reader.accepts_repeated Reader.accepts_frameBlock n) fun blocks => AgreesOn.refl _
  · exact AgreesOn.refl _
  · exact (AgreesOn.refl _).bind Reader.accepts_takeU128 fun sid =>
      (AgreesOn.refl _).bind Reader.accepts_takeU32 fun generation =>
      (AgreesOn.refl _).bind Reader.accepts_takeU32 fun k =>
      (AgreesOn.refl _).bind Reader.accepts_takeU32 fun size =>
      (AgreesOn.refl _).bind Reader.accepts_takeCount fun n =>
      ((symbol_agrees body).repeated Reader.accepts_symbol n).bind
        (Reader.accepts_repeated Reader.accepts_symbol n) fun symbols => AgreesOn.refl _
  · exact AgreesOn.refl _
  · exact AgreesOn.refl _
  · exact AgreesOn.refl _

/-- With every access written out, the decoder is the one that reads fields from a window. -/
theorem decodeFrame_eq (buf : List UInt8) : decodeFrame buf = Core.decodeFrame buf := by
  cases buf with
  | nil => rfl
  | cons tag body =>
      unfold decodeFrame Core.decodeFrame
      rw [if_neg (List.cons_ne_nil _ _), range_to_end (by simp)]
      simp only [List.drop_succ_cons, List.drop_zero]
      change ((decodeBody tag body).run body >>= _) = _
      rw [decodeBody_agrees tag body body List.suffix_rfl]
      cases (Reader.body tag).run body with
      | error e => rfl
      | ok result => rfl

theorem decodeFrameBytes_eq (buf : List UInt8) : decodeFrameBytes buf = decodeFrame buf := rfl

end Agreement

end Indexed

/-! ## The one access that can fail -/

/-- A window that starts with a complete block entry, and what is left behind the entry. An inline
entry is as the encoder writes it, except that its length field may reach into what follows. -/
inductive Entry : List UInt8 → List UInt8 → Prop
  | ref (id : BlockId) {marker : UInt8} (hmarker : marker &&& refBit ≠ 0) (rest : List UInt8) :
      Entry (toLe 4 33 ++ (marker :: id.bytes) ++ rest) rest
  | inline {b : Block} (hsize : b.payload.length ≤ maxInlinePayloadBytes) {len : Nat}
      (hlen : len < 256 ^ 4) (hcovers : 17 + b.payload.length ≤ len) {rest : List UInt8}
      (hfits : len ≤ 17 + b.payload.length + rest.length) :
      Entry (toLe 4 len ++ ((encodeFrameBlock (.inline b)).drop 4 ++ rest)) rest

/-- A number of complete block entries, one after another. -/
inductive Entries : Nat → List UInt8 → List UInt8 → Prop
  | nil (rest : List UInt8) : Entries 0 rest rest
  | cons {n : Nat} {r mid rest : List UInt8} (h : Entry r mid) (hrest : Entries n mid rest) :
      Entries (n + 1) r rest

/-- An APPEND that announces more entries than it has, and behind its last complete entry ends in
an empty length field. -/
def EndsInEmptyEntry (buf : List UInt8) : Prop :=
  ∃ head r n i, head.length = 48 ∧ n ≤ maxFrameCount ∧ i < n ∧ Entries i r [0, 0, 0, 0] ∧
    buf = tagAppend :: (head ++ (toLe 4 n ++ r))

namespace Reader

variable {α β : Type}

theorem entry_iff {r rest : List UInt8} :
    Entry r rest ↔ ∃ fb, frameBlock.run r = .ok (fb, rest) := by
  constructor
  · intro h
    cases h with
    | ref id hmarker => exact ⟨_, consumes_frameBlock_marker id hmarker rest⟩
    | inline hsize hlen hcovers hfits =>
        exact ⟨_, frameBlock_run_inline hsize hlen hcovers hfits⟩
  · rintro ⟨fb, hrun⟩
    rw [frameBlock_run] at hrun
    cases htake : takeU32.run r with
    | error e =>
        rw [htake] at hrun
        cases hrun
    | ok result =>
        obtain ⟨len, w⟩ := result
        obtain ⟨used, rfl, rfl, hlen⟩ := accepts_takeU32 r len w htake
        rw [htake] at hrun
        rcases entryOf_ok hrun with ⟨id, marker, -, rfl, hmarker, rfl⟩ |
          ⟨b, -, hsize, hcovers, hfits, rfl⟩
        · rw [← List.append_assoc]
          exact Entry.ref id hmarker rest
        · apply Entry.inline hsize hlen hcovers
          have hbody : ((encodeFrameBlock (.inline b)).drop 4).length = 17 + b.payload.length := by
            rw [List.length_drop, length_encodeFrameBlock_inline]
            omega
          rw [List.length_append, hbody] at hfits
          exact hfits

/-- A reader never indexes outside its window. -/
def NeverPanics (p : Reader α) : Prop := ∀ r, p.run r ≠ .error .panic

/-- A sequence panics where its first part does, or where the second part does on what the first
has left. -/
theorem bind_panics_iff {p : Reader α} {q : α → Reader β} {r : List UInt8} :
    (p >>= q).run r = .error .panic ↔ p.run r = .error .panic ∨
      ∃ a rest, p.run r = .ok (a, rest) ∧ (q a).run rest = .error .panic := by
  rw [StateT.run_bind]
  cases p.run r with
  | error e =>
      constructor
      · intro h
        cases h
        exact Or.inl rfl
      · rintro (h | ⟨a, rest, h, -⟩)
        · cases h
          rfl
        · cases h
  | ok result =>
      constructor
      · intro h
        exact Or.inr ⟨result.1, result.2, rfl, h⟩
      · rintro (h | ⟨a, rest, h, hq⟩)
        · cases h
        · cases h
          exact hq

theorem bind_panics_iff_of_never {p : Reader α} {q : α → Reader β} (hp : NeverPanics p)
    {r : List UInt8} :
    (p >>= q).run r = .error .panic ↔
      ∃ a rest, p.run r = .ok (a, rest) ∧ (q a).run rest = .error .panic := by
  rw [bind_panics_iff]
  exact or_iff_right (hp r)

theorem NeverPanics.pure (a : α) : NeverPanics (Pure.pure a) := fun _ h => by cases h

theorem NeverPanics.bind {p : Reader α} {q : α → Reader β} (hp : NeverPanics p)
    (hq : ∀ a, NeverPanics (q a)) : NeverPanics (p >>= q) := by
  intro r h
  rcases bind_panics_iff.mp h with hfirst | ⟨a, rest, -, hsecond⟩
  · exact hp r hfirst
  · exact hq a rest hsecond

theorem map_panics_iff {p : Reader α} (f : α → β) {r : List UInt8} :
    (p >>= fun a => Pure.pure (f a)).run r = .error .panic ↔ p.run r = .error .panic := by
  rw [bind_panics_iff]
  refine or_iff_left ?_
  rintro ⟨a, rest, -, h⟩
  exact NeverPanics.pure _ _ h

theorem NeverPanics.repeated {p : Reader α} (hp : NeverPanics p) (n : Nat) :
    NeverPanics (repeated p n) := by
  induction n with
  | zero => exact NeverPanics.pure []
  | succ n ih => exact hp.bind fun _ => ih.bind fun _ => NeverPanics.pure _

theorem neverPanics_fail (e : FrameError) : NeverPanics (fail e : Reader α) := fun _ h => by cases h

theorem neverPanics_take (n : Nat) : NeverPanics (take n) := by
  intro r h
  rw [take_run] at h
  split_ifs at h
  cases h

theorem neverPanics_takeU32 : NeverPanics takeU32 :=
  (neverPanics_take 4).bind fun _ => NeverPanics.pure _

theorem neverPanics_takeCount : NeverPanics takeCount := by
  apply neverPanics_takeU32.bind
  intro n
  split_ifs
  · exact neverPanics_fail _
  · exact NeverPanics.pure n

theorem neverPanics_takeU128 : NeverPanics takeU128 :=
  (neverPanics_take 16).bind fun _ => NeverPanics.pure _

theorem neverPanics_takeBlockId : NeverPanics takeBlockId := by
  intro r h
  by_cases hshort : r.length < 32
  · rw [takeBlockId_of_short hshort] at h
    cases h
  · have hid : (r.take 32).length = 32 := List.length_take_of_le (Nat.le_of_not_lt hshort)
    have hread := consumes_takeBlockId ⟨r.take 32, hid⟩ (r.drop 32)
    rw [List.take_append_drop, h] at hread
    cases hread

theorem neverPanics_symbol : NeverPanics symbol := by
  apply neverPanics_takeU32.bind
  intro len
  split_ifs
  · exact neverPanics_fail _
  · exact neverPanics_take len

theorem entryOf_panics {len : Nat} {r : List UInt8} (h : entryOf len r = .error .panic) :
    len = 0 ∧ r = [] := by
  unfold entryOf at h
  by_cases hlen : r.length < len
  · rw [if_pos hlen] at h
    cases h
  rw [if_neg hlen] at h
  cases r with
  | nil => exact ⟨by simpa using hlen, rfl⟩
  | cons marker tail =>
      simp only at h
      by_cases hmarker : marker &&& refBit ≠ 0
      · rw [if_pos hmarker] at h
        split_ifs at h with hsize hid
        · cases h
        · obtain rfl : len = 33 := not_not.mp hsize
          exact absurd (length_slice (Nat.le_of_not_lt hlen)) hid
      · rw [if_neg hmarker] at h
        cases hkind : BlockKind.fromByte (marker &&& ~~~refBit) with
        | none =>
            rw [hkind] at h
            cases h
        | some kind =>
            simp only [hkind] at h
            split_ifs at h
            all_goals cases h

/-- The marker byte is missing only behind an empty length field at the end of the window. -/
theorem frameBlock_panics_iff {r : List UInt8} :
    frameBlock.run r = .error .panic ↔ r = [0, 0, 0, 0] := by
  constructor
  · intro h
    rw [frameBlock_run] at h
    cases htake : takeU32.run r with
    | error e =>
        rw [htake] at h
        cases h
        exact absurd htake (neverPanics_takeU32 r)
    | ok result =>
        obtain ⟨len, w⟩ := result
        obtain ⟨used, rfl, rfl, -⟩ := accepts_takeU32 r len w htake
        rw [htake] at h
        obtain ⟨rfl, rfl⟩ := entryOf_panics h
        rfl
  · rintro rfl
    rfl

theorem entries_panic_iff (n : Nat) (r : List UInt8) :
    (repeated frameBlock n).run r = .error .panic ↔ ∃ i < n, Entries i r [0, 0, 0, 0] := by
  induction n generalizing r with
  | zero =>
      constructor
      · intro h
        cases h
      · rintro ⟨i, hi, -⟩
        omega
  | succ n ih =>
      rw [repeated, bind_panics_iff, frameBlock_panics_iff]
      constructor
      · rintro (rfl | ⟨fb, mid, hfirst, hpanic⟩)
        · exact ⟨0, Nat.succ_pos n, .nil _⟩
        · obtain ⟨i, hi, hentries⟩ := (ih mid).mp ((map_panics_iff _).mp hpanic)
          exact ⟨i + 1, by omega, .cons (entry_iff.mpr ⟨fb, hfirst⟩) hentries⟩
      · rintro ⟨i, hi, hentries⟩
        cases hentries with
        | nil => exact Or.inl rfl
        | @cons j _ mid _ hentry hmore =>
            obtain ⟨fb, hfirst⟩ := entry_iff.mp hentry
            exact Or.inr ⟨fb, mid, hfirst, (map_panics_iff _).mpr
              ((ih mid).mpr ⟨j, by omega, hmore⟩)⟩

/-- An APPEND panics in its entries only. -/
theorem append_panics_iff (body : List UInt8) :
    (Reader.body tagAppend).run body = .error .panic ↔ EndsInEmptyEntry (tagAppend :: body) := by
  rw [Reader.body, if_pos rfl, bind_panics_iff_of_never neverPanics_takeU128]
  simp only [bind_panics_iff_of_never neverPanics_takeBlockId,
    bind_panics_iff_of_never neverPanics_takeCount, map_panics_iff, entries_panic_iff]
  constructor
  · rintro ⟨sid, r₁, hsid, root, r₂, hroot, n, r, hcount, i, hi, hentries⟩
    obtain ⟨_, rfl, rfl⟩ := accepts_takeU128 _ _ _ hsid
    obtain ⟨_, rfl, rfl⟩ := accepts_takeBlockId _ _ _ hroot
    obtain ⟨_, rfl, rfl, hn⟩ := accepts_takeCount _ _ _ hcount
    refine ⟨toLe 16 sid.toNat ++ root.bytes, r, n, i, ?_, hn, hi, hentries, ?_⟩
    · rw [List.length_append, length_toLe, root.size]
    · rw [List.append_assoc]
  · rintro ⟨head, r, n, i, hhead, hn, hi, hentries, heq⟩
    obtain rfl := (List.cons.inj heq).2
    have hroot : (head.drop 16).length = 32 := by rw [List.length_drop, hhead]
    have hfirst : takeU128.run (head ++ (toLe 4 n ++ r)) =
        .ok (BitVec.ofNat 128 (ofLe (head.take 16)), head.drop 16 ++ (toLe 4 n ++ r)) := by
      rw [takeU128_run, if_neg (by rw [List.length_append, hhead]; omega),
        List.take_append_of_le_length (by omega), List.drop_append_of_le_length (by omega)]
    exact ⟨_, _, hfirst, ⟨head.drop 16, hroot⟩, _, consumes_takeBlockId ⟨_, hroot⟩ _, n, r,
      consumes_takeCount hn r, i, hi, hentries⟩

/-- The other frames never panic. -/
theorem neverPanics_body {tag : UInt8} (htag : tag ≠ tagAppend) : NeverPanics (body tag) := by
  rw [body, if_neg htag]
  split_ifs
  · exact neverPanics_takeU128.bind fun _ => neverPanics_takeBlockId.bind fun _ =>
      neverPanics_takeCount.bind fun n => (neverPanics_takeBlockId.repeated n).bind fun _ =>
        NeverPanics.pure _
  · exact neverPanics_takeU128.bind fun _ => neverPanics_takeU32.bind fun _ =>
      neverPanics_takeU32.bind fun _ => neverPanics_takeU32.bind fun _ =>
      neverPanics_takeCount.bind fun n => (neverPanics_symbol.repeated n).bind fun _ =>
        NeverPanics.pure _
  · exact neverPanics_takeU128.bind fun _ => neverPanics_takeBlockId.bind fun _ =>
      NeverPanics.pure _
  · exact neverPanics_takeU128.bind fun _ => neverPanics_takeCount.bind fun n =>
      (neverPanics_takeBlockId.repeated n).bind fun _ => NeverPanics.pure _
  · exact neverPanics_fail _

end Reader

theorem decodeFrame_panics_iff (buf : List UInt8) :
    decodeFrame buf = .error .panic ↔ EndsInEmptyEntry buf := by
  cases buf with
  | nil =>
      constructor
      · intro h
        cases h
      · rintro ⟨head, r, n, i, -, -, -, -, heq⟩
        cases heq
  | cons tag body =>
      have hrun : decodeFrame (tag :: body) = .error .panic ↔
          (Reader.body tag).run body = .error .panic := by
        simp only [decodeFrame]
        cases (Reader.body tag).run body with
        | error e => simp [Except.map]
        | ok result => simp [Except.map]
      rw [hrun]
      by_cases htag : tag = tagAppend
      · subst htag
        exact Reader.append_panics_iff body
      · constructor
        · intro h
          exact absurd h (Reader.neverPanics_body htag body)
        · rintro ⟨head, r, n, i, -, -, -, -, heq⟩
          exact absurd (List.cons.inj heq).1 htag

/-- What is not a panic is a frame or an error. -/
theorem ok_or_error_iff {α : Type} (x : Except (Fault FrameError) α) :
    ((∃ a, x = .ok a) ∨ ∃ e, x = .error (.error e)) ↔ x ≠ .error .panic := by
  rcases x with (e | _) | a
  · simp
  · simp
  · simp

/-- The decoder returns a frame or an error, and never reads outside the buffer, exactly when the
buffer is not an APPEND that ends in an empty entry. -/
theorem decodeFrame_safe_iff (buf : List UInt8) :
    (((∃ f, Indexed.decodeFrame buf = .ok f) ∨
        ∃ e, Indexed.decodeFrame buf = .error (.error e)) ∧
      ((∃ f, Indexed.decodeFrameBytes buf = .ok f) ∨
        ∃ e, Indexed.decodeFrameBytes buf = .error (.error e))) ↔
      ¬ EndsInEmptyEntry buf := by
  rw [ok_or_error_iff, ok_or_error_iff, Indexed.decodeFrameBytes_eq, and_self,
    Indexed.decodeFrame_eq, Ne, decodeFrame_panics_iff]

/-- One announced entry, and an empty length field in its place. -/
theorem empty_entry_panics :
    Indexed.decodeFrame (tagAppend :: (List.replicate 48 0 ++ (toLe 4 1 ++ [0, 0, 0, 0]))) =
      .error .panic := by
  decide +kernel

end Dlr.Core
