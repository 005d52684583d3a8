import Dlr.Core.Frame

/-!
# Reading encoded frames back

A reader is described by the bytes it consumes and the value it returns, whatever
follows in the window. Readers compose, so the layout of a frame is read back field by
field.
-/

namespace Dlr.Core

open Lib.Bytes Lib.Machine

namespace Reader

variable {α β : Type}

/-- The reader consumes exactly these bytes and returns this value. -/
def Consumes (p : Reader α) (w : List UInt8) (a : α) : Prop :=
  ∀ rest, p.run (w ++ rest) = .ok (a, rest)

theorem Consumes.pure (a : α) : Consumes (Pure.pure a) [] a := fun _ => rfl

theorem Consumes.bind {p : Reader α} {q : α → Reader β} {w w' : List UInt8} {a : α} {b : β}
    (hp : Consumes p w a) (hq : Consumes (q a) w' b) : Consumes (p >>= q) (w ++ w') b := by
  intro rest
  rw [StateT.run_bind, List.append_assoc, hp]
  exact hq rest

theorem Consumes.map {p : Reader α} {w : List UInt8} {a : α} (hp : Consumes p w a) (f : α → β) :
    Consumes (p >>= fun a => Pure.pure (f a)) w (f a) := by
  have hread := Consumes.bind (q := fun a => Pure.pure (f a)) hp (Consumes.pure (f a))
  rwa [List.append_nil] at hread

theorem consumes_take {n : Nat} {field : List UInt8} (h : field.length = n) :
    Consumes (take n) field field := by
  intro rest
  have hfield : takeExact n (field ++ rest) = some (field, rest) := takeExact_append rest h
  simp only [take, StateT.run_bind, StateT.run_get, pure_bind, hfield]
  rfl

theorem consumes_takeU32 {n : Nat} (h : n < 256 ^ 4) : Consumes takeU32 (toLe 4 n) n := by
  have hread := (consumes_take (length_toLe 4 n)).map ofLe
  rwa [ofLe_toLe h] at hread

theorem consumes_takeCount {n : Nat} (h : n ≤ maxFrameCount) : Consumes takeCount (toLe 4 n) n := by
  have hread : Consumes takeU32 (toLe 4 n) n := consumes_takeU32 (by simp only [maxFrameCount] at h; omega)
  have hcheck : Consumes (if n > maxFrameCount then fail (.tooLarge n) else return n) [] n := by
    rw [if_neg (by omega)]
    exact Consumes.pure n
  have hboth := Consumes.bind
    (q := fun n => if n > maxFrameCount then fail (.tooLarge n) else return n) hread hcheck
  rwa [List.append_nil] at hboth

theorem consumes_takeU128 (sid : SessionId) : Consumes takeU128 (toLe 16 sid.toNat) sid := by
  have hread := (consumes_take (length_toLe 16 sid.toNat)).map fun field => BitVec.ofNat 128 (ofLe field)
  rw [ofLe_toLe (by have hlt := sid.isLt; omega), BitVec.ofNat_toNat, BitVec.setWidth_eq] at hread
  exact hread

theorem consumes_takeBlockId (id : BlockId) : Consumes takeBlockId id.bytes id := by
  intro rest
  have hfield : takeExact 32 (id.bytes ++ rest) = some (id.bytes, rest) :=
    takeExact_append rest id.size
  simp only [takeBlockId, StateT.run_bind, StateT.run_get, pure_bind, hfield, dif_pos id.size]
  rfl

/-! ## Block entries -/

private theorem slice_of_eq {w : List UInt8} {lo hi : Nat} (pre mid post : List UInt8)
    (hw : w = pre ++ mid ++ post) (hlo : pre.length = lo) (hhi : lo + mid.length = hi) :
    slice w lo hi = mid := by
  subst hw hlo hhi
  simp [slice, List.append_assoc]

/-- A marker byte of an inline entry has the reference bit clear. -/
theorem marker_of_kind (k : BlockKind) : (k.toByte &&& ~~~refBit) &&& refBit = 0 ∧
    BlockKind.fromByte ((k.toByte &&& ~~~refBit) &&& ~~~refBit) = some k := by
  cases k <;> decide

/-- What becomes of a block entry once its length field is read. -/
def entryOf (len : Nat) (r : List UInt8) : Except (Fault FrameError) (FrameBlock × List UInt8) :=
  if r.length < len then .error (.error .truncated)
  else
    match r with
    | [] => .error .panic
    | marker :: _ =>
        if marker &&& refBit ≠ 0 then
          if len ≠ 33 then .error (.error .truncated)
          else if h : (slice r 1 33).length = 32 then .ok (.ref ⟨slice r 1 33, h⟩, r.drop len)
          else .error .panic
        else
          match BlockKind.fromByte (marker &&& ~~~refBit) with
          | none => .error (.error (.unknownKind marker))
          | some kind =>
              if len < 1 + 16 then .error (.error .truncated)
              else if ofLe (slice r 9 17) > maxInlinePayloadBytes then
                .error (.error (.tooLarge (ofLe (slice r 9 17))))
              else if len < 1 + 16 + ofLe (slice r 9 17) then .error (.error .truncated)
              else
                .ok (.inline ⟨kind, UInt64.ofNat (ofLe (slice r 1 9)),
                  slice r 17 (17 + ofLe (slice r 9 17))⟩, r.drop (1 + 16 + ofLe (slice r 9 17)))

theorem frameBlock_run (buf : List UInt8) :
    frameBlock.run buf = takeU32.run buf >>= fun p => entryOf p.1 p.2 := by
  rw [frameBlock, StateT.run_bind]
  refine congrArg _ (funext fun p => ?_)
  obtain ⟨len, r⟩ := p
  simp only [StateT.run_bind, StateT.run_get, pure_bind]
  unfold entryOf
  by_cases hlen : r.length < len
  · rw [if_pos hlen, if_pos hlen]
    rfl
  rw [if_neg hlen, if_neg hlen]
  cases r with
  | nil => rfl
  | cons marker rest =>
      simp only
      by_cases hmarker : marker &&& refBit ≠ 0
      · rw [if_pos hmarker, if_pos hmarker]
        by_cases hsize : len ≠ 33
        · rw [if_pos hsize, if_pos hsize]
          rfl
        · rw [if_neg hsize, if_neg hsize]
          simp only [StateT.run_bind]
          by_cases hid : (slice (marker :: rest) 1 33).length = 32
          · rw [dif_pos hid, dif_pos hid]
            rfl
          · rw [dif_neg hid, dif_neg hid]
            rfl
      · rw [if_neg hmarker, if_neg hmarker]
        cases BlockKind.fromByte (marker &&& ~~~refBit) with
        | none => rfl
        | some kind =>
            simp only
            by_cases h₁ : len < 1 + 16
            · rw [if_pos h₁, if_pos h₁]
              rfl
            rw [if_neg h₁, if_neg h₁]
            by_cases h₂ : ofLe (slice (marker :: rest) 9 17) > maxInlinePayloadBytes
            · rw [if_pos h₂, if_pos h₂]
              rfl
            rw [if_neg h₂, if_neg h₂]
            by_cases h₃ : len < 1 + 16 + ofLe (slice (marker :: rest) 9 17)
            · rw [if_pos h₃, if_pos h₃]
              rfl
            · rw [if_neg h₃, if_neg h₃]
              rfl

/-- Only the highest bit of a reference marker is looked at. -/
theorem consumes_frameBlock_marker (id : BlockId) {marker : UInt8}
    (hmarker : marker &&& refBit ≠ 0) :
    Consumes frameBlock (toLe 4 33 ++ (marker :: id.bytes)) (.ref id) := by
  intro rest
  have hid : slice (marker :: (id.bytes ++ rest)) 1 33 = id.bytes :=
    slice_of_eq [marker] id.bytes rest rfl rfl (by rw [id.size])
  have hdrop : (marker :: (id.bytes ++ rest)).drop 33 = rest :=
    List.drop_left' id.size
  have hfits : ¬ (marker :: (id.bytes ++ rest)).length < 33 := by
    simp only [List.length_cons, List.length_append, id.size]
    omega
  rw [List.append_assoc, frameBlock_run, consumes_takeU32 (by decide)]
  change entryOf 33 (marker :: (id.bytes ++ rest)) = _
  unfold entryOf
  rw [if_neg hfits]
  simp only
  rw [if_pos hmarker, if_neg (not_not_intro rfl), dif_pos (by rw [hid, id.size]), hdrop]
  simp only [hid]

theorem consumes_frameBlock_ref (id : BlockId) :
    Consumes frameBlock (encodeFrameBlock (.ref id)) (.ref id) := by
  rw [encodeFrameBlock, List.append_assoc]
  exact consumes_frameBlock_marker id (by decide)

theorem drop_encodeFrameBlock_inline (b : Block) :
    (encodeFrameBlock (.inline b)).drop 4 =
      (b.kind.toByte &&& ~~~refBit) :: (toLe 8 b.seq.toNat ++ (toLe 8 b.payload.length ++
        b.payload)) := by
  simp only [encodeFrameBlock, List.append_assoc]
  rw [List.drop_left' (by simp)]
  rfl

/-- The length field of an inline entry may reach beyond its payload, as long as the window
does too. -/
theorem frameBlock_run_inline {b : Block} (h : b.payload.length ≤ maxInlinePayloadBytes) {len : Nat}
    (hlen : len < 256 ^ 4) (hcovers : 17 + b.payload.length ≤ len) {rest : List UInt8}
    (hfits : len ≤ 17 + b.payload.length + rest.length) :
    frameBlock.run (toLe 4 len ++ ((encodeFrameBlock (.inline b)).drop 4 ++ rest)) =
      .ok (.inline b, rest) := by
  simp only [maxInlinePayloadBytes] at h
  obtain ⟨hbit, hkind⟩ := marker_of_kind b.kind
  rw [frameBlock_run, consumes_takeU32 hlen, drop_encodeFrameBlock_inline]
  set marker := b.kind.toByte &&& ~~~refBit with hmarker
  set window := marker :: (toLe 8 b.seq.toNat ++ (toLe 8 b.payload.length ++ b.payload) ++ rest)
    with hwindow
  have hseq : slice window 1 9 = toLe 8 b.seq.toNat :=
    slice_of_eq [marker] _ (toLe 8 b.payload.length ++ b.payload ++ rest) (by simp [hwindow]) rfl
      (by rw [length_toLe])
  have hplen : slice window 9 17 = toLe 8 b.payload.length :=
    slice_of_eq (marker :: toLe 8 b.seq.toNat) _ (b.payload ++ rest) (by simp [hwindow]) (by simp)
      (by rw [length_toLe])
  have hpayload : slice window 17 (17 + b.payload.length) = b.payload :=
    slice_of_eq (marker :: (toLe 8 b.seq.toNat ++ toLe 8 b.payload.length)) _ rest
      (by simp [hwindow]) (by simp) rfl
  have hdrop : window.drop (1 + 16 + b.payload.length) = rest := by
    rw [hwindow, ← List.cons_append]
    apply List.drop_left'
    simp
    omega
  have hwhole : ¬ window.length < len := by
    simp [hwindow]
    omega
  have hlenOf : ofLe (toLe 8 b.payload.length) = b.payload.length := ofLe_toLe (by omega)
  have hseqOf : UInt64.ofNat (ofLe (toLe 8 b.seq.toNat)) = b.seq := by
    rw [ofLe_toLe b.seq.toNat_lt]
    exact UInt64.ofNat_toNat
  have hlong : ¬ len < 1 + 16 := by omega
  have hsmall : ¬ b.payload.length > maxInlinePayloadBytes := by
    simp only [maxInlinePayloadBytes]
    omega
  have hexact : ¬ len < 1 + 16 + b.payload.length := by omega
  have hclear : ¬ marker &&& refBit ≠ 0 := fun hne => hne hbit
  change entryOf len window = _
  unfold entryOf
  rw [if_neg hwhole]
  simp only [hwindow]
  rw [if_neg hclear]
  simp only [hkind, ← hwindow, hseq, hplen, hlenOf, hseqOf, hpayload, hdrop]
  rw [if_neg hlong, if_neg hsmall, if_neg hexact]

theorem consumes_frameBlock_inline {b : Block} (h : b.payload.length ≤ maxInlinePayloadBytes) :
    Consumes frameBlock (encodeFrameBlock (.inline b)) (.inline b) := by
  intro rest
  have hfield : (encodeFrameBlock (.inline b)).take 4 = toLe 4 (17 + b.payload.length) := by
    simp only [encodeFrameBlock, List.append_assoc]
    exact List.take_left' (length_toLe 4 _)
  have hbig : 17 + b.payload.length < 256 ^ 4 := by
    simp only [maxInlinePayloadBytes] at h
    omega
  have hrun := frameBlock_run_inline h hbig le_rfl (Nat.le_add_right _ rest.length)
  rwa [← List.append_assoc, ← hfield, List.take_append_drop] at hrun

theorem consumes_frameBlock {fb : FrameBlock}
    (h : ∀ b, fb = .inline b → b.payload.length ≤ maxInlinePayloadBytes) :
    Consumes frameBlock (encodeFrameBlock fb) fb := by
  cases fb with
  | inline b => exact consumes_frameBlock_inline (h b rfl)
  | ref id => exact consumes_frameBlock_ref id

end Reader

end Dlr.Core
