import Mathlib.Data.List.Basic
import Mathlib.Data.Nat.Log
import Mathlib.Tactic.Ring
import Mathlib.Tactic.NormNum

/-!
# Little-endian fields and length-checked reads

Fixed-width unsigned integers become exactly `w` bytes, least significant
byte first. A reader either consumes exactly the requested number of bytes or
reports that the buffer ended early, so that every field of a binary layout is
parsed by the same two functions.
-/

namespace Dlr.Lib.Bytes

/-- Serialize an unsigned integer into `w` bytes, keeping its low `8 * w` bits. -/
def toLe : Nat → Nat → List UInt8
  | 0, _ => []
  | w + 1, n => UInt8.ofNat n :: toLe w (n / 256)

/-- Read an unsigned integer from all bytes of a field. -/
def ofLe (field : List UInt8) : Nat :=
  field.foldr (fun b high => b.toNat + 256 * high) 0

@[simp] theorem ofLe_cons (b : UInt8) (rest : List UInt8) :
    ofLe (b :: rest) = b.toNat + 256 * ofLe rest := rfl

@[simp] theorem length_toLe (w n : Nat) : (toLe w n).length = w := by
  induction w generalizing n with
  | zero => rfl
  | succ w ih => simp [toLe, ih]

/-- A field keeps the low bits of the value. -/
theorem ofLe_toLe_mod (w n : Nat) : ofLe (toLe w n) = n % 256 ^ w := by
  induction w generalizing n with
  | zero => simp [toLe, ofLe, Nat.mod_one]
  | succ w ih =>
      rw [toLe, ofLe_cons, ih, UInt8.toNat_ofNat', show 256 ^ (w + 1) = 256 * 256 ^ w by ring,
        Nat.mod_mul]

/-- A value that fits the width survives the round trip through its bytes. -/
theorem ofLe_toLe {w n : Nat} (h : n < 256 ^ w) : ofLe (toLe w n) = n := by
  rw [ofLe_toLe_mod, Nat.mod_eq_of_lt h]

theorem ofLe_lt (l : List UInt8) : ofLe l < 256 ^ l.length := by
  induction l with
  | nil => simp [ofLe]
  | cons b rest ih =>
      have hb : b.toNat < 256 := b.toNat_lt
      rw [ofLe_cons, List.length_cons, pow_succ]
      omega

/-- Writing back what a fixed-width field was read from restores the bytes. -/
theorem toLe_ofLe (l : List UInt8) : toLe l.length (ofLe l) = l := by
  induction l with
  | nil => rfl
  | cons b rest ih =>
      have hlow : UInt8.ofNat (ofLe (b :: rest)) = b := by
        apply UInt8.toNat_inj.mp
        have hb : b.toNat < 256 := b.toNat_lt
        rw [UInt8.toNat_ofNat', ofLe_cons]
        omega
      have hhigh : ofLe (b :: rest) / 256 = ofLe rest := by
        have hb : b.toNat < 256 := b.toNat_lt
        rw [ofLe_cons]
        omega
      rw [List.length_cons, toLe, hlow, hhigh, ih]

/-- Read exactly `n` bytes, or report that the buffer is too short. -/
def takeExact (n : Nat) (buf : List UInt8) : Option (List UInt8 × List UInt8) :=
  if buf.length < n then none else some (buf.take n, buf.drop n)

theorem takeExact_append {n : Nat} {field : List UInt8} (rest : List UInt8)
    (hn : field.length = n) : takeExact n (field ++ rest) = some (field, rest) := by
  subst hn
  simp [takeExact]

theorem takeExact_eq_none_iff {n : Nat} {buf : List UInt8} :
    takeExact n buf = none ↔ buf.length < n := by
  unfold takeExact
  split <;> simp_all

theorem takeExact_eq_some_iff {n : Nat} {buf field rest : List UInt8} :
    takeExact n buf = some (field, rest) ↔ buf = field ++ rest ∧ field.length = n := by
  constructor
  · intro h
    unfold takeExact at h
    split at h
    · cases h
    · rename_i hlen
      cases h
      exact ⟨(List.take_append_drop n buf).symm,
        List.length_take_of_le (Nat.le_of_not_lt hlen)⟩
  · rintro ⟨rfl, hn⟩
    exact takeExact_append rest hn

/-- Cutting a sequence of encoded items anywhere leaves some whole items and a
proper prefix of the next one. -/
theorem cut_flatMap {α : Type*} (encode : α → List UInt8) (items : List α) (cut : List UInt8)
    (h : cut <+: items.flatMap encode) :
    ∃ whole later tail, items = whole ++ later ∧ cut = whole.flatMap encode ++ tail ∧
      (later = [] ∧ tail = [] ∨
        ∃ next rest, later = next :: rest ∧ tail <+: encode next ∧
          tail.length < (encode next).length) := by
  induction items generalizing cut with
  | nil =>
      have hcut : cut = [] := by simpa using h
      exact ⟨[], [], [], rfl, by simpa using hcut, Or.inl ⟨rfl, rfl⟩⟩
  | cons item rest ih =>
      rw [List.flatMap_cons] at h
      by_cases hlen : cut.length < (encode item).length
      · refine ⟨[], item :: rest, cut, rfl, rfl, Or.inr ⟨item, rest, rfl, ?_, hlen⟩⟩
        exact List.prefix_of_prefix_length_le h (List.prefix_append _ _) hlen.le
      · have hitem : encode item <+: cut :=
          List.prefix_of_prefix_length_le (List.prefix_append _ _) h (Nat.le_of_not_lt hlen)
        obtain ⟨cut', rfl⟩ := hitem
        obtain ⟨whole, later, tail, hsplit, hcut, hlast⟩ :=
          ih cut' ((List.prefix_append_right_inj _).mp h)
        refine ⟨item :: whole, later, tail, by simp [hsplit], ?_, hlast⟩
        rw [List.flatMap_cons, List.append_assoc, ← hcut]

end Dlr.Lib.Bytes
