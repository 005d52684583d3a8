import Dlr.Coding.Hierarchical
import Dlr.Lib.Congruential

/-!
# The resampling loop of the encoder

A dense packet is drawn again while all its coefficients are zero. The stream turns the lowest bit
of its bytes over after `2 ^ 40` steps, so a vector with at least one coefficient is not zero for
ever; a group that owns no symbol has no coefficient to draw, and its loop does not end.
-/

namespace Dlr.Coding

open Lib.Congruential

/-! ## The stream -/

namespace Lcg

/-- The next state. -/
def step (state : UInt64) : UInt64 := state * 6364136223846793005 + 1442695040888963407

/-- The byte that is read off a state. -/
def byteOf (state : UInt64) : UInt8 := (state >>> 40).toUInt8

theorem nextU8_eq (rng : Lcg) :
    rng.nextU8 = (byteOf (step rng.state), ⟨step rng.state⟩) := by
  rw [nextU8, nextU64, byteOf, step]

theorem toNat_iterate_step (i : Nat) (state : UInt64) :
    (step^[i] state).toNat =
      (affine 6364136223846793005 1442695040888963407)^[i] state.toNat % 2 ^ 64 := by
  induction i with
  | zero => exact (Nat.mod_eq_of_lt state.toNat_lt).symm
  | succ i ih =>
      rw [Function.iterate_succ_apply', Function.iterate_succ_apply', step, UInt64.toNat_add,
        UInt64.toNat_mul, ih, affine]
      change ((_ % 2 ^ 64 * 6364136223846793005) % 2 ^ 64 + 1442695040888963407) % 2 ^ 64 = _
      omega

theorem bit_of_byteOf_eq_zero {state : UInt64} (h : byteOf state = 0) :
    state.toNat / 2 ^ 40 % 2 = 0 := by
  have hbyte := congrArg UInt8.toNat h
  rw [byteOf, UInt64.toNat_toUInt8, UInt64.toNat_shiftRight, Nat.shiftRight_eq_div_pow] at hbyte
  change state.toNat / 2 ^ 40 % 2 ^ 8 = 0 at hbyte
  omega

/-- Not all bytes of the stream are zero. -/
theorem exists_byteOf_ne_zero (state : UInt64) :
    byteOf (step state) ≠ 0 ∨ byteOf (step^[2 ^ 40 + 1] state) ≠ 0 := by
  by_contra hzero
  rw [not_or, not_not, not_not, Function.iterate_succ_apply] at hzero
  have hfirst := bit_of_byteOf_eq_zero hzero.1
  have hlater := bit_of_byteOf_eq_zero hzero.2
  rw [toNat_iterate_step] at hlater
  have hflip := iterate_affine_flips (a := 6364136223846793005) (c := 1442695040888963407)
    (by decide) (by decide) 40 (step state).toNat
  omega

end Lcg

/-! ## The loop -/

namespace RlncEncoder

/-- The coefficients are the next bytes of the stream. -/
theorem drawCoeffs_eq (n : Nat) (rng : Lcg) : drawCoeffs n rng =
    ((List.range n).map fun i => Lcg.byteOf (Lcg.step^[i + 1] rng.state),
      ⟨Lcg.step^[n] rng.state⟩) := by
  induction n generalizing rng with
  | zero => rfl
  | succ n ih =>
      -- for an arbitrary map, so that the constants of the stream are not computed with
      have hstream : ∀ (f : UInt64 → UInt64) (g : UInt64 → UInt8) (s : UInt64),
          g (f s) :: (List.range n).map (fun i => g (f^[i + 1] (f s))) =
            (List.range (n + 1)).map fun i => g (f^[i + 1] s) := by
        intro f g s
        rw [List.range_succ_eq_map, List.map_cons, List.map_map]
        rfl
      rw [drawCoeffs, Lcg.nextU8_eq]
      dsimp only
      rw [ih, hstream, Function.iterate_succ_apply]

/-- A loop that has not ended has seen only zeros. -/
theorem byteOf_of_resample_eq_none {k tries : Nat} {rng : Lcg} (h : resample k tries rng = none)
    {i : Nat} (hi : i < tries * k) : Lcg.byteOf (Lcg.step^[i + 1] rng.state) = 0 := by
  induction tries generalizing rng i with
  | zero => omega
  | succ tries ih =>
      rw [resample, drawCoeffs_eq] at h
      dsimp only at h
      split_ifs at h with hany
      rcases Nat.lt_or_ge i k with hlt | hge
      · by_contra hne
        apply hany
        rw [List.any_eq_true]
        exact ⟨_, List.mem_map_of_mem (List.mem_range.mpr hlt), decide_eq_true hne⟩
      · rw [Nat.succ_mul] at hi
        have hrest := ih h (i := i - k) (by omega)
        have hsum : i - k + 1 + k = i + 1 := by omega
        rwa [← Function.iterate_add_apply, hsum] at hrest

theorem any_of_resample {k tries : Nat} {rng rng' : Lcg} {coeffs : List UInt8}
    (h : resample k tries rng = some (coeffs, rng')) : ∃ c ∈ coeffs, c ≠ 0 := by
  induction tries generalizing rng with
  | zero => cases h
  | succ tries ih =>
      rw [resample] at h
      dsimp only at h
      split_ifs at h with hany
      · cases h
        obtain ⟨c, hc, hne⟩ := List.any_eq_true.mp hany
        exact ⟨c, hc, of_decide_eq_true hne⟩
      · exact ih h

/-- The loop of `code` ends, with a packet that has a coefficient other than zero. -/
def Ends (enc : RlncEncoder) : Prop :=
  ∃ tries packet enc', enc.code tries = some (packet, enc') ∧ ∃ c ∈ packet.coeffs, c ≠ 0

/-- The loop ends exactly where there is something to draw. -/
theorem ends_iff (enc : RlncEncoder) : enc.Ends ↔ 0 < enc.k := by
  constructor
  · rintro ⟨tries, packet, enc', hcode, c, hc, -⟩
    rw [code, Option.map_eq_some_iff] at hcode
    obtain ⟨⟨coeffs, rng⟩, hdraw, hpacket⟩ := hcode
    cases hpacket
    rw [← length_resample hdraw]
    exact List.length_pos_of_mem hc
  · intro hk
    cases hdraw : resample enc.k (2 ^ 40 + 1) enc.rng with
    | none =>
        have hbound : 2 ^ 40 + 1 ≤ (2 ^ 40 + 1) * enc.k := Nat.le_mul_of_pos_right _ hk
        have hzero := fun i hi => byteOf_of_resample_eq_none hdraw (i := i) hi
        rcases Lcg.exists_byteOf_ne_zero enc.rng.state with hfirst | hlater
        · exact absurd (hzero 0 (by omega)) hfirst
        · exact absurd (hzero (2 ^ 40) (by omega)) hlater
    | some drawn =>
        obtain ⟨coeffs, rng⟩ := drawn
        refine ⟨2 ^ 40 + 1, ⟨coeffs, enc.combine coeffs⟩, { enc with rng }, ?_,
          any_of_resample hdraw⟩
        rw [code, hdraw]
        rfl

/-- The states of an encoder after earlier packets. -/
inductive Reached (start : RlncEncoder) : RlncEncoder → Prop
  | start : Reached start start
  | code {enc enc' : RlncEncoder} {tries : Nat} {packet : CodedPacket} (before : Reached start enc)
      (call : enc.code tries = some (packet, enc')) : Reached start enc'
  | codeSparse {enc : RlncEncoder} (before : Reached start enc) (degree : Nat) :
      Reached start (enc.codeSparse degree).2

theorem Reached.k_eq {start enc : RlncEncoder} (h : start.Reached enc) : enc.k = start.k := by
  induction h with
  | start => rfl
  | code _ call ih =>
      rw [RlncEncoder.code, Option.map_eq_some_iff] at call
      obtain ⟨_, -, hnext⟩ := call
      cases hnext
      exact ih
  | codeSparse _ _ ih => exact ih

end RlncEncoder

/-! ## Groups -/

namespace HierEncoder

/-- A group has an outer symbol exactly when its own index is one. -/
theorem group_k_pos_iff (enc : HierEncoder) {g gi : Nat} (hgi : gi < g) (seed : UInt64) :
    0 < (enc.group g seed gi).k ↔ gi < enc.n := by
  have hk : (enc.group g seed gi).k = (enc.owned g gi).length := List.length_map _
  rw [hk, List.length_pos_iff_exists_mem]
  constructor
  · rintro ⟨i, hi⟩
    rw [owned, List.mem_filter, List.mem_range, decide_eq_true_eq] at hi
    have hle := Nat.mod_le i g
    omega
  · intro hlt
    refine ⟨gi, ?_⟩
    rw [owned, List.mem_filter, List.mem_range, decide_eq_true_eq]
    exact ⟨hlt, Nat.mod_eq_of_lt hgi⟩

/-- Whatever packets were made before, the loop of a group ends exactly when the group owns an
outer symbol; for all groups that is the case exactly when there are not more groups than outer
symbols. -/
theorem code_ends_iff (enc : HierEncoder) (g : Nat) (seed : UInt64) :
    ((∀ group ∈ enc.intoGroups g seed, ∀ e, group.2.Reached e → e.Ends) ↔ g ≤ enc.n) ∧
      ∀ gi < g, ∀ e, (enc.group g seed gi).Reached e → (e.Ends ↔ gi < enc.n) := by
  have hgroup : ∀ gi < g, ∀ e, (enc.group g seed gi).Reached e → (e.Ends ↔ gi < enc.n) := by
    intro gi hgi e he
    rw [RlncEncoder.ends_iff, he.k_eq, enc.group_k_pos_iff hgi seed]
  refine ⟨⟨?_, ?_⟩, hgroup⟩
  · intro hall
    by_contra hmore
    have hlast : g - 1 < g := by omega
    have hmem : (enc.owned g (g - 1), enc.group g seed (g - 1)) ∈ enc.intoGroups g seed :=
      List.mem_map.mpr ⟨g - 1, List.mem_range.mpr hlast, rfl⟩
    have hends := hall _ hmem _ .start
    rw [hgroup (g - 1) hlast _ .start] at hends
    omega
  · intro hle group hmem e he
    obtain ⟨gi, hgi, rfl⟩ := List.mem_map.mp hmem
    rw [List.mem_range] at hgi
    exact (hgroup gi hgi e he).mpr (by omega)

/-- Four groups for three outer symbols. -/
theorem fourth_group_never_ends : ∃ enc, HierEncoder.new [[5], [7]] 2 1 1 = .ok enc ∧
    ∃ group ∈ enc.intoGroups 4 0, ¬ group.2.Ends := by
  have hnew : HierEncoder.new [[5], [7]] 2 1 1 = .ok ⟨[[5], [7], [240]], 2, 3, 1⟩ := by
    decide +kernel
  refine ⟨_, hnew, (_, HierEncoder.group _ 4 0 3), List.mem_map.mpr ⟨3, by decide, rfl⟩, ?_⟩
  rw [RlncEncoder.ends_iff, group_k_pos_iff _ (by decide)]
  decide

end HierEncoder

end Dlr.Coding
