import Dlr.Coding.HomoHash
import Mathlib.Data.ZMod.Basic
import Mathlib.GroupTheory.OrderOfElement
import Mathlib.Tactic.NormNum.Prime

/-!
# Changes of one coefficient

The hash is a power of one generator, whose order is exactly the prime `Q`. So two vectors have
one hash exactly when their exponents agree modulo `Q`, and a change of coordinate `i` moves the
exponent by a multiple of `i + 1`.
-/

namespace Dlr.Coding.HomoHash

/-! ## The order of the generator -/

theorem prime_Q : Nat.Prime Q := by
  norm_num [Q]

theorem orderOf_subgroupGen : orderOf (subgroupGen : ZMod P) = Q := by
  have : Fact Q.Prime := ⟨prime_Q⟩
  obtain ⟨hne, hpow⟩ := subgroupGen_order
  apply orderOf_eq_prime
  · rw [← Nat.cast_pow, ← Nat.cast_one, ZMod.natCast_eq_natCast_iff', hpow]
    rfl
  · intro hone
    rw [← Nat.cast_one, ZMod.natCast_eq_natCast_iff', Nat.mod_eq_of_lt subgroupGen_lt] at hone
    exact hne hone

/-- Powers of the generator are equal only where their exponents agree modulo the order. -/
theorem genPow_eq_iff {m n : Nat} : genPow m = genPow n ↔ m ≡ n [MOD Q] := by
  refine ⟨fun h => ?_, genPow_congr⟩
  have hpow : (subgroupGen : ZMod P) ^ Q = 1 := by
    rw [← orderOf_subgroupGen]
    exact pow_orderOf_eq_one _
  set u : (ZMod P)ˣ := Units.ofPowEqOne _ Q hpow prime_Q.ne_zero with hu
  have horder : orderOf u = Q := by
    rw [← orderOf_units, hu]
    exact orderOf_subgroupGen
  have hcast : u ^ m = u ^ n := by
    apply Units.ext
    have heq := (ZMod.natCast_eq_natCast_iff' (subgroupGen ^ m) (subgroupGen ^ n) P).mpr h
    rw [Nat.cast_pow, Nat.cast_pow] at heq
    exact heq
  rwa [pow_eq_pow_iff_modEq, horder] at hcast

namespace HomomorphicHash

/-! ## Exponents -/

/-- A change of one coordinate moves the exponent by the multiple of its place. -/
theorem exponentFrom_set (s : Nat) {c : List UInt32} {i : Nat} (h : i < c.length) (a : UInt32) :
    exponentFrom s (c.set i a) + (s + i + 1) * (c.getD i 0).toNat =
      exponentFrom s c + (s + i + 1) * a.toNat := by
  induction c generalizing s i with
  | nil => cases h
  | cons ci rest ih =>
      cases i with
      | zero =>
          rw [List.set_cons_zero, exponentFrom_cons, exponentFrom_cons, List.getD_cons_zero]
          ring
      | succ i =>
          have hrest := ih (s + 1) (Nat.lt_of_succ_lt_succ h)
          have hplace : s + (i + 1) + 1 = s + 1 + i + 1 := by omega
          rw [List.set_cons_succ, exponentFrom_cons, exponentFrom_cons, List.getD_cons_succ, hplace,
            Nat.add_assoc _ (exponentFrom _ _), hrest, ← Nat.add_assoc]

theorem exponentFrom_replicate (s k : Nat) : exponentFrom s (List.replicate k 0) = 0 := by
  induction k generalizing s with
  | zero => rfl
  | succ k ih =>
      rw [List.replicate_succ, exponentFrom_cons, ih]
      rfl

/-- The vector that selects one source symbol. -/
def unitVector (k i : Nat) : List UInt32 := (List.replicate k 0).set i 1

theorem length_unitVector (k i : Nat) : (unitVector k i).length = k := by
  rw [unitVector, List.length_set, List.length_replicate]

theorem exponentFrom_unitVector {k i : Nat} (h : i < k) :
    exponentFrom 0 (unitVector k i) = i + 1 := by
  have hlen : i < (List.replicate k (0 : UInt32)).length := by rwa [List.length_replicate]
  have hset := exponentFrom_set 0 hlen 1
  have hzero : (List.replicate k (0 : UInt32)).getD i 0 = 0 := by
    rw [List.getD_eq_getElem _ _ hlen, List.getElem_replicate]
  rw [hzero, exponentFrom_replicate] at hset
  rw [unitVector]
  simpa using hset

/-- The hashes of the unit vectors. -/
def unitHashes (k : Nat) : Except HomoHashError (List Nat) :=
  ((List.range k).map (unitVector k)).mapM (new k).hash

theorem unitHashes_eq (k : Nat) :
    unitHashes k = .ok (((List.range k).map (unitVector k)).map fun c =>
      genPow (exponentFrom 0 c)) := by
  apply mapM_hash_new
  intro c hc
  obtain ⟨i, -, rfl⟩ := List.mem_map.mp hc
  exact length_unitVector k i

/-- The combination of the unit vectors with the coordinates of a vector has its exponent. -/
theorem exponentOf_zip_unitVectors {k : Nat} {c : List UInt32} (h : c.length = k) :
    exponentOf (c.zip ((List.range k).map (unitVector k))) = exponentFrom 0 c := by
  rw [exponentOf, exponentFrom]
  congr 1
  apply List.ext_getElem
  · simp [h]
  · intro i hi hi'
    rw [List.length_map, List.length_range] at hi'
    simp only [List.getElem_map, List.getElem_zip, List.getElem_range]
    rw [exponentFrom_unitVector (by omega), List.getD_eq_getElem _ _ hi', Nat.zero_add,
      Nat.mul_comm]

/-- The verification compares the hash of the coefficients with the expected one. -/
theorem verifyCoded_unitHashes {k : Nat} {c : List UInt32} (h : c.length = k) (expected : Nat) :
    (new k).verifyCoded (((List.range k).map (unitVector k)).map fun c =>
      genPow (exponentFrom 0 c)) c expected =
      .ok (genPow (exponentFrom 0 c) == expected) := by
  have hlen : ¬ c.length ≠ (((List.range k).map (unitVector k)).map fun c =>
      genPow (exponentFrom 0 c)).length := by
    simp [h]
  rw [verifyCoded, if_neg hlen, combineMany_new, exponentOf_zip_unitVectors h]

/-! ## Detection -/

/-- Two vectors of field elements that differ in coordinate `i` only. -/
structure Tampered (k i : Nat) (c c' : List UInt32) : Prop where
  length : c.length = k
  length' : c'.length = k
  reduced : ∀ x ∈ c, x.toNat < Q
  reduced' : ∀ x ∈ c', x.toNat < Q
  lt : i < k
  differ : c.getD i 0 ≠ c'.getD i 0
  agree : ∀ j, j ≠ i → c.getD j 0 = c'.getD j 0

/-- The hashes of the vectors differ, and the second is not verified against the hash of the
first. -/
def Detected (k : Nat) (c c' : List UInt32) : Prop :=
  ∃ h h' hashes, (new k).hash c = .ok h ∧ (new k).hash c' = .ok h' ∧ h ≠ h' ∧
    unitHashes k = .ok hashes ∧ (new k).verifyCoded hashes c' h = .ok false

theorem Tampered.eq_set {k i : Nat} {c c' : List UInt32} (h : Tampered k i c c') :
    c' = c.set i (c'.getD i 0) := by
  apply List.ext_getElem
  · rw [List.length_set, h.length, h.length']
  · intro j hj hj'
    rw [List.length_set] at hj'
    rw [List.getElem_set]
    split_ifs with hij
    · subst hij
      exact (List.getD_eq_getElem _ _ hj).symm
    · have hagree := h.agree j (Ne.symm hij)
      rw [List.getD_eq_getElem _ _ hj', List.getD_eq_getElem _ _ hj] at hagree
      exact hagree.symm

theorem detected_iff_not_modEq {k : Nat} {c c' : List UInt32} (h : c.length = k)
    (h' : c'.length = k) :
    Detected k c c' ↔ ¬ exponentFrom 0 c ≡ exponentFrom 0 c' [MOD Q] := by
  rw [← genPow_eq_iff, Detected, hash_new h, hash_new h', unitHashes_eq]
  constructor
  · rintro ⟨_, _, _, heq, heq', hne, -, -⟩
    cases heq
    cases heq'
    exact hne
  · intro hne
    refine ⟨_, _, _, rfl, rfl, hne, rfl, ?_⟩
    rw [verifyCoded_unitHashes h', beq_false_of_ne (Ne.symm hne)]

/-- A change is detected exactly where the generator of its coordinate is not one. -/
theorem Tampered.detected_iff {k i : Nat} {c c' : List UInt32} (h : Tampered k i c c') :
    Detected k c c' ↔ ¬ Q ∣ i + 1 := by
  have hi : i < c.length := h.length ▸ h.lt
  have hi' : i < c'.length := h.length' ▸ h.lt
  have hset := exponentFrom_set 0 hi (c'.getD i 0)
  rw [← h.eq_set, Nat.zero_add] at hset
  rw [detected_iff_not_modEq h.length h.length', not_iff_not]
  -- the exponents differ by what the coordinate contributes
  have hshift : exponentFrom 0 c ≡ exponentFrom 0 c' [MOD Q] ↔
      (i + 1) * (c.getD i 0).toNat ≡ (i + 1) * (c'.getD i 0).toNat [MOD Q] := by
    have hequal : exponentFrom 0 c' + (i + 1) * (c.getD i 0).toNat ≡
        exponentFrom 0 c + (i + 1) * (c'.getD i 0).toNat [MOD Q] := by rw [hset]
    constructor
    · intro hmod
      exact hmod.symm.add_left_cancel hequal
    · intro hmod
      exact (hmod.add_right_cancel hequal).symm
  rw [hshift]
  constructor
  · intro hmod
    by_contra hdvd
    have hcop : Nat.Coprime Q (i + 1) := (Nat.Prime.coprime_iff_not_dvd prime_Q).mpr hdvd
    have heq := Nat.ModEq.cancel_left_of_coprime hcop hmod
    have hlt : (c.getD i 0).toNat < Q := by
      rw [List.getD_eq_getElem _ _ hi]
      exact h.reduced _ (List.getElem_mem hi)
    have hlt' : (c'.getD i 0).toNat < Q := by
      rw [List.getD_eq_getElem _ _ hi']
      exact h.reduced' _ (List.getElem_mem hi')
    exact h.differ (UInt32.toNat_inj.mp (heq.eq_of_lt_of_lt hlt hlt'))
  · intro hdvd
    have hzero : ∀ x, (i + 1) * x ≡ 0 [MOD Q] := fun x =>
      Nat.modEq_zero_iff_dvd.mpr (hdvd.mul_right x)
    exact (hzero _).trans (hzero _).symm

/-- The zero vector and a unit vector differ in one coordinate. -/
theorem tampered_unit {k i : Nat} (h : i < k) :
    Tampered k i (List.replicate k 0) (unitVector k i) := by
  have hQ : 1 < Q := by decide
  refine ⟨List.length_replicate, length_unitVector k i, ?_, ?_, h, ?_, ?_⟩
  · intro x hx
    rw [List.eq_of_mem_replicate hx]
    exact hQ.le
  · intro x hx
    rcases List.mem_or_eq_of_mem_set hx with hmem | rfl
    · rw [List.eq_of_mem_replicate hmem]
      exact hQ.le
    · exact hQ
  · simp [unitVector, h]
  · intro j hj
    simp [unitVector, List.getElem?_set_ne (Ne.symm hj)]

/-- Every change of one coefficient is detected exactly where the generation is smaller than the
order of the field: the generator of coordinate `i` is one where `Q` divides `i + 1`. -/
theorem tampering_detected_iff (k : Nat) :
    ((∀ i c c', Tampered k i c c' → Detected k c c') ↔ k < Q) ∧
      ∀ i c c', Tampered k i c c' → (Detected k c c' ↔ ¬ Q ∣ i + 1) := by
  refine ⟨⟨?_, ?_⟩, fun i c c' h => h.detected_iff⟩
  · intro hall
    by_contra hle
    have hlast : Q - 1 < k := by
      have hQ : 0 < Q := by decide
      omega
    have hdetected := hall _ _ _ (tampered_unit hlast)
    rw [(tampered_unit hlast).detected_iff] at hdetected
    exact hdetected (by decide)
  · intro hk i c c' h
    rw [h.detected_iff]
    exact Nat.not_dvd_of_pos_of_lt (Nat.succ_pos i) (Nat.lt_of_le_of_lt h.lt hk)

/-- The last coordinate of a generation as large as the field. -/
theorem last_coordinate_undetected :
    Tampered 1321 1320 (List.replicate 1321 0) (unitVector 1321 1320) ∧
      ¬ Detected 1321 (List.replicate 1321 0) (unitVector 1321 1320) := by
  have h : Tampered 1321 1320 (List.replicate 1321 0) (unitVector 1321 1320) :=
    tampered_unit (by decide)
  refine ⟨h, ?_⟩
  rw [h.detected_iff]
  decide

end HomomorphicHash

end Dlr.Coding.HomoHash
