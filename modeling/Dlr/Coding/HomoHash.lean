import Dlr.Lib.FinMap
import Mathlib.Algebra.BigOperators.Group.List.Basic
import Mathlib.Algebra.BigOperators.Ring.List
import Mathlib.Data.List.GetD
import Mathlib.Data.List.Induction
import Mathlib.Data.Nat.ModEq
import Mathlib.Tactic.Ring

/-!
# The homomorphic hash

A coefficient vector is hashed to a product of powers of generators in the multiplicative group
of a Mersenne prime. All generators are powers of one element whose order is the order of the
coding field, so the hash of a linear combination over the field is the combination of the hashes
in the exponents.

## Implementation notes

The numbers of the source are 128 bits wide and all products here are of residues, so that no
product leaves them. An exponent has at most 128 bits, which bounds the loop over them. A
generator is found among the first bases: the search over all further ones is bounded by the
modulus.
-/

namespace Dlr.Coding.HomoHash

open Lib

/-- The modulus of the hash, a Mersenne prime. -/
def P : Nat := 1 <<< 61 - 1

/-- The order of the coding field. -/
def Q : Nat := 1321

inductive HomoHashError
  | length (a b : Nat)
  deriving DecidableEq

/-- Mersenne reduction: the high bits count as much as the low ones. -/
def mReduce (x : Nat) : Nat :=
  let lo := x &&& P
  let hi := x >>> 61
  let s := lo + hi
  if s ≥ P then s - P else s

def mulmod (a b : Nat) : Nat := mReduce (a * b)

/-- Square and multiply over the bits of the exponent. -/
def powLoop : Nat → Nat → Nat → Nat → Nat
  | 0, result, _, _ => result
  | fuel + 1, result, base, exp =>
      if exp > 0 then
        powLoop fuel (if exp &&& 1 = 1 then mulmod result base else result) (mulmod base base)
          (exp >>> 1)
      else result

def powmod (base exp p : Nat) : Nat := powLoop 128 1 (base % p) exp

/-- The first base from one on whose power is not one. -/
def searchFrom (exp : Nat) : Nat → Nat → Nat
  | 0, base => powmod base exp P
  | fuel + 1, base =>
      let g := powmod base exp P
      if g ≠ 1 then g else searchFrom exp fuel (base + 1)

/-- A generator of the subgroup of order `Q`. -/
@[irreducible] def subgroupGen : Nat :=
  let exp := (P - 1) / Q
  match ([2, 3, 5, 7, 11, 13, 37, 41, 61].map fun base => powmod base exp P).find? (· ≠ 1) with
  | some g => g
  | none => searchFrom exp P 67

structure HomomorphicHash where
  gens : List Nat
  table : List Nat
  unitIndex : FinMap Nat Nat

/-- The generators of some coordinates, each the last one times `g`. -/
def gensFrom (g : Nat) : Nat → Nat → List Nat
  | 0, _ => []
  | k + 1, acc => mulmod acc g :: gensFrom g k (mulmod acc g)

/-- Some powers of a generator, from `p` on. -/
def powersFrom (gi : Nat) : Nat → Nat → List Nat
  | 0, _ => []
  | n + 1, p => p :: powersFrom gi n (mulmod p gi)

namespace HomomorphicHash

/-- The generators with their rows of powers. A generator that comes again is found under its
last coordinate. -/
def new (k : Nat) : HomomorphicHash where
  gens := gensFrom subgroupGen k 1
  table := (gensFrom subgroupGen k 1).flatMap fun gi => powersFrom gi Q 1
  unitIndex := (gensFrom subgroupGen k 1).zipIdx.foldl (fun m e => m.set e.1 e.2) ∅

/-- The product over the coordinates from `i` on. -/
def hashFrom (hh : HomomorphicHash) : Nat → List UInt32 → Nat → Nat
  | _, [], acc => acc
  | i, ci :: rest, acc =>
      let e := ci.toNat % Q
      hh.hashFrom (i + 1) rest
        (if e ≠ 0 then mulmod acc (hh.table.getD (i * Q + e) 0) else acc)

def hash (hh : HomomorphicHash) (c : List UInt32) : Except HomoHashError Nat :=
  if c.length ≠ hh.gens.length then .error (.length c.length hh.gens.length)
  else .ok (hh.hashFrom 0 c 1)

def combine (a : UInt32) (h₁ : Nat) (b : UInt32) (h₂ : Nat) : Nat :=
  mulmod (powmod h₁ (a.toNat % Q) P) (powmod h₂ (b.toNat % Q) P)

/-- The power of a hash, from the table where the hash is a generator. -/
def power (hh : HomomorphicHash) (h e : Nat) : Nat :=
  match hh.unitIndex.get? h with
  | some i => hh.table.getD (i * Q + e) 0
  | none => powmod h e P

def combineMany (hh : HomomorphicHash) (coeffs : List UInt32) (hashes : List Nat) : Nat :=
  (coeffs.zip hashes).foldl (fun acc p =>
    let e := p.1.toNat % Q
    if e ≠ 0 then mulmod acc (hh.power p.2 e) else acc) 1

/-- Whether a coefficient vector belongs to a hash, given the hashes of the unit vectors. -/
def verifyCoded (hh : HomomorphicHash) (sourceHashes : List Nat) (codedCoeffs : List UInt32)
    (expected : Nat) : Except HomoHashError Bool :=
  if codedCoeffs.length ≠ sourceHashes.length then
    .error (.length codedCoeffs.length sourceHashes.length)
  else .ok (hh.combineMany codedCoeffs sourceHashes == expected)

end HomomorphicHash

/-! ## Arithmetic modulo the prime -/

theorem mReduce_mod (x : Nat) : mReduce x % P = x % P := by
  have hlo : x &&& P = x % 2 ^ 61 := Nat.and_two_pow_sub_one_eq_mod x 61
  have hhi : x >>> 61 = x / 2 ^ 61 := Nat.shiftRight_eq_div_pow x 61
  have hP : P = 2 ^ 61 - 1 := rfl
  have hsplit : x = (x % 2 ^ 61 + x / 2 ^ 61) + P * (x / 2 ^ 61) := by
    rw [hP]
    omega
  have hsum : (x % 2 ^ 61 + x / 2 ^ 61) % P = x % P := by
    conv_rhs => rw [hsplit, Nat.add_mul_mod_self_left]
  unfold mReduce
  rw [hlo, hhi]
  dsimp only
  split_ifs with hge
  · rw [← hsum, ← Nat.mod_eq_sub_mod hge]
  · exact hsum

/-- The reduction of a product of residues is its residue. -/
theorem mReduce_mul {a b : Nat} (ha : a < P) (hb : b < P) : mReduce (a * b) = a * b % P := by
  have hlt : mReduce (a * b) < P := by
    have hP : P = 2 ^ 61 - 1 := rfl
    have hmul : a * b ≤ (P - 1) * (P - 1) := Nat.mul_le_mul (by omega) (by omega)
    have hlo : (a * b) &&& P = a * b % 2 ^ 61 := Nat.and_two_pow_sub_one_eq_mod (a * b) 61
    have hhi : (a * b) >>> 61 = a * b / 2 ^ 61 := Nat.shiftRight_eq_div_pow (a * b) 61
    unfold mReduce
    rw [hlo, hhi]
    dsimp only
    rw [hP] at hmul ⊢
    split_ifs <;> omega
  rw [← mReduce_mod, Nat.mod_eq_of_lt hlt]

theorem mulmod_eq {a b : Nat} (ha : a < P) (hb : b < P) : mulmod a b = a * b % P :=
  mReduce_mul ha hb

theorem P_pos : 0 < P := by decide

theorem powLoop_eq {fuel result base exp : Nat} (hexp : exp < 2 ^ fuel) (hresult : result < P)
    (hbase : base < P) : powLoop fuel result base exp = result * base ^ exp % P := by
  induction fuel generalizing result base exp with
  | zero =>
      have hzero : exp = 0 := Nat.lt_one_iff.mp hexp
      rw [powLoop, hzero, pow_zero, Nat.mul_one, Nat.mod_eq_of_lt hresult]
  | succ fuel ih =>
      have hhalf : exp / 2 < 2 ^ fuel := by
        rw [Nat.pow_succ] at hexp
        omega
      have hshift : exp >>> 1 = exp / 2 := Nat.shiftRight_eq_div_pow exp 1
      have hsquare : (base * base % P) ^ (exp / 2) ≡ base ^ (2 * (exp / 2)) [MOD P] := by
        rw [pow_mul, pow_two]
        exact (Nat.mod_modEq _ _).pow _
      rw [powLoop, hshift, mulmod_eq hbase hbase, mulmod_eq hresult hbase, Nat.and_one_is_mod]
      split_ifs with hpos hodd
      · rw [ih hhalf (Nat.mod_lt _ P_pos) (Nat.mod_lt _ P_pos)]
        have hexp' : exp = 1 + 2 * (exp / 2) := by omega
        calc
          result * base % P * (base * base % P) ^ (exp / 2)
            ≡ result * base * base ^ (2 * (exp / 2)) [MOD P] :=
              (Nat.mod_modEq _ _).mul hsquare
          _ = result * base ^ (1 + 2 * (exp / 2)) := by ring
          _ = result * base ^ exp := by rw [← hexp']
      · rw [ih hhalf hresult (Nat.mod_lt _ P_pos)]
        have hexp' : exp = 2 * (exp / 2) := by omega
        calc
          result * (base * base % P) ^ (exp / 2)
            ≡ result * base ^ (2 * (exp / 2)) [MOD P] := (Nat.ModEq.refl _).mul hsquare
          _ = result * base ^ exp := by rw [← hexp']
      · have hzero : exp = 0 := by omega
        rw [hzero, pow_zero, Nat.mul_one, Nat.mod_eq_of_lt hresult]

theorem powmod_eq {base exp : Nat} (hexp : exp < 2 ^ 128) :
    powmod base exp P = base ^ exp % P := by
  have hone : 1 < P := by decide
  rw [powmod, powLoop_eq hexp hone (Nat.mod_lt _ P_pos), Nat.one_mul, ← Nat.pow_mod]

/-! ## Powers of the generator -/

theorem subgroupGen_lt : subgroupGen < P := by
  decide +kernel

/-- Base three gives a generator, and its order divides the order of the field. -/
theorem subgroupGen_order : subgroupGen ≠ 1 ∧ subgroupGen ^ Q % P = 1 := by
  have hpow : powmod subgroupGen Q P = 1 := by decide +kernel
  rw [powmod_eq (by decide)] at hpow
  exact ⟨by decide +kernel, hpow⟩

/-- The residue of a power of the generator. -/
def genPow (n : Nat) : Nat := subgroupGen ^ n % P

theorem genPow_lt (n : Nat) : genPow n < P := Nat.mod_lt _ P_pos

theorem genPow_zero : genPow 0 = 1 := by
  rw [genPow, pow_zero]
  rfl

/-- Only the exponent modulo the order matters. -/
theorem genPow_congr {m n : Nat} (h : m ≡ n [MOD Q]) : genPow m = genPow n := by
  have hmod : ∀ n, genPow n = genPow (n % Q) := by
    intro n
    have hone : subgroupGen ^ Q ≡ 1 [MOD P] := by
      have horder := subgroupGen_order.2
      rw [Nat.ModEq, horder]
      rfl
    change subgroupGen ^ n ≡ subgroupGen ^ (n % Q) [MOD P]
    calc
      subgroupGen ^ n = (subgroupGen ^ Q) ^ (n / Q) * subgroupGen ^ (n % Q) := by
        rw [← pow_mul, ← pow_add, Nat.div_add_mod]
      _ ≡ 1 ^ (n / Q) * subgroupGen ^ (n % Q) [MOD P] := (hone.pow _).mul_right _
      _ = subgroupGen ^ (n % Q) := by rw [one_pow, Nat.one_mul]
  rw [hmod m, hmod n, h]

theorem mulmod_genPow (m n : Nat) : mulmod (genPow m) (genPow n) = genPow (m + n) := by
  rw [mulmod_eq (genPow_lt m) (genPow_lt n), genPow, genPow, ← Nat.mul_mod, ← pow_add, genPow]

theorem powmod_genPow {e : Nat} (he : e < Q) (m : Nat) :
    powmod (genPow m) e P = genPow (m * e) := by
  have hexp : e < 2 ^ 128 := he.trans (by decide)
  rw [powmod_eq hexp, genPow, ← Nat.pow_mod, ← pow_mul, genPow]

theorem genPow_one : genPow 1 = subgroupGen := by
  rw [genPow, pow_one, Nat.mod_eq_of_lt subgroupGen_lt]

theorem genPow_mul (m e : Nat) : genPow (m * e) = genPow m ^ e % P := by
  rw [genPow, genPow, ← Nat.pow_mod, ← pow_mul]

/-- A factor is left out where its exponent vanishes modulo the order. -/
theorem mulmod_genPow_mod {x m a : Nat} (hx : x = genPow (m * (a % Q))) (n : Nat) :
    (if a % Q ≠ 0 then mulmod (genPow n) x else genPow n) = genPow (n + m * a) := by
  have hmod : m * (a % Q) ≡ m * a [MOD Q] := (Nat.mod_modEq _ _).mul_left _
  split_ifs with hzero
  · rw [hx, mulmod_genPow]
    exact genPow_congr (hmod.add_left n)
  · rw [not_not.mp hzero, Nat.mul_zero] at hmod
    exact genPow_congr (hmod.add_left n)

/-! ## The tables -/

theorem gensFrom_eq (k n : Nat) :
    gensFrom subgroupGen k (genPow n) = (List.range' (n + 1) k).map genPow := by
  induction k generalizing n with
  | zero => rfl
  | succ k ih =>
      have hnext : mulmod (genPow n) subgroupGen = genPow (n + 1) := by
        rw [← mulmod_genPow, genPow_one]
      rw [gensFrom, hnext, ih, List.range'_succ, List.map_cons]

theorem powersFrom_eq (m n j : Nat) :
    powersFrom (genPow m) n (genPow (m * j)) =
      (List.range' j n).map fun e => genPow (m * e) := by
  induction n generalizing j with
  | zero => rfl
  | succ n ih =>
      have hnext : mulmod (genPow (m * j)) (genPow m) = genPow (m * (j + 1)) := by
        rw [mulmod_genPow, Nat.mul_succ]
      rw [powersFrom, hnext, ih, List.range'_succ, List.map_cons]

theorem getD_flatMap {α β : Type*} {f : α → List β} {q : Nat} (hf : ∀ a, (f a).length = q)
    {l : List α} {i e : Nat} {a : α} (ha : l[i]? = some a) (he : e < q) (d : β) :
    (l.flatMap f).getD (i * q + e) d = (f a).getD e d := by
  induction l generalizing i with
  | nil => cases ha
  | cons b rest ih =>
      rw [List.flatMap_cons]
      cases i with
      | zero =>
          cases ha
          rw [Nat.zero_mul, Nat.zero_add, List.getD_append _ _ _ _ (by rwa [hf])]
      | succ i =>
          have hindex : (i + 1) * q + e - (f b).length = i * q + e := by
            rw [hf, Nat.succ_mul]
            omega
          have hle : (f b).length ≤ (i + 1) * q + e := by
            rw [hf, Nat.succ_mul]
            omega
          rw [List.getD_append_right _ _ _ _ hle, hindex]
          exact ih ha

namespace HomomorphicHash

theorem gens_new (k : Nat) : (new k).gens = (List.range' 1 k).map genPow := by
  have hgens := gensFrom_eq k 0
  rw [genPow_zero] at hgens
  exact hgens

theorem length_gens_new (k : Nat) : (new k).gens.length = k := by
  rw [gens_new, List.length_map, List.length_range']

theorem gens_new_getElem? {k i : Nat} (h : i < k) : (new k).gens[i]? = some (genPow (i + 1)) := by
  rw [gens_new, List.getElem?_map, List.getElem?_range' h, Option.map_some]
  congr 2
  omega

/-- The table has the powers of the generators. -/
theorem table_new_getD {k i e : Nat} (hi : i < k) (he : e < Q) :
    (new k).table.getD (i * Q + e) 0 = genPow ((i + 1) * e) := by
  have hlength : ∀ gi, (powersFrom gi Q 1).length = Q := by
    have hall : ∀ gi n p, (powersFrom gi n p).length = n := by
      intro gi n
      induction n with
      | zero => exact fun p => rfl
      | succ n ih => exact fun p => congrArg Nat.succ (ih _)
    exact fun gi => hall gi Q 1
  have hrow := powersFrom_eq (i + 1) Q 0
  rw [Nat.mul_zero, genPow_zero] at hrow
  have hget : (new k).table.getD (i * Q + e) 0 = (powersFrom (genPow (i + 1)) Q 1).getD e 0 :=
    getD_flatMap hlength (gens_new_getElem? hi) he 0
  have hin : e < ((List.range' 0 Q).map fun e => genPow ((i + 1) * e)).length := by
    rwa [List.length_map, List.length_range']
  rw [hget, hrow, List.getD_eq_getElem _ _ hin, List.getElem_map, List.getElem_range']
  congr 2
  omega

/-- A hash is found under a coordinate whose generator it is. -/
theorem of_get?_unitIndex {gens : List Nat} {h i : Nat}
    (hget : (gens.zipIdx.foldl (fun (m : FinMap Nat Nat) e => m.set e.1 e.2) ∅).get? h = some i) :
    gens[i]? = some h := by
  induction gens using List.reverseRecOn with
  | nil =>
      rw [List.zipIdx_nil, List.foldl_nil, FinMap.get?_empty] at hget
      cases hget
  | append_singleton gens g ih =>
      rw [List.zipIdx_append, List.foldl_append] at hget
      simp only [List.zipIdx_cons, List.zipIdx_nil, List.foldl_cons, List.foldl_nil,
        Nat.zero_add, FinMap.get?_set] at hget
      split_ifs at hget with hg
      · cases hget
        rw [hg, List.getElem?_append_right (le_refl _), Nat.sub_self]
        rfl
      · have hold := ih hget
        have hlt := (List.getElem?_eq_some_iff.mp hold).1
        rwa [List.getElem?_append_left hlt]

theorem lt_of_get?_unitIndex {k h i : Nat} (hget : (new k).unitIndex.get? h = some i) :
    i < k ∧ h = genPow (i + 1) := by
  have hgen : (new k).gens[i]? = some h := of_get?_unitIndex hget
  have hlt := (List.getElem?_eq_some_iff.mp hgen).1
  rw [length_gens_new] at hlt
  rw [gens_new_getElem? hlt] at hgen
  exact ⟨hlt, (Option.some.inj hgen).symm⟩

/-- Table and exponentiation give the same power of a hash. -/
theorem power_new {k e : Nat} (he : e < Q) (m : Nat) :
    (new k).power (genPow m) e = genPow (m * e) := by
  unfold power
  cases hget : (new k).unitIndex.get? (genPow m) with
  | none => exact powmod_genPow he m
  | some i =>
      obtain ⟨hi, hgen⟩ := lt_of_get?_unitIndex hget
      rw [genPow_mul, hgen, ← genPow_mul]
      exact table_new_getD hi he

/-! ## Hashes as exponents -/

/-- The exponent of a vector whose first coordinate is `i`. -/
def exponentFrom (i : Nat) (c : List UInt32) : Nat :=
  ((List.range c.length).map fun j => (i + j + 1) * (c.getD j 0).toNat).sum

theorem exponentFrom_cons (i : Nat) (ci : UInt32) (rest : List UInt32) :
    exponentFrom i (ci :: rest) = (i + 1) * ci.toNat + exponentFrom (i + 1) rest := by
  rw [exponentFrom, List.length_cons, List.range_succ_eq_map, List.map_cons, List.sum_cons,
    List.map_map, exponentFrom]
  congr 2
  apply List.map_congr_left
  intro j _
  rw [Function.comp_apply, List.getD_cons_succ]
  congr 1
  omega

theorem hashFrom_new {k : Nat} (c : List UInt32) {i : Nat} (h : i + c.length ≤ k) (n : Nat) :
    (new k).hashFrom i c (genPow n) = genPow (n + exponentFrom i c) := by
  induction c generalizing i n with
  | nil => rfl
  | cons ci rest ih =>
      rw [List.length_cons] at h
      have htable := table_new_getD (i := i) (k := k) (by omega)
        (Nat.mod_lt ci.toNat (show 0 < Q by decide))
      rw [hashFrom, mulmod_genPow_mod htable, ih (by omega), exponentFrom_cons, Nat.add_assoc]

theorem hash_new {k : Nat} {c : List UInt32} (h : c.length = k) :
    (new k).hash c = .ok (genPow (exponentFrom 0 c)) := by
  have hlen : ¬ c.length ≠ (new k).gens.length := by
    rw [length_gens_new]
    exact not_not.mpr h
  have hhash := hashFrom_new (k := k) c (i := 0) (by omega) 0
  rw [genPow_zero, Nat.zero_add] at hhash
  rw [hash, if_neg hlen, hhash]

theorem mapM_hash_new {k : Nat} {vectors : List (List UInt32)} (h : ∀ c ∈ vectors, c.length = k) :
    vectors.mapM (new k).hash = .ok (vectors.map fun c => genPow (exponentFrom 0 c)) := by
  induction vectors with
  | nil => rfl
  | cons c rest ih =>
      rw [List.mapM_cons, hash_new (h c List.mem_cons_self),
        ih fun d hd => h d (List.mem_cons_of_mem c hd)]
      rfl

/-- The exponent of a combination of vectors. -/
def exponentOf (terms : List (UInt32 × List UInt32)) : Nat :=
  (terms.map fun t => t.1.toNat * exponentFrom 0 t.2).sum

theorem exponentOf_cons (t : UInt32 × List UInt32) (terms : List (UInt32 × List UInt32)) :
    exponentOf (t :: terms) = t.1.toNat * exponentFrom 0 t.2 + exponentOf terms := by
  rw [exponentOf, List.map_cons, List.sum_cons, exponentOf]

theorem foldl_power_new {k : Nat} (terms : List (UInt32 × List UInt32)) (n : Nat) :
    (terms.map fun t => (t.1, genPow (exponentFrom 0 t.2))).foldl (fun acc p =>
      if p.1.toNat % Q ≠ 0 then mulmod acc ((new k).power p.2 (p.1.toNat % Q)) else acc)
      (genPow n) = genPow (n + exponentOf terms) := by
  induction terms generalizing n with
  | nil => rfl
  | cons t rest ih =>
      have hpower := power_new (k := k) (Nat.mod_lt t.1.toNat (show 0 < Q by decide))
        (exponentFrom 0 t.2)
      rw [List.map_cons, List.foldl_cons, mulmod_genPow_mod hpower, ih, exponentOf_cons,
        Nat.mul_comm t.1.toNat, Nat.add_assoc]

theorem combineMany_new (k : Nat) (scalars : List UInt32) (vectors : List (List UInt32)) :
    (new k).combineMany scalars (vectors.map fun c => genPow (exponentFrom 0 c)) =
      genPow (exponentOf (scalars.zip vectors)) := by
  have hfold := foldl_power_new (k := k) (scalars.zip vectors) 0
  rw [genPow_zero, Nat.zero_add] at hfold
  rw [combineMany, List.zip_map_right, ← hfold]
  rfl

theorem combine_genPow (a b : UInt32) (m n : Nat) :
    combine a (genPow m) b (genPow n) = genPow (a.toNat * m + b.toNat * n) := by
  have hQ : 0 < Q := by decide
  have hmod : ∀ x y : Nat, x * (y % Q) ≡ y * x [MOD Q] := by
    intro x y
    rw [Nat.mul_comm y]
    exact (Nat.mod_modEq _ _).mul_left _
  rw [combine, powmod_genPow (Nat.mod_lt _ hQ), powmod_genPow (Nat.mod_lt _ hQ), mulmod_genPow]
  exact genPow_congr ((hmod m a.toNat).add (hmod n b.toNat))

/-! ## Linear combinations -/

/-- The linear combination of vectors of length `k`, each coordinate reduced modulo `Q`. -/
def linearCombination (k : Nat) (scalars : List UInt32) (vectors : List (List UInt32)) :
    List UInt32 :=
  (List.range k).map fun i => UInt32.ofNat
    (((scalars.zip vectors).map fun t => t.1.toNat * (t.2.getD i 0).toNat).sum % Q)

theorem sum_map_modEq {α : Type*} {n : Nat} {l : List α} {f g : α → Nat}
    (h : ∀ a ∈ l, f a ≡ g a [MOD n]) : (l.map f).sum ≡ (l.map g).sum [MOD n] := by
  induction l with
  | nil => rfl
  | cons a rest ih =>
      rw [List.map_cons, List.map_cons, List.sum_cons, List.sum_cons]
      exact (h a List.mem_cons_self).add (ih fun b hb => h b (List.mem_cons_of_mem a hb))

/-- Summing over coordinates and terms in either order gives the exponent. -/
theorem sum_terms_eq {k : Nat} {terms : List (UInt32 × List UInt32)}
    (h : ∀ t ∈ terms, t.2.length = k) :
    ((List.range k).map fun i =>
      (i + 1) * (terms.map fun t => t.1.toNat * (t.2.getD i 0).toNat).sum).sum =
      exponentOf terms := by
  induction terms with
  | nil => simp [exponentOf]
  | cons t rest ih =>
      have hrest := ih fun u hu => h u (List.mem_cons_of_mem t hu)
      have hfirst : ((List.range k).map fun i => (i + 1) * (t.1.toNat * (t.2.getD i 0).toNat)).sum =
          t.1.toNat * exponentFrom 0 t.2 := by
        rw [exponentFrom, h t List.mem_cons_self, ← List.sum_map_mul_left]
        congr 1
        apply List.map_congr_left
        intro i _
        rw [Nat.zero_add]
        ring
      rw [exponentOf_cons, ← hrest, ← hfirst, ← List.sum_map_add]
      congr 1
      apply List.map_congr_left
      intro i _
      rw [List.map_cons, List.sum_cons, Nat.mul_add]

theorem exponentFrom_linearCombination {k : Nat} (scalars : List UInt32)
    {vectors : List (List UInt32)} (h : ∀ c ∈ vectors, c.length = k) :
    exponentFrom 0 (linearCombination k scalars vectors) ≡
      exponentOf (scalars.zip vectors) [MOD Q] := by
  have hterms : ∀ t ∈ scalars.zip vectors, t.2.length = k := fun t ht =>
    h t.2 (List.of_mem_zip ht).2
  have hlen : (linearCombination k scalars vectors).length = k := by
    rw [linearCombination, List.length_map, List.length_range]
  rw [exponentFrom, hlen, ← sum_terms_eq hterms]
  apply sum_map_modEq
  intro i hi
  have hik := List.mem_range.mp hi
  have hsmall : ∀ x : Nat, (UInt32.ofNat (x % Q)).toNat = x % Q := by
    intro x
    have hlt : x % Q < 2 ^ 32 := (Nat.mod_lt x (show 0 < Q by decide)).trans (by decide)
    rw [UInt32.toNat_ofNat', Nat.mod_eq_of_lt hlt]
  have hcoord : (linearCombination k scalars vectors).getD i 0 = UInt32.ofNat
      (((scalars.zip vectors).map fun t => t.1.toNat * (t.2.getD i 0).toNat).sum % Q) := by
    rw [List.getD_eq_getElem?_getD, linearCombination, List.getElem?_map,
      List.getElem?_range hik]
    rfl
  rw [hcoord, hsmall, Nat.zero_add]
  exact (Nat.mod_modEq _ _).mul_left _

/-- The hash of a linear combination is the combination of the hashes, by `combineMany` and for
two vectors by `combine`. The table, the lookup of a unit hash and the exponentiation give the
same powers, and the reduction of a product of residues is its residue. -/
theorem homomorphic (k : Nat) (scalars : List UInt32) (vectors : List (List UInt32))
    (h : ∀ c ∈ vectors, c.length = k) :
    (∃ hashes, vectors.mapM (new k).hash = .ok hashes ∧
      (new k).hash (linearCombination k scalars vectors) =
        .ok ((new k).combineMany scalars hashes) ∧
      ∀ a b h₁ h₂, scalars = [a, b] → hashes = [h₁, h₂] →
        (new k).hash (linearCombination k scalars vectors) = .ok (combine a h₁ b h₂)) ∧
    (∀ i e, i < k → e < Q → ∃ gi, (new k).gens[i]? = some gi ∧
      (new k).table.getD (i * Q + e) 0 = powmod gi e P) ∧
    (∀ u i e, (new k).unitIndex.get? u = some i → e < Q →
      (new k).table.getD (i * Q + e) 0 = powmod u e P) ∧
    ∀ a b, a < P → b < P → a * b < 2 ^ 128 ∧ mReduce (a * b) = a * b % (2 ^ 61 - 1) := by
  have hlen : (linearCombination k scalars vectors).length = k := by
    rw [linearCombination, List.length_map, List.length_range]
  have hmany : (new k).hash (linearCombination k scalars vectors) =
      .ok (genPow (exponentOf (scalars.zip vectors))) := by
    rw [hash_new hlen, genPow_congr (exponentFrom_linearCombination scalars h)]
  refine ⟨⟨_, mapM_hash_new h, ?_, ?_⟩, ?_, ?_, ?_⟩
  · rw [hmany, combineMany_new]
  · intro a b h₁ h₂ hscalars hhashes
    obtain ⟨c₁, tail, rfl, rfl, htail⟩ := List.map_eq_cons_iff.mp hhashes
    obtain ⟨c₂, tail', rfl, rfl, -⟩ := List.map_eq_cons_iff.mp htail
    rw [hmany, combine_genPow, hscalars]
    rfl
  · intro i e hi he
    refine ⟨_, gens_new_getElem? hi, ?_⟩
    rw [table_new_getD hi he, powmod_genPow he]
  · intro u i e hget he
    obtain ⟨hi, rfl⟩ := lt_of_get?_unitIndex hget
    rw [table_new_getD hi he, powmod_genPow he]
  · intro a b ha hb
    refine ⟨?_, mReduce_mul ha hb⟩
    calc
      a * b < P * P := Nat.mul_lt_mul'' ha hb
      _ < 2 ^ 128 := by decide

/-- Three vectors of two coordinates. -/
theorem homomorphic_three :
    ∃ hashes, [[1, 2], [3, 0], [1320, 4294967295]].mapM (new 2).hash = .ok hashes ∧
      (new 2).hash (linearCombination 2 [7, 1321, 4294967295]
          [[1, 2], [3, 0], [1320, 4294967295]]) =
        .ok ((new 2).combineMany [7, 1321, 4294967295] hashes) := by
  obtain ⟨⟨hashes, hmap, hcombine, -⟩, -⟩ :=
    homomorphic 2 [7, 1321, 4294967295] [[1, 2], [3, 0], [1320, 4294967295]] (by decide)
  exact ⟨hashes, hmap, hcombine⟩

end HomomorphicHash

end Dlr.Coding.HomoHash
