import Dlr.Lib.Bytes
import Mathlib.Data.Fin.Basic
import Mathlib.Data.Nat.Bitwise
import Mathlib.Logic.Function.Basic

/-!
# The cuckoo filter

A table of buckets with four fingerprints each stands in front of the store. An id has two
candidate buckets; an insertion into a full bucket evicts a fingerprint to its other bucket,
up to 500 times. When that fails the table is doubled once, and when that does not help the
filter latches `saturated` and answers that everything may be present.

## Implementation notes

The hash is a parameter. Calls come one after the other, so the locks are not modelled. Every
index is masked with the number of buckets less one and lies in the table (`Sized.index_lt`);
a bucket outside reads as empty here. Doubling places a fingerprint by a hash of the
fingerprint itself, as the source does, which is not where its id is looked up.
-/

namespace Dlr.Core

open Lib.Bytes

/-- The 64-bit hash of the hashing library. -/
class Xxh3 where
  hash : List UInt8 → UInt64

def golden64 : Nat := 0x9E3779B97F4A7C15

/-- A fingerprint; zero marks an empty slot. -/
abbrev Fp := UInt16

abbrev Bucket := Fin 4 → Fp

def Bucket.empty : Bucket := fun _ => 0

structure CuckooFilter where
  buckets : List Bucket
  /-- The number of buckets less one. -/
  mask : Nat
  /-- Occupied slots, for observability. -/
  count : Nat := 0
  saturated : Bool := false

/-- The least power of two that is not below `n`. -/
def nextPowerOfTwo (n : Nat) : Nat := if n ≤ 1 then 1 else 2 ^ (Nat.log2 (n - 1) + 1)

namespace CuckooFilter

def withCapacity (cap : Nat) : CuckooFilter :=
  let nbuckets := max (nextPowerOfTwo (cap / 4)) 4
  { buckets := List.replicate nbuckets Bucket.empty, mask := nbuckets - 1 }

def bucketAt (buckets : List Bucket) (i : Nat) : Bucket := buckets.getD i Bucket.empty

/-- The first empty slot. -/
def emptySlot (g : Bucket) : Option (Fin 4) := (List.finRange 4).find? fun s => g s = 0

/-- The other candidate bucket of a fingerprint. -/
def altIndex (mask i : Nat) (fp : Fp) : Nat :=
  (i ^^^ (fp.toNat * golden64 % 2 ^ 64)) &&& mask

/-- Put `fp` into bucket `i`, or evict a slot chosen by `fp` and go on with what was there. The
flag tells whether a place was found. -/
def kicks (mask : Nat) : Nat → List Bucket → Nat → Fp → Bool × List Bucket
  | 0, buckets, _, _ => (false, buckets)
  | n + 1, buckets, i, fp =>
      let g := bucketAt buckets i
      match emptySlot g with
      | some s => (true, buckets.set i (Function.update g s fp))
      | none =>
          let s : Fin 4 := ⟨fp.toNat % 4, Nat.mod_lt _ (by decide)⟩
          kicks mask n (buckets.set i (Function.update g s fp)) (altIndex mask i (g s)) (g s)

/-- All fingerprints, in the order of the table. -/
def fingerprints (buckets : List Bucket) : List Fp :=
  buckets.flatMap fun g => ((List.finRange 4).map g).filter (· ≠ 0)

section Hash

variable [Xxh3]

/-- Primary bucket and fingerprint of an id. -/
def indices (mask : Nat) (id : List UInt8) : Nat × Fp :=
  let h := Xxh3.hash id
  (h.toNat &&& mask, max h.toUInt16 1)

/-- Place a bare fingerprint into a grown table, by its own hash. -/
def placeGrown (mask : Nat) (buckets : List Bucket) (fp : Fp) : List Bucket :=
  let i1 := (Xxh3.hash (toLe 2 fp.toNat)).toNat &&& mask
  let g := match emptySlot (bucketAt buckets i1) with
    | some s => Function.update (bucketAt buckets i1) s fp
    | none => bucketAt buckets i1
  let buckets := buckets.set i1 g
  if ∃ s, g s = fp then buckets
  else
    let delta := (fp.toNat * golden64 % 2 ^ 64) &&& mask
    let i2 := (i1 ^^^ delta) &&& mask
    match emptySlot (bucketAt buckets i2) with
    | some s => buckets.set i2 (Function.update (bucketAt buckets i2) s fp)
    | none => buckets

/-- Double the table, up to `2 ^ 24` buckets. -/
def grow (f : CuckooFilter) : Bool × CuckooFilter :=
  let curBuckets := f.buckets.length
  if curBuckets = 0 ∨ curBuckets ≥ 2 ^ 24 then (false, f)
  else
    let newNbuckets := curBuckets * 2
    (true,
      { f with
        buckets := (fingerprints f.buckets).foldl (placeGrown (newNbuckets - 1))
          (List.replicate newNbuckets Bucket.empty)
        mask := newNbuckets - 1 })

/-- The second attempt of an insertion, in the primary bucket of a grown table. -/
def insertGrown (f : CuckooFilter) (id : List UInt8) : Bool × CuckooFilter :=
  match emptySlot (bucketAt f.buckets (indices f.mask id).1) with
  | some s =>
      (true,
        { f with
          buckets := f.buckets.set (indices f.mask id).1 (Function.update
            (bucketAt f.buckets (indices f.mask id).1) s (indices f.mask id).2)
          count := f.count + 1 })
  | none => (false, { f with saturated := true })

/-- Up to 500 evictions for an id. -/
def kicked (f : CuckooFilter) (id : List UInt8) : Bool × List Bucket :=
  kicks f.mask 500 f.buckets (indices f.mask id).1 (indices f.mask id).2

/-- What an insertion does after its evictions. -/
def insertKicked (f : CuckooFilter) (id : List UInt8) : Bool × List Bucket → Bool × CuckooFilter
  | (true, buckets) => (true, { f with buckets, count := f.count + 1 })
  | (false, buckets) =>
      match grow { f with buckets } with
      | (false, f) => (false, { f with saturated := true })
      | (true, f) => f.insertGrown id

def insert (f : CuckooFilter) (id : List UInt8) : Bool × CuckooFilter :=
  if f.saturated then (false, f) else f.insertKicked id (f.kicked id)

def contains (f : CuckooFilter) (id : List UInt8) : Bool :=
  if f.saturated then true
  else
    let home := indices f.mask id
    let i2 := altIndex f.mask home.1 home.2
    decide (∃ s, bucketAt f.buckets home.1 s = home.2) ||
      decide (∃ s, bucketAt f.buckets i2 s = home.2)

end Hash

def clear (f : CuckooFilter) : CuckooFilter where
  buckets := f.buckets.map fun _ => Bucket.empty
  mask := f.mask
  count := 0
  saturated := false

/-! ## Candidate buckets -/

/-- The table has a power of two of buckets, and the mask selects among them. -/
structure Sized (buckets : List Bucket) (mask : Nat) : Prop where
  length : buckets.length = mask + 1
  pow : ∃ k, mask + 1 = 2 ^ k

theorem Sized.index_lt {buckets : List Bucket} {mask i : Nat} (h : Sized buckets mask)
    (hi : i ≤ mask) : i < buckets.length := by
  rw [h.length]
  exact Nat.lt_succ_of_le hi

theorem Sized.set {buckets : List Bucket} {mask : Nat} (h : Sized buckets mask) (i : Nat)
    (g : Bucket) : Sized (buckets.set i g) mask :=
  ⟨by rw [List.length_set, h.length], h.pow⟩

/-- Both candidates of a fingerprint lead to each other. -/
theorem altIndex_altIndex {buckets : List Bucket} {mask i : Nat} (h : Sized buckets mask)
    (hi : i ≤ mask) (fp : Fp) : altIndex mask (altIndex mask i fp) fp = i := by
  obtain ⟨k, hk⟩ := h.pow
  have hmask : mask = 2 ^ k - 1 := by omega
  have hsmall : i &&& mask = i := by
    rw [hmask, Nat.and_two_pow_sub_one_eq_mod]
    exact Nat.mod_eq_of_lt (by omega)
  unfold altIndex
  generalize fp.toNat * golden64 % 2 ^ 64 = delta
  calc
    (((i ^^^ delta) &&& mask) ^^^ delta) &&& mask = i &&& mask := by
      apply Nat.eq_of_testBit_eq
      intro j
      simp only [Nat.testBit_and, Nat.testBit_xor]
      cases i.testBit j <;> cases delta.testBit j <;> cases mask.testBit j <;> rfl
    _ = i := hsmall

theorem bucketAt_set {buckets : List Bucket} {i : Nat} (hi : i < buckets.length) (g : Bucket)
    (j : Nat) : bucketAt (buckets.set i g) j = if j = i then g else bucketAt buckets j := by
  unfold bucketAt
  rw [List.getD_eq_getElem?_getD, List.getElem?_set]
  split_ifs with hij hji hji
  · rfl
  · exact absurd hij.symm hji
  · exact absurd hji.symm hij
  · rw [List.getD_eq_getElem?_getD]

/-- A fingerprint is stored in one of the two candidates that bucket `j` gives it. -/
def StoredAt (buckets : List Bucket) (mask : Nat) (fp : Fp) (j : Nat) : Prop :=
  (∃ s, bucketAt buckets j s = fp) ∨ ∃ s, bucketAt buckets (altIndex mask j fp) s = fp

/-- A fingerprint is stored, or it is the one in hand on its way to one of its candidates. -/
def CarriedAt (buckets : List Bucket) (mask i : Nat) (hand fp : Fp) (j : Nat) : Prop :=
  StoredAt buckets mask fp j ∨ hand = fp ∧ (i = j ∨ i = altIndex mask j fp)

theorem emptySlot_eq_some {g : Bucket} {s : Fin 4} (h : emptySlot g = some s) : g s = 0 := by
  simpa using List.find?_some h

section Overwrite

variable {buckets : List Bucket} {mask i j b : Nat} {hand fp x : Fp} {s : Fin 4}

/-- Writing one slot keeps every other fingerprint where it is. -/
theorem slot_set (hi : i < buckets.length) (h : ∃ s', bucketAt buckets b s' = fp) :
    (∃ s', bucketAt (buckets.set i (Function.update (bucketAt buckets i) s x)) b s' = fp) ∨
      b = i ∧ bucketAt buckets i s = fp := by
  obtain ⟨s', hs'⟩ := h
  by_cases hb : b = i
  · by_cases hs : s' = s
    · exact Or.inr ⟨hb, by rw [← hs, ← hb, hs']⟩
    · refine Or.inl ⟨s', ?_⟩
      rw [bucketAt_set hi, if_pos hb, Function.update_of_ne hs, ← hb, hs']
  · refine Or.inl ⟨s', ?_⟩
    rw [bucketAt_set hi, if_neg hb, hs']

theorem slot_set_self (hi : i < buckets.length) :
    ∃ s', bucketAt (buckets.set i (Function.update (bucketAt buckets i) s x)) i s' = x :=
  ⟨s, by rw [bucketAt_set hi, if_pos rfl, Function.update_self]⟩

/-- The fingerprint in hand goes into the slot, and what was there is taken in hand. -/
theorem CarriedAt.exchange (hsized : Sized buckets mask) (hi : i ≤ mask) (hj : j ≤ mask)
    (h : CarriedAt buckets mask i hand fp j) :
    CarriedAt (buckets.set i (Function.update (bucketAt buckets i) s hand)) mask
      (altIndex mask i (bucketAt buckets i s)) (bucketAt buckets i s) fp j := by
  have hlt : i < buckets.length := hsized.index_lt hi
  rcases h with (hstored | hstored) | ⟨rfl, hplace⟩
  · rcases slot_set hlt hstored with hkept | ⟨hji, htaken⟩
    · exact Or.inl (Or.inl hkept)
    · -- taken from its first candidate, on its way to the second
      exact Or.inr ⟨htaken, Or.inr (by rw [hji, htaken])⟩
  · rcases slot_set hlt hstored with hkept | ⟨hji, htaken⟩
    · exact Or.inl (Or.inr hkept)
    · -- taken from its second candidate, on its way back to the first
      exact Or.inr ⟨htaken, Or.inl (by rw [htaken, ← hji, altIndex_altIndex hsized hj])⟩
  · rcases hplace with rfl | rfl
    · exact Or.inl (Or.inl (slot_set_self hlt))
    · exact Or.inl (Or.inr (slot_set_self hlt))

/-- Into an empty slot nothing is lost. -/
theorem CarriedAt.place (hsized : Sized buckets mask) (hi : i ≤ mask) (hfp : fp ≠ 0)
    (hempty : bucketAt buckets i s = 0) (h : CarriedAt buckets mask i hand fp j) :
    StoredAt (buckets.set i (Function.update (bucketAt buckets i) s hand)) mask fp j := by
  have hlt : i < buckets.length := hsized.index_lt hi
  have hkeep : ∀ {b : Nat}, (∃ s', bucketAt buckets b s' = fp) →
      ∃ s', bucketAt (buckets.set i (Function.update (bucketAt buckets i) s hand)) b s' = fp := by
    intro b hstored
    refine (slot_set hlt hstored).resolve_right ?_
    rintro ⟨-, htaken⟩
    exact hfp (htaken.symm.trans hempty)
  rcases h with (hstored | hstored) | ⟨rfl, hplace⟩
  · exact Or.inl (hkeep hstored)
  · exact Or.inr (hkeep hstored)
  · rcases hplace with rfl | rfl
    · exact Or.inl (slot_set_self hlt)
    · exact Or.inr (slot_set_self hlt)

end Overwrite

/-- A chain of evictions that ends keeps every fingerprint in one of its candidates. -/
theorem kicks_keep {n mask i j : Nat} {buckets buckets' : List Bucket} {hand fp : Fp}
    (hsized : Sized buckets mask) (hi : i ≤ mask) (hj : j ≤ mask) (hfp : fp ≠ 0)
    (h : CarriedAt buckets mask i hand fp j)
    (hkicks : kicks mask n buckets i hand = (true, buckets')) : StoredAt buckets' mask fp j := by
  induction n generalizing buckets i hand with
  | zero => cases hkicks
  | succ n ih =>
      unfold kicks at hkicks
      simp only at hkicks
      split at hkicks
      · rename_i s hs
        cases hkicks
        exact h.place hsized hi hfp (emptySlot_eq_some hs)
      · exact ih (hsized.set _ _) Nat.and_le_right (h.exchange hsized hi hj) hkicks

theorem kicks_sized {n mask i : Nat} {buckets : List Bucket} {hand : Fp}
    (hsized : Sized buckets mask) : Sized (kicks mask n buckets i hand).2 mask := by
  induction n generalizing buckets i hand with
  | zero => exact hsized
  | succ n ih =>
      unfold kicks
      simp only
      split
      · exact hsized.set _ _
      · exact ih (hsized.set _ _)

/-! ## Any calls -/

theorem isPowerOfTwo_max (a b : Nat) : ∃ k, max (2 ^ a) (2 ^ b) = 2 ^ k := by
  rcases Nat.le_total (2 ^ a) (2 ^ b) with h | h
  · exact ⟨b, Nat.max_eq_right h⟩
  · exact ⟨a, Nat.max_eq_left h⟩

theorem sized_withCapacity (cap : Nat) :
    Sized (withCapacity cap).buckets (withCapacity cap).mask := by
  have hpow : ∃ k, max (nextPowerOfTwo (cap / 4)) 4 = 2 ^ k := by
    unfold nextPowerOfTwo
    split_ifs
    · exact isPowerOfTwo_max 0 2
    · exact isPowerOfTwo_max _ 2
  have hpos : max (nextPowerOfTwo (cap / 4)) 4 - 1 + 1 = max (nextPowerOfTwo (cap / 4)) 4 :=
    Nat.sub_add_cancel (Nat.le_trans (by decide) (Nat.le_max_right _ 4))
  constructor
  · simp only [withCapacity, List.length_replicate]
    exact hpos.symm
  · obtain ⟨k, hk⟩ := hpow
    exact ⟨k, hpos.trans hk⟩

section Runs

variable [Xxh3]

theorem length_placeGrown (mask : Nat) (buckets : List Bucket) (fp : Fp) :
    (placeGrown mask buckets fp).length = buckets.length := by
  unfold placeGrown
  simp only
  split_ifs
  · rw [List.length_set]
  · split <;> simp only [List.length_set]

theorem sized_grow {f : CuckooFilter} (h : Sized f.buckets f.mask) :
    Sized (grow f).2.buckets (grow f).2.mask := by
  unfold grow
  simp only
  split_ifs with hmax
  · exact h
  · have hlength : ∀ (fps : List Fp) (buckets : List Bucket),
        (fps.foldl (placeGrown (f.buckets.length * 2 - 1)) buckets).length = buckets.length := by
      intro fps
      induction fps with
      | nil => exact fun _ => rfl
      | cons fp rest ih => exact fun buckets => (ih _).trans (length_placeGrown _ _ _)
    obtain ⟨k, hk⟩ := h.pow
    have hdouble : f.buckets.length * 2 - 1 + 1 = f.buckets.length * 2 := by
      have := h.length
      omega
    constructor
    · rw [hlength, List.length_replicate, hdouble]
    · exact ⟨k + 1, by rw [hdouble, h.length, hk, Nat.pow_succ]⟩

/-- The insertion finds no place for its id by evictions, but one in the doubled table. -/
def PlacesInGrown (f : CuckooFilter) (id : List UInt8) : Prop :=
  f.saturated = false ∧ (f.kicked id).1 = false ∧
    ∃ f', grow { f with buckets := (f.kicked id).2 } = (true, f') ∧
      (emptySlot (bucketAt f'.buckets (indices f'.mask id).1)).isSome

/-- Everything an insertion can do. -/
theorem insert_cases {f : CuckooFilter} (h : Sized f.buckets f.mask) (id : List UInt8) :
    (f.saturated = true ∧ f.insert id = (false, f)) ∨
      (∃ buckets, f.saturated = false ∧ f.kicked id = (true, buckets) ∧
        f.insert id = (true, { f with buckets, count := f.count + 1 })) ∨
      (∃ f', f'.saturated = true ∧ Sized f'.buckets f'.mask ∧ f.insert id = (false, f')) ∨
      f.PlacesInGrown id := by
  by_cases hsat : f.saturated = true
  · exact Or.inl ⟨hsat, by rw [insert, if_pos hsat]⟩
  · have hopen : f.saturated = false := by simpa using hsat
    have hkicked : Sized (f.kicked id).2 f.mask := kicks_sized h
    rw [insert, if_neg hsat, PlacesInGrown]
    generalize f.kicked id = kicked at hkicked ⊢
    obtain ⟨placed, buckets⟩ := kicked
    cases placed with
    | true => exact Or.inr (Or.inl ⟨buckets, hopen, rfl, rfl⟩)
    | false =>
        have hgrown := sized_grow (f := { f with buckets }) hkicked
        rw [insertKicked]
        generalize grow { f with buckets } = grown at hgrown ⊢
        obtain ⟨grew, f'⟩ := grown
        cases grew with
        | false => exact Or.inr (Or.inr (Or.inl ⟨{ f' with saturated := true }, rfl, hgrown, rfl⟩))
        | true =>
            change _ ∨ _ ∨ (∃ f'', _ ∧ _ ∧ f'.insertGrown id = (false, f'')) ∨ _
            rw [insertGrown]
            cases hslot : emptySlot (bucketAt f'.buckets (indices f'.mask id).1) with
            | none =>
                exact Or.inr (Or.inr (Or.inl ⟨{ f' with saturated := true }, rfl, hgrown, rfl⟩))
            | some s =>
                refine Or.inr (Or.inr (Or.inr ⟨hopen, rfl, f', rfl, ?_⟩))
                rw [hslot, Option.isSome_some]

inductive FilterCall
  | insert (id : List UInt8)
  | clear

/-- One call, with the ids whose insertion returned `true` since the last `clear`. -/
def call (st : CuckooFilter × List (List UInt8)) : FilterCall → CuckooFilter × List (List UInt8)
  | .insert id =>
      match st.1.insert id with
      | (true, f) => (f, id :: st.2)
      | (false, f) => (f, st.2)
  | .clear => (st.1.clear, [])

/-- The call does not place its id in a table that it had to grow. -/
def Meets (f : CuckooFilter) : FilterCall → Prop
  | .insert id => ¬ f.PlacesInGrown id
  | .clear => True

/-- Every call of a run meets the condition on the filter it finds. -/
def MeetsAll (st : CuckooFilter × List (List UInt8)) : List FilterCall → Prop
  | [] => True
  | c :: rest => st.1.Meets c ∧ MeetsAll (call st c) rest

/-- A filter that is not saturated has the fingerprint of every present id in one of its two
buckets. -/
structure Sound (st : CuckooFilter × List (List UInt8)) : Prop where
  sized : Sized st.1.buckets st.1.mask
  stored : st.1.saturated = false → ∀ id ∈ st.2,
    StoredAt st.1.buckets st.1.mask (indices st.1.mask id).2 (indices st.1.mask id).1

theorem indices_snd_ne_zero (mask : Nat) (id : List UInt8) : (indices mask id).2 ≠ 0 := by
  change (if (Xxh3.hash id).toUInt16 ≤ 1 then 1 else (Xxh3.hash id).toUInt16) ≠ 0
  split_ifs with hle
  · decide
  · intro hzero
    rw [hzero] at hle
    exact hle (by decide)

theorem Sound.insert {f : CuckooFilter} {present : List (List UInt8)}
    (h : Sound (f, present)) {id : List UInt8} (hmeets : ¬ f.PlacesInGrown id) :
    Sound (call (f, present) (.insert id)) := by
  rcases insert_cases h.sized id with ⟨-, heq⟩ | ⟨buckets, hopen, hkicked, heq⟩ |
    ⟨f', hsat, hsized, heq⟩ | hgrown
  · simp only [call, heq]
    exact h
  · simp only [call, heq]
    have hhome : (indices f.mask id).1 ≤ f.mask := Nat.and_le_right
    have hsized : Sized buckets f.mask := by
      have hall : Sized (f.kicked id).2 f.mask := kicks_sized h.sized
      rwa [hkicked] at hall
    refine ⟨hsized, fun _ other hother => ?_⟩
    refine kicks_keep h.sized hhome Nat.and_le_right (indices_snd_ne_zero _ other) ?_ hkicked
    cases List.mem_cons.mp hother with
    | inl hnew =>
        subst hnew
        exact Or.inr ⟨rfl, Or.inl rfl⟩
    | inr hold => exact Or.inl (h.stored hopen other hold)
  · simp only [call, heq]
    refine ⟨hsized, fun hopen => ?_⟩
    rw [hsat] at hopen
    cases hopen
  · exact absurd hgrown hmeets

theorem Sound.call {st : CuckooFilter × List (List UInt8)} (h : Sound st) {c : FilterCall}
    (hmeets : st.1.Meets c) : Sound (call st c) := by
  cases c with
  | insert id => exact h.insert hmeets
  | clear =>
      refine ⟨⟨?_, h.sized.pow⟩, fun _ id hid => absurd hid List.not_mem_nil⟩
      exact (List.length_map _).trans h.sized.length

theorem Sound.contains {st : CuckooFilter × List (List UInt8)} (h : Sound st) {id : List UInt8}
    (hid : id ∈ st.2) : st.1.contains id = true := by
  unfold CuckooFilter.contains
  split_ifs with hsat
  · rfl
  · have hopen : st.1.saturated = false := by simpa using hsat
    have hstored := h.stored hopen id hid
    simp only [Bool.or_eq_true, decide_eq_true_eq]
    exact hstored

theorem sound_withCapacity (cap : Nat) : Sound (withCapacity cap, []) :=
  ⟨sized_withCapacity cap, fun _ _ hid => absurd hid List.not_mem_nil⟩

theorem Sound.run {st : CuckooFilter × List (List UInt8)} (h : Sound st) {calls : List FilterCall}
    (hmeets : MeetsAll st calls) : Sound (calls.foldl CuckooFilter.call st) := by
  induction calls generalizing st with
  | nil => exact h
  | cons c rest ih => exact ih (h.call hmeets.1) hmeets.2

/-- In a run that never places an id in a table it had to grow, the filter contains every id
whose insertion returned `true` since the last `clear`. -/
theorem no_false_negatives (cap : Nat) (calls : List FilterCall)
    (hmeets : MeetsAll (withCapacity cap, []) calls) :
    ∀ id ∈ (calls.foldl call (withCapacity cap, [])).2,
      (calls.foldl call (withCapacity cap, [])).1.contains id = true :=
  fun _ hid => ((sound_withCapacity cap).run hmeets).contains hid

end Runs

/-- A hash that tells two ids apart, on which the model can be evaluated. -/
@[reducible] def pairHash : Xxh3 :=
  ⟨fun id => if id = [0x0A] then 1 else if id = [0x0B] then 2 else 0⟩

/-- Five insertions of one id evict a fingerprint to its other bucket. -/
theorem no_false_negatives_after_eviction :
    letI := pairHash
    let calls : List FilterCall := .insert [0x0A] :: List.replicate 5 (.insert [0x0B])
    let st := calls.foldl call (withCapacity 8, [])
    [0x0A] ∈ st.2 ∧ st.1.contains [0x0A] = true := by
  let _ := pairHash
  intro calls st
  have hmem : [0x0A] ∈ st.2 := by decide +kernel
  refine ⟨hmem, no_false_negatives 8 calls ?_ _ hmem⟩
  refine ⟨?_, ?_, ?_, ?_, ?_, ?_, trivial⟩ <;>
    exact fun hgrown => absurd hgrown.2.1 (by decide +kernel)

/-- Nine insertions of one id do not fit into its two buckets. The table is doubled, the
fingerprint of the other id goes where its own hash says, and the other id is not found. -/
theorem grown_table_loses_id :
    letI := pairHash
    let calls : List FilterCall := .insert [0x0A] :: List.replicate 9 (.insert [0x0B])
    let st := calls.foldl call (withCapacity 8, [])
    [0x0A] ∈ st.2 ∧ st.1.saturated = false ∧ st.1.contains [0x0A] = false := by
  decide +kernel

end CuckooFilter

end Dlr.Core
