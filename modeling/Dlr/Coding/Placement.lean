import Dlr.Lib.FinMap
import Dlr.Lib.OrderedMap

/-!
# Placement on the golden ring

Entities stand on a ring of 64-bit positions. The position of the `n`-th entity is `n` times an
odd constant, so that no two of them meet, and a key is routed to the first entity clockwise from
its own position.

## Implementation notes

The clockwise distance between two positions is their difference modulo the length of the ring.
Where the counter of positions leaves its 64 bits the model has no result: a debug build panics
there and a release build starts again at zero.
-/

namespace Dlr.Coding

open Lib

/-- The order of the positions. -/
scoped instance positionOrder : LinearOrder UInt64 where
  le_refl := UInt64.le_refl
  le_trans _ _ _ := UInt64.le_trans
  lt_iff_le_not_ge _ _ := by
    simp only [UInt64.lt_iff_toNat_lt, UInt64.le_iff_toNat_le]
    omega
  le_antisymm _ _ := UInt64.le_antisymm
  le_total := UInt64.le_total
  toDecidableLE := inferInstance
  toDecidableEq := inferInstance

/-- The position of the `n`-th entity: the low 64 bits of a 128-bit product. -/
def placementFixed (n : UInt64) : UInt64 :=
  UInt64.ofNat (n.toNat * 0x9E3779B97F4A7C15 % 2 ^ 128)

structure GoldenRing where
  /-- The entity at every position. -/
  nodes : OrderedMap UInt64 UInt64 := .empty
  idToPos : FinMap UInt64 UInt64 := ∅
  /-- The number of positions handed out. -/
  counter : UInt64 := 0

namespace GoldenRing

def new : GoldenRing := {}

/-- Place an entity; one that has a position keeps it. -/
def add (ring : GoldenRing) (entityId : UInt64) : Option GoldenRing :=
  if (ring.idToPos.get? entityId).isSome then some ring
  else if ring.counter.toNat + 1 < 2 ^ 64 then
    let pos := placementFixed ring.counter
    some { nodes := ring.nodes.insert pos entityId, idToPos := ring.idToPos.set entityId pos,
           counter := ring.counter + 1 }
  else none

/-- Take an entity off the ring; the others stay where they are. -/
def remove (ring : GoldenRing) (entityId : UInt64) : GoldenRing × Bool :=
  match ring.idToPos.get? entityId with
  | some pos =>
      ({ ring with nodes := ring.nodes.remove pos, idToPos := ring.idToPos.unset entityId }, true)
  | none => (ring, false)

/-- The entity responsible for a key: the first one from its position on, or behind the wrap the
first of all. -/
def route (ring : GoldenRing) (key : UInt64) : Option UInt64 :=
  if ring.nodes.isEmpty then none
  else
    let k := placementFixed key
    match ring.nodes.firstFrom k with
    | some (_, id) => some id
    | none => ring.nodes.first.map Prod.snd

inductive Call
  | add (entityId : UInt64)
  | remove (entityId : UInt64)

def apply (ring : GoldenRing) : Call → Option GoldenRing
  | .add entityId => ring.add entityId
  | .remove entityId => some (ring.remove entityId).1

/-- The ring after some calls. -/
def applyAll (ring : GoldenRing) : List Call → Option GoldenRing
  | [] => some ring
  | call :: rest => do (← ring.apply call).applyAll rest

end GoldenRing

/-! ## Positions -/

theorem placementFixed_eq (n : UInt64) : placementFixed n = n * 0x9E3779B97F4A7C15 := by
  apply UInt64.toNat_inj.mp
  have hwide : (2 : Nat) ^ 64 ∣ 2 ^ 128 := Nat.pow_dvd_pow 2 (by omega)
  rw [placementFixed, UInt64.toNat_ofNat', UInt64.toNat_mul, Nat.mod_mod_of_dvd _ hwide]
  rfl

/-- The constant is odd, so it has an inverse. -/
theorem placementFixed_injective : Function.Injective placementFixed := by
  intro m n h
  have hinv : (0x9E3779B97F4A7C15 : UInt64) * 0xF1DE83E19937733D = 1 := by decide
  rw [placementFixed_eq, placementFixed_eq] at h
  calc
    m = m * 0x9E3779B97F4A7C15 * 0xF1DE83E19937733D := by
      rw [UInt64.mul_assoc, hinv, UInt64.mul_one]
    _ = n * 0x9E3779B97F4A7C15 * 0xF1DE83E19937733D := by rw [h]
    _ = n := by rw [UInt64.mul_assoc, hinv, UInt64.mul_one]

namespace GoldenRing

/-! ## Clockwise routing -/

/-- An entity stands at the position, and none stands nearer to `k` clockwise. -/
def Nearest (ring : GoldenRing) (k p id : UInt64) : Prop :=
  ring.nodes.get? p = some id ∧ ∀ q other, ring.nodes.get? q = some other → p - k ≤ q - k

theorem toNat_sub_of_le {p k : UInt64} (h : k ≤ p) : (p - k).toNat = p.toNat - k.toNat :=
  UInt64.toNat_sub_of_le _ _ h

theorem toNat_sub_of_lt {p k : UInt64} (h : p < k) :
    (p - k).toNat = 2 ^ 64 - k.toNat + p.toNat := by
  have hk := k.toNat_lt
  have hp := p.toNat_lt
  rw [UInt64.lt_iff_toNat_lt] at h
  rw [UInt64.toNat_sub]
  omega

variable {ring : GoldenRing} {k p q id other : UInt64}

/-- Positions that are equally near are equal. -/
theorem Nearest.unique (hp : ring.Nearest k p id) (hq : ring.Nearest k q other) : id = other := by
  have hsame : p - k = q - k := le_antisymm (hp.2 q other hq.1) (hq.2 p id hp.1)
  obtain rfl : p = q := (UInt64.sub_left_inj k).mp hsame
  exact Option.some.inj (hp.1.symm.trans hq.1)

/-- A position from `k` on is nearer than every one behind the wrap. -/
theorem nearest_of_firstFrom {e : UInt64 × UInt64} (h : ring.nodes.firstFrom k = some e) :
    ring.Nearest k e.1 e.2 := by
  obtain ⟨hget, hle, hleast⟩ := OrderedMap.firstFrom_eq_some h
  refine ⟨hget, ?_⟩
  intro q other hq
  have he := e.1.toNat_lt
  rw [UInt64.le_iff_toNat_le, toNat_sub_of_le hle]
  rcases le_or_gt k q with hkq | hqk
  · have heq := hleast q other hq hkq
    rw [toNat_sub_of_le hkq]
    rw [UInt64.le_iff_toNat_le] at heq
    omega
  · rw [toNat_sub_of_lt hqk]
    rw [UInt64.le_iff_toNat_le] at hle
    omega

/-- Where every position is behind the wrap, the first of all is the nearest. -/
theorem nearest_of_first {e : UInt64 × UInt64} (hnone : ring.nodes.firstFrom k = none)
    (h : ring.nodes.first = some e) : ring.Nearest k e.1 e.2 := by
  obtain ⟨hget, hleast⟩ := OrderedMap.first_eq_some h
  refine ⟨hget, ?_⟩
  intro q other hq
  have hle := hleast q other hq
  rw [UInt64.le_iff_toNat_le] at hle ⊢
  rw [toNat_sub_of_lt (OrderedMap.firstFrom_eq_none hnone hget),
    toNat_sub_of_lt (OrderedMap.firstFrom_eq_none hnone hq)]
  omega

/-- A ring without entities routes nothing, and any other to the nearest entity. -/
theorem route_cases (ring : GoldenRing) (key : UInt64) :
    (ring.route key = none ∧ ∀ q, ring.nodes.get? q = none) ∨
      ∃ p id, ring.route key = some id ∧ ring.Nearest (placementFixed key) p id := by
  unfold route
  by_cases hempty : ring.nodes.isEmpty = true
  · rw [if_pos hempty]
    exact Or.inl ⟨rfl, OrderedMap.isEmpty_iff.mp hempty⟩
  · right
    rw [if_neg hempty]
    dsimp only
    cases hfrom : ring.nodes.firstFrom (placementFixed key) with
    | some e => exact ⟨e.1, e.2, rfl, nearest_of_firstFrom hfrom⟩
    | none =>
        cases hfirst : ring.nodes.first with
        | some e => exact ⟨e.1, e.2, rfl, nearest_of_first hfrom hfirst⟩
        | none => exact absurd (OrderedMap.isEmpty_iff.mpr (OrderedMap.first_eq_none hfirst)) hempty

theorem route_eq_some_iff {key : UInt64} :
    ring.route key = some id ↔ ∃ p, ring.Nearest (placementFixed key) p id := by
  rcases ring.route_cases key with ⟨hnone, hempty⟩ | ⟨p, found, hsome, hnear⟩
  · rw [hnone]
    refine ⟨fun h => (nomatch h), ?_⟩
    rintro ⟨p, hget, -⟩
    rw [hempty] at hget
    cases hget
  · rw [hsome]
    constructor
    · rintro h
      cases h
      exact ⟨p, hnear⟩
    · rintro ⟨q, hq⟩
      rw [hnear.unique hq]

theorem route_eq_none_iff {key : UInt64} :
    ring.route key = none ↔ ∀ q, ring.nodes.get? q = none := by
  rcases ring.route_cases key with ⟨hnone, hempty⟩ | ⟨p, found, hsome, hget, -⟩
  · exact ⟨fun _ => hempty, fun _ => hnone⟩
  · rw [hsome]
    refine ⟨fun h => (nomatch h), ?_⟩
    intro hempty
    rw [hempty] at hget
    cases hget

/-! ## The two maps -/

/-- The maps are inverse to each other, and only positions that were handed out are taken. -/
structure Placed (ring : GoldenRing) : Prop where
  inverse : ∀ p id, ring.nodes.get? p = some id ↔ ring.idToPos.get? id = some p
  issued : ∀ p id, ring.nodes.get? p = some id → ∃ i < ring.counter, p = placementFixed i

theorem placed_new : new.Placed := by
  refine ⟨fun p id => ?_, fun p id h => ?_⟩
  · constructor
    · intro h
      cases h
    · intro h
      rw [show new.idToPos = ∅ from rfl, FinMap.get?_empty] at h
      cases h
  · cases h

/-- The next position is free. -/
theorem Placed.fresh (h : ring.Placed) : ring.nodes.get? (placementFixed ring.counter) = none := by
  rw [Option.eq_none_iff_forall_ne_some]
  intro id hget
  obtain ⟨i, hlt, heq⟩ := h.issued _ id hget
  rw [placementFixed_injective heq] at hlt
  exact lt_irrefl i hlt

theorem add_of_known {entityId : UInt64} (h : (ring.idToPos.get? entityId).isSome = true) :
    ring.add entityId = some ring := by
  rw [add, if_pos h]

/-- A new entity takes the next position. -/
theorem add_of_new {entityId : UInt64} (h : ring.idToPos.get? entityId = none)
    (hcount : ring.counter.toNat + 1 < 2 ^ 64) :
    ring.add entityId = some
      { nodes := ring.nodes.insert (placementFixed ring.counter) entityId,
        idToPos := ring.idToPos.set entityId (placementFixed ring.counter),
        counter := ring.counter + 1 } := by
  rw [add, if_neg (by rw [h]; decide), if_pos hcount]

theorem toNat_counter_succ (hcount : ring.counter.toNat + 1 < 2 ^ 64) :
    (ring.counter + 1).toNat = ring.counter.toNat + 1 := by
  rw [UInt64.toNat_add, UInt64.toNat_one, Nat.mod_eq_of_lt hcount]

theorem Placed.add (h : ring.Placed) (entityId : UInt64)
    (hcount : ring.counter.toNat + 1 < 2 ^ 64) :
    ∃ ring', ring.add entityId = some ring' ∧ ring'.Placed ∧
      ring'.counter.toNat ≤ ring.counter.toNat + 1 := by
  cases hknown : ring.idToPos.get? entityId with
  | some pos =>
      refine ⟨ring, add_of_known ?_, h, Nat.le_succ _⟩
      rw [hknown]
      rfl
  | none =>
      refine ⟨_, add_of_new hknown hcount, ⟨?_, ?_⟩, (toNat_counter_succ hcount).le⟩
      · intro p id
        simp only [OrderedMap.get?_insert, FinMap.get?_set]
        split_ifs with hp hid hid
        · simp [hp, hid]
        · -- the entity would be another one at the next position
          rw [hp, ← h.inverse, h.fresh]
          simpa [eq_comm] using hid
        · rw [h.inverse, hid, hknown]
          simpa [eq_comm] using hp
        · exact h.inverse p id
      · intro p id hget
        have hsucc := toNat_counter_succ hcount
        simp only [OrderedMap.get?_insert] at hget
        simp only [UInt64.lt_iff_toNat_lt, hsucc]
        split_ifs at hget with hp
        · exact ⟨ring.counter, Nat.lt_succ_self _, hp⟩
        · obtain ⟨i, hlt, heq⟩ := h.issued p id hget
          exact ⟨i, Nat.lt_succ_of_lt (UInt64.lt_iff_toNat_lt.mp hlt), heq⟩

/-- What a removal leaves. -/
theorem Placed.get?_remove (h : ring.Placed) (entityId p id : UInt64) :
    (ring.remove entityId).1.nodes.get? p = some id ↔
      ring.nodes.get? p = some id ∧ id ≠ entityId := by
  unfold GoldenRing.remove
  cases hknown : ring.idToPos.get? entityId with
  | none =>
      refine ⟨fun hget => ⟨hget, ?_⟩, And.left⟩
      rintro rfl
      rw [h.inverse, hknown] at hget
      cases hget
  | some pos =>
      simp only [OrderedMap.get?_remove]
      have hpos := (h.inverse pos entityId).mpr hknown
      split_ifs with hp
      · refine ⟨fun hget => (nomatch hget), ?_⟩
        rintro ⟨hget, hne⟩
        rw [hp, hpos] at hget
        exact absurd (Option.some.inj hget).symm hne
      · refine ⟨fun hget => ⟨hget, ?_⟩, And.left⟩
        rintro rfl
        rw [h.inverse, hknown] at hget
        exact hp (Option.some.inj hget).symm

theorem Placed.remove (h : ring.Placed) (entityId : UInt64) :
    (ring.remove entityId).1.Placed ∧ (ring.remove entityId).1.counter = ring.counter := by
  have hcounter : (ring.remove entityId).1.counter = ring.counter := by
    unfold GoldenRing.remove
    split <;> rfl
  refine ⟨⟨?_, ?_⟩, hcounter⟩
  · intro p id
    rw [h.get?_remove, h.inverse]
    unfold GoldenRing.remove
    cases hknown : ring.idToPos.get? entityId with
    | none =>
        refine ⟨And.left, fun hget => ⟨hget, ?_⟩⟩
        rintro rfl
        rw [hknown] at hget
        cases hget
    | some pos =>
        simp only [FinMap.get?_unset]
        split_ifs with hid <;> simp [hid]
  · intro p id hget
    rw [hcounter]
    exact h.issued p id ((h.get?_remove entityId p id).mp hget).1

/-- Every run within the range of the counter returns. -/
theorem Placed.applyAll (h : ring.Placed) {calls : List Call}
    (hcount : ring.counter.toNat + calls.length < 2 ^ 64) :
    ∃ ring', ring.applyAll calls = some ring' ∧ ring'.Placed ∧
      ring'.counter.toNat ≤ ring.counter.toNat + calls.length := by
  induction calls generalizing ring with
  | nil => exact ⟨ring, rfl, h, le_refl _⟩
  | cons call rest ih =>
      rw [List.length_cons] at hcount
      have hstep : ∃ next, ring.apply call = some next ∧ next.Placed ∧
          next.counter.toNat ≤ ring.counter.toNat + 1 := by
        cases call with
        | add entityId => exact h.add entityId (by omega)
        | remove entityId =>
            obtain ⟨hplaced, hcounter⟩ := h.remove entityId
            exact ⟨_, rfl, hplaced, by rw [hcounter]; omega⟩
      obtain ⟨next, hnext, hplaced, hle⟩ := hstep
      obtain ⟨last, hlast, hlastPlaced, hlastLe⟩ := ih hplaced (by omega)
      refine ⟨last, ?_, hlastPlaced, by rw [List.length_cons]; omega⟩
      rw [GoldenRing.applyAll, hnext]
      exact hlast

/-! ## Disruption -/

/-- Only the keys of a removed entity move. -/
theorem Placed.route_remove (h : ring.Placed) {entityId key : UInt64}
    (hmoved : (ring.remove entityId).1.route key ≠ ring.route key) :
    ring.route key = some entityId := by
  rcases ring.route_cases key with ⟨hnone, hempty⟩ | ⟨p, id, hsome, hnear⟩
  · refine absurd ?_ hmoved
    rw [hnone, route_eq_none_iff]
    intro q
    rw [Option.eq_none_iff_forall_ne_some]
    intro other hget
    rw [h.get?_remove, hempty] at hget
    cases hget.1
  · by_contra hother
    apply hmoved
    rw [hsome, route_eq_some_iff]
    have hne : id ≠ entityId := by
      rintro rfl
      exact hother hsome
    refine ⟨p, (h.get?_remove entityId p id).mpr ⟨hnear.1, hne⟩, ?_⟩
    intro q other hq
    exact hnear.2 q other ((h.get?_remove entityId q other).mp hq).1

/-- Keys move only to an entity that is added. -/
theorem Placed.route_add (h : ring.Placed) {entityId key : UInt64} {ring' : GoldenRing}
    (hnew : ring.idToPos.get? entityId = none) (hcount : ring.counter.toNat + 1 < 2 ^ 64)
    (hadd : ring.add entityId = some ring') (hmoved : ring'.route key ≠ ring.route key) :
    ring'.route key = some entityId := by
  rw [add_of_new hnew hcount] at hadd
  have hnodes : ∀ q, ring'.nodes.get? q =
      if q = placementFixed ring.counter then some entityId else ring.nodes.get? q := by
    intro q
    rw [← Option.some.inj hadd, OrderedMap.get?_insert]
  rcases ring'.route_cases key with ⟨-, hempty⟩ | ⟨p, id, hsome, hget, hnear⟩
  · have hnode := hempty (placementFixed ring.counter)
    rw [hnodes, if_pos rfl] at hnode
    cases hnode
  · rw [hsome]
    rw [hnodes] at hget
    split_ifs at hget with hp
    · exact hget.symm
    · -- the entity was there before, and was the nearest among fewer
      refine absurd ?_ hmoved
      rw [hsome, eq_comm, route_eq_some_iff]
      refine ⟨p, hget, ?_⟩
      intro q other hq
      apply hnear q other
      rw [hnodes, if_neg, hq]
      rintro rfl
      rw [h.fresh] at hq
      cases hq

/-- After any calls the maps are inverse bijections, a key is routed to the first entity clockwise
from its position, a removal moves only the keys of the removed entity and an addition moves keys
only to the added one. -/
theorem consistent_hash (calls : List Call) (hcalls : calls.length < 2 ^ 64) :
    ∃ ring, new.applyAll calls = some ring ∧
      (∀ p id, ring.nodes.get? p = some id ↔ ring.idToPos.get? id = some p) ∧
      (∀ key id, ring.route key = some id ↔ ∃ p, ring.nodes.get? p = some id ∧
        ∀ q other, ring.nodes.get? q = some other →
          p - placementFixed key ≤ q - placementFixed key) ∧
      (∀ key, ring.route key = none ↔ ∀ q, ring.nodes.get? q = none) ∧
      (∀ e key, (ring.remove e).1.route key ≠ ring.route key → ring.route key = some e) ∧
      ∀ e, ring.idToPos.get? e = none → calls.length + 1 < 2 ^ 64 →
        ∃ ring', ring.add e = some ring' ∧
          ∀ key, ring'.route key ≠ ring.route key → ring'.route key = some e := by
  have hzero : new.counter.toNat = 0 := rfl
  have hrange : new.counter.toNat + calls.length < 2 ^ 64 := by omega
  obtain ⟨ring, hrun, hplaced, hcount⟩ := placed_new.applyAll hrange
  refine ⟨ring, hrun, hplaced.inverse, fun _ _ => route_eq_some_iff, fun _ => route_eq_none_iff,
    fun _ _ => hplaced.route_remove, ?_⟩
  intro e hnew hroom
  obtain ⟨ring', hadd, -⟩ := hplaced.add e (by omega)
  exact ⟨ring', hadd, fun _ => hplaced.route_add hnew (by omega) hadd⟩

/-- Three entities, one of which leaves. -/
theorem consistent_hash_three :
    ∃ ring, new.applyAll [.add 7, .add 9, .add 11, .remove 9] = some ring ∧
      ∀ p id, ring.nodes.get? p = some id ↔ ring.idToPos.get? id = some p := by
  obtain ⟨ring, hrun, hinverse, -⟩ :=
    consistent_hash [.add 7, .add 9, .add 11, .remove 9] (by decide)
  exact ⟨ring, hrun, hinverse⟩

end GoldenRing

end Dlr.Coding
