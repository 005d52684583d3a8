import Mathlib.Data.Finmap

/-!
# Finite maps with one value type

The concurrent hash maps of the program are finite maps up to extensional
equality: no operation exposes an iteration order. Lookup after an update is
one conditional, so that every later proof about a map reduces to a case split
on key equality.
-/

namespace Dlr.Lib

/-- A finite map from `K` to `V`, equal when all lookups are equal. -/
abbrev FinMap (K V : Type*) := Finmap fun _ : K => V

namespace FinMap

variable {K V : Type*} [DecidableEq K]

/-- The value stored under `k`. -/
def get? (m : FinMap K V) (k : K) : Option V := m.lookup k

/-- Store `v` under `k`, replacing an earlier value. -/
def set (m : FinMap K V) (k : K) (v : V) : FinMap K V := m.insert k v

/-- Forget whatever is stored under `k`. -/
def unset (m : FinMap K V) (k : K) : FinMap K V := m.erase k

/-- The number of stored values. -/
def size (m : FinMap K V) : Nat := m.entries.card

@[simp] theorem get?_empty (k : K) : get? (∅ : FinMap K V) k = none :=
  Finmap.lookup_empty k

theorem get?_set (m : FinMap K V) (k k' : K) (v : V) :
    (m.set k v).get? k' = if k' = k then some v else m.get? k' := by
  split
  · rename_i h
    subst h
    exact Finmap.lookup_insert m
  · rename_i h
    exact Finmap.lookup_insert_of_ne m h

@[simp] theorem get?_set_self (m : FinMap K V) (k : K) (v : V) :
    (m.set k v).get? k = some v := by
  simp [get?_set]

@[simp] theorem get?_set_ne (m : FinMap K V) {k k' : K} (v : V) (h : k' ≠ k) :
    (m.set k v).get? k' = m.get? k' := by
  simp [get?_set, h]

theorem get?_unset (m : FinMap K V) (k k' : K) :
    (m.unset k).get? k' = if k' = k then none else m.get? k' := by
  split
  · rename_i h
    subst h
    exact Finmap.lookup_erase k' m
  · rename_i h
    exact Finmap.lookup_erase_ne h

/-- A stored value is one of the entries. -/
theorem mem_entries {m : FinMap K V} {k : K} {v : V} (h : m.get? k = some v) :
    (⟨k, v⟩ : Σ _ : K, V) ∈ m.entries :=
  Finmap.lookup_eq_some_iff.mp h

theorem ext_get? {m m' : FinMap K V} (h : ∀ k, m.get? k = m'.get? k) : m = m' :=
  Finmap.ext_lookup h

@[simp] theorem set_set (m : FinMap K V) (k : K) (v w : V) : (m.set k v).set k w = m.set k w := by
  refine ext_get? fun k' => ?_
  by_cases hk : k' = k <;> simp [hk]

@[simp] theorem unset_set (m : FinMap K V) (k : K) (v : V) : (m.set k v).unset k = m.unset k := by
  refine ext_get? fun k' => ?_
  by_cases hk : k' = k <;> simp [get?_unset, hk]

@[simp] theorem set_unset (m : FinMap K V) (k : K) (v : V) : (m.unset k).set k v = m.set k v := by
  refine ext_get? fun k' => ?_
  by_cases hk : k' = k <;> simp [get?_unset, hk]

theorem set_unset_self {m : FinMap K V} {k : K} {v : V} (h : m.get? k = some v) :
    (m.unset k).set k v = m := by
  refine ext_get? fun k' => ?_
  by_cases hk : k' = k <;> simp [hk, h]

theorem unset_of_get?_eq_none {m : FinMap K V} {k : K} (h : m.get? k = none) :
    m.unset k = m := by
  refine ext_get? fun k' => ?_
  by_cases hk : k' = k <;> simp [get?_unset, hk, h]

/-- The sum of `f` over the stored values. -/
def sumOf (f : V → Nat) (m : FinMap K V) : Nat := (m.entries.map fun e => f e.2).sum

theorem entries_set {m : FinMap K V} {k : K} (v : V) (h : m.get? k = none) :
    (m.set k v).entries = ⟨k, v⟩ ::ₘ m.entries :=
  Finmap.entries_insert_of_notMem (Finmap.lookup_eq_none.mp h)

theorem sumOf_set (f : V → Nat) {m : FinMap K V} {k : K} (v : V) (h : m.get? k = none) :
    (m.set k v).sumOf f = f v + m.sumOf f := by
  rw [sumOf, entries_set v h, Multiset.map_cons, Multiset.sum_cons, sumOf]

/-- Removing a key takes its value, if there is one, out of the sum. -/
theorem sumOf_unset (f : V → Nat) (m : FinMap K V) (k : K) :
    m.sumOf f = (m.get? k).elim 0 f + (m.unset k).sumOf f := by
  cases h : m.get? k with
  | none => simp [unset_of_get?_eq_none h]
  | some v =>
      have hnone : (m.unset k).get? k = none := by simp [get?_unset]
      calc
        m.sumOf f = ((m.unset k).set k v).sumOf f := by rw [set_unset_self h]
        _ = f v + (m.unset k).sumOf f := sumOf_set f v hnone

theorem size_set_of_none {m : FinMap K V} {k : K} (v : V) (h : m.get? k = none) :
    (m.set k v).size = m.size + 1 := by
  rw [size, entries_set v h, Multiset.card_cons, size]

/-- Replacing a value keeps the number of values. -/
theorem size_set_of_some {m : FinMap K V} {k : K} {w : V} (v : V) (h : m.get? k = some w) :
    (m.set k v).size = m.size := by
  have hnone : (m.unset k).get? k = none := by simp [get?_unset]
  calc (m.set k v).size = ((m.unset k).set k v).size := by rw [set_unset]
    _ = ((m.unset k).set k w).size := by rw [size_set_of_none v hnone, size_set_of_none w hnone]
    _ = m.size := by rw [set_unset_self h]

/-- The keys, listed without repetition, are as many as the values. -/
theorem size_eq_length {m : FinMap K V} {l : List K} (hnodup : l.Nodup)
    (hmem : ∀ k, k ∈ l ↔ (m.get? k).isSome) : m.size = l.length := by
  have hkeys : m.keys = l.toFinset := by
    ext k
    rw [List.mem_toFinset, hmem, Finmap.mem_keys, get?, Finmap.lookup_isSome]
  calc
    m.size = m.keys.card := by simp [size, Finmap.keys, Multiset.keys]
    _ = l.length := by rw [hkeys, List.toFinset_card_of_nodup hnodup]

/-- Apply `f` to every stored value under its key. -/
def mapValues {W : Type*} (f : K → V → W) (m : FinMap K V) : FinMap K W where
  entries := m.entries.map fun e => ⟨e.1, f e.1 e.2⟩
  nodupKeys := by
    have hkeys : (m.entries.map fun e => (⟨e.1, f e.1 e.2⟩ : Σ _ : K, W)).keys =
        m.entries.keys := by
      simp [Multiset.keys, Multiset.map_map]
    exact Multiset.nodup_keys.mp (hkeys ▸ m.nodupKeys.nodup_keys)

@[simp] theorem get?_mapValues {W : Type*} (f : K → V → W) (m : FinMap K V) (k : K) :
    (m.mapValues f).get? k = (m.get? k).map (f k) := by
  induction m using Finmap.induction_on with
  | H a =>
      exact @List.dlookup_map K K (fun _ => V) (fun _ => W) _ _ a.entries id
        Function.injective_id f k

end FinMap

end Dlr.Lib
