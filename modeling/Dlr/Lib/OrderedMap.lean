import Mathlib.Data.List.Nodup
import Mathlib.Order.Lattice

/-!
# Ordered maps

A map whose entries stand in the order of their keys. The order is part of the type, so that the
first entry from a key on is the one with the least key, and a map is determined by its lookups.
-/

namespace Dlr.Lib

/-- The entries of a map, lowest key first. -/
structure OrderedMap (K V : Type*) [LinearOrder K] where
  entries : List (K × V)
  sorted : entries.Pairwise fun a b => a.1 < b.1

namespace OrderedMap

variable {K V : Type*} [LinearOrder K]

def empty : OrderedMap K V := ⟨[], .nil⟩

/-- The value stored under `k`. -/
def get? (m : OrderedMap K V) (k : K) : Option V := (m.entries.find? fun e => e.1 = k).map Prod.snd

/-- Store `v` under `k`, replacing an earlier value. -/
def insert (m : OrderedMap K V) (k : K) (v : V) : OrderedMap K V where
  entries := m.entries.filter (fun e => e.1 < k) ++ (k, v) :: m.entries.filter fun e => k < e.1
  sorted := by
    rw [List.pairwise_append, List.pairwise_cons]
    refine ⟨m.sorted.filter _, ⟨?_, m.sorted.filter _⟩, ?_⟩
    · intro e he
      simpa using (List.mem_filter.mp he).2
    · intro e he f hf
      have hlow : e.1 < k := by simpa using (List.mem_filter.mp he).2
      rcases List.mem_cons.mp hf with rfl | hhigh
      · exact hlow
      · exact hlow.trans (by simpa using (List.mem_filter.mp hhigh).2)

/-- Forget whatever is stored under `k`. -/
def remove (m : OrderedMap K V) (k : K) : OrderedMap K V where
  entries := m.entries.filter fun e => e.1 ≠ k
  sorted := m.sorted.filter _

/-- The entry with the least key. -/
def first (m : OrderedMap K V) : Option (K × V) := m.entries.head?

/-- The entry with the least key from `k` on. -/
def firstFrom (m : OrderedMap K V) (k : K) : Option (K × V) := m.entries.find? fun e => k ≤ e.1

def isEmpty (m : OrderedMap K V) : Bool := m.entries.isEmpty

/-! ## Lookups -/

variable {m : OrderedMap K V}

theorem nodup_keys (m : OrderedMap K V) : (m.entries.map Prod.fst).Nodup :=
  List.pairwise_map.mpr (m.sorted.imp fun hlt => hlt.ne)

theorem get?_eq_some_iff {k : K} {v : V} : m.get? k = some v ↔ (k, v) ∈ m.entries := by
  unfold get?
  rw [Option.map_eq_some_iff]
  constructor
  · rintro ⟨e, hfind, rfl⟩
    obtain rfl : e.1 = k := by simpa using List.find?_some hfind
    exact List.mem_of_find?_eq_some hfind
  · intro hmem
    cases hfind : m.entries.find? fun e => e.1 = k with
    | none => simpa using List.find?_eq_none.mp hfind _ hmem
    | some e =>
        have hkey : e.1 = k := by simpa using List.find?_some hfind
        have heq : e = (k, v) :=
          List.inj_on_of_nodup_map m.nodup_keys (List.mem_of_find?_eq_some hfind) hmem hkey
        exact ⟨e, rfl, by rw [heq]⟩

theorem get?_eq_none_iff {k : K} : m.get? k = none ↔ ∀ v, (k, v) ∉ m.entries := by
  rw [Option.eq_none_iff_forall_ne_some]
  simp only [ne_eq, get?_eq_some_iff]

theorem get?_insert (m : OrderedMap K V) (k k' : K) (v : V) :
    (m.insert k v).get? k' = if k' = k then some v else m.get? k' := by
  apply Option.ext
  intro w
  rw [get?_eq_some_iff]
  simp only [insert, List.mem_append, List.mem_filter, List.mem_cons, Prod.mk.injEq,
    decide_eq_true_eq]
  split_ifs with hk
  · subst hk
    simp [eq_comm]
  · rw [get?_eq_some_iff]
    constructor
    · rintro (⟨hmem, -⟩ | ⟨heq, -⟩ | ⟨hmem, -⟩)
      · exact hmem
      · exact absurd heq hk
      · exact hmem
    · intro hmem
      rcases lt_or_gt_of_ne hk with hlt | hgt
      · exact Or.inl ⟨hmem, hlt⟩
      · exact Or.inr (Or.inr ⟨hmem, hgt⟩)

theorem get?_remove (m : OrderedMap K V) (k k' : K) :
    (m.remove k).get? k' = if k' = k then none else m.get? k' := by
  apply Option.ext
  intro w
  rw [get?_eq_some_iff]
  simp only [remove, List.mem_filter, decide_eq_true_eq]
  split_ifs with hk
  · simp [hk]
  · rw [get?_eq_some_iff]
    exact and_iff_left hk

/-! ## Least entries -/

theorem first_eq_some {e : K × V} (h : m.first = some e) :
    m.get? e.1 = some e.2 ∧ ∀ q w, m.get? q = some w → e.1 ≤ q := by
  obtain ⟨rest, hentries⟩ := List.head?_eq_some_iff.mp h
  have hsorted := m.sorted
  rw [hentries, List.pairwise_cons] at hsorted
  refine ⟨get?_eq_some_iff.mpr (hentries ▸ List.mem_cons_self), ?_⟩
  intro q w hq
  rw [get?_eq_some_iff, hentries, List.mem_cons] at hq
  rcases hq with rfl | hmem
  · exact le_refl q
  · exact (hsorted.1 _ hmem).le

theorem first_eq_none (h : m.first = none) (q : K) : m.get? q = none := by
  rw [get?_eq_none_iff, List.head?_eq_none_iff.mp h]
  exact fun w => List.not_mem_nil

theorem firstFrom_eq_some {k : K} {e : K × V} (h : m.firstFrom k = some e) :
    m.get? e.1 = some e.2 ∧ k ≤ e.1 ∧ ∀ q w, m.get? q = some w → k ≤ q → e.1 ≤ q := by
  refine ⟨get?_eq_some_iff.mpr (List.mem_of_find?_eq_some h), by simpa using List.find?_some h, ?_⟩
  obtain ⟨-, low, high, hentries, hlow⟩ := List.find?_eq_some_iff_append.mp h
  have hsorted := m.sorted
  rw [hentries, List.pairwise_append, List.pairwise_cons] at hsorted
  intro q w hq hle
  rw [get?_eq_some_iff, hentries, List.mem_append, List.mem_cons] at hq
  rcases hq with hmem | rfl | hmem
  · exact absurd hle (by simpa using hlow _ hmem)
  · exact le_refl q
  · exact (hsorted.2.1.1 _ hmem).le

theorem firstFrom_eq_none {k : K} (h : m.firstFrom k = none) {q : K} {w : V}
    (hq : m.get? q = some w) : q < k := by
  simpa using List.find?_eq_none.mp h _ (get?_eq_some_iff.mp hq)

theorem isEmpty_iff : m.isEmpty = true ↔ ∀ q, m.get? q = none := by
  rw [isEmpty, List.isEmpty_iff]
  constructor
  · intro h q
    rw [get?_eq_none_iff, h]
    exact fun w => List.not_mem_nil
  · intro h
    rw [List.eq_nil_iff_forall_not_mem]
    exact fun e => get?_eq_none_iff.mp (h e.1) e.2

end OrderedMap

end Dlr.Lib
