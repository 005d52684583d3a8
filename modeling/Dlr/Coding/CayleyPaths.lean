import Dlr.Coding.Cayley

/-!
# Shortest paths in a circulant overlay

Breadth-first search over the neighbours of a circulant graph finds a shortest walk. Adding a
constant to every node keeps the edges, so the length of a path depends only on the difference of
its ends.
-/

namespace Dlr.Coding.CayleyGraph

open Lib Lib.Machine Lib.BreadthFirst

section Search

variable {g : CayleyGraph} {from_ to_ : Nat}

/-- What the search returns for a graph whose predecessor table can be allocated. -/
theorem shortestPath_spec (hjumps : ∀ s ∈ g.jumps, s ≤ g.n) (hfrom : from_ < g.n)
    (hto : to_ < g.n) (hfit : from_ = to_ ∨ 16 * g.n ≤ 2 ^ 63 - 1) :
    (∃ p, g.shortestPath from_ to_ = .ok p ∧ ShortestWalk g.around from_ to_ p) ∨
      g.shortestPath from_ to_ = .error (.error (.noPath from_ to_)) ∧
        ∀ k, ¬ Reach g.around from_ k to_ := by
  unfold shortestPath
  rw [if_neg (by omega)]
  by_cases heq : from_ = to_
  · subst heq
    refine Or.inl ⟨[from_], by rw [if_pos rfl], ?_⟩
    exact shortestWalk_of_distance ⟨rfl, rfl, List.isChain_singleton _⟩ rfl
      ⟨.refl, fun j _ => Nat.zero_le j⟩
  · have hsize : 16 * g.n ≤ 2 ^ 63 - 1 := hfit.resolve_left heq
    have hadj : ∀ v ∈ Finset.range g.n, g.neighbors v = some (g.around v) := by
      intro v hv
      have hlt := Finset.mem_range.mp hv
      apply neighbors_eq_around hjumps
      unfold usizeMax
      omega
    have hclosed : ∀ v ∈ Finset.range g.n, ∀ w ∈ g.around v, w ∈ Finset.range g.n := by
      intro v _ w hw
      exact Finset.mem_range.mpr (around_lt (by omega) hw)
    obtain ⟨r, hsearch, hanswers⟩ := search_start hadj hclosed (Finset.mem_range.mpr hfrom) heq
    rw [Finset.card_range] at hsearch
    rw [if_neg heq, if_neg (by omega), hsearch]
    cases r with
    | none => exact Or.inr ⟨rfl, hanswers⟩
    | some p => exact Or.inl ⟨p, rfl, hanswers⟩

theorem exists_shortestPath_iff (hjumps : ∀ s ∈ g.jumps, s ≤ g.n) (hfrom : from_ < g.n)
    (hto : to_ < g.n) (hfit : from_ = to_ ∨ 16 * g.n ≤ 2 ^ 63 - 1) :
    (∃ p, g.shortestPath from_ to_ = .ok p) ↔ ∃ k, Reach g.around from_ k to_ := by
  rcases shortestPath_spec hjumps hfrom hto hfit with ⟨p, hok, hshort⟩ | ⟨hnone, hreach⟩
  · exact iff_of_true ⟨p, hok⟩ ⟨_, hshort.toWalk.reach⟩
  · refine iff_of_false ?_ ?_
    · rintro ⟨p, hok⟩
      rw [hnone] at hok
      cases hok
    · rintro ⟨k, hk⟩
      exact hreach k hk

theorem shortestWalk_of_shortestPath (hjumps : ∀ s ∈ g.jumps, s ≤ g.n) (hfrom : from_ < g.n)
    (hto : to_ < g.n) (hfit : from_ = to_ ∨ 16 * g.n ≤ 2 ^ 63 - 1) {p : List Nat}
    (hp : g.shortestPath from_ to_ = .ok p) : ShortestWalk g.around from_ to_ p := by
  rcases shortestPath_spec hjumps hfrom hto hfit with ⟨q, hok, hshort⟩ | ⟨hnone, -⟩
  · rw [hp] at hok
    cases hok
    exact hshort
  · rw [hnone] at hp
    cases hp

end Search

/-! ## Translations -/

/-- Every node moved on by the same number. -/
def translate (n t v : Nat) : Nat := (v + t) % n

/-- A translation takes edges to edges. -/
theorem translate_mem_around {g : CayleyGraph} (hjumps : ∀ s ∈ g.jumps, s ≤ g.n) (t : Nat)
    {u v : Nat} (hv : v ∈ g.around u) : translate g.n t v ∈ g.around (translate g.n t u) := by
  obtain ⟨s, hs, hup | hdown⟩ := mem_around.mp hv
  · refine mem_around.mpr ⟨s, hs, Or.inl ?_⟩
    rw [hup, translate, translate, Nat.mod_add_mod, Nat.mod_add_mod, Nat.add_right_comm]
  · have hle := hjumps s hs
    refine mem_around.mpr ⟨s, hs, Or.inr ?_⟩
    rw [hdown, translate, translate, Nat.mod_add_mod, Nat.add_sub_assoc hle,
      Nat.add_sub_assoc hle, Nat.mod_add_mod, Nat.add_right_comm]

/-- The translation that takes one node to another. -/
theorem translate_self {n a b : Nat} (ha : a < n) (hb : b < n) :
    translate n ((b + n - a) % n) a = b := by
  rw [translate, Nat.add_mod_mod]
  have hsum : a + (b + n - a) = b + n := by omega
  rw [hsum, Nat.add_mod_right, Nat.mod_eq_of_lt hb]

/-- Pairs with the same difference are translations of each other. -/
theorem translate_of_sub_eq {n a b a' b' : Nat} (ha : a < n) (ha' : a' < n) (hb' : b' < n)
    (hdiff : (b' + n - a') % n = (b + n - a) % n) :
    translate n ((a' + n - a) % n) b = b' := by
  calc translate n ((a' + n - a) % n) b
      = (b + (a' + n - a)) % n := by rw [translate, Nat.add_mod_mod]
    _ = ((b + n - a) + a') % n := by
        congr 1
        omega
    _ = ((b + n - a) % n + a') % n := by rw [Nat.mod_add_mod]
    _ = ((b' + n - a') % n + a') % n := by rw [hdiff]
    _ = (b' + n) % n := by
        rw [Nat.mod_add_mod]
        congr 1
        omega
    _ = b' := by rw [Nat.add_mod_right, Nat.mod_eq_of_lt hb']

/-- A walk between two nodes is one between every pair with the same difference. -/
theorem walk_translate {g : CayleyGraph} (hjumps : ∀ s ∈ g.jumps, s ≤ g.n) {a b a' b' : Nat}
    (ha : a < g.n) (ha' : a' < g.n) (hb' : b' < g.n)
    (hdiff : (b' + g.n - a') % g.n = (b + g.n - a) % g.n) {p : List Nat}
    (hp : Walk g.around a b p) :
    Walk g.around a' b' (p.map (translate g.n ((a' + g.n - a) % g.n))) := by
  have hmoved := hp.map _ fun u v hv =>
    translate_mem_around hjumps ((a' + g.n - a) % g.n) (u := u) (v := v) hv
  rwa [translate_self ha ha', translate_of_sub_eq ha ha' hb' hdiff] at hmoved

theorem shortestPath_length_of_sub_eq {g : CayleyGraph} (hjumps : ∀ s ∈ g.jumps, s ≤ g.n)
    {a b a' b' : Nat} (ha : a < g.n) (hb : b < g.n) (ha' : a' < g.n) (hb' : b' < g.n)
    (hdiff : (b' + g.n - a') % g.n = (b + g.n - a) % g.n)
    (hfit : a = b ∨ 16 * g.n ≤ 2 ^ 63 - 1) {p : List Nat}
    (hp : g.shortestPath a b = .ok p) :
    ∃ q, g.shortestPath a' b' = .ok q ∧ q.length = p.length := by
  have hshort := shortestWalk_of_shortestPath hjumps ha hb hfit hp
  have hwalk := walk_translate hjumps ha ha' hb' hdiff hshort.toWalk
  have hfit' : a' = b' ∨ 16 * g.n ≤ 2 ^ 63 - 1 := by
    refine hfit.imp_left ?_
    rintro rfl
    have hmoved := translate_of_sub_eq ha ha' hb' hdiff
    rwa [translate_self ha ha'] at hmoved
  obtain ⟨q, hq⟩ := (exists_shortestPath_iff hjumps ha' hb' hfit').mpr ⟨_, hwalk.reach⟩
  have hshort' := shortestWalk_of_shortestPath hjumps ha' hb' hfit' hq
  have hback := walk_translate hjumps ha' ha hb hdiff.symm hshort'.toWalk
  refine ⟨q, hq, Nat.le_antisymm ?_ ?_⟩
  · exact (hshort'.least _ hwalk).trans_eq (List.length_map _)
  · exact (hshort.least _ hback).trans_eq (List.length_map _)

/-- The search finds a path exactly where there is a walk; the path is a shortest walk, and there
is one of the same length between every two nodes with the same difference. -/
theorem shortestPath_correct {n : Nat} (hn : 1 ≤ n) (jumps : List Nat) {from_ to_ : Nat}
    (hfrom : from_ < n) (hto : to_ < n) (hfit : from_ = to_ ∨ 16 * n ≤ 2 ^ 63 - 1) :
    ((∃ p, (new n jumps).shortestPath from_ to_ = .ok p) ↔
      ∃ k, Reach (new n jumps).around from_ k to_) ∧
    ∀ p, (new n jumps).shortestPath from_ to_ = .ok p →
      ShortestWalk (new n jumps).around from_ to_ p ∧
      ∀ from' to', from' < n → to' < n → (to' + n - from') % n = (to_ + n - from_) % n →
        ∃ q, (new n jumps).shortestPath from' to' = .ok q ∧ q.length = p.length := by
  have hjumps : ∀ s ∈ (new n jumps).jumps, s ≤ (new n jumps).n := fun s => jumps_new_le hn
  refine ⟨exists_shortestPath_iff hjumps hfrom hto hfit, ?_⟩
  intro p hp
  refine ⟨shortestWalk_of_shortestPath hjumps hfrom hto hfit hp, ?_⟩
  intro from' to' hfrom' hto' hdiff
  exact shortestPath_length_of_sub_eq hjumps hfrom hto hfrom' hto' hdiff hfit hp

theorem shortestPath_correct_ten : ∃ p q,
    (new 10 [3, 8]).shortestPath 1 6 = .ok p ∧
      ShortestWalk (new 10 [3, 8]).around 1 6 p ∧
      (new 10 [3, 8]).shortestPath 7 2 = .ok q ∧ q.length = p.length := by
  obtain ⟨-, hpath⟩ := @shortestPath_correct 10 (by decide) [3, 8] 1 6 (by decide) (by decide)
    (Or.inr (by decide))
  have hp : (new 10 [3, 8]).shortestPath 1 6 = .ok [1, 3, 6] := by decide
  obtain ⟨hshort, hmoved⟩ := hpath _ hp
  obtain ⟨q, hq, hlen⟩ := hmoved 7 2 (by decide) (by decide) (by decide)
  exact ⟨_, q, hp, hshort, hq, hlen⟩

/-- The table for a graph of `2 ^ 59` nodes has more bytes than can be asked for. -/
theorem shortestPath_table_too_large :
    ¬ ((∃ p, (new (2 ^ 59) [1]).shortestPath 0 1 = .ok p) ↔
      ∃ k, Reach (new (2 ^ 59) [1]).around 0 k 1) := by
  have hone : 1 ∈ (new (2 ^ 59) [1]).jumps :=
    mem_jumps_new.mpr ⟨1, List.mem_singleton_self 1, normalizeJump_one (by decide)⟩
  have hedge : 1 ∈ (new (2 ^ 59) [1]).around 0 := mem_around.mpr ⟨1, hone, Or.inl rfl⟩
  have hpanic : (new (2 ^ 59) [1]).shortestPath 0 1 = .error .panic := rfl
  intro hiff
  obtain ⟨p, hp⟩ := hiff.mpr ⟨1, .step .refl hedge⟩
  rw [hpanic] at hp
  cases hp

end Dlr.Coding.CayleyGraph
