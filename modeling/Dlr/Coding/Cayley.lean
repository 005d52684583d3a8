import Dlr.Lib.BreadthFirst
import Dlr.Lib.Machine
import Dlr.Lib.Traverse
import Mathlib.Data.List.MinMax
import Mathlib.Data.List.Sort

/-!
# Circulant overlays

The nodes are the numbers below `n`, and node `u` is joined to `u + s` and `u - s` modulo `n` for
every jump `s`. A route is found by breadth-first search, or greedily by always going to the
neighbour that is nearest to the target.

## Implementation notes

Numbers are 64 bits wide, and an addition that leaves them is a panic: a debug build panics there
and a release build goes on with the wrapped number. A table of `n` optional node numbers has 16
bytes for each; one of more than `isize::MAX` bytes cannot be allocated, which is a panic as well.
The names `from_` and `to_` stand for reserved words. A graph has at least
one node: with none the normalisation of a jump divides by zero.
-/

namespace Dlr.Coding

open Lib Lib.Machine

inductive CayleyError
  | outOfRange (id n : Nat)
  | noPath (from_ to_ : Nat)
  deriving DecidableEq

structure CayleyGraph where
  n : Nat
  jumps : List Nat

/-- Drop every element that repeats the one before it. -/
def dedupRuns : List Nat → List Nat
  | a :: b :: rest => if a = b then dedupRuns (b :: rest) else a :: dedupRuns (b :: rest)
  | l => l

/-- The way around that is at most half of the ring; no way at all counts as one step. -/
def normalizeJump (n s : Nat) : Nat :=
  let s := s % n
  let s := if s = 0 then 1 else s
  if s > n / 2 then n - s else s

/-- The Fibonacci numbers behind `a` and `b` until one reaches `half`. -/
def fibsFrom (half : Nat) : Nat → Nat → Nat → List Nat
  | 0, _, _ => []
  | fuel + 1, a, b => if b < half then (a + b) :: fibsFrom half fuel b (a + b) else []

/-- The shorter way around the ring. -/
def cyclicDist (a b n : Nat) : Option Nat := do
  let sum ← checkedAdd a n
  let diff ← checkedSub sum b
  let d := diff % n
  return min d (n - d)

namespace CayleyGraph

def new (n : Nat) (jumps : List Nat) : CayleyGraph :=
  ⟨n, dedupRuns ((jumps.map (normalizeJump n)).insertionSort (· ≤ ·))⟩

/-- Up to `degree` evenly spaced Fibonacci jumps. -/
def fibonacciJumps (n degree : Nat) : CayleyGraph :=
  let half := n / 2
  let fibs := 1 :: 2 :: fibsFrom half half 1 2
  let candidates := fibs.filter fun f => decide (f > 0 ∧ f ≤ half)
  let chosen :=
    if candidates.isEmpty then [1]
    else
      let step := max (candidates.length / degree) 1
      ((List.range' 0 (divCeil candidates.length step) step).map
        fun i => candidates.getD i 0).take degree
  new n chosen

def neighbors (g : CayleyGraph) (u : Nat) : Option (List Nat) := do
  let hops ← g.jumps.mapM fun s => do
    let up ← checkedAdd u s
    let sum ← checkedAdd u g.n
    let down ← checkedSub sum s
    return [up % g.n, down % g.n]
  return hops.flatten

/-- Breadth-first search with its two tables over the nodes. -/
def shortestPath (g : CayleyGraph) (from_ to_ : Nat) : Except (Fault CayleyError) (List Nat) :=
  if from_ ≥ g.n ∨ to_ ≥ g.n then .error (.error (.outOfRange (max from_ to_) g.n))
  else if from_ = to_ then .ok [from_]
  else if 16 * g.n > 2 ^ 63 - 1 then .error .panic
  else
    match BreadthFirst.search g.neighbors to_ g.n (g.n + 1) (.start from_) with
    | none => .error .panic
    | some none => .error (.error (.noPath from_ to_))
    | some (some path) => .ok path

/-- The first of the neighbours that are nearest to the target. -/
def bestHop (g : CayleyGraph) (cur to_ : Nat) : Option Nat := do
  let vs ← g.neighbors cur
  let keyed ← vs.mapM fun v => do return (v, ← cyclicDist v to_ g.n)
  let best ← keyed.argmin Prod.snd
  return best.1

def greedyLoop (g : CayleyGraph) (from_ to_ : Nat) :
    Nat → Nat → List Nat → Except (Fault CayleyError) (List Nat)
  | 0, cur, path => if cur = to_ then .ok path else .error (.error (.noPath from_ to_))
  | steps + 1, cur, path =>
      if cur = to_ then .ok path
      else
        match g.bestHop cur to_ with
        | none => .error .panic
        | some best => g.greedyLoop from_ to_ steps best (path ++ [best])

def greedyRoute (g : CayleyGraph) (from_ to_ : Nat) : Except (Fault CayleyError) (List Nat) :=
  if from_ ≥ g.n ∨ to_ ≥ g.n then .error (.error (.outOfRange (max from_ to_) g.n))
  else
    match checkedAdd g.n 1 with
    | none => .error .panic
    | some cap => g.greedyLoop from_ to_ cap from_ [from_]

end CayleyGraph

/-! ## Jumps -/

theorem mem_dedupRuns {l : List Nat} {x : Nat} : x ∈ dedupRuns l ↔ x ∈ l := by
  fun_induction dedupRuns l with
  | case1 b rest ih => simp [ih]
  | case2 a b rest hne ih =>
      rw [List.mem_cons, ih, List.mem_cons (b := a)]
  | case3 l _ => rfl

theorem normalizeJump_le {n : Nat} (hn : 0 < n) (s : Nat) : normalizeJump n s ≤ n := by
  have hmod := Nat.mod_lt s hn
  unfold normalizeJump
  dsimp only
  split_ifs <;> omega

theorem normalizeJump_one {n : Nat} (hn : 2 ≤ n) : normalizeJump n 1 = 1 := by
  have hmod : 1 % n = 1 := Nat.mod_eq_of_lt hn
  unfold normalizeJump
  rw [hmod]
  dsimp only
  split_ifs <;> omega

/-- The loop that makes the Fibonacci numbers ends by itself. -/
theorem fibsFrom_of_enough (half extra : Nat) {fuel a b : Nat} (ha : 0 < a) (hb : 0 < b)
    (hfuel : half ≤ fuel + b) : fibsFrom half (fuel + extra) a b = fibsFrom half fuel a b := by
  induction fuel generalizing a b with
  | zero =>
      have hstop : ¬ b < half := by omega
      cases extra with
      | zero => rfl
      | succ extra => rw [Nat.zero_add, fibsFrom, fibsFrom, if_neg hstop]
  | succ fuel ih =>
      rw [Nat.add_right_comm, fibsFrom, fibsFrom]
      split
      · rw [ih hb (by omega) (by omega)]
      · rfl

namespace CayleyGraph

theorem mem_jumps_new {n : Nat} {jumps : List Nat} {x : Nat} :
    x ∈ (new n jumps).jumps ↔ ∃ s ∈ jumps, normalizeJump n s = x := by
  rw [new, mem_dedupRuns, List.mem_insertionSort, List.mem_map]

theorem jumps_new_le {n : Nat} (hn : 0 < n) {jumps : List Nat} {x : Nat}
    (hx : x ∈ (new n jumps).jumps) : x ≤ n := by
  obtain ⟨s, -, rfl⟩ := mem_jumps_new.mp hx
  exact normalizeJump_le hn s

/-- Whatever the degree, the step to the next node is among the chosen jumps. -/
theorem one_mem_fibonacciJumps {n degree : Nat} (hn : 2 ≤ n) (hd : 1 ≤ degree) :
    1 ∈ (fibonacciJumps n degree).jumps := by
  unfold fibonacciJumps
  dsimp only
  rw [mem_jumps_new]
  refine ⟨1, ?_, normalizeJump_one hn⟩
  have hcand : ∃ rest, (1 :: 2 :: fibsFrom (n / 2) (n / 2) 1 2).filter
      (fun f => decide (f > 0 ∧ f ≤ n / 2)) = 1 :: rest := by
    refine ⟨_, List.filter_cons_of_pos ?_⟩
    rw [decide_eq_true_eq]
    omega
  obtain ⟨rest, hrest⟩ := hcand
  rw [hrest]
  rw [List.isEmpty_cons, if_neg Bool.false_ne_true]
  obtain ⟨degree, rfl⟩ := Nat.exists_eq_add_of_le' hd
  have hstep : 0 < max ((1 :: rest).length / (degree + 1)) 1 := by omega
  -- there is a first index, and it is 0
  have hcount := le_divCeil_mul (1 :: rest).length hstep
  generalize hc : divCeil (1 :: rest).length (max ((1 :: rest).length / (degree + 1)) 1) = count
  rw [hc] at hcount
  cases count with
  | zero =>
      rw [Nat.zero_mul] at hcount
      cases hcount
  | succ count =>
      rw [List.range'_succ, List.map_cons, List.take_succ_cons]
      exact List.mem_cons_self

/-! ## Neighbours and distance -/

/-- The neighbours, whatever the size of the numbers. -/
def around (g : CayleyGraph) (u : Nat) : List Nat :=
  g.jumps.flatMap fun s => [(u + s) % g.n, (u + g.n - s) % g.n]

theorem mem_around {g : CayleyGraph} {u v : Nat} :
    v ∈ g.around u ↔ ∃ s ∈ g.jumps, v = (u + s) % g.n ∨ v = (u + g.n - s) % g.n := by
  simp [around]

theorem around_lt {g : CayleyGraph} (hn : 0 < g.n) {u v : Nat} (hv : v ∈ g.around u) :
    v < g.n := by
  obtain ⟨s, -, rfl | rfl⟩ := mem_around.mp hv
  · exact Nat.mod_lt _ hn
  · exact Nat.mod_lt _ hn

theorem neighbors_eq_around {g : CayleyGraph} (hjumps : ∀ s ∈ g.jumps, s ≤ g.n) {u : Nat}
    (hu : u + g.n ≤ usizeMax) : g.neighbors u = some (g.around u) := by
  have hhops : (g.jumps.mapM fun s => do
      let up ← checkedAdd u s
      let sum ← checkedAdd u g.n
      let down ← checkedSub sum s
      return [up % g.n, down % g.n]) =
      some (g.jumps.map fun s => [(u + s) % g.n, (u + g.n - s) % g.n]) := by
    apply mapM_eq_some_map
    intro s hs
    have hle := hjumps s hs
    rw [checkedAdd_of_le (by omega), checkedAdd_of_le hu]
    simp only [Option.bind_eq_bind, Option.bind_some]
    rw [checkedSub_of_le (by omega)]
    rfl
  rw [neighbors, hhops, around, List.flatMap_def]
  rfl

/-- Where the node and the number of nodes add up to more than a word, there is no answer. -/
theorem neighbors_eq_none {g : CayleyGraph} (hjumps : g.jumps ≠ []) {u : Nat}
    (hu : usizeMax < u + g.n) : g.neighbors u = none := by
  obtain ⟨s, rest, hcons⟩ := List.exists_cons_of_ne_nil hjumps
  rw [neighbors, hcons, List.mapM_cons, checkedAdd_eq_none hu]
  cases checkedAdd u s <;> rfl

end CayleyGraph

/-- The shorter way around the ring, whatever the size of the numbers. -/
def ringDist (n a b : Nat) : Nat :=
  min ((a + n - b) % n) (n - (a + n - b) % n)

theorem cyclicDist_eq_ringDist {n a b : Nat} (hb : b < n) (ha : a + n ≤ usizeMax) :
    cyclicDist a b n = some (ringDist n a b) := by
  rw [cyclicDist, checkedAdd_of_le ha]
  simp only [Option.bind_eq_bind, Option.bind_some]
  rw [checkedSub_of_le (by omega)]
  rfl

theorem mod_of_lt_two_mul {x n : Nat} (hx : x < 2 * n) :
    x % n = if x < n then x else x - n := by
  split
  · rename_i hlt
    exact Nat.mod_eq_of_lt hlt
  · rename_i hge
    rw [Nat.mod_eq_sub_mod (by omega), Nat.mod_eq_of_lt (by omega)]

theorem ringDist_le (n a b : Nat) : ringDist n a b ≤ n / 2 := by
  unfold ringDist
  omega

theorem ringDist_of_le {n a b : Nat} (ha : a < n) (hle : b ≤ a) :
    ringDist n a b = min (a - b) (n - (a - b)) := by
  have hmod : (a + n - b) % n = a - b := by
    rw [mod_of_lt_two_mul (by omega), if_neg (by omega)]
    omega
  rw [ringDist, hmod]

theorem ringDist_of_lt {n a b : Nat} (hb : b < n) (hlt : a < b) :
    ringDist n a b = min (n - (b - a)) (b - a) := by
  have hmod : (a + n - b) % n = n - (b - a) := by
    rw [mod_of_lt_two_mul (by omega), if_pos (by omega)]
    omega
  rw [ringDist, hmod, Nat.sub_sub_self (by omega)]

/-- From every other node one of the two adjacent ones is nearer to the target. -/
theorem exists_adjacent_nearer {n cur to_ : Nat} (hcur : cur < n) (hto : to_ < n)
    (hne : cur ≠ to_) :
    ringDist n ((cur + 1) % n) to_ < ringDist n cur to_ ∨
      ringDist n ((cur + n - 1) % n) to_ < ringDist n cur to_ := by
  have hup : (cur + 1) % n = if cur + 1 < n then cur + 1 else cur + 1 - n :=
    mod_of_lt_two_mul (by omega)
  have hdown : (cur + n - 1) % n = if cur + n - 1 < n then cur + n - 1 else cur + n - 1 - n :=
    mod_of_lt_two_mul (by omega)
  rcases Nat.lt_or_gt_of_ne hne with hlt | hgt
  · -- the way up does not pass the end of the ring, the way down may
    have hup' : (cur + 1) % n = cur + 1 := by rw [hup, if_pos (by omega)]
    have hnear : ringDist n (cur + 1) to_ ≤ to_ - (cur + 1) := by
      rcases Nat.lt_or_eq_of_le (Nat.succ_le_of_lt hlt) with hless | heq
      · rw [ringDist_of_lt hto hless]
        omega
      · rw [ringDist_of_le (by omega) heq.ge]
        omega
    have hwrap : ringDist n ((cur + n - 1) % n) to_ ≤ n - (to_ - cur) - 1 := by
      rcases Nat.eq_zero_or_pos cur with rfl | hpos
      · rw [hdown, if_pos (by omega), ringDist_of_le (by omega) (by omega)]
        omega
      · rw [hdown, if_neg (by omega), ringDist_of_lt hto (by omega)]
        omega
    rw [hup', ringDist_of_lt hto hlt]
    omega
  · have hdown' : (cur + n - 1) % n = cur - 1 := by
      rw [hdown, if_neg (by omega)]
      omega
    have hnear : ringDist n (cur - 1) to_ ≤ cur - 1 - to_ := by
      rw [ringDist_of_le (by omega) (by omega)]
      omega
    have hwrap : ringDist n ((cur + 1) % n) to_ ≤ n - (cur - to_) - 1 := by
      rcases Nat.lt_or_ge (cur + 1) n with hless | hge
      · rw [hup, if_pos hless, ringDist_of_le hless (by omega)]
        omega
      · rcases Nat.eq_zero_or_pos to_ with rfl | hpos
        · rw [hup, if_neg (by omega), ringDist_of_le (by omega) (Nat.zero_le _)]
          omega
        · rw [hup, if_neg (by omega), ringDist_of_lt hto (by omega)]
          omega
    rw [hdown', ringDist_of_le hcur hgt.le]
    omega

/-! ## Greedy routes -/

namespace CayleyGraph

/-- A route that comes nearer to its target with every hop. -/
structure Arrives (g : CayleyGraph) (from_ to_ : Nat) (path : List Nat) : Prop
    extends BreadthFirst.Walk g.around from_ to_ path where
  nearer : path.IsChain fun u v => ringDist g.n v to_ < ringDist g.n u to_
  hops : path.length ≤ g.n / 2 + 1

section Greedy

variable {g : CayleyGraph} {from_ to_ : Nat}

/-- The chosen hop is along an edge and leads nearer to the target. -/
theorem bestHop_spec (hone : 1 ∈ g.jumps) (hjumps : ∀ s ∈ g.jumps, s ≤ g.n)
    (hn : g.n ≤ 2 ^ 63) {cur : Nat} (hcur : cur < g.n) (hto : to_ < g.n) (hne : cur ≠ to_) :
    ∃ best, g.bestHop cur to_ = some best ∧ best ∈ g.around cur ∧
      ringDist g.n best to_ < ringDist g.n cur to_ := by
  have hfit : ∀ u, u < g.n → u + g.n ≤ usizeMax := by
    intro u hu
    unfold usizeMax
    omega
  have hkeyed : ((g.around cur).mapM fun v => do return (v, ← cyclicDist v to_ g.n)) =
      some ((g.around cur).map fun v => (v, ringDist g.n v to_)) := by
    apply mapM_eq_some_map
    intro v hv
    rw [cyclicDist_eq_ringDist hto (hfit v (around_lt (by omega) hv))]
    rfl
  -- one of the adjacent nodes is nearer, and the best hop is at least as near
  have hnear : ∃ v ∈ g.around cur, ringDist g.n v to_ < ringDist g.n cur to_ := by
    rcases exists_adjacent_nearer hcur hto hne with hup | hdown
    · exact ⟨_, mem_around.mpr ⟨1, hone, Or.inl rfl⟩, hup⟩
    · exact ⟨_, mem_around.mpr ⟨1, hone, Or.inr rfl⟩, hdown⟩
  obtain ⟨v, hv, hlt⟩ := hnear
  have hmem := List.mem_map_of_mem (f := fun v => (v, ringDist g.n v to_)) hv
  cases hbest : ((g.around cur).map fun v => (v, ringDist g.n v to_)).argmin Prod.snd with
  | none =>
      rw [List.argmin_eq_none.mp hbest] at hmem
      cases hmem
  | some best =>
      have hleast : best.2 ≤ ringDist g.n v to_ := List.le_of_mem_argmin hmem hbest
      obtain ⟨w, hw, rfl⟩ := List.mem_map.mp (List.argmin_mem hbest)
      refine ⟨w, ?_, hw, hleast.trans_lt hlt⟩
      rw [bestHop, neighbors_eq_around hjumps (hfit cur hcur)]
      simp only [Option.bind_eq_bind, Option.bind_some] at hkeyed ⊢
      rw [hkeyed, Option.bind_some, hbest]
      rfl

/-- What a loop at node `cur` with the path `path` to it still has to find. -/
structure Continues (g : CayleyGraph) (from_ to_ steps cur : Nat) (path rest : List Nat) : Prop
    extends BreadthFirst.Walk g.around cur to_ (cur :: rest) where
  loop : g.greedyLoop from_ to_ steps cur (path ++ [cur]) = .ok (path ++ cur :: rest)
  nearer : (cur :: rest).IsChain fun u v => ringDist g.n v to_ < ringDist g.n u to_
  hops : rest.length ≤ ringDist g.n cur to_

theorem continues_arrived (g : CayleyGraph) (from_ to_ steps : Nat) (path : List Nat) :
    g.Continues from_ to_ steps to_ path [] := by
  refine ⟨⟨rfl, rfl, List.isChain_singleton _⟩, ?_, List.isChain_singleton _, Nat.zero_le _⟩
  cases steps with
  | zero => rw [greedyLoop, if_pos rfl]
  | succ steps => rw [greedyLoop, if_pos rfl]

/-- From a node no further away than the remaining steps the loop arrives. -/
theorem greedyLoop_arrives (from_ : Nat) (hone : 1 ∈ g.jumps) (hjumps : ∀ s ∈ g.jumps, s ≤ g.n)
    (hn : g.n ≤ 2 ^ 63) (hto : to_ < g.n) (steps : Nat) {cur : Nat} (path : List Nat)
    (hcur : cur < g.n) (hsteps : ringDist g.n cur to_ ≤ steps) :
    ∃ rest, g.Continues from_ to_ steps cur path rest := by
  induction steps generalizing cur path with
  | zero =>
      by_cases harrived : cur = to_
      · exact harrived ▸ ⟨[], continues_arrived g from_ cur 0 path⟩
      · obtain ⟨_, -, -, hlt⟩ := bestHop_spec hone hjumps hn hcur hto harrived
        omega
  | succ steps ih =>
      by_cases harrived : cur = to_
      · exact harrived ▸ ⟨[], continues_arrived g from_ cur (steps + 1) path⟩
      · obtain ⟨best, hbest, hedge, hlt⟩ := bestHop_spec hone hjumps hn hcur hto harrived
        have hbestlt := around_lt (by omega) hedge
        obtain ⟨rest, h⟩ := ih (path ++ [cur]) hbestlt (by omega)
        refine ⟨best :: rest, ⟨rfl, ?_, ?_⟩, ?_, ?_, ?_⟩
        · rw [List.getLast?_cons_cons]
          exact h.last
        · exact List.isChain_cons_cons.mpr ⟨hedge, h.edges⟩
        · have hloop := h.loop
          rw [greedyLoop, if_neg harrived, hbest]
          simpa only [List.append_assoc, List.singleton_append] using hloop
        · exact List.isChain_cons_cons.mpr ⟨hlt, h.nearer⟩
        · have hhops := h.hops
          rw [List.length_cons]
          omega

theorem greedyRoute_arrives (hone : 1 ∈ g.jumps) (hjumps : ∀ s ∈ g.jumps, s ≤ g.n)
    (hn : g.n ≤ 2 ^ 63) (hfrom : from_ < g.n) (hto : to_ < g.n) :
    ∃ path, g.greedyRoute from_ to_ = .ok path ∧ g.Arrives from_ to_ path := by
  have hhalf := ringDist_le g.n from_ to_
  have hcap : g.n + 1 ≤ usizeMax := by
    unfold usizeMax
    omega
  obtain ⟨rest, h⟩ :=
    greedyLoop_arrives from_ hone hjumps hn hto (g.n + 1) [] hfrom (by omega)
  refine ⟨from_ :: rest, ?_, h.toWalk, h.nearer, ?_⟩
  · rw [greedyRoute, if_neg (by omega), checkedAdd_of_le hcap]
    exact h.loop
  · have hhops := h.hops
    rw [List.length_cons]
    omega

/-- A first hop that cannot be computed. -/
theorem greedyRoute_panics (hjumps : g.jumps ≠ []) (hfrom : from_ < g.n) (hto : to_ < g.n)
    (hne : from_ ≠ to_) (hover : usizeMax < from_ + g.n) :
    g.greedyRoute from_ to_ = .error .panic := by
  have hhop : g.bestHop from_ to_ = none := by
    rw [bestHop, neighbors_eq_none hjumps hover]
    rfl
  rw [greedyRoute, if_neg (by omega)]
  cases hcap : checkedAdd g.n 1 with
  | none => rfl
  | some cap =>
      rw [checkedAdd_eq_some hcap]
      dsimp only
      rw [greedyLoop, if_neg hne, hhop]

end Greedy

/-- Greedy routing on a Fibonacci overlay arrives, coming nearer with every hop, for all pairs of
nodes exactly while two of them always add up to a word. -/
theorem fibonacci_greedyRoute_arrives_iff {n degree : Nat} (hn : 2 ≤ n) (hd : 1 ≤ degree) :
    (∀ from_ to_, from_ < n → to_ < n → ∃ path,
      (fibonacciJumps n degree).greedyRoute from_ to_ = .ok path ∧
        (fibonacciJumps n degree).Arrives from_ to_ path) ↔ n ≤ 2 ^ 63 := by
  have hone := one_mem_fibonacciJumps hn hd
  have hsize : (fibonacciJumps n degree).n = n := rfl
  constructor
  · intro hall
    by_contra hbig
    obtain ⟨path, hok, -⟩ := hall (n - 1) 0 (by omega) (by omega)
    have hover : usizeMax < n - 1 + n := by
      unfold usizeMax
      omega
    rw [greedyRoute_panics (List.ne_nil_of_mem hone) (by omega) (by omega) (by omega) hover] at hok
    cases hok
  · intro hle from_ to_ hfrom hto
    exact greedyRoute_arrives hone (fun s hs => jumps_new_le (by omega) hs) hle hfrom hto

theorem fibonacci_greedyRoute_arrives_eight : ∃ path,
    (fibonacciJumps 8 2).greedyRoute 0 5 = .ok path ∧
      (fibonacciJumps 8 2).Arrives 0 5 path :=
  (fibonacci_greedyRoute_arrives_iff (n := 8) (by decide) (by decide)).mpr (by decide) 0 5
    (by decide) (by decide)

/-- On a ring with more nodes than half the words, the last one is left by a sum that is none. -/
theorem fibonacci_greedyRoute_overflows : ¬ ∃ path,
    (fibonacciJumps (2 ^ 63 + 1) 1).greedyRoute (2 ^ 63) (2 ^ 63 - 2) = .ok path ∧
      (fibonacciJumps (2 ^ 63 + 1) 1).Arrives (2 ^ 63) (2 ^ 63 - 2) path := by
  have hone : 1 ∈ (fibonacciJumps (2 ^ 63 + 1) 1).jumps :=
    one_mem_fibonacciJumps (by decide) (by decide)
  have hsize : (fibonacciJumps (2 ^ 63 + 1) 1).n = 2 ^ 63 + 1 := rfl
  rintro ⟨path, hok, -⟩
  have hover : usizeMax < 2 ^ 63 + (fibonacciJumps (2 ^ 63 + 1) 1).n := by
    rw [hsize]
    decide
  rw [greedyRoute_panics (List.ne_nil_of_mem hone) (by omega) (by omega) (by omega) hover] at hok
  cases hok

end CayleyGraph

end Dlr.Coding
