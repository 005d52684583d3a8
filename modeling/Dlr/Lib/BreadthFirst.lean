import Mathlib.Data.Finset.Card
import Mathlib.Data.List.Chain
import Mathlib.Data.List.Induction
import Mathlib.Logic.Function.Basic

/-!
# Breadth-first search

A search from a start node keeps the nodes it has seen, the node each of them was seen from and a
queue of nodes whose neighbours it has not looked at, and ends when it sees its goal. On a finite
graph it finds a walk of least length, or there is none.

## Implementation notes

The tables over the nodes are functions. The neighbours of a node may fail to be computed; the
results are for a graph inside which they do not. The loops take bounds, and enough for them is
the number of nodes.
-/

namespace Dlr.Lib.BreadthFirst

variable {V : Type*}

/-! ## Walks -/

/-- The nodes that are `k` steps away along some walk. -/
inductive Reach (next : V → List V) (start : V) : Nat → V → Prop
  | refl : Reach next start 0 start
  | step {k : Nat} {u v : V} (walk : Reach next start k u) (edge : v ∈ next u) :
      Reach next start (k + 1) v

/-- The steps of a shortest walk to a node. -/
structure Distance (next : V → List V) (start : V) (k : Nat) (v : V) : Prop where
  reach : Reach next start k v
  least : ∀ j, Reach next start j v → k ≤ j

/-- A list of nodes along edges, with its ends. -/
structure Walk (next : V → List V) (start goal : V) (p : List V) : Prop where
  head : p.head? = some start
  last : p.getLast? = some goal
  edges : p.IsChain fun u v => v ∈ next u

/-- A walk between its ends that no other one undercuts. -/
structure ShortestWalk (next : V → List V) (start goal : V) (p : List V) : Prop
    extends Walk next start goal p where
  least : ∀ q, Walk next start goal q → p.length ≤ q.length

theorem Walk.reach {next : V → List V} {start goal : V} {p : List V}
    (h : Walk next start goal p) : Reach next start (p.length - 1) goal := by
  induction p using List.reverseRecOn generalizing goal with
  | nil => cases h.head
  | append_singleton p v ih =>
      obtain rfl : v = goal := by simpa using h.last
      cases hp : p.getLast? with
      | none =>
          obtain rfl := List.getLast?_eq_none_iff.mp hp
          obtain rfl : v = start := by simpa using h.head
          exact .refl
      | some u =>
          have hne : p ≠ [] := by
            rintro rfl
            cases hp
          have hlen := List.length_pos_of_ne_nil hne
          obtain ⟨hchain, -, hlast⟩ := List.isChain_append.mp h.edges
          have hhead : p.head? = some start := by
            rw [← List.head?_append_of_ne_nil _ hne]
            exact h.head
          have hwalk := ih ⟨hhead, hp, hchain⟩
          have hedge : v ∈ next u := hlast u hp v rfl
          rw [List.length_append, List.length_singleton, Nat.add_sub_cancel]
          have hstep := Reach.step hwalk hedge
          rwa [Nat.sub_add_cancel hlen] at hstep

theorem Walk.snoc {next : V → List V} {start u v : V} {p : List V} (h : Walk next start u p)
    (hedge : v ∈ next u) : Walk next start v (p ++ [v]) := by
  refine ⟨?_, List.getLast?_concat, ?_⟩
  · rw [List.head?_append, h.head]
    rfl
  · apply h.edges.append (List.isChain_singleton v)
    intro x hx y hy
    rw [h.last] at hx
    cases hx
    cases hy
    exact hedge

/-- A map that takes edges to edges takes walks to walks. -/
theorem Walk.map {W : Type*} {next : V → List V} {next' : W → List W} {start goal : V}
    {p : List V} (h : Walk next start goal p) (f : V → W)
    (hf : ∀ u v, v ∈ next u → f v ∈ next' (f u)) : Walk next' (f start) (f goal) (p.map f) := by
  refine ⟨by rw [List.head?_map, h.head]; rfl, by rw [List.getLast?_map, h.last]; rfl, ?_⟩
  rw [List.isChain_map]
  exact h.edges.imp hf

theorem shortestWalk_of_distance {next : V → List V} {start goal : V} {p : List V} {k : Nat}
    (hwalk : Walk next start goal p) (hlen : p.length = k + 1)
    (hdist : Distance next start k goal) : ShortestWalk next start goal p := by
  refine ⟨hwalk, ?_⟩
  intro q hq
  have hle := hdist.least _ hq.reach
  have hpos : q ≠ [] := by
    rintro rfl
    cases hq.head
  have hlenq := List.length_pos_of_ne_nil hpos
  omega

/-! ## The search -/

structure Search (V : Type*) where
  visited : V → Bool
  prev : V → Option V
  queue : List V

variable [DecidableEq V]

/-- Only the start is seen. -/
def Search.start (start : V) : Search V where
  visited := Function.update (fun _ => false) start true
  prev := fun _ => none
  queue := [start]

/-- Node `v` is seen from `u`. -/
def Search.see (s : Search V) (v u : V) : Search V :=
  { s with visited := Function.update s.visited v true,
           prev := Function.update s.prev v (some u) }

def Search.push (s : Search V) (v : V) : Search V := { s with queue := s.queue ++ [v] }

/-- Look at the neighbours of `u` until the goal is among them. -/
def visit (goal u : V) : List V → Search V → Search V × Bool
  | [], s => (s, false)
  | v :: rest, s =>
      if s.visited v then visit goal u rest s
      else if v = goal then (s.see v u, true)
      else visit goal u rest ((s.see v u).push v)

/-- The nodes from `v` back to the start. -/
def backtrack (prev : V → Option V) : Nat → V → List V
  | 0, v => [v]
  | fuel + 1, v =>
      match prev v with
      | none => [v]
      | some u => v :: backtrack prev fuel u

/-- The search loop: a path, or none when the queue is empty. -/
def search (adj : V → Option (List V)) (goal : V) (size : Nat) :
    Nat → Search V → Option (Option (List V))
  | 0, _ => some none
  | fuel + 1, s =>
      match s.queue with
      | [] => some none
      | u :: queue => do
          let vs ← adj u
          match visit goal u vs { s with queue } with
          | (s, true) => some (some (backtrack s.prev size goal).reverse)
          | (s, false) => search adj goal size fuel s

/-! ## One node -/

theorem Search.visited_see (s : Search V) (v u w : V) :
    (s.see v u).visited w = if w = v then true else s.visited w :=
  Function.update_apply _ _ _ _

theorem Search.prev_see (s : Search V) (v u w : V) :
    (s.see v u).prev w = if w = v then some u else s.prev w :=
  Function.update_apply _ _ _ _

/-- What looking at the neighbours of a node does: the nodes `fresh` are seen from it. -/
structure Visited (goal u : V) (vs : List V) (s : Search V) (fresh : List V) (s' : Search V)
    (found : Bool) : Prop where
  nodup : fresh.Nodup
  edge : ∀ v ∈ fresh, v ∈ vs
  unseen : ∀ v ∈ fresh, s.visited v = false
  visited : ∀ v, s'.visited v = true ↔ s.visited v = true ∨ v ∈ fresh
  prev : ∀ v, s'.prev v = if v ∈ fresh then some u else s.prev v
  reached : found = true → goal ∈ fresh
  queue : found = false → s'.queue = s.queue ++ fresh ∧ goal ∉ fresh ∧
    ∀ v ∈ vs, s'.visited v = true

/-- A neighbour that was seen before changes nothing. -/
theorem Visited.skip {goal u v : V} {vs fresh : List V} {s s' : Search V} {found : Bool}
    (h : Visited goal u vs s fresh s' found) (hseen : s.visited v = true) :
    Visited goal u (v :: vs) s fresh s' found := by
  refine ⟨h.nodup, fun w hw => List.mem_cons_of_mem v (h.edge w hw), h.unseen, h.visited, h.prev,
    h.reached, ?_⟩
  intro hnot
  obtain ⟨hqueue, hgoal, hall⟩ := h.queue hnot
  refine ⟨hqueue, hgoal, ?_⟩
  intro w hw
  rcases List.mem_cons.mp hw with rfl | hmem
  · exact (h.visited w).mpr (Or.inl hseen)
  · exact hall w hmem

/-- The goal ends the look at the neighbours. -/
theorem visited_goal (goal u : V) (vs : List V) {s : Search V} (hnew : s.visited goal = false) :
    Visited goal u (goal :: vs) s [goal] (s.see goal u) true := by
  refine ⟨List.nodup_singleton goal, by simp, by simpa using hnew, ?_, ?_, by simp, by simp⟩
  · intro w
    rw [Search.visited_see]
    by_cases hw : w = goal <;> simp [hw]
  · intro w
    rw [Search.prev_see]
    by_cases hw : w = goal <;> simp [hw]

/-- A new neighbour is seen and queued before the rest is looked at. -/
theorem Visited.push {goal u v : V} {vs fresh : List V} {s s' : Search V} {found : Bool}
    (h : Visited goal u vs ((s.see v u).push v) fresh s' found) (hnew : s.visited v = false)
    (hgoal : v ≠ goal) : Visited goal u (v :: vs) s (v :: fresh) s' found := by
  have hunseen : ∀ w ∈ fresh, w ≠ v ∧ s.visited w = false := by
    intro w hw
    have hfree : (s.see v u).visited w = false := h.unseen w hw
    rw [Search.visited_see] at hfree
    split_ifs at hfree with hwv
    exact ⟨hwv, hfree⟩
  have hvisited : ∀ w, s'.visited w = true ↔ s.visited w = true ∨ w ∈ v :: fresh := by
    intro w
    have hsee : ((s.see v u).push v).visited w = if w = v then true else s.visited w :=
      s.visited_see v u w
    rw [h.visited, hsee, List.mem_cons]
    by_cases hw : w = v <;> simp [hw]
  refine ⟨List.nodup_cons.mpr ⟨fun hmem => (hunseen v hmem).1 rfl, h.nodup⟩, ?_, ?_, hvisited, ?_,
    ?_, ?_⟩
  · intro w hw
    rcases List.mem_cons.mp hw with rfl | hmem
    · exact List.mem_cons_self
    · exact List.mem_cons_of_mem v (h.edge w hmem)
  · intro w hw
    rcases List.mem_cons.mp hw with rfl | hmem
    · exact hnew
    · exact (hunseen w hmem).2
  · intro w
    have hsee : ((s.see v u).push v).prev w = if w = v then some u else s.prev w :=
      s.prev_see v u w
    rw [h.prev, hsee]
    by_cases hw : w = v <;> simp [hw]
  · intro hfound
    exact List.mem_cons_of_mem v (h.reached hfound)
  · intro hnot
    obtain ⟨hqueue, hgoalFresh, hall⟩ := h.queue hnot
    have hpush : ((s.see v u).push v).queue = s.queue ++ [v] := rfl
    refine ⟨by rw [hqueue, hpush, List.append_assoc, List.singleton_append], ?_, ?_⟩
    · rw [List.mem_cons, not_or]
      exact ⟨Ne.symm hgoal, hgoalFresh⟩
    · intro w hw
      rcases List.mem_cons.mp hw with rfl | hmem
      · exact (hvisited w).mpr (Or.inr List.mem_cons_self)
      · exact hall w hmem

theorem visit_spec (goal u : V) (vs : List V) (s : Search V) :
    ∃ fresh, Visited goal u vs s fresh (visit goal u vs s).1 (visit goal u vs s).2 := by
  induction vs generalizing s with
  | nil => exact ⟨[], by constructor <;> simp [visit]⟩
  | cons v rest ih =>
      rw [visit]
      by_cases hseen : s.visited v = true
      · rw [if_pos hseen]
        obtain ⟨fresh, h⟩ := ih s
        exact ⟨fresh, h.skip hseen⟩
      · rw [if_neg hseen]
        have hnew : s.visited v = false := by simpa using hseen
        by_cases hgoal : v = goal
        · subst hgoal
          rw [if_pos rfl]
          exact ⟨[v], visited_goal v u rest hnew⟩
        · rw [if_neg hgoal]
          obtain ⟨fresh, h⟩ := ih ((s.see v u).push v)
          exact ⟨v :: fresh, h.push hnew hgoal⟩

/-! ## The tree of seen nodes -/

/-- Every seen node has its distance from the start, one more than the node it was seen from. -/
structure Tree (next : V → List V) (start : V) (s : Search V) (seen : List V) (level : V → Nat) :
    Prop where
  nodup : seen.Nodup
  visited : ∀ v, s.visited v = true ↔ v ∈ seen
  root : start ∈ seen
  prev_root : s.prev start = none
  distance : ∀ v ∈ seen, Distance next start (level v) v
  parent : ∀ v ∈ seen, v ≠ start →
    ∃ u ∈ seen, s.prev v = some u ∧ v ∈ next u ∧ level v = level u + 1
  small : ∀ v ∈ seen, level v < seen.length

section Tree

variable {next : V → List V} {start goal : V} {s : Search V} {seen : List V} {level : V → Nat}

theorem tree_start (next : V → List V) (start : V) :
    Tree next start (Search.start start) [start] fun _ => 0 := by
  refine ⟨List.nodup_singleton start, ?_, List.mem_singleton_self start, rfl, ?_, ?_, ?_⟩
  · intro v
    have hvisited : (Search.start start).visited v = if v = start then true else false :=
      Function.update_apply (fun _ => false) start true v
    rw [hvisited, List.mem_singleton]
    by_cases hv : v = start <;> simp [hv]
  · intro v hv
    rw [List.mem_singleton.mp hv]
    exact ⟨.refl, fun j _ => Nat.zero_le j⟩
  · intro v hv hne
    exact absurd (List.mem_singleton.mp hv) hne
  · intro v _
    exact Nat.zero_lt_one

/-- Going back from a seen node gives a walk of its level. -/
theorem Tree.backtrack (h : Tree next start s seen level) (fuel : Nat) {v : V} (hv : v ∈ seen)
    (hfuel : level v ≤ fuel) :
    Walk next start v (backtrack s.prev fuel v).reverse ∧
      (BreadthFirst.backtrack s.prev fuel v).length = level v + 1 := by
  have hstart : level start = 0 := Nat.le_zero.mp ((h.distance start h.root).least 0 .refl)
  have hroot : Walk next start start [start] := ⟨rfl, rfl, List.isChain_singleton start⟩
  induction fuel generalizing v with
  | zero =>
      by_cases hvs : v = start
      · subst hvs
        exact ⟨hroot, by rw [hstart]; rfl⟩
      · obtain ⟨u, -, -, -, hlevel⟩ := h.parent v hv hvs
        omega
  | succ fuel ih =>
      rw [BreadthFirst.backtrack]
      by_cases hvs : v = start
      · subst hvs
        rw [h.prev_root]
        exact ⟨hroot, by rw [hstart]; rfl⟩
      · obtain ⟨u, hu, hprev, hedge, hlevel⟩ := h.parent v hv hvs
        obtain ⟨hwalk, hlen⟩ := ih hu (by omega)
        rw [hprev]
        refine ⟨?_, by rw [List.length_cons, hlen, hlevel]⟩
        rw [List.reverse_cons]
        exact hwalk.snoc hedge

/-- The levels after the nodes `fresh` were seen from `u`. -/
def levelWith (level : V → Nat) (u : V) (fresh : List V) (v : V) : Nat :=
  if v ∈ fresh then level u + 1 else level v

theorem levelWith_of_mem {u v : V} {fresh : List V} (h : v ∈ fresh) :
    levelWith level u fresh v = level u + 1 := if_pos h

theorem Tree.not_mem_seen (h : Tree next start s seen level) {u v : V} {fresh vs : List V}
    {s' : Search V} {found : Bool} (hvisit : Visited goal u vs s fresh s' found)
    (hv : v ∈ fresh) : v ∉ seen := by
  intro hmem
  have hunseen := hvisit.unseen v hv
  rw [(h.visited v).mpr hmem] at hunseen
  cases hunseen

theorem Tree.levelWith_of_mem_seen (h : Tree next start s seen level) {u v : V}
    {fresh vs : List V} {s' : Search V} {found : Bool}
    (hvisit : Visited goal u vs s fresh s' found) (hv : v ∈ seen) :
    levelWith level u fresh v = level v :=
  if_neg fun hmem => h.not_mem_seen hvisit hmem hv

omit [DecidableEq V] in
/-- The queue does not matter for the tree. -/
theorem Tree.withQueue (h : Tree next start s seen level) (queue : List V) :
    Tree next start { s with queue } seen level :=
  ⟨h.nodup, h.visited, h.root, h.prev_root, h.distance, h.parent, h.small⟩

/-- Where all nodes up to the level of `u` are seen, its new neighbours are one level further. -/
theorem Tree.grow (h : Tree next start s seen level) {u : V} {fresh : List V} {s' : Search V}
    {found : Bool} (hu : u ∈ seen) (hvisit : Visited goal u (next u) s fresh s' found)
    (hcomplete : ∀ k v, k ≤ level u → Reach next start k v → v ∈ seen) :
    Tree next start s' (seen ++ fresh) (levelWith level u fresh) := by
  have hfresh : ∀ v ∈ fresh, v ∉ seen := fun v => h.not_mem_seen hvisit
  have hold : ∀ v ∈ seen, levelWith level u fresh v = level v := fun v =>
    h.levelWith_of_mem_seen hvisit
  have hnew : ∀ v ∈ fresh, levelWith level u fresh v = level u + 1 := fun v => levelWith_of_mem
  refine ⟨?_, ?_, List.mem_append_left _ h.root, ?_, ?_, ?_, ?_⟩
  · rw [List.nodup_append]
    refine ⟨h.nodup, hvisit.nodup, ?_⟩
    rintro v hv w hw rfl
    exact hfresh v hw hv
  · intro v
    rw [hvisit.visited, h.visited, List.mem_append]
  · rw [hvisit.prev, if_neg fun hmem => hfresh start hmem h.root]
    exact h.prev_root
  · intro v hv
    rcases List.mem_append.mp hv with hmem | hmem
    · rw [hold v hmem]
      exact h.distance v hmem
    · rw [hnew v hmem]
      refine ⟨.step (h.distance u hu).reach (hvisit.edge v hmem), ?_⟩
      intro j hj
      by_contra hlt
      exact hfresh v hmem (hcomplete j v (by omega) hj)
  · intro v hv hne
    rw [hvisit.prev]
    rcases List.mem_append.mp hv with hmem | hmem
    · obtain ⟨w, hw, hprev, hedge, hlevel⟩ := h.parent v hmem hne
      refine ⟨w, List.mem_append_left _ hw, ?_, hedge, by rw [hold v hmem, hold w hw, hlevel]⟩
      rw [if_neg fun hin => hfresh v hin hmem, hprev]
    · refine ⟨u, List.mem_append_left _ hu, if_pos hmem, hvisit.edge v hmem, ?_⟩
      rw [hnew v hmem, hold u hu]
  · intro v hv
    rw [List.length_append]
    rcases List.mem_append.mp hv with hmem | hmem
    · have hlt := h.small v hmem
      rw [hold v hmem]
      omega
    · have hlt := h.small u hu
      have hpos := List.length_pos_of_mem hmem
      rw [hnew v hmem]
      omega

end Tree

/-! ## The queue -/

/-- The queue has seen nodes of level `d` and then of level `d + 1`, all nodes up to level `d` are
seen, and so are the neighbours of every seen node outside the queue. -/
structure Frontier (next : V → List V) (start goal : V) (s : Search V) (seen : List V)
    (level : V → Nat) (d : Nat) : Prop where
  mem : ∀ v ∈ s.queue, v ∈ seen
  head : ∀ v ∈ s.queue.head?, level v = d
  sorted : s.queue.Pairwise fun a b => level a ≤ level b
  upper : ∀ v ∈ s.queue, level v ≤ d + 1
  closed : ∀ u ∈ seen, u ∉ s.queue → ∀ v ∈ next u, v ∈ seen
  complete : ∀ k v, k ≤ d → Reach next start k v → v ∈ seen
  goal : goal ∉ seen

section Frontier

variable {next : V → List V} {start goal : V} {s : Search V} {seen : List V} {level : V → Nat}
  {d : Nat}

theorem frontier_start (next : V → List V) {start goal : V} (h : start ≠ goal) :
    Frontier next start goal (Search.start start) [start] (fun _ => 0) 0 := by
  refine ⟨fun v hv => hv, fun _ _ => rfl, List.pairwise_singleton _ _, fun _ _ => Nat.zero_le _,
    ?_, ?_, ?_⟩
  · intro u hu hnot
    exact absurd hu hnot
  · intro k v hk hreach
    obtain rfl := Nat.le_zero.mp hk
    cases hreach
    exact List.mem_singleton_self start
  · rw [List.mem_singleton]
    exact Ne.symm h

omit [DecidableEq V] in
/-- An empty queue leaves nothing unseen. -/
theorem Frontier.exhausted (h : Frontier next start goal s seen level d) (hroot : start ∈ seen)
    (hempty : s.queue = []) (k : Nat) : ¬ Reach next start k goal := by
  have hall : ∀ k v, Reach next start k v → v ∈ seen := by
    intro k v hreach
    induction hreach with
    | refl => exact hroot
    | step _ hedge ih =>
        refine h.closed _ ih ?_ _ hedge
        rw [hempty]
        exact List.not_mem_nil
  exact fun hreach => h.goal (hall k goal hreach)

section Advance

variable {u : V} {rest fresh : List V} {s' : Search V}

/-- The levels in the queue after its first node has been looked at. -/
theorem Frontier.bounds (htree : Tree next start s seen level)
    (h : Frontier next start goal s seen level d) (hqueue : s.queue = u :: rest)
    (hvisit : Visited goal u (next u) { s with queue := rest } fresh s' false) {v : V}
    (hv : v ∈ s'.queue) :
    d ≤ levelWith level u fresh v ∧ levelWith level u fresh v ≤ d + 1 := by
  have hlevel : level u = d := h.head u (by rw [hqueue]; rfl)
  have hsorted := h.sorted
  rw [hqueue, List.pairwise_cons] at hsorted
  rw [(hvisit.queue rfl).1] at hv
  rcases List.mem_append.mp hv with hmem | hmem
  · have hin : v ∈ s.queue := by
      rw [hqueue]
      exact List.mem_cons_of_mem u hmem
    rw [(htree.withQueue rest).levelWith_of_mem_seen hvisit (h.mem v hin)]
    exact ⟨hlevel ▸ hsorted.1 v hmem, h.upper v hin⟩
  · rw [levelWith_of_mem hmem, hlevel]
    exact ⟨Nat.le_succ d, le_refl _⟩

theorem Frontier.sorted_advance (htree : Tree next start s seen level)
    (h : Frontier next start goal s seen level d) (hqueue : s.queue = u :: rest)
    (hvisit : Visited goal u (next u) { s with queue := rest } fresh s' false) :
    s'.queue.Pairwise fun a b => levelWith level u fresh a ≤ levelWith level u fresh b := by
  have hlevel : level u = d := h.head u (by rw [hqueue]; rfl)
  have hsorted := h.sorted
  rw [hqueue, List.pairwise_cons] at hsorted
  have hrest : ∀ v ∈ rest, levelWith level u fresh v = level v := by
    intro v hv
    apply (htree.withQueue rest).levelWith_of_mem_seen hvisit
    apply h.mem
    rw [hqueue]
    exact List.mem_cons_of_mem u hv
  have hqueue' : s'.queue = rest ++ fresh := (hvisit.queue rfl).1
  rw [hqueue', List.pairwise_append]
  refine ⟨?_, ?_, ?_⟩
  · apply hsorted.2.imp_of_mem
    intro a b ha hb hle
    rwa [hrest a ha, hrest b hb]
  · apply List.pairwise_of_forall_mem_list
    intro a ha b hb
    rw [levelWith_of_mem ha, levelWith_of_mem hb]
  · intro a ha b hb
    have hin : a ∈ s'.queue := by
      rw [hqueue']
      exact List.mem_append_left _ ha
    rw [levelWith_of_mem hb, hlevel]
    exact (h.bounds htree hqueue hvisit hin).2

theorem Frontier.mem_advance (h : Frontier next start goal s seen level d)
    (hqueue : s.queue = u :: rest)
    (hvisit : Visited goal u (next u) { s with queue := rest } fresh s' false) :
    ∀ v ∈ s'.queue, v ∈ seen ++ fresh := by
  intro v hv
  rw [(hvisit.queue rfl).1] at hv
  rcases List.mem_append.mp hv with hmem | hmem
  · apply List.mem_append_left
    apply h.mem
    rw [hqueue]
    exact List.mem_cons_of_mem u hmem
  · exact List.mem_append_right _ hmem

theorem Frontier.closed_advance (htree : Tree next start s seen level)
    (h : Frontier next start goal s seen level d) (hqueue : s.queue = u :: rest)
    (hvisit : Visited goal u (next u) { s with queue := rest } fresh s' false) :
    ∀ w ∈ seen ++ fresh, w ∉ s'.queue → ∀ v ∈ next w, v ∈ seen ++ fresh := by
  obtain ⟨hqueue', -, hall⟩ := hvisit.queue rfl
  intro w hw hnot v hv
  rw [hqueue', List.mem_append, not_or] at hnot
  have hwseen : w ∈ seen := (List.mem_append.mp hw).resolve_right hnot.2
  by_cases hwu : w = u
  · have hvisited := hall v (hwu ▸ hv)
    rw [hvisit.visited] at hvisited
    rw [List.mem_append]
    exact hvisited.imp_left (htree.visited v).mp
  · apply List.mem_append_left
    apply h.closed w hwseen _ v hv
    rw [hqueue, List.mem_cons, not_or]
    exact ⟨hwu, hnot.1⟩

/-- After the first node of the queue has been looked at, the queue is at the same level or, when
that is used up, at the next one. -/
theorem Frontier.advance (htree : Tree next start s seen level)
    (h : Frontier next start goal s seen level d) (hqueue : s.queue = u :: rest)
    (hvisit : Visited goal u (next u) { s with queue := rest } fresh s' false) :
    ∃ d', Frontier next start goal s' (seen ++ fresh) (levelWith level u fresh) d' := by
  have hbounds := fun v => h.bounds htree hqueue hvisit (v := v)
  have hsorted := h.sorted_advance htree hqueue hvisit
  have hclosed := h.closed_advance htree hqueue hvisit
  have hgoal : goal ∉ seen ++ fresh := by
    rw [List.mem_append, not_or]
    exact ⟨h.goal, (hvisit.queue rfl).2.1⟩
  by_cases hsame : ∃ v ∈ s'.queue, levelWith level u fresh v = d
  · -- there are nodes of the same level left
    refine ⟨d, h.mem_advance hqueue hvisit, ?_, hsorted, fun v hv => (hbounds v hv).2, hclosed, ?_,
      hgoal⟩
    · intro v hv
      obtain ⟨tail, htail⟩ := List.head?_eq_some_iff.mp hv
      obtain ⟨w, hw, hlevelw⟩ := hsame
      have hlow := (hbounds v (by rw [htail]; exact List.mem_cons_self)).1
      rw [htail, List.pairwise_cons] at hsorted
      rw [htail, List.mem_cons] at hw
      rcases hw with rfl | hmem
      · exact hlevelw
      · have hle := hsorted.1 w hmem
        omega
    · intro k v hk hreach
      exact List.mem_append_left _ (h.complete k v hk hreach)
  · have hnext : ∀ v ∈ s'.queue, levelWith level u fresh v = d + 1 := by
      intro v hv
      obtain ⟨hlow, hhigh⟩ := hbounds v hv
      have hne : levelWith level u fresh v ≠ d := fun heq => hsame ⟨v, hv, heq⟩
      omega
    refine ⟨d + 1, h.mem_advance hqueue hvisit, ?_, hsorted,
      fun v hv => (hnext v hv).le.trans (Nat.le_succ _), hclosed, ?_, hgoal⟩
    · intro v hv
      exact hnext v (List.mem_of_head? hv)
    · intro k v hk hreach
      rcases Nat.lt_succ_iff_lt_or_eq.mp (Nat.lt_succ_of_le hk) with hlt | rfl
      · exact List.mem_append_left _ (h.complete k v (Nat.le_of_lt_succ hlt) hreach)
      · -- the node before it is at level `d` at most, so it is not in the queue
        cases hreach with
        | @step _ w _ hwalk hedge =>
            have hw : w ∈ seen := h.complete d w (le_refl d) hwalk
            refine hclosed w (List.mem_append_left _ hw) ?_ v hedge
            intro hin
            have hfar := hnext w hin
            rw [(htree.withQueue rest).levelWith_of_mem_seen hvisit hw] at hfar
            have hnear := (htree.distance w hw).least d hwalk
            omega

end Advance

end Frontier

/-! ## The loop -/

theorem Tree.length_le {next : V → List V} {start : V} {s : Search V} {seen : List V}
    {level : V → Nat} (h : Tree next start s seen level) {nodes : Finset V}
    (hsub : ∀ v ∈ seen, v ∈ nodes) : seen.length ≤ nodes.card := by
  rw [← List.toFinset_card_of_nodup h.nodup]
  apply Finset.card_le_card
  intro v hv
  exact hsub v (List.mem_toFinset.mp hv)

/-- A right answer: a shortest walk, or none where there is no walk. -/
def Answers (next : V → List V) (start goal : V) : Option (List V) → Prop
  | none => ∀ k, ¬ Reach next start k goal
  | some p => ShortestWalk next start goal p

section Loop

variable {adj : V → Option (List V)} {next : V → List V} {nodes : Finset V} {start goal : V}

theorem search_of_frontier (hadj : ∀ v ∈ nodes, adj v = some (next v))
    (hclosed : ∀ v ∈ nodes, ∀ w ∈ next v, w ∈ nodes) (fuel : Nat) {s : Search V} {seen : List V}
    {level : V → Nat} {d : Nat} (htree : Tree next start s seen level)
    (hfront : Frontier next start goal s seen level d) (hsub : ∀ v ∈ seen, v ∈ nodes)
    (hfuel : s.queue.length + nodes.card < fuel + seen.length) :
    ∃ r, search adj goal nodes.card fuel s = some r ∧ Answers next start goal r := by
  induction fuel generalizing s seen level d with
  | zero =>
      have hle := htree.length_le hsub
      omega
  | succ fuel ih =>
      rw [search]
      cases hqueue : s.queue with
      | nil => exact ⟨none, rfl, hfront.exhausted htree.root hqueue⟩
      | cons u rest =>
          have hu : u ∈ seen := hfront.mem u (by rw [hqueue]; exact List.mem_cons_self)
          have hlevel : level u = d := hfront.head u (by rw [hqueue]; rfl)
          obtain ⟨fresh, hvisit⟩ := visit_spec goal u (next u) { s with queue := rest }
          have htree' := (htree.withQueue rest).grow hu hvisit
            fun k v hk => hfront.complete k v (hlevel ▸ hk)
          have hsub' : ∀ v ∈ seen ++ fresh, v ∈ nodes := by
            intro v hv
            rcases List.mem_append.mp hv with hmem | hmem
            · exact hsub v hmem
            · exact hclosed u (hsub u hu) v (hvisit.edge v hmem)
          simp only [hadj u (hsub u hu), Option.bind_eq_bind, Option.bind_some]
          generalize visit goal u (next u) { s with queue := rest } = outcome at hvisit htree'
          obtain ⟨s', found⟩ := outcome
          cases found with
          | true =>
              have hgoal := List.mem_append_right seen (hvisit.reached rfl)
              have hcard := htree'.length_le hsub'
              have hsmall := htree'.small goal hgoal
              obtain ⟨hwalk, hlen⟩ := htree'.backtrack nodes.card hgoal (by omega)
              refine ⟨_, rfl, ?_⟩
              exact shortestWalk_of_distance hwalk (by rw [List.length_reverse, hlen])
                (htree'.distance goal hgoal)
          | false =>
              obtain ⟨d', hfront'⟩ := hfront.advance htree hqueue hvisit
              refine ih htree' hfront' hsub' ?_
              have hqueue' : s'.queue = rest ++ fresh := (hvisit.queue rfl).1
              rw [hqueue, List.length_cons] at hfuel
              rw [hqueue', List.length_append, List.length_append]
              omega

/-- On a finite graph in which the neighbours are computed, the search gives a right answer. -/
theorem search_start (hadj : ∀ v ∈ nodes, adj v = some (next v))
    (hclosed : ∀ v ∈ nodes, ∀ w ∈ next v, w ∈ nodes) (hstart : start ∈ nodes)
    (hne : start ≠ goal) :
    ∃ r, search adj goal nodes.card (nodes.card + 1) (.start start) = some r ∧
      Answers next start goal r := by
  refine search_of_frontier hadj hclosed _ (tree_start next start) (frontier_start next hne) ?_ ?_
  · intro v hv
    rw [List.mem_singleton.mp hv]
    exact hstart
  · change 1 + nodes.card < nodes.card + 1 + 1
    omega

end Loop

end Dlr.Lib.BreadthFirst
