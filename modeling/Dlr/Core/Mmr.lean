import Dlr.Core.Merkle
import Dlr.Lib.HashTree
import Dlr.Lib.Traverse
import Mathlib.Data.Nat.BitIndices

/-!
# Merkle Mountain Range

An append-only forest of perfect binary trees over one arena of nodes. An append pushes a leaf
and links equal trees under new nodes; nothing in the arena ever changes. A root bags the
peaks, and an inclusion proof lists the siblings between a leaf and its peak.

## Implementation notes

An index outside the arena and a missing child are panics, `none` here; the results below
include that there are none. The loop of `append` looks at the last tree and pops it, so it
recurses over the trees from the last one on. Leaf numbers and arena indices are natural
numbers: the arena outgrows any memory before a counter wraps.
-/

namespace Dlr.Core

open Lib

abbrev MmrHash := Digest

section Hash

variable [Blake3]

/-- The hash of two children, behind the byte `M`. -/
def parent (left right : MmrHash) : MmrHash :=
  ((((⟨[]⟩ : Hasher).update [0x4D]).update left.bytes).update right.bytes).finalize

/-- The hash of a leaf, behind the byte `L`. -/
def leafH (id : BlockId) : MmrHash :=
  (((⟨[]⟩ : Hasher).update [0x4C]).update id.bytes).finalize

end Hash

/-- One node in the tree arena. -/
structure MmrNode where
  hash : MmrHash
  left : Option Nat
  right : Option Nat
  deriving DecidableEq

/-- A perfect tree: its root in the arena and the leaves it covers. -/
structure MmrTree where
  root : Nat
  height : Nat
  /-- First leaf covered. -/
  base : Nat
  deriving DecidableEq

def MmrTree.leafCount (t : MmrTree) : Nat := 2 ^ t.height

/-- Whether leaf `i` is in the range of a tree. -/
def MmrTree.covers (t : MmrTree) (i : Nat) : Bool :=
  decide (t.base ≤ i ∧ i < t.base + t.leafCount)

theorem MmrTree.covers_iff {t : MmrTree} {i : Nat} :
    t.covers i = true ↔ t.base ≤ i ∧ i < t.base + t.leafCount :=
  decide_eq_true_iff

structure Mmr where
  trees : List MmrTree := []
  leaves : Nat := 0
  arena : List MmrNode := []
  deriving DecidableEq

namespace Mmr

def hashAt (arena : List MmrNode) (node : Nat) : Option MmrHash := arena[node]?.map MmrNode.hash

section Operations

variable [Blake3]

/-- Merge a tree with the last ones while they are as high as it is. -/
def mergeLast (arena : List MmrNode) (tree : MmrTree) :
    List MmrTree → Option (List MmrNode × MmrTree × List MmrTree)
  | [] => some (arena, tree, [])
  | prev :: rest =>
      if prev.height = tree.height then do
        let left ← hashAt arena prev.root
        let right ← hashAt arena tree.root
        mergeLast (arena ++ [⟨parent left right, some prev.root, some tree.root⟩])
          ⟨arena.length, prev.height + 1, prev.base⟩ rest
      else some (arena, tree, prev :: rest)

def append (m : Mmr) (id : BlockId) : Option Mmr := do
  let arena := m.arena ++ [⟨leafH id, none, none⟩]
  let (arena, tree, rest) ← mergeLast arena ⟨m.arena.length, 0, m.leaves⟩ m.trees.reverse
  return ⟨rest.reverse ++ [tree], m.leaves + 1, arena⟩

/-- The range after some appends. -/
def appendAll (m : Mmr) (ids : List BlockId) : Option Mmr := ids.foldlM append m

def peaks (m : Mmr) : Option (List MmrHash) := m.trees.mapM fun t => hashAt m.arena t.root

omit [Blake3] in
theorem length_zeros : (List.replicate 32 (0 : UInt8)).length = 32 := List.length_replicate

/-- Bag all peaks into a single root. -/
def root (m : Mmr) : Option MmrHash :=
  match m.trees with
  | [] => some ⟨List.replicate 32 0, length_zeros⟩
  | first :: rest => do
      let acc ← hashAt m.arena first.root
      rest.foldlM (fun acc t => do return parent acc (← hashAt m.arena t.root)) acc

/-- The steps from a node of height `h` down to a leaf: the sibling at each level, and whether
it stands to the left. -/
def descend (arena : List MmrNode) : Nat → Nat → Nat → Option (List (Nat × Bool))
  | 0, _, _ => some []
  | h + 1, node, leaf => do
      let half := 2 ^ h
      let n ← arena[node]?
      let leftRoot ← n.left
      let rightRoot ← n.right
      if leaf < half then
        return (rightRoot, false) :: (← descend arena h leftRoot leaf)
      else
        return (leftRoot, true) :: (← descend arena h rightRoot (leaf - half))

/-- The siblings from leaf `i` up to its peak. -/
def inclusionProof (m : Mmr) (i : Nat) : Option (List (MmrHash × Bool)) :=
  match m.trees.find? fun t => t.covers i with
  | none => some []
  | some tree => do
      let steps ← descend m.arena tree.height tree.root (i - tree.base)
      steps.reverse.mapM fun step => do return (← hashAt m.arena step.1, step.2)

def peakFromProof (leafId : BlockId) (proof : List (MmrHash × Bool)) : MmrHash :=
  proof.foldl (fun acc step => if step.2 then parent step.1 acc else parent acc step.1)
    (leafH leafId)

def verifyInclusion (m : Mmr) (i : Nat) (leafId : BlockId) : Option Bool :=
  match m.trees.find? fun t => t.covers i with
  | none => some false
  | some tree => do
      let proof ← m.inclusionProof i
      let peak ← hashAt m.arena tree.root
      return decide (peakFromProof leafId proof = peak)

end Operations

/-! ## The forest behind the arena -/

section Forest

variable [Blake3]

/-- Both hashes of the range as one function of what is hashed. -/
def hashInput : HashTree.Input BlockId MmrHash → MmrHash
  | .leaf id => leafH id
  | .node l r => parent l r

/-- The node at `idx` and those below it are the tree `t`. -/
def Holds (arena : List MmrNode) : Nat → HashTree BlockId → Prop
  | idx, .leaf id => arena[idx]? = some ⟨leafH id, none, none⟩
  | idx, .node l r => ∃ li ri,
      arena[idx]? = some ⟨(HashTree.node l r).digest hashInput, some li, some ri⟩ ∧
        Holds arena li l ∧ Holds arena ri r

theorem Holds.hashAt {arena : List MmrNode} {idx : Nat} {t : HashTree BlockId}
    (h : Holds arena idx t) : hashAt arena idx = some (t.digest hashInput) := by
  cases t with
  | leaf id =>
      rw [Mmr.hashAt, show arena[idx]? = _ from h]
      rfl
  | node l r =>
      obtain ⟨li, ri, hnode, -, -⟩ := h
      rw [Mmr.hashAt, hnode]
      rfl

/-- Nodes that are pushed later change nothing. -/
theorem Holds.append {arena : List MmrNode} {idx : Nat} {t : HashTree BlockId}
    (h : Holds arena idx t) (more : List MmrNode) : Holds (arena ++ more) idx t := by
  have hkeep : ∀ {j : Nat} {n : MmrNode}, arena[j]? = some n → (arena ++ more)[j]? = some n := by
    intro j n hj
    rw [List.getElem?_append_left (List.getElem?_eq_some_iff.mp hj).1, hj]
  induction t generalizing idx with
  | leaf id => exact hkeep h
  | node l r ihl ihr =>
      obtain ⟨li, ri, hnode, hl, hr⟩ := h
      exact ⟨li, ri, hkeep hnode, ihl hl, ihr hr⟩

/-- The trees of a range, the last one first: each is perfect and starts where the ones before
it end. -/
inductive Mountains (arena : List MmrNode) : List MmrTree → List (HashTree BlockId) → Nat → Prop
  | nil : Mountains arena [] [] 0
  | cons {rest : List MmrTree} {ts : List (HashTree BlockId)} {tree : MmrTree}
      {t : HashTree BlockId} (hrest : Mountains arena rest ts tree.base)
      (holds : Holds arena tree.root t) (perfect : t.Perfect tree.height) :
      Mountains arena (tree :: rest) (t :: ts) (tree.base + 2 ^ tree.height)

theorem Mountains.cons_inv {arena : List MmrNode} {tree : MmrTree} {rest : List MmrTree}
    {ts : List (HashTree BlockId)} {n : Nat} (h : Mountains arena (tree :: rest) ts n) :
    ∃ t ts', ts = t :: ts' ∧ n = tree.base + 2 ^ tree.height ∧
      Mountains arena rest ts' tree.base ∧ Holds arena tree.root t ∧ t.Perfect tree.height := by
  cases h with
  | cons hrest holds perfect => exact ⟨_, _, rfl, rfl, hrest, holds, perfect⟩

theorem Mountains.append {arena : List MmrNode} {rev : List MmrTree}
    {ts : List (HashTree BlockId)} {n : Nat} (h : Mountains arena rev ts n)
    (more : List MmrNode) : Mountains (arena ++ more) rev ts n := by
  induction h with
  | nil => exact .nil
  | cons _ holds perfect ih => exact .cons ih (holds.append more) perfect

/-- The leaves of some trees, the last tree first. -/
def leavesOf : List (HashTree BlockId) → List BlockId
  | [] => []
  | t :: ts => leavesOf ts ++ t.leaves

theorem Mountains.length_leavesOf {arena : List MmrNode} {rev : List MmrTree}
    {ts : List (HashTree BlockId)} {n : Nat} (h : Mountains arena rev ts n) :
    (leavesOf ts).length = n := by
  induction h with
  | nil => rfl
  | cons _ _ perfect ih => rw [leavesOf, List.length_append, ih, perfect.length_leaves]

/-- Merging keeps the forest and its leaves, and ends with heights that differ. -/
theorem mergeLast_spec {arena : List MmrNode} {tree : MmrTree} {rev : List MmrTree}
    {t : HashTree BlockId} {ts : List (HashTree BlockId)} {n : Nat}
    (h : Mountains arena (tree :: rev) (t :: ts) n)
    (hlow : ∀ r ∈ rev, tree.height ≤ r.height)
    (hsorted : (rev.map MmrTree.height).Pairwise (· < ·)) :
    ∃ arena' tree' rev' ts', mergeLast arena tree rev = some (arena', tree', rev') ∧
      Mountains arena' (tree' :: rev') ts' n ∧
      ((tree' :: rev').map MmrTree.height).Pairwise (· < ·) ∧
      leavesOf ts' = leavesOf (t :: ts) := by
  induction rev generalizing arena tree t ts with
  | nil => exact ⟨arena, tree, [], t :: ts, rfl, h, by simp, rfl⟩
  | cons prev rest ih =>
      obtain ⟨_, _, hts, hn, hprev, holds, perfect⟩ := h.cons_inv
      obtain ⟨rfl, rfl⟩ := List.cons.inj hts
      obtain ⟨t', ts', rfl, hbase, hrest, holds', perfect'⟩ := hprev.cons_inv
      obtain ⟨habove, hsorted'⟩ := List.pairwise_cons.mp hsorted
      unfold mergeLast
      split_ifs with hheight
      · -- both trees go under one new node at the end of the arena
        rw [holds'.hashAt, holds.hashAt]
        simp only [Option.bind_eq_bind, Option.bind_some]
        set node : MmrNode :=
          ⟨parent (t'.digest hashInput) (t.digest hashInput), some prev.root, some tree.root⟩
        have hnode : Holds (arena ++ [node]) arena.length (.node t' t) :=
          ⟨prev.root, tree.root, by simp [node, HashTree.digest, hashInput],
            holds'.append _, holds.append _⟩
        have hperfect : (HashTree.node t' t).Perfect (prev.height + 1) :=
          .node perfect' (hheight ▸ perfect)
        have hmerged : Mountains (arena ++ [node])
            (⟨arena.length, prev.height + 1, prev.base⟩ :: rest) (.node t' t :: ts') n := by
          have htotal : n = prev.base + 2 ^ (prev.height + 1) := by
            rw [hn, hbase, ← hheight, Nat.pow_succ]
            omega
          rw [htotal]
          exact .cons (hrest.append [node]) hnode hperfect
        obtain ⟨arena', tree', rev', ts'', hloop, hmountains, hheights, hleaves⟩ := ih hmerged
          (fun r hr => habove _ (List.mem_map_of_mem hr)) hsorted'
        refine ⟨arena', tree', rev', ts'', hloop, hmountains, hheights, ?_⟩
        rw [hleaves]
        simp only [leavesOf, HashTree.leaves, List.append_assoc]
      · refine ⟨arena, tree, prev :: rest, _, rfl, h, ?_, rfl⟩
        refine List.pairwise_cons.mpr ⟨?_, hsorted⟩
        have hlt : tree.height < prev.height :=
          Nat.lt_of_le_of_ne (hlow prev List.mem_cons_self) (Ne.symm hheight)
        intro height hmem
        rw [List.map_cons, List.mem_cons] at hmem
        cases hmem with
        | inl heq => exact heq ▸ hlt
        | inr hrest => exact hlt.trans (habove _ hrest)

/-- A range over `ids`, with the trees its arena stands for. -/
structure Represents (m : Mmr) (ids : List BlockId) (ts : List (HashTree BlockId)) : Prop where
  mountains : Mountains m.arena m.trees.reverse ts m.leaves
  sorted : (m.trees.reverse.map MmrTree.height).Pairwise (· < ·)
  leaves : leavesOf ts = ids

theorem represents_empty : Represents {} [] [] := ⟨.nil, by simp, rfl⟩

theorem Represents.append {m : Mmr} {ids : List BlockId} {ts : List (HashTree BlockId)}
    (h : m.Represents ids ts) (id : BlockId) :
    ∃ m' ts', m.append id = some m' ∧ m'.Represents (ids ++ [id]) ts' := by
  have hleaf : Holds (m.arena ++ [⟨leafH id, none, none⟩]) m.arena.length (.leaf id) := by
    simp [Holds]
  have hmountains : Mountains (m.arena ++ [⟨leafH id, none, none⟩])
      (⟨m.arena.length, 0, m.leaves⟩ :: m.trees.reverse) (.leaf id :: ts) (m.leaves + 1) :=
    .cons (h.mountains.append _) hleaf (.leaf id)
  obtain ⟨arena', tree', rev', ts', hloop, hmountains', hheights, hleaves⟩ :=
    mergeLast_spec hmountains (fun _ _ => Nat.zero_le _) h.sorted
  refine ⟨⟨rev'.reverse ++ [tree'], m.leaves + 1, arena'⟩, ts', ?_, ?_, ?_, ?_⟩
  · simp only [Mmr.append, hloop]
    rfl
  · simpa using hmountains'
  · simpa using hheights
  · rw [hleaves, leavesOf, h.leaves]
    rfl

theorem Represents.appendAll {m : Mmr} {ids : List BlockId} {ts : List (HashTree BlockId)}
    (h : m.Represents ids ts) (more : List BlockId) :
    ∃ m' ts', m.appendAll more = some m' ∧ m'.Represents (ids ++ more) ts' := by
  induction more generalizing m ids ts with
  | nil => exact ⟨m, ts, rfl, by simpa using h⟩
  | cons id rest ih =>
      obtain ⟨m₁, ts₁, happend, h₁⟩ := h.append id
      obtain ⟨m₂, ts₂, hrest, h₂⟩ := ih h₁
      refine ⟨m₂, ts₂, ?_, by simpa using h₂⟩
      rw [Mmr.appendAll, List.foldlM_cons, happend]
      exact hrest

/-! ## The shape of the range -/

/-- Trees that cover the leaves from `start` to `stop` one after the other. -/
def Contiguous (start : Nat) : List MmrTree → Nat → Prop
  | [], stop => start = stop
  | t :: rest, stop => t.base = start ∧ Contiguous (start + t.leafCount) rest stop

omit [Blake3] in
theorem contiguous_concat {trees : List MmrTree} {tree : MmrTree} {start : Nat}
    (h : Contiguous start trees tree.base) :
    Contiguous start (trees ++ [tree]) (tree.base + tree.leafCount) := by
  induction trees generalizing start with
  | nil =>
      have hstart : start = tree.base := h
      exact ⟨hstart.symm, by rw [hstart]; rfl⟩
  | cons t rest ih => exact ⟨h.1, ih h.2⟩

theorem Mountains.contiguous {arena : List MmrNode} {rev : List MmrTree}
    {ts : List (HashTree BlockId)} {n : Nat} (h : Mountains arena rev ts n) :
    Contiguous 0 rev.reverse n := by
  induction h with
  | nil => rfl
  | cons _ _ _ ih =>
      rw [List.reverse_cons]
      exact contiguous_concat ih

/-- The heights are the binary digits of the number of leaves. -/
theorem Represents.heights {m : Mmr} {ids : List BlockId} {ts : List (HashTree BlockId)}
    (h : m.Represents ids ts) :
    m.trees.reverse.map MmrTree.height = m.leaves.bitIndices := by
  have hsum : ∀ {rev : List MmrTree} {ts : List (HashTree BlockId)} {n : Nat},
      Mountains m.arena rev ts n →
        ((rev.map MmrTree.height).map fun i => 2 ^ i).sum = n := by
    intro rev ts n hm
    induction hm with
    | nil => rfl
    | cons _ _ _ ih =>
        rw [List.map_cons, List.map_cons, List.sum_cons, ih, Nat.add_comm]
  rw [← hsum h.mountains, Nat.bitIndices_sum_map_two_pow h.sorted.sortedLT]

/-! ## Inclusion proofs -/

/-- A tree of the range covers every leaf number below `n`, and none covers another. -/
theorem Mountains.find {arena : List MmrNode} {rev : List MmrTree}
    {ts : List (HashTree BlockId)} {n : Nat} (h : Mountains arena rev ts n) (i : Nat) :
    (n ≤ i → rev.reverse.find? (fun t => t.covers i) = none) ∧
      (i < n → ∃ tree, rev.reverse.find? (fun t => t.covers i) = some tree) := by
  induction h with
  | nil => exact ⟨fun _ => rfl, fun hi => absurd hi (Nat.not_lt_zero i)⟩
  | @cons rest ts tree t hrest holds perfect ih =>
      change (tree.base + tree.leafCount ≤ i → _) ∧ (i < tree.base + tree.leafCount → _)
      rw [List.reverse_cons, List.find?_append]
      constructor
      · intro hi
        have hnot : ¬ tree.covers i = true := by
          rw [MmrTree.covers_iff]
          omega
        rw [ih.1 (by omega)]
        simp [hnot]
      · intro hi
        by_cases hbefore : i < tree.base
        · obtain ⟨found, hfind⟩ := ih.2 hbefore
          exact ⟨found, by rw [hfind]; rfl⟩
        · have hcovers : tree.covers i = true := by
            rw [MmrTree.covers_iff]
            omega
          refine ⟨tree, ?_⟩
          rw [ih.1 (by omega)]
          simp [hcovers]

/-- A tree of the range stands for `t`, and its leaves are those of the log from its base on. -/
structure Stands (arena : List MmrNode) (log : List BlockId) (tree : MmrTree)
    (t : HashTree BlockId) : Prop where
  holds : Holds arena tree.root t
  perfect : t.Perfect tree.height
  leaves : ∀ k a, t.leaves[k]? = some a → log[tree.base + k]? = some a

theorem Mountains.mem {arena : List MmrNode} {rev : List MmrTree}
    {ts : List (HashTree BlockId)} {n : Nat} (h : Mountains arena rev ts n) {tree : MmrTree}
    (hmem : tree ∈ rev) : ∃ t, Stands arena (leavesOf ts) tree t := by
  induction h with
  | nil => cases hmem
  | @cons rest ts last t hrest holds perfect ih =>
      have hlen := hrest.length_leavesOf
      cases List.mem_cons.mp hmem with
      | inl heq =>
          subst heq
          refine ⟨t, holds, perfect, ?_⟩
          intro k a hk
          rw [leavesOf, List.getElem?_append_right (by omega), hlen, Nat.add_sub_cancel_left, hk]
      | inr hbefore =>
          obtain ⟨t', hstands⟩ := ih hbefore
          refine ⟨t', hstands.holds, hstands.perfect, ?_⟩
          intro k a hk
          have hold := hstands.leaves k a hk
          rw [leavesOf, List.getElem?_append_left (List.getElem?_eq_some_iff.mp hold).1, hold]

theorem Represents.stands {m : Mmr} {ids : List BlockId} {ts : List (HashTree BlockId)}
    (h : m.Represents ids ts) {tree : MmrTree} (hmem : tree ∈ m.trees) :
    ∃ t, Stands m.arena ids tree t := by
  rw [← h.leaves]
  exact h.mountains.mem (List.mem_reverse.mpr hmem)

/-- The walk down from a node collects the siblings of the leaf. -/
theorem descend_spec {arena : List MmrNode} {h node leaf : Nat} {t : HashTree BlockId}
    (holds : Holds arena node t) (perfect : t.Perfect h) (hleaf : leaf < 2 ^ h) :
    ∃ steps, descend arena h node leaf = some steps ∧
      (steps.mapM fun step => do return (← hashAt arena step.1, step.2)) =
        some (t.siblings hashInput leaf) := by
  induction perfect generalizing node leaf with
  | leaf id => exact ⟨[], rfl, rfl⟩
  | @node h l r hl hr ihl ihr =>
      obtain ⟨li, ri, hnode, holdsl, holdsr⟩ := holds
      have hhalf : l.leaves.length = 2 ^ h := hl.length_leaves
      simp only [descend, hnode, HashTree.siblings, hhalf]
      by_cases hside : leaf < 2 ^ h
      · obtain ⟨steps, hsteps, hmap⟩ := ihl holdsl hside
        refine ⟨(ri, false) :: steps, ?_, ?_⟩
        · simp [hside, hsteps]
        · rw [List.mapM_cons, holdsr.hashAt, hmap, if_pos hside]
          rfl
      · have hrest : leaf - 2 ^ h < 2 ^ h := by
          rw [Nat.pow_succ] at hleaf
          omega
        obtain ⟨steps, hsteps, hmap⟩ := ihr holdsr hrest
        refine ⟨(li, true) :: steps, ?_, ?_⟩
        · simp [hside, hsteps]
        · rw [List.mapM_cons, holdsl.hashAt, hmap, if_neg hside]
          rfl

theorem peakFromProof_eq_climb (id : BlockId) (proof : List (MmrHash × Bool)) :
    peakFromProof id proof = HashTree.climb hashInput (hashInput (.leaf id)) proof := by
  unfold peakFromProof HashTree.climb
  congr 1
  funext acc step
  unfold HashTree.combine
  split_ifs <;> rfl

/-- The proof of a leaf is its path in the tree that covers it. -/
theorem Represents.inclusionProof {m : Mmr} {ids : List BlockId} {ts : List (HashTree BlockId)}
    (h : m.Represents ids ts) {i : Nat} {id : BlockId} (hi : ids[i]? = some id) :
    ∃ tree t, (m.trees.find? fun t => t.covers i) = some tree ∧ Stands m.arena ids tree t ∧
      t.leaves[i - tree.base]? = some id ∧
      m.inclusionProof i = some (t.siblings hashInput (i - tree.base)).reverse := by
  have hlt : i < m.leaves := by
    rw [← h.mountains.length_leavesOf, h.leaves]
    exact (List.getElem?_eq_some_iff.mp hi).1
  obtain ⟨tree, hfind⟩ := (h.mountains.find i).2 hlt
  rw [List.reverse_reverse] at hfind
  obtain ⟨t, hstands⟩ := h.stands (List.mem_of_find?_eq_some hfind)
  have hcovers : tree.covers i = true := by simpa using List.find?_some hfind
  obtain ⟨hbase, hend⟩ := MmrTree.covers_iff.mp hcovers
  have hlocal : i - tree.base < 2 ^ tree.height := Nat.sub_lt_left_of_lt_add hbase hend
  have hleaf : t.leaves[i - tree.base]? = some id := by
    have hget := List.getElem?_eq_getElem (hstands.perfect.length_leaves.symm ▸ hlocal)
    have hlog := hstands.leaves _ _ hget
    rw [Nat.add_sub_cancel' hbase, hi] at hlog
    rw [hget, hlog]
  obtain ⟨steps, hsteps, hmap⟩ := descend_spec hstands.holds hstands.perfect hlocal
  refine ⟨tree, t, hfind, hstands, hleaf, ?_⟩
  simp only [Mmr.inclusionProof, hfind, hsteps]
  exact mapM_reverse hmap

/-! ## What is hashed -/

/-- The bytes behind an input of the hash. -/
def encodeInput : HashTree.Input BlockId MmrHash → List UInt8
  | .leaf id => 0x4C :: id.bytes
  | .node l r => 0x4D :: (l.bytes ++ r.bytes)

theorem hashInput_eq (x : HashTree.Input BlockId MmrHash) :
    hashInput x = Blake3.hash (encodeInput x) := by
  cases x <;> simp [hashInput, encodeInput, leafH, parent, Hasher.update, Hasher.finalize]

omit [Blake3] in
theorem encodeInput_injective : Function.Injective encodeInput := by
  intro x y h
  cases x with
  | leaf a =>
      cases y with
      | leaf b =>
          obtain ⟨-, hbytes⟩ := List.cons.inj h
          cases a
          cases b
          simp_all
      | node l r => simp [encodeInput] at h
  | node l r =>
      cases y with
      | leaf b => simp [encodeInput] at h
      | node l' r' =>
          obtain ⟨hl, hr⟩ := digest_append_inj (List.cons.inj h).2
          rw [hl, hr]

/-- Without collisions among `S`, both hashes are injective there and their ranges disjoint. -/
theorem hashInput_injOn {S : Set (List UInt8)} (hS : Set.InjOn Blake3.hash S) :
    Set.InjOn hashInput {x | encodeInput x ∈ S} := by
  intro x hx y hy h
  rw [hashInput_eq, hashInput_eq] at h
  exact encodeInput_injective (hS hx hy h)

/-- What was hashed for a node that links two others. -/
def linkInput (arena : List MmrNode) (n : MmrNode) : Option (List UInt8) := do
  let left ← hashAt arena (← n.left)
  let right ← hashAt arena (← n.right)
  return 0x4D :: (left.bytes ++ right.bytes)

/-- What was hashed to build the range. -/
def hashed (m : Mmr) (ids : List BlockId) : List (List UInt8) :=
  (ids.map fun id => 0x4C :: id.bytes) ++ m.arena.filterMap (linkInput m.arena)

/-- What is hashed to check a proof. -/
def proofInputs (id : BlockId) (proof : List (MmrHash × Bool)) : List (List UInt8) :=
  (HashTree.Input.leaf id :: HashTree.climbInputs hashInput (leafH id) proof).map encodeInput

theorem Holds.inputs {m : Mmr} {ids : List BlockId} {idx : Nat} {t : HashTree BlockId}
    (h : Holds m.arena idx t) (hids : ∀ id ∈ t.leaves, id ∈ ids) :
    ∀ x ∈ t.inputs hashInput, encodeInput x ∈ m.hashed ids := by
  induction t generalizing idx with
  | leaf id =>
      intro x hx
      rw [HashTree.inputs, List.mem_singleton] at hx
      subst hx
      exact List.mem_append_left _ (List.mem_map_of_mem (hids id List.mem_cons_self))
  | node l r ihl ihr =>
      obtain ⟨li, ri, hnode, hl, hr⟩ := h
      intro x hx
      cases List.mem_cons.mp hx with
      | inl hroot =>
          subst hroot
          refine List.mem_append_right _ (List.mem_filterMap.mpr ?_)
          refine ⟨_, List.mem_of_getElem? hnode, ?_⟩
          simp [linkInput, hl.hashAt, hr.hashAt, encodeInput]
      | inr hbelow =>
          cases List.mem_append.mp hbelow with
          | inl hx => exact ihl hl (fun id hid => hids id (List.mem_append_left _ hid)) x hx
          | inr hx => exact ihr hr (fun id hid => hids id (List.mem_append_right _ hid)) x hx

section Sound

variable {m : Mmr} {ids : List BlockId} {ts : List (HashTree BlockId)} {S : Set (List UInt8)}
  {tree : MmrTree} {t : HashTree BlockId}

theorem Stands.mem_log (h : Stands m.arena ids tree t) {id : BlockId} (hid : id ∈ t.leaves) :
    ∃ j, tree.covers j = true ∧ ids[j]? = some id := by
  obtain ⟨k, hk⟩ := List.mem_iff_getElem?.mp hid
  have hlt : k < 2 ^ tree.height := by
    rw [← h.perfect.length_leaves]
    exact (List.getElem?_eq_some_iff.mp hk).1
  exact ⟨tree.base + k, MmrTree.covers_iff.mpr
    ⟨Nat.le_add_right _ _, Nat.add_lt_add_left hlt _⟩, h.leaves k id hk⟩

/-- Every input of a tree in the range was hashed to build it. -/
theorem Stands.inputs (h : Stands m.arena ids tree t) (hrun : ∀ x ∈ m.hashed ids, x ∈ S) :
    ∀ x ∈ t.inputs hashInput, x ∈ {x | encodeInput x ∈ S} := by
  intro x hx
  refine hrun _ (h.holds.inputs ?_ x hx)
  intro id hid
  obtain ⟨j, -, hj⟩ := h.mem_log hid
  exact List.mem_of_getElem? hj

/-- A leaf verifies exactly at the positions where it was appended. -/
theorem Represents.verifyInclusion_iff (h : m.Represents ids ts) (hS : Set.InjOn Blake3.hash S)
    (hrun : ∀ x ∈ m.hashed ids, x ∈ S) {i : Nat} {id : BlockId}
    (hproof : ∀ proof, m.inclusionProof i = some proof → ∀ x ∈ proofInputs id proof, x ∈ S) :
    ∃ b, m.verifyInclusion i id = some b ∧ (b = true ↔ ids[i]? = some id) := by
  cases hi : ids[i]? with
  | none =>
      have hle : m.leaves ≤ i := by
        rw [← h.mountains.length_leavesOf, h.leaves]
        exact List.getElem?_eq_none_iff.mp hi
      have hfind := (h.mountains.find i).1 hle
      rw [List.reverse_reverse] at hfind
      exact ⟨false, by simp only [verifyInclusion, hfind], by simp⟩
  | some id' =>
      obtain ⟨tree, t, hfind, hstands, hleaf, hinclusion⟩ := h.inclusionProof hi
      have hinputs : ∀ x ∈ proofInputs id _, x ∈ S := hproof _ hinclusion
      refine ⟨_, by simp only [verifyInclusion, hfind, hinclusion, hstands.holds.hashAt]; rfl, ?_⟩
      rw [decide_eq_true_iff, peakFromProof_eq_climb, ← HashTree.climb_siblings hleaf]
      constructor
      · intro hpeak
        have hstart := HashTree.climb_injOn (hashInput_injOn hS)
          (fun x hx => hinputs _ (List.mem_map_of_mem (List.mem_cons_of_mem _ hx)))
          (fun x hx => hstands.inputs hrun x (HashTree.climbInputs_siblings hleaf x hx)) hpeak
        have hid' : id' ∈ ids := List.mem_of_getElem? hi
        have hinput := hashInput_injOn hS (hinputs _ (List.mem_map_of_mem List.mem_cons_self))
          (hrun _ (List.mem_append_left _ (List.mem_map_of_mem hid'))) hstart
        rw [HashTree.Input.leaf.inj hinput]
      · intro hsame
        rw [Option.some.inj hsame]

/-- Whatever proof leads to the peak of a tree started at one of its leaves. -/
theorem Stands.mem_of_proof (h : Stands m.arena ids tree t) (hS : Set.InjOn Blake3.hash S)
    (hrun : ∀ x ∈ m.hashed ids, x ∈ S) {id : BlockId} {proof : List (MmrHash × Bool)}
    (hproof : ∀ x ∈ proofInputs id proof, x ∈ S)
    (hpeak : hashAt m.arena tree.root = some (peakFromProof id proof)) :
    ∃ j, tree.covers j = true ∧ ids[j]? = some id := by
  rw [h.holds.hashAt, peakFromProof_eq_climb] at hpeak
  apply h.mem_log
  refine HashTree.mem_leaves_of_climb (hashInput_injOn hS) (h.inputs hrun) ?_ ?_
    (Option.some.inj hpeak).symm
  · exact hproof _ (List.mem_map_of_mem List.mem_cons_self)
  · exact fun x hx => hproof _ (List.mem_map_of_mem (List.mem_cons_of_mem _ hx))

theorem Represents.peaks (h : m.Represents ids ts) : ∃ peaks, m.peaks = some peaks := by
  apply exists_mapM_eq_some
  intro tree hmem
  obtain ⟨t, hstands⟩ := h.stands hmem
  exact ⟨_, hstands.holds.hashAt⟩

end Sound

/-- After any appends the mountains are the binary digits of the number of leaves, every leaf
has a proof that leads to its peak, and without collisions among what is hashed only the
appended leaves verify or have a proof. -/
theorem inclusion_complete_and_sound (ids : List BlockId) :
    ∃ m peaks, Mmr.appendAll {} ids = some m ∧ m.peaks = some peaks ∧
      m.leaves = ids.length ∧ Contiguous 0 m.trees ids.length ∧
      (m.trees.map MmrTree.height).Pairwise (· > ·) ∧
      (m.trees.map MmrTree.height).reverse = ids.length.bitIndices ∧
      (∀ (i : Nat) (id : BlockId), ids[i]? = some id →
        ∃ (k : Nat) (tree : MmrTree) (proof : List (MmrHash × Bool)),
          m.trees[k]? = some tree ∧ tree.covers i = true ∧ m.inclusionProof i = some proof ∧
          peaks[k]? = some (peakFromProof id proof)) ∧
      ∀ S : Set (List UInt8), Set.InjOn Blake3.hash S → (∀ x ∈ m.hashed ids, x ∈ S) →
        (∀ (i : Nat) (id : BlockId),
          (∀ proof, m.inclusionProof i = some proof → ∀ x ∈ proofInputs id proof, x ∈ S) →
          ∃ b, m.verifyInclusion i id = some b ∧
            (b = true ↔ i < ids.length ∧ ids[i]? = some id)) ∧
        ∀ (id : BlockId) (proof : List (MmrHash × Bool)) (k : Nat),
          (∀ x ∈ proofInputs id proof, x ∈ S) → peaks[k]? = some (peakFromProof id proof) →
          ∃ (tree : MmrTree) (j : Nat), m.trees[k]? = some tree ∧ tree.covers j = true ∧
            ids[j]? = some id := by
  obtain ⟨m, ts, hm, h⟩ := represents_empty.appendAll ids
  rw [List.nil_append] at h
  obtain ⟨peaks, hpeaks⟩ := h.peaks
  have hleaves : m.leaves = ids.length := by rw [← h.mountains.length_leavesOf, h.leaves]
  have hcontiguous := h.mountains.contiguous
  have hheights := h.heights
  rw [List.reverse_reverse, hleaves] at hcontiguous
  rw [List.map_reverse, hleaves] at hheights
  have hpeak : ∀ k : Nat, peaks[k]? = m.trees[k]?.bind fun t => hashAt m.arena t.root :=
    getElem?_mapM hpeaks
  refine ⟨m, peaks, hm, hpeaks, hleaves, hcontiguous, ?_, hheights, ?_, ?_⟩
  · have hsorted := h.sorted
    rw [List.map_reverse] at hsorted
    exact List.pairwise_reverse.mp hsorted
  · intro i id hi
    obtain ⟨tree, t, hfind, hstands, hleaf, hproof⟩ := h.inclusionProof hi
    have hcovers : tree.covers i = true := by simpa using List.find?_some hfind
    obtain ⟨k, hk⟩ := List.mem_iff_getElem?.mp (List.mem_of_find?_eq_some hfind)
    refine ⟨k, tree, _, hk, hcovers, hproof, ?_⟩
    rw [hpeak k, hk, Option.bind_some, hstands.holds.hashAt, peakFromProof_eq_climb,
      HashTree.climb_siblings hleaf]
  · intro S hS hrun
    constructor
    · intro i id hproof
      obtain ⟨b, hverify, hiff⟩ := h.verifyInclusion_iff hS hrun hproof
      refine ⟨b, hverify, hiff.trans ?_⟩
      constructor
      · exact fun hi => ⟨(List.getElem?_eq_some_iff.mp hi).1, hi⟩
      · exact fun hi => hi.2
    · intro id proof k hproof hk
      rw [hpeak k] at hk
      obtain ⟨tree, htree, hhash⟩ := Option.bind_eq_some_iff.mp hk
      obtain ⟨t, hstands⟩ := h.stands (List.mem_of_getElem? htree)
      obtain ⟨j, hcovers, hj⟩ := hstands.mem_of_proof hS hrun hproof hhash
      exact ⟨tree, j, htree, hcovers, hj⟩

omit [Blake3] in
/-- Two leaves: the first position verifies the first leaf and not the second one. -/
theorem two_leaves_verify :
    letI := prefixHash
    let a : BlockId := ⟨List.replicate 32 1, rfl⟩
    let b : BlockId := ⟨List.replicate 32 2, rfl⟩
    ∃ m, Mmr.appendAll {} [a, b] = some m ∧ m.verifyInclusion 0 a = some true ∧
      m.verifyInclusion 0 b = some false := by
  let _ := prefixHash
  intro a b
  let m : Mmr := ⟨[⟨2, 1, 0⟩], 2, [⟨leafH a, none, none⟩, ⟨leafH b, none, none⟩,
    ⟨parent (leafH a) (leafH b), some 0, some 1⟩]⟩
  have hm : Mmr.appendAll {} [a, b] = some m := by decide +kernel
  have hproof : m.inclusionProof 0 = some [(leafH b, false)] := by decide +kernel
  let inputs := m.hashed [a, b] ++ proofInputs a [(leafH b, false)] ++
    proofInputs b [(leafH b, false)]
  have hinj : ∀ x ∈ inputs, ∀ y ∈ inputs, Blake3.hash x = Blake3.hash y → x = y := by
    decide +kernel
  obtain ⟨m', _, hm', _, _, _, _, _, _, hsound⟩ := inclusion_complete_and_sound [a, b]
  have hsame : m' = m := Option.some.inj (hm'.symm.trans hm)
  subst hsame
  obtain ⟨hverify, -⟩ := hsound {x | x ∈ inputs} (fun x hx y hy => hinj x hx y hy)
    fun x hx => List.mem_append_left _ (List.mem_append_left _ hx)
  obtain ⟨yes, hyes, hiff⟩ := hverify 0 a fun proof h x hx => by
    rw [Option.some.inj (h.symm.trans hproof)] at hx
    exact List.mem_append_left _ (List.mem_append_right _ hx)
  obtain ⟨no, hno, hiff'⟩ := hverify 0 b fun proof h x hx => by
    rw [Option.some.inj (h.symm.trans hproof)] at hx
    exact List.mem_append_right _ hx
  have hfalse : no = false := by
    rw [← Bool.not_eq_true]
    intro htrue
    exact absurd (hiff'.mp htrue).2 (by decide +kernel)
  refine ⟨m, hm, ?_, ?_⟩
  · rw [hyes, hiff.mpr ⟨by decide, rfl⟩]
  · rw [hno, hfalse]

/-! ## The root -/

/-- What was hashed to build the range and to bag its peaks. -/
def rootHashed (m : Mmr) (ids : List BlockId) : List (List UInt8) :=
  m.hashed ids ++ match m.peaks with
    | some (first :: rest) => (HashTree.bagInputs hashInput first rest).map encodeInput
    | _ => []

omit [Blake3] in
theorem leavesOf_eq (ts : List (HashTree BlockId)) :
    leavesOf ts = ts.reverse.flatMap HashTree.leaves := by
  induction ts with
  | nil => rfl
  | cons t ts ih =>
      rw [leavesOf, ih, List.reverse_cons, List.flatMap_append, List.flatMap_singleton]

theorem Mountains.forall₂ {arena : List MmrNode} {rev : List MmrTree}
    {ts : List (HashTree BlockId)} {n : Nat} (h : Mountains arena rev ts n) :
    List.Forall₂ (fun tree t => Holds arena tree.root t) rev ts := by
  induction h with
  | nil => exact .nil
  | cons _ holds _ ih => exact .cons holds ih

theorem bagPeaks_eq {arena : List MmrNode} {trees : List MmrTree} {ts : List (HashTree BlockId)}
    (h : List.Forall₂ (fun tree t => Holds arena tree.root t) trees ts) (acc : MmrHash) :
    trees.foldlM (fun acc t => do return parent acc (← hashAt arena t.root)) acc =
      some ((ts.map (HashTree.digest hashInput)).foldl parent acc) := by
  induction h generalizing acc with
  | nil => rfl
  | cons holds _ ih =>
      rw [List.foldlM_cons, holds.hashAt]
      exact ih _

theorem peaks_eq {m : Mmr} {ts : List (HashTree BlockId)}
    (h : List.Forall₂ (fun tree t => Holds m.arena tree.root t) m.trees ts) :
    m.peaks = some (ts.map (HashTree.digest hashInput)) := by
  apply mapM_eq_some_iff.mpr
  rw [List.forall₂_map_right_iff]
  exact h.imp fun _ _ holds => holds.hashAt

/-- The root of a range is the digest of one tree over all of its log, whose inputs were hashed
on the way; the empty range has the zero root. -/
theorem Represents.root {m : Mmr} {ids : List BlockId} {ts : List (HashTree BlockId)}
    (h : m.Represents ids ts) :
    (ids = [] ∧ m.root = some rootZero) ∨
      ∃ t : HashTree BlockId, t.leaves = ids ∧ m.root = some (t.digest hashInput) ∧
        ∀ x ∈ t.inputs hashInput, encodeInput x ∈ m.rootHashed ids := by
  have hall := List.forall₂_reverse_iff.mpr h.mountains.forall₂
  rw [List.reverse_reverse] at hall
  have hids : ids = ts.reverse.flatMap HashTree.leaves := by rw [← h.leaves, leavesOf_eq]
  have hpeaks := peaks_eq hall
  cases htrees : m.trees with
  | nil =>
      rw [htrees] at hall
      left
      rw [hids, (List.forall₂_nil_left_iff.mp hall), Mmr.root, htrees]
      exact ⟨rfl, rfl⟩
  | cons tree trees =>
      rw [htrees] at hall
      obtain ⟨t, rest, holds, hrest, hts⟩ := List.forall₂_cons_left_iff.mp hall
      right
      refine ⟨HashTree.bag t rest, ?_, ?_, ?_⟩
      · rw [HashTree.leaves_bag, hids, hts, List.flatMap_cons]
      · rw [Mmr.root, htrees, HashTree.digest_bag]
        simp only [holds.hashAt, Option.bind_eq_bind, Option.bind_some]
        exact bagPeaks_eq hrest _
      · intro x hx
        cases HashTree.inputs_bag x hx with
        | inl hold =>
            obtain ⟨t', ht', hx'⟩ := hold
            obtain ⟨tree', -, holds'⟩ := forall₂_exists hall.flip (hts ▸ ht')
            refine List.mem_append_left _ (holds'.inputs ?_ x hx')
            intro id hid
            rw [hids]
            exact List.mem_flatMap.mpr ⟨t', hts ▸ ht', hid⟩
        | inr hbag =>
            refine List.mem_append_right _ ?_
            rw [hpeaks, hts, List.map_cons]
            exact List.mem_map_of_mem hbag

/-- Equal roots over collision-free inputs commit to equal logs, whatever their lengths. -/
theorem root_binds_log (ids ids' : List BlockId) :
    ∃ m m' r r', Mmr.appendAll {} ids = some m ∧ Mmr.appendAll {} ids' = some m' ∧
      m.root = some r ∧ m'.root = some r' ∧
      ∀ S : Set (List UInt8), CollisionFree S → (∀ x ∈ m.rootHashed ids, x ∈ S) →
        (∀ x ∈ m'.rootHashed ids', x ∈ S) → r = r' → ids = ids' := by
  obtain ⟨m, ts, hm, h⟩ := represents_empty.appendAll ids
  obtain ⟨m', ts', hm', h'⟩ := represents_empty.appendAll ids'
  rw [List.nil_append] at h h'
  -- a tree is never hashed to the zero root
  have hne : ∀ {S : Set (List UInt8)} {t : HashTree BlockId}, CollisionFree S →
      (∀ x ∈ t.inputs hashInput, encodeInput x ∈ S) → t.digest hashInput ≠ rootZero := by
    intro S t hS hinputs
    cases t with
    | leaf id =>
        have hroot := hinputs (.leaf id) List.mem_cons_self
        exact fun heq => hS.ne_rootZero _ hroot ((hashInput_eq _).symm.trans heq)
    | node l r =>
        have hroot := hinputs (.node (l.digest hashInput) (r.digest hashInput)) List.mem_cons_self
        exact fun heq => hS.ne_rootZero _ hroot ((hashInput_eq _).symm.trans heq)
  rcases h.root with ⟨hnil, hroot⟩ | ⟨t, hleaves, hroot, hinputs⟩ <;>
    rcases h'.root with ⟨hnil', hroot'⟩ | ⟨t', hleaves', hroot', hinputs'⟩
  · exact ⟨m, m', _, _, hm, hm', hroot, hroot', fun _ _ _ _ _ => hnil.trans hnil'.symm⟩
  · refine ⟨m, m', _, _, hm, hm', hroot, hroot', ?_⟩
    intro S hS _ hrun' heq
    exact absurd heq.symm (hne hS fun x hx => hrun' _ (hinputs' x hx))
  · refine ⟨m, m', _, _, hm, hm', hroot, hroot', ?_⟩
    intro S hS hrun _ heq
    exact absurd heq (hne hS fun x hx => hrun _ (hinputs x hx))
  · refine ⟨m, m', _, _, hm, hm', hroot, hroot', ?_⟩
    intro S hS hrun hrun' heq
    have hsame := HashTree.digest_injOn (hashInput_injOn hS.injOn)
      (fun x hx => hrun _ (hinputs x hx)) (fun x hx => hrun' _ (hinputs' x hx)) heq
    rw [← hleaves, ← hleaves', hsame]

omit [Blake3] in
/-- A log and a proper prefix of it have different roots. -/
theorem root_binds_prefix :
    letI := prefixHash
    let a : BlockId := ⟨List.replicate 32 1, rfl⟩
    let b : BlockId := ⟨List.replicate 32 2, rfl⟩
    (Mmr.appendAll {} [a, b]).bind Mmr.root ≠ (Mmr.appendAll {} [a]).bind Mmr.root := by
  let _ := prefixHash
  intro a b
  let m : Mmr := ⟨[⟨2, 1, 0⟩], 2, [⟨leafH a, none, none⟩, ⟨leafH b, none, none⟩,
    ⟨parent (leafH a) (leafH b), some 0, some 1⟩]⟩
  let m' : Mmr := ⟨[⟨0, 0, 0⟩], 1, [⟨leafH a, none, none⟩]⟩
  have hm : Mmr.appendAll {} [a, b] = some m := by decide +kernel
  have hm' : Mmr.appendAll {} [a] = some m' := by decide +kernel
  let inputs := m.rootHashed [a, b] ++ m'.rootHashed [a]
  have hinj : ∀ x ∈ inputs, ∀ y ∈ inputs, Blake3.hash x = Blake3.hash y → x = y := by
    decide +kernel
  have hzero : ∀ x ∈ inputs, Blake3.hash x ≠ rootZero := by decide +kernel
  obtain ⟨n, n', r, r', hn, hn', hr, hr', hbinds⟩ := root_binds_log [a, b] [a]
  have hsame : n = m := Option.some.inj (hn.symm.trans hm)
  have hsame' : n' = m' := Option.some.inj (hn'.symm.trans hm')
  subst hsame hsame'
  intro heq
  rw [hn, hn', Option.bind_some, Option.bind_some, hr, hr'] at heq
  have hids := hbinds {x | x ∈ inputs} ⟨fun x hx y hy => hinj x hx y hy, hzero⟩
    (fun x hx => List.mem_append_left _ hx) (fun x hx => List.mem_append_right _ hx)
    (Option.some.inj heq)
  cases hids

end Forest

end Mmr

end Dlr.Core
