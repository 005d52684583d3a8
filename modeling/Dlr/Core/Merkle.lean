import Dlr.Core.Block
import Dlr.Lib.HashChain

/-!
# The running Merkle root

`root_0` is all zeros and `root_N` is the digest of `root_{N-1}` followed by
the `N`-th block id, so a root commits to the whole ordered id list of a log.
-/

namespace Dlr.Core

open Lib

/-- A 32-byte root committing to everything up to here. -/
abbrev MerkleRoot := Digest

/-- The root of the empty log. -/
def rootZero : MerkleRoot := ⟨List.replicate 32 0, by simp⟩

/-- The tag byte keeps the evaluable digest away from the empty root. -/
theorem prefixHash_ne_rootZero (x : List UInt8) : prefixHash.hash x ≠ rootZero := by
  intro h
  have hhead : some (1 : UInt8) = some 0 := congrArg (fun d : Digest => d.bytes.head?) h
  exact absurd hhead (by decide)

section Root

variable [Blake3]

/-- The next root from the previous root and the new block id. -/
def appendRoot (prev : MerkleRoot) (id : BlockId) : MerkleRoot :=
  ((⟨[]⟩ : Hasher).update (prev.bytes ++ id.bytes)).finalize

/-- The root over an ordered id list from a starting root. -/
def rootOver (start : MerkleRoot) (ids : List BlockId) : MerkleRoot :=
  ids.foldl appendRoot start

@[simp] theorem rootOver_nil (start : MerkleRoot) : rootOver start [] = start := rfl

@[simp] theorem rootOver_cons (start : MerkleRoot) (id : BlockId) (rest : List BlockId) :
    rootOver start (id :: rest) = rootOver (appendRoot start id) rest := rfl

theorem rootOver_append (start : MerkleRoot) (xs ys : List BlockId) :
    rootOver start (xs ++ ys) = rootOver (rootOver start xs) ys :=
  HashChain.chain_append appendRoot start xs ys

theorem rootOver_concat (start : MerkleRoot) (xs : List BlockId) (id : BlockId) :
    rootOver start (xs ++ [id]) = appendRoot (rootOver start xs) id := by
  rw [rootOver_append]
  rfl

/-- The byte strings hashed while folding `ids` into a root. -/
def rootInputs (start : MerkleRoot) (ids : List BlockId) : List (List UInt8) :=
  (HashChain.links appendRoot start ids).map fun link => link.1.bytes ++ link.2.bytes

/-- The hash has no collision among `S` and maps none of it to the empty root. -/
structure CollisionFree (S : Set (List UInt8)) : Prop where
  injOn : Set.InjOn Blake3.hash S
  ne_rootZero : ∀ x ∈ S, Blake3.hash x ≠ rootZero

theorem CollisionFree.mono {S T : Set (List UInt8)} (h : CollisionFree T) (hST : S ⊆ T) :
    CollisionFree S :=
  ⟨h.injOn.mono hST, fun x hx => h.ne_rootZero x (hST hx)⟩

omit [Blake3] in
/-- Two strings that the evaluable digest tells apart do not collide. -/
theorem collisionFree_pair {x y : List UInt8} (hne : prefixHash.hash x ≠ prefixHash.hash y) :
    letI := prefixHash
    CollisionFree {x, y} := by
  let _ := prefixHash
  exact ⟨Set.injOn_pair.mpr fun heq => absurd heq hne, fun z _ => prefixHash_ne_rootZero z⟩

omit [Blake3] in
/-- Two digests written one after the other can be read back. -/
theorem digest_append_inj {a b c d : Digest} (h : a.bytes ++ b.bytes = c.bytes ++ d.bytes) :
    a = c ∧ b = d := by
  obtain ⟨hac, hbd⟩ := List.append_inj h (a.size.trans c.size.symm)
  cases a; cases b; cases c; cases d
  simp_all

/-- Collision freedom of the hash gives collision freedom of the root chain. -/
theorem CollisionFree.rootChain {S : Set (List UInt8)} (h : CollisionFree S) :
    HashChain.CollisionFree appendRoot rootZero
      {link | link.1.bytes ++ link.2.bytes ∈ S} where
  injOn := by
    rintro ⟨a, b⟩ hab ⟨c, d⟩ hcd heq
    have hbytes := h.injOn hab hcd heq
    obtain ⟨hac, hbd⟩ := digest_append_inj hbytes
    exact Prod.ext hac hbd
  ne_start := fun link hl => h.ne_rootZero _ hl

/-- Equal roots over collision-free inputs commit to equal id lists. -/
theorem rootOver_injective {S : Set (List UInt8)} (hS : CollisionFree S)
    {xs ys : List BlockId} (hx : ∀ x ∈ rootInputs rootZero xs, x ∈ S)
    (hy : ∀ x ∈ rootInputs rootZero ys, x ∈ S)
    (h : rootOver rootZero xs = rootOver rootZero ys) : xs = ys :=
  HashChain.chain_injective hS.rootChain
    (fun _ hl => hx _ (List.mem_map_of_mem hl))
    (fun _ hl => hy _ (List.mem_map_of_mem hl)) h

/-- Folding the same ids gives equal roots only from equal roots. -/
theorem rootOver_start_injective {S : Set (List UInt8)} (hS : CollisionFree S)
    {a b : MerkleRoot} {ids : List BlockId} (ha : ∀ x ∈ rootInputs a ids, x ∈ S)
    (hb : ∀ x ∈ rootInputs b ids, x ∈ S) (h : rootOver a ids = rootOver b ids) : a = b :=
  HashChain.chain_start_injective hS.rootChain
    (fun _ hl => ha _ (List.mem_map_of_mem hl))
    (fun _ hl => hb _ (List.mem_map_of_mem hl)) h

theorem rootInputs_append (start : MerkleRoot) (xs ys : List BlockId) :
    rootInputs start (xs ++ ys) = rootInputs start xs ++ rootInputs (rootOver start xs) ys := by
  rw [rootInputs, HashChain.links_append, List.map_append]
  rfl

/-- A prefix of a log hashes a prefix of its inputs. -/
theorem rootInputs_subset {start : MerkleRoot} {xs ys : List BlockId}
    (h : xs <+: ys) : ∀ x ∈ rootInputs start xs, x ∈ rootInputs start ys := by
  obtain ⟨t, rfl⟩ := h
  intro x hx
  rw [rootInputs_append]
  exact List.mem_append_left _ hx

end Root

end Dlr.Core
