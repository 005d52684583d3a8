import Mathlib.Algebra.Group.Nat.Defs
import Mathlib.Data.List.Basic
import Mathlib.Data.Set.Function

/-!
# Trees of hashes

A binary tree is hashed from its leaves up. The hash of a leaf and the hash of two children
are one function on a sum of the two kinds of input, so that "injective, with disjoint ranges"
is injectivity of that function. It is asked only of the inputs that occur, since no function
into a finite type is injective on all of them.

## Main results

* `digest_injOn` : a digest determines the tree, its shape included
* `climb_siblings` : the siblings of a leaf lead from its hash to the digest
* `mem_leaves_of_climb` : whatever leads to the digest started at a leaf
-/

namespace Dlr.Lib

/-- A binary tree with values at its leaves. -/
inductive HashTree (α : Type*)
  | leaf (a : α)
  | node (l r : HashTree α)

namespace HashTree

variable {α H : Type*}

def leaves : HashTree α → List α
  | leaf a => [a]
  | node l r => l.leaves ++ r.leaves

/-- All leaves lie at depth `h`. -/
inductive Perfect : Nat → HashTree α → Prop
  | leaf (a : α) : Perfect 0 (leaf a)
  | node {h : Nat} {l r : HashTree α} (hl : Perfect h l) (hr : Perfect h r) :
      Perfect (h + 1) (node l r)

theorem Perfect.length_leaves {h : Nat} {t : HashTree α} (ht : Perfect h t) :
    t.leaves.length = 2 ^ h := by
  induction ht with
  | leaf a => rfl
  | node hl hr ihl ihr =>
      rw [leaves, List.length_append, ihl, ihr, Nat.pow_succ]
      omega

/-- What is hashed: the value of a leaf, or the hashes of two children. -/
inductive Input (α H : Type*)
  | leaf (a : α)
  | node (l r : H)

section Digest

variable (hash : Input α H → H)

def digest : HashTree α → H
  | leaf a => hash (.leaf a)
  | node l r => hash (.node l.digest r.digest)

/-- The inputs hashed for a tree. -/
def inputs : HashTree α → List (Input α H)
  | leaf a => [.leaf a]
  | node l r => .node (l.digest hash) (r.digest hash) :: (l.inputs ++ r.inputs)

/-- One step up: a sibling, and whether it stands to the left. -/
def combine (acc : H) (sibling : H × Bool) : Input α H :=
  if sibling.2 then .node sibling.1 acc else .node acc sibling.1

/-- The hash reached from `acc` along some siblings. -/
def climb (acc : H) (proof : List (H × Bool)) : H :=
  proof.foldl (fun acc sibling => hash (combine acc sibling)) acc

/-- The inputs hashed on the way. -/
def climbInputs : H → List (H × Bool) → List (Input α H)
  | _, [] => []
  | acc, sibling :: rest =>
      combine acc sibling :: climbInputs (hash (combine acc sibling)) rest

/-- The siblings beside the path to leaf `i`, from the root down. -/
def siblings : HashTree α → Nat → List (H × Bool)
  | leaf _, _ => []
  | node l r, i =>
      if i < l.leaves.length then (r.digest hash, false) :: l.siblings i
      else (l.digest hash, true) :: r.siblings (i - l.leaves.length)

end Digest

variable {hash : Input α H → H}

theorem climb_append (acc : H) (xs ys : List (H × Bool)) :
    climb hash acc (xs ++ ys) = climb hash (climb hash acc xs) ys :=
  List.foldl_append

theorem climb_concat (acc : H) (xs : List (H × Bool)) (sibling : H × Bool) :
    climb hash acc (xs ++ [sibling]) = hash (combine (climb hash acc xs) sibling) := by
  rw [climb_append]
  rfl

theorem climbInputs_append (acc : H) (xs ys : List (H × Bool)) :
    climbInputs hash acc (xs ++ ys) =
      climbInputs hash acc xs ++ climbInputs hash (climb hash acc xs) ys := by
  induction xs generalizing acc with
  | nil => rfl
  | cons sibling rest ih =>
      simp only [List.cons_append, climbInputs, ih]
      rfl

theorem combine_injective_left {sibling : H × Bool} {a b : H}
    (h : (combine a sibling : Input α H) = combine b sibling) : a = b := by
  unfold combine at h
  split_ifs at h
  · exact (Input.node.inj h).2
  · exact (Input.node.inj h).1

/-- The path of a leaf leads to the digest. -/
theorem climb_siblings {t : HashTree α} {i : Nat} {a : α} (h : t.leaves[i]? = some a) :
    climb hash (hash (.leaf a)) (t.siblings hash i).reverse = t.digest hash := by
  induction t generalizing i with
  | leaf b =>
      have hab : b = a := by
        cases i with
        | zero => simpa [leaves] using h
        | succ i => simp [leaves] at h
      rw [hab]
      rfl
  | node l r ihl ihr =>
      unfold siblings
      split_ifs with hi
      · rw [leaves, List.getElem?_append_left hi] at h
        rw [List.reverse_cons, climb_concat, ihl h]
        rfl
      · rw [leaves, List.getElem?_append_right (Nat.le_of_not_lt hi)] at h
        rw [List.reverse_cons, climb_concat, ihr h]
        rfl

/-- The path of a leaf hashes inputs of the tree. -/
theorem climbInputs_siblings {t : HashTree α} {i : Nat} {a : α} (h : t.leaves[i]? = some a) :
    ∀ x ∈ climbInputs hash (hash (.leaf a)) (t.siblings hash i).reverse, x ∈ t.inputs hash := by
  induction t generalizing i with
  | leaf b => simp [siblings, climbInputs]
  | node l r ihl ihr =>
      intro x hx
      unfold siblings at hx
      split_ifs at hx with hi
      · rw [leaves, List.getElem?_append_left hi] at h
        rw [List.reverse_cons, climbInputs_append, climb_siblings h, List.mem_append] at hx
        cases hx with
        | inl hbelow => simp [inputs, ihl h x hbelow]
        | inr htop => simp_all [inputs, climbInputs, combine]
      · rw [leaves, List.getElem?_append_right (Nat.le_of_not_lt hi)] at h
        rw [List.reverse_cons, climbInputs_append, climb_siblings h, List.mem_append] at hx
        cases hx with
        | inl hbelow => simp [inputs, ihr h x hbelow]
        | inr htop => simp_all [inputs, climbInputs, combine]

/-- One tree over several, each taken as the right child of those before it. -/
def bag (first : HashTree α) (rest : List (HashTree α)) : HashTree α := rest.foldl node first

theorem leaves_bag (first : HashTree α) (rest : List (HashTree α)) :
    (bag first rest).leaves = first.leaves ++ rest.flatMap leaves := by
  induction rest generalizing first with
  | nil => simp [bag]
  | cons t rest ih =>
      change (bag (node first t) rest).leaves = _
      rw [ih, leaves, List.append_assoc, List.flatMap_cons]

theorem digest_bag (first : HashTree α) (rest : List (HashTree α)) :
    (bag first rest).digest hash =
      (rest.map (digest hash)).foldl (fun acc d => hash (.node acc d)) (first.digest hash) := by
  induction rest generalizing first with
  | nil => rfl
  | cons t rest ih => exact ih (node first t)

variable (hash) in
/-- The inputs hashed while bagging digests onto `acc`. -/
def bagInputs (acc : H) : List H → List (Input α H)
  | [] => []
  | d :: rest => .node acc d :: bagInputs (hash (.node acc d)) rest

theorem inputs_bag {first : HashTree α} {rest : List (HashTree α)} :
    ∀ x ∈ (bag first rest).inputs hash, (∃ t ∈ first :: rest, x ∈ t.inputs hash) ∨
      x ∈ bagInputs hash (first.digest hash) (rest.map (digest hash)) := by
  induction rest generalizing first with
  | nil => exact fun x hx => Or.inl ⟨first, List.mem_cons_self, hx⟩
  | cons t rest ih =>
      intro x hx
      rw [List.map_cons, bagInputs]
      cases @ih (node first t) x hx with
      | inr hbag => exact Or.inr (List.mem_cons_of_mem _ hbag)
      | inl hold =>
          obtain ⟨t', ht', hx'⟩ := hold
          cases List.mem_cons.mp ht' with
          | inr hrest =>
              exact Or.inl ⟨t', List.mem_cons_of_mem _ (List.mem_cons_of_mem _ hrest), hx'⟩
          | inl heq =>
              rw [heq, inputs, List.mem_cons, List.mem_append] at hx'
              rcases hx' with rfl | hfirst | hsecond
              · exact Or.inr List.mem_cons_self
              · exact Or.inl ⟨first, List.mem_cons_self, hfirst⟩
              · exact Or.inl ⟨t, List.mem_cons_of_mem _ List.mem_cons_self, hsecond⟩

section Collisions

variable {S : Set (Input α H)}

/-- A digest determines its tree. -/
theorem digest_injOn (hS : S.InjOn hash) {t t' : HashTree α} (ht : ∀ x ∈ t.inputs hash, x ∈ S)
    (ht' : ∀ x ∈ t'.inputs hash, x ∈ S) (h : t.digest hash = t'.digest hash) : t = t' := by
  induction t generalizing t' with
  | leaf a =>
      cases t' with
      | leaf b =>
          have hinput := hS (ht _ (by simp [inputs])) (ht' _ (by simp [inputs])) h
          rw [Input.leaf.inj hinput]
      | node l' r' => cases hS (ht _ (by simp [inputs])) (ht' _ (by simp [inputs])) h
  | node l r ihl ihr =>
      cases t' with
      | leaf b => cases hS (ht _ (by simp [inputs])) (ht' _ (by simp [inputs])) h
      | node l' r' =>
          have hinput := hS (ht _ (by simp [inputs])) (ht' _ (by simp [inputs])) h
          obtain ⟨hl, hr⟩ := Input.node.inj hinput
          have hleft := ihl (fun x hx => ht x (by simp [inputs, hx]))
            (fun x hx => ht' x (by simp [inputs, hx])) hl
          have hright := ihr (fun x hx => ht x (by simp [inputs, hx]))
            (fun x hx => ht' x (by simp [inputs, hx])) hr
          rw [hleft, hright]

/-- Along the same siblings, different starts lead to different hashes. -/
theorem climb_injOn (hS : S.InjOn hash) {proof : List (H × Bool)} {a b : H}
    (ha : ∀ x ∈ climbInputs hash a proof, x ∈ S) (hb : ∀ x ∈ climbInputs hash b proof, x ∈ S)
    (h : climb hash a proof = climb hash b proof) : a = b := by
  induction proof generalizing a b with
  | nil => exact h
  | cons sibling rest ih =>
      have hnext := ih (fun x hx => ha x (List.mem_cons_of_mem _ hx))
        (fun x hx => hb x (List.mem_cons_of_mem _ hx)) h
      exact combine_injective_left
        (hS (ha _ List.mem_cons_self) (hb _ List.mem_cons_self) hnext)

/-- A proof that leads from the hash of `a` to the digest of a tree shows that `a` is one of
its leaves. -/
theorem mem_leaves_of_climb (hS : S.InjOn hash) {t : HashTree α} {a : α}
    {proof : List (H × Bool)} (ht : ∀ x ∈ t.inputs hash, x ∈ S) (ha : .leaf a ∈ S)
    (hproof : ∀ x ∈ climbInputs hash (hash (.leaf a)) proof, x ∈ S)
    (h : climb hash (hash (.leaf a)) proof = t.digest hash) : a ∈ t.leaves := by
  -- the last sibling belongs to the root, so the proof is taken apart from its end
  induction t generalizing proof with
  | leaf b =>
      rcases List.eq_nil_or_concat' proof with rfl | ⟨rest, sibling, rfl⟩
      · have hinput := hS ha (ht _ (by simp [inputs])) h
        rw [Input.leaf.inj hinput]
        exact List.mem_cons_self
      · rw [climb_concat] at h
        have hinput := hS (hproof _ (by simp [climbInputs_append, climbInputs]))
          (ht _ (by simp [inputs])) h
        unfold combine at hinput
        split_ifs at hinput
  | node l r ihl ihr =>
      rcases List.eq_nil_or_concat' proof with rfl | ⟨rest, sibling, rfl⟩
      · cases hS ha (ht _ (by simp [inputs])) h
      · rw [climb_concat] at h
        have hinput := hS (hproof _ (by simp [climbInputs_append, climbInputs]))
          (ht _ (by simp [inputs])) h
        have hrest : ∀ x ∈ climbInputs hash (hash (.leaf a)) rest, x ∈ S := fun x hx =>
          hproof x (by simp [climbInputs_append, hx])
        rw [leaves, List.mem_append]
        unfold combine at hinput
        split_ifs at hinput
        · exact Or.inr (ihr (fun x hx => ht x (by simp [inputs, hx])) hrest
            (Input.node.inj hinput).2)
        · exact Or.inl (ihl (fun x hx => ht x (by simp [inputs, hx])) hrest
            (Input.node.inj hinput).1)

end Collisions

end HashTree

end Dlr.Lib
