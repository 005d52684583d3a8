import Mathlib.Data.Set.Function
import Mathlib.Data.List.Induction

/-!
# Hash chains

A chain folds a list of items into one value. When the step function has no
collision on the links that are actually computed, and never returns to the
starting value, the final value determines the whole list.
-/

namespace Dlr.Lib.HashChain

variable {R I : Type*} (step : R → I → R)

/-- Fold the items into the running value. -/
def chain (start : R) (items : List I) : R := items.foldl step start

/-- The arguments of every step the fold computes, in order. -/
def links (start : R) : List I → List (R × I)
  | [] => []
  | i :: rest => (start, i) :: links (step start i) rest

@[simp] theorem chain_nil (start : R) : chain step start [] = start := rfl

@[simp] theorem chain_cons (start : R) (i : I) (rest : List I) :
    chain step start (i :: rest) = chain step (step start i) rest := rfl

theorem chain_append (start : R) (xs ys : List I) :
    chain step start (xs ++ ys) = chain step (chain step start xs) ys := by
  simp [chain, List.foldl_append]

theorem links_append (start : R) (xs ys : List I) :
    links step start (xs ++ ys) =
      links step start xs ++ links step (chain step start xs) ys := by
  induction xs generalizing start with
  | nil => rfl
  | cons i rest ih => simp [links, ih]

/-- No two links in `S` collide, and no link leads back to `start`. -/
structure CollisionFree (start : R) (S : Set (R × I)) : Prop where
  injOn : Set.InjOn (fun link => step link.1 link.2) S
  ne_start : ∀ link ∈ S, step link.1 link.2 ≠ start

variable {step}

theorem CollisionFree.mono {start : R} {S T : Set (R × I)} (h : CollisionFree step start T)
    (hST : S ⊆ T) : CollisionFree step start S :=
  ⟨h.injOn.mono hST, fun link hl => h.ne_start link (hST hl)⟩

/-- The same items lead to equal values only from equal starting points. -/
theorem chain_start_injective {start : R} {S : Set (R × I)} (hS : CollisionFree step start S)
    {a b : R} {items : List I} (ha : ∀ link ∈ links step a items, link ∈ S)
    (hb : ∀ link ∈ links step b items, link ∈ S)
    (h : chain step a items = chain step b items) : a = b := by
  induction items generalizing a b with
  | nil => exact h
  | cons i rest ih =>
      have hstep : step a i = step b i :=
        ih (fun link hl => ha link (List.mem_cons_of_mem _ hl))
          (fun link hl => hb link (List.mem_cons_of_mem _ hl)) h
      have hlink : (a, i) = (b, i) :=
        hS.injOn (ha _ List.mem_cons_self) (hb _ List.mem_cons_self) hstep
      exact congrArg Prod.fst hlink

/-- Equal chain values over collision-free links come from equal lists. -/
theorem chain_injective {start : R} {S : Set (R × I)} (hS : CollisionFree step start S)
    {xs ys : List I} (hx : ∀ link ∈ links step start xs, link ∈ S)
    (hy : ∀ link ∈ links step start ys, link ∈ S)
    (h : chain step start xs = chain step start ys) : xs = ys := by
  induction xs using List.reverseRecOn generalizing ys with
  | nil =>
      induction ys using List.reverseRecOn with
      | nil => rfl
      | append_singleton ys y _ =>
          rw [chain_append] at h
          exact absurd h.symm (hS.ne_start (chain step start ys, y)
            (hy _ (by simp [links_append, links])))
  | append_singleton xs x ih =>
      induction ys using List.reverseRecOn with
      | nil =>
          rw [chain_append] at h
          exact absurd h (hS.ne_start (chain step start xs, x)
            (hx _ (by simp [links_append, links])))
      | append_singleton ys y _ =>
          rw [chain_append, chain_append] at h
          have hlink : (chain step start xs, x) = (chain step start ys, y) :=
            hS.injOn (hx _ (by simp [links_append, links]))
              (hy _ (by simp [links_append, links])) h
          obtain ⟨hchain, hxy⟩ := Prod.mk.inj hlink
          have hpre : xs = ys := ih
            (fun link hl => hx link (by simp [links_append, hl]))
            (fun link hl => hy link (by simp [links_append, hl])) hchain
          rw [hpre, hxy]

end Dlr.Lib.HashChain
