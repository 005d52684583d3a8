import Mathlib.Data.List.Forall2

/-!
# Traversals that can fail

A list is processed element by element and the first error ends the traversal. The collected
results correspond to the elements, in order.
-/

namespace Dlr.Lib

/-- The outcome of an `Except` traversal, element by element. -/
theorem mapM_eq_ok {α β ε : Type*} {f : α → Except ε β} {l : List α} {r : List β}
    (h : l.mapM f = .ok r) : List.Forall₂ (fun a b => f a = .ok b) l r := by
  induction l generalizing r with
  | nil =>
      cases h
      exact .nil
  | cons a rest ih =>
      rw [List.mapM_cons] at h
      cases ha : f a with
      | error e => rw [ha] at h; cases h
      | ok b =>
          cases hr : rest.mapM f with
          | error e => rw [ha, hr] at h; cases h
          | ok bs =>
              rw [ha, hr] at h
              cases h
              exact .cons ha (ih hr)

/-- What holds of every successful result holds of every collected one. -/
theorem mapM_forall {α β ε : Type*} {f : α → Except ε β} {P : β → Prop} {l : List α} {r : List β}
    (h : l.mapM f = .ok r) (hf : ∀ a b, f a = .ok b → P b) : ∀ b ∈ r, P b := by
  have hall := mapM_eq_ok h
  clear h
  induction hall with
  | nil => simp
  | cons ha _ ih =>
      intro b hb
      rcases List.mem_cons.mp hb with rfl | hmem
      · exact hf _ _ ha
      · exact ih b hmem

theorem mapM_of_forall₂ {α β ε : Type*} {f : α → Except ε β} {l : List α} {r : List β}
    (h : List.Forall₂ (fun a b => f a = .ok b) l r) : l.mapM f = .ok r := by
  induction h with
  | nil => rfl
  | cons ha _ ih =>
      rw [List.mapM_cons, ha, ih]
      rfl

/-- The outcome of an `Option` traversal, element by element. -/
theorem mapM_eq_some_iff {α β : Type*} {f : α → Option β} {l : List α} {r : List β} :
    l.mapM f = some r ↔ List.Forall₂ (fun a b => f a = some b) l r := by
  constructor
  · intro h
    induction l generalizing r with
    | nil =>
        cases h
        exact .nil
    | cons a rest ih =>
        rw [List.mapM_cons] at h
        obtain ⟨b, hb, hrest⟩ := Option.bind_eq_some_iff.mp h
        obtain ⟨bs, hbs, hr⟩ := Option.bind_eq_some_iff.mp hrest
        cases hr
        exact .cons hb (ih hbs)
  · intro h
    induction h with
    | nil => rfl
    | cons ha _ ih =>
        rw [List.mapM_cons, ha, ih]
        rfl

/-- An `Option` traversal none of whose elements fails. -/
theorem mapM_eq_some_map {α β : Type*} {f : α → Option β} {g : α → β} {l : List α}
    (h : ∀ a ∈ l, f a = some (g a)) : l.mapM f = some (l.map g) := by
  rw [mapM_eq_some_iff, List.forall₂_map_right_iff, List.forall₂_same]
  exact h

/-- An `Option` traversal can be made from the other end. -/
theorem mapM_reverse {α β : Type*} {f : α → Option β} {l : List α} {r : List β}
    (h : l.mapM f = some r) : l.reverse.mapM f = some r.reverse :=
  mapM_eq_some_iff.mpr (List.forall₂_reverse_iff.mpr (mapM_eq_some_iff.mp h))

theorem exists_mapM_eq_some {α β : Type*} {f : α → Option β} {l : List α}
    (h : ∀ a ∈ l, ∃ b, f a = some b) : ∃ r, l.mapM f = some r := by
  induction l with
  | nil => exact ⟨[], rfl⟩
  | cons a rest ih =>
      obtain ⟨b, hb⟩ := h a List.mem_cons_self
      obtain ⟨bs, hbs⟩ := ih fun x hx => h x (List.mem_cons_of_mem _ hx)
      exact ⟨b :: bs, mapM_eq_some_iff.mpr (.cons hb (mapM_eq_some_iff.mp hbs))⟩

/-- The results of an `Option` traversal, by index. -/
theorem getElem?_mapM {α β : Type*} {f : α → Option β} {l : List α} {r : List β}
    (h : l.mapM f = some r) (k : Nat) : r[k]? = l[k]?.bind f := by
  have hall := mapM_eq_some_iff.mp h
  clear h
  induction hall generalizing k with
  | nil => rfl
  | cons ha _ ih =>
      cases k with
      | zero => exact ha.symm
      | succ k => exact ih k

/-- Every element of one list has its partner in the other. -/
theorem forall₂_exists {α β : Type*} {R : α → β → Prop} {l : List α} {l' : List β}
    (h : List.Forall₂ R l l') {a : α} (ha : a ∈ l) : ∃ b ∈ l', R a b := by
  induction h with
  | nil => cases ha
  | cons hab _ ih =>
      rcases List.mem_cons.mp ha with rfl | hrest
      · exact ⟨_, List.mem_cons_self, hab⟩
      · obtain ⟨b, hb, hr⟩ := ih hrest
        exact ⟨b, List.mem_cons_of_mem _ hb, hr⟩

/-- What related items have in common holds of one list exactly when it holds of the
other. -/
theorem forall_mem_iff_of_forall₂ {α β : Type*} {R : α → β → Prop} {P : α → Prop} {Q : β → Prop}
    {l : List α} {r : List β} (h : List.Forall₂ R l r)
    (hPQ : ∀ a ∈ l, ∀ b, R a b → (P a ↔ Q b)) : (∀ a ∈ l, P a) ↔ ∀ b ∈ r, Q b := by
  induction h with
  | nil => simp
  | cons hab _ ih =>
      rw [List.forall_mem_cons, List.forall_mem_cons, hPQ _ List.mem_cons_self _ hab,
        ih fun a ha => hPQ a (List.mem_cons_of_mem _ ha)]

end Dlr.Lib
