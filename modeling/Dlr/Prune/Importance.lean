import Dlr.Core.Block
import Mathlib.Algebra.BigOperators.Group.List.Basic
import Mathlib.Data.List.FinRange
import Mathlib.Data.List.Sort
import Mathlib.Data.Prod.Lex
import Mathlib.Order.WithBot

/-!
# The importance policy

A log is ranked by score, and its blocks fill a token budget from the highest rank on. System and
summary blocks rank first and are exempt from the check of the budget.

## Implementation notes

Scores are only compared, so the model takes the finite score of the other blocks as a function
into any linear order and adds a largest value. An index into the log is one of its positions, so
that reading the log cannot fail. Tokens are natural numbers: a log that is in memory has fewer
of them than a machine word counts.
-/

namespace Dlr.Prune

open Dlr.Core

/-- A pruned window. -/
structure PruneWindow where
  sessionId : SessionId
  blocks : List Block
  approxTokens : Nat
  deriving DecidableEq

/-- Four bytes are about one token, and no block has none. -/
def approxTokens (b : Block) : Nat := max (b.payload.length / 4) 1

/-- System and summary blocks are to be retained always. -/
def Pinned (b : Block) : Prop := b.kind = .system ∨ b.kind = .summary

instance : DecidablePred Pinned := fun b =>
  inferInstanceAs (Decidable (b.kind = .system ∨ b.kind = .summary))

section Ranking

variable {K : Type*} [LinearOrder K]

/-- The score of a block with this finite importance. -/
def score (importance : K) (b : Block) : WithTop K :=
  match b.kind with
  | .system | .summary => ⊤
  | _ => importance

/-- Positions are compared by score, the highest first, and then by index. -/
def rank (importance : Nat → Block → K) (log : List Block) (i : Fin log.length) :
    (WithTop K)ᵒᵈ ×ₗ Fin log.length :=
  toLex (OrderDual.toDual (score (importance i (log.get i)) (log.get i)), i)

def Before (importance : Nat → Block → K) (log : List Block) (i j : Fin log.length) : Prop :=
  rank importance log i ≤ rank importance log j

instance (importance : Nat → Block → K) (log : List Block) :
    DecidableRel (Before importance log) := fun i j =>
  inferInstanceAs (Decidable (rank importance log i ≤ rank importance log j))

/-- The positions of the log in the order in which they fill the budget. -/
def ranked (importance : Nat → Block → K) (log : List Block) : List (Fin log.length) :=
  (List.finRange log.length).insertionSort (Before importance log)

/-- Fill the budget: the positions that are kept, and their tokens. -/
def fill (log : List Block) (budgetTokens : Nat) :
    List (Fin log.length) → List (Fin log.length) → Nat → List (Fin log.length) × Nat
  | [], kept, tokens => (kept, tokens)
  | idx :: rest, kept, tokens =>
      let t := approxTokens (log.get idx)
      if tokens + t > budgetTokens ∧ kept ≠ [] ∧ ¬ Pinned (log.get idx) then
        fill log budgetTokens rest kept tokens
      else if tokens + t ≥ budgetTokens then (kept ++ [idx], tokens + t)
      else fill log budgetTokens rest (kept ++ [idx]) (tokens + t)

/-- The positions that survive, in the order of the log. -/
def survivors (importance : Nat → Block → K) (log : List Block) (budgetTokens : Nat) :
    List (Fin log.length) :=
  (fill log budgetTokens (ranked importance log) [] 0).1.insertionSort (· ≤ ·)

def prune (importance : Nat → Block → K) (sessionId : SessionId) (log : List Block)
    (budgetTokens : Nat) : PruneWindow :=
  if log.length = 0 then ⟨sessionId, [], 0⟩
  else ⟨sessionId, (survivors importance log budgetTokens).map log.get,
    (fill log budgetTokens (ranked importance log) [] 0).2⟩

end Ranking

/-! ## Filling the budget -/

section Fill

variable {log : List Block} {budgetTokens : Nat}

/-- The tokens of some positions. -/
def tokensOf (log : List Block) (l : List (Fin log.length)) : Nat :=
  (l.map fun i => approxTokens (log.get i)).sum

@[simp] theorem tokensOf_nil : tokensOf log [] = 0 := rfl

@[simp] theorem tokensOf_cons (i : Fin log.length) (l : List (Fin log.length)) :
    tokensOf log (i :: l) = approxTokens (log.get i) + tokensOf log l := by
  rw [tokensOf, List.map_cons, List.sum_cons, tokensOf]

@[simp] theorem tokensOf_append (l l' : List (Fin log.length)) :
    tokensOf log (l ++ l') = tokensOf log l + tokensOf log l' := by
  rw [tokensOf, List.map_append, List.sum_append, tokensOf, tokensOf]

theorem approxTokens_pos (b : Block) : 0 < approxTokens b := by
  unfold approxTokens
  omega

/-- The loop adds some of the positions it sees, and their tokens. -/
theorem fill_adds (budgetTokens : Nat) (l kept : List (Fin log.length)) (tokens : Nat) :
    ∃ added, added.Sublist l ∧
      fill log budgetTokens l kept tokens = (kept ++ added, tokens + tokensOf log added) := by
  induction l generalizing kept tokens with
  | nil => exact ⟨[], List.Sublist.slnil, by simp [fill]⟩
  | cons idx rest ih =>
      rw [fill]
      split_ifs
      · obtain ⟨added, hsub, heq⟩ := ih kept tokens
        exact ⟨added, hsub.cons idx, heq⟩
      · exact ⟨[idx], List.Sublist.cons_cons idx (List.nil_sublist rest), by simp⟩
      · obtain ⟨added, hsub, heq⟩ := ih (kept ++ [idx]) (tokens + approxTokens (log.get idx))
        refine ⟨idx :: added, hsub.cons_cons idx, ?_⟩
        rw [heq, List.append_assoc, List.singleton_append, tokensOf_cons, Nat.add_assoc]

theorem fill_pinned_cons {idx : Fin log.length} (h : Pinned (log.get idx))
    (rest kept : List (Fin log.length)) (tokens : Nat) :
    fill log budgetTokens (idx :: rest) kept tokens =
      if tokens + approxTokens (log.get idx) ≥ budgetTokens then
        (kept ++ [idx], tokens + approxTokens (log.get idx))
      else fill log budgetTokens rest (kept ++ [idx]) (tokens + approxTokens (log.get idx)) := by
  rw [fill, if_neg fun hskip => hskip.2.2 h]

/-- Pinned positions are kept up to the one that fills the budget, where the loop ends. -/
theorem fill_pinned (budgetTokens : Nat) {pins : List (Fin log.length)}
    (hpins : ∀ i ∈ pins, Pinned (log.get i))
    (others kept : List (Fin log.length)) (tokens : Nat) :
    (∃ first, first <+: pins ∧ first ≠ [] ∧ budgetTokens ≤ tokens + tokensOf log first ∧
      (first.length = 1 ∨ tokens + tokensOf log first.dropLast < budgetTokens) ∧
      fill log budgetTokens (pins ++ others) kept tokens =
        (kept ++ first, tokens + tokensOf log first)) ∨
    ((pins = [] ∨ tokens + tokensOf log pins < budgetTokens) ∧
      fill log budgetTokens (pins ++ others) kept tokens =
        fill log budgetTokens others (kept ++ pins) (tokens + tokensOf log pins)) := by
  induction pins generalizing kept tokens with
  | nil => exact Or.inr ⟨Or.inl rfl, by simp⟩
  | cons idx rest ih =>
      have hrest := ih (fun i hi => hpins i (List.mem_cons_of_mem _ hi)) (kept ++ [idx])
        (tokens + approxTokens (log.get idx))
      rw [List.cons_append, fill_pinned_cons (hpins idx List.mem_cons_self)]
      by_cases hfull : tokens + approxTokens (log.get idx) ≥ budgetTokens
      · refine Or.inl ⟨[idx], ?_, List.cons_ne_nil _ _, by simpa using hfull, Or.inl rfl, ?_⟩
        · exact List.prefix_append [idx] rest
        · rw [if_pos hfull]
          simp
      · rw [if_neg hfull]
        cases hrest with
        | inl hstop =>
            obtain ⟨first, hinit, hne, hreach, hbefore, heq⟩ := hstop
            refine Or.inl ⟨idx :: first, ?_, List.cons_ne_nil _ _, ?_, Or.inr ?_, ?_⟩
            · exact List.cons_prefix_cons.mpr ⟨rfl, hinit⟩
            · rw [tokensOf_cons]
              omega
            · rw [List.dropLast_cons_of_ne_nil hne, tokensOf_cons]
              cases hbefore with
              | inl hone =>
                  obtain ⟨i, rfl⟩ := List.length_eq_one_iff.mp hone
                  rw [List.dropLast_singleton, tokensOf_nil]
                  omega
              | inr hlt => omega
            · rw [heq, tokensOf_cons, List.append_assoc, List.singleton_append, Nat.add_assoc]
        | inr hgo =>
            obtain ⟨hlt, heq⟩ := hgo
            refine Or.inr ⟨Or.inr ?_, ?_⟩
            · rw [tokensOf_cons]
              cases hlt with
              | inl hnil =>
                  rw [hnil, tokensOf_nil]
                  omega
              | inr hlt => omega
            · rw [heq, tokensOf_cons, List.append_assoc, List.singleton_append, Nat.add_assoc]

/-- Blocks that are not pinned stay within the budget once something is kept. -/
theorem fill_within {others kept : List (Fin log.length)} {tokens : Nat}
    (hothers : ∀ i ∈ others, ¬ Pinned (log.get i)) (hkept : kept ≠ [])
    (htokens : tokens ≤ budgetTokens) :
    (fill log budgetTokens others kept tokens).2 ≤ budgetTokens := by
  induction others generalizing kept tokens with
  | nil => exact htokens
  | cons idx rest ih =>
      have hrest := fun i hi => hothers i (List.mem_cons_of_mem idx hi)
      have hidx := hothers idx List.mem_cons_self
      rw [fill]
      split_ifs with hskip hfull
      · exact ih hrest hkept htokens
      · by_contra hover
        exact hskip ⟨Nat.lt_of_not_le hover, hkept, hidx⟩
      · exact ih hrest (by simp) (by omega)

/-- Where nothing is pinned, the budget is kept by all windows but a single block. -/
theorem fill_within_or_single {others : List (Fin log.length)}
    (hothers : ∀ i ∈ others, ¬ Pinned (log.get i)) :
    (fill log budgetTokens others [] 0).2 ≤ budgetTokens ∨
      (fill log budgetTokens others [] 0).1.length = 1 := by
  cases others with
  | nil => exact Or.inl (Nat.zero_le _)
  | cons idx rest =>
      rw [fill, if_neg (by simp)]
      split_ifs with hfull
      · exact Or.inr rfl
      · left
        apply fill_within fun i hi => hothers i (List.mem_cons_of_mem idx hi)
        · exact List.cons_ne_nil _ _
        · omega

end Fill

/-! ## The order of the positions -/

theorem score_of_pinned {K : Type*} {b : Block} (h : Pinned b) (k : K) : score k b = ⊤ := by
  unfold score
  cases h with
  | inl hkind => rw [hkind]
  | inr hkind => rw [hkind]

theorem score_of_not_pinned {K : Type*} {b : Block} (h : ¬ Pinned b) (k : K) : score k b = k := by
  unfold score
  cases hkind : b.kind with
  | system => exact absurd (Or.inl hkind) h
  | summary => exact absurd (Or.inr hkind) h
  | _ => rfl

section Order

variable {K : Type*} [LinearOrder K] (importance : Nat → Block → K) (log : List Block)

instance : Std.Total (Before importance log) := ⟨fun _ _ => le_total _ _⟩

instance : IsTrans (Fin log.length) (Before importance log) := ⟨fun _ _ _ => le_trans⟩

theorem ranked_perm : (ranked importance log).Perm (List.finRange log.length) :=
  List.perm_insertionSort _ _

theorem ranked_nodup : (ranked importance log).Nodup :=
  (ranked_perm importance log).nodup_iff.mpr (List.nodup_finRange _)

theorem ranked_pairwise :
    (ranked importance log).Pairwise fun i j => rank importance log i < rank importance log j := by
  have hle : (ranked importance log).Pairwise (Before importance log) :=
    List.pairwise_insertionSort _ _
  refine (hle.and (ranked_nodup importance log)).imp ?_
  intro i j hij
  refine lt_of_le_of_ne hij.1 ?_
  intro heq
  exact hij.2 (congrArg (fun k => (ofLex k).2) heq)

variable {importance log}

theorem pinned_of_rank_le {i j : Fin log.length}
    (h : rank importance log i ≤ rank importance log j) (hj : Pinned (log.get j)) :
    Pinned (log.get i) := by
  by_contra hi
  have hle : score (importance j (log.get j)) (log.get j) ≤
      score (importance i (log.get i)) (log.get i) := by
    cases Prod.Lex.toLex_le_toLex.mp h with
    | inl hlt => exact le_of_lt hlt
    | inr heq => exact le_of_eq heq.1.symm
  rw [score_of_pinned hj, score_of_not_pinned hi] at hle
  exact absurd hle (not_le_of_gt (WithTop.coe_lt_top _))

theorem rank_le_of_pinned {i j : Fin log.length} (hi : Pinned (log.get i))
    (hj : Pinned (log.get j)) (hij : i ≤ j) :
    rank importance log i ≤ rank importance log j := by
  apply Prod.Lex.toLex_le_toLex.mpr
  right
  rw [score_of_pinned hi, score_of_pinned hj]
  exact ⟨rfl, hij⟩

end Order

theorem filter_append_filter {α : Type*} {p : α → Prop} [DecidablePred p] {l : List α}
    (h : l.Pairwise fun a b => p b → p a) :
    l.filter p ++ l.filter (fun a => ¬ p a) = l := by
  induction l with
  | nil => rfl
  | cons a rest ih =>
      obtain ⟨hfirst, hrest⟩ := List.pairwise_cons.mp h
      by_cases ha : p a
      · have hih := ih hrest
        simpa [List.filter_cons, ha] using hih
      · have hnone : rest.filter p = [] := by
          apply List.filter_eq_nil_iff.mpr
          intro b hb hpb
          exact ha (hfirst b hb (of_decide_eq_true hpb))
        have hall : rest.filter (fun a => ¬ p a) = rest := by
          have hih := ih hrest
          rwa [hnone, List.nil_append] at hih
        simpa [List.filter_cons, ha, hnone] using hall

section Survivors

variable {K : Type*} [LinearOrder K] (importance : Nat → Block → K) (log : List Block)

/-- The positions of the pinned blocks. -/
def pins (log : List Block) : List (Fin log.length) :=
  (List.finRange log.length).filter fun i => Pinned (log.get i)

/-- The pinned positions come first, in the order of the log. -/
theorem ranked_eq :
    ranked importance log =
      pins log ++ (ranked importance log).filter fun i => ¬ Pinned (log.get i) := by
  have hranked := ranked_pairwise importance log
  have hsplit : (ranked importance log).filter (fun i => Pinned (log.get i)) ++
      (ranked importance log).filter (fun i => ¬ Pinned (log.get i)) = ranked importance log :=
    filter_append_filter (hranked.imp fun hlt => pinned_of_rank_le hlt.le)
  have hpins : (ranked importance log).filter (fun i => Pinned (log.get i)) = pins log := by
    have hperm := (ranked_perm importance log).filter fun i => Pinned (log.get i)
    refine List.Perm.eq_of_pairwise ?_ (hranked.filter _) ?_ hperm
    · intro i j _ _ hij hji
      exact absurd hji (lt_asymm hij)
    · refine ((List.pairwise_lt_finRange _).filter _).imp_of_mem ?_
      intro i j hi hj hij
      have hi' : Pinned (log.get i) := of_decide_eq_true (List.mem_filter.mp hi).2
      have hj' : Pinned (log.get j) := of_decide_eq_true (List.mem_filter.mp hj).2
      refine lt_of_le_of_ne (rank_le_of_pinned hi' hj' hij.le) ?_
      intro heq
      exact hij.ne (congrArg (fun k => (ofLex k).2) heq)
  rw [hpins] at hsplit
  exact hsplit.symm

theorem map_get_pins : (pins log).map log.get = log.filter Pinned := by
  conv_rhs => rw [← List.map_get_finRange log, List.filter_map]
  rfl

theorem tokensOf_eq (l : List (Fin log.length)) :
    tokensOf log l = ((l.map log.get).map approxTokens).sum := by
  rw [tokensOf, List.map_map]
  rfl

variable (budgetTokens : Nat)

theorem perm_survivors :
    (survivors importance log budgetTokens).Perm
      (fill log budgetTokens (ranked importance log) [] 0).1 :=
  List.perm_insertionSort _ _

theorem survivors_pairwise : (survivors importance log budgetTokens).Pairwise (· < ·) := by
  have hle : (survivors importance log budgetTokens).Pairwise (· ≤ ·) :=
    List.pairwise_insertionSort _ _
  have hnodup : (survivors importance log budgetTokens).Nodup := by
    obtain ⟨added, hsub, heq⟩ := fill_adds budgetTokens (ranked importance log) [] 0
    rw [(perm_survivors importance log budgetTokens).nodup_iff, heq]
    exact (ranked_nodup importance log).sublist hsub
  exact (hle.and hnodup).imp fun hij => lt_of_le_of_ne hij.1 hij.2

/-- An empty log needs no case of its own. -/
theorem prune_eq (sessionId : SessionId) :
    prune importance sessionId log budgetTokens =
      ⟨sessionId, (survivors importance log budgetTokens).map log.get,
        (fill log budgetTokens (ranked importance log) [] 0).2⟩ := by
  unfold prune
  split_ifs with hempty
  · obtain rfl := List.length_eq_zero_iff.mp hempty
    rfl
  · rfl

theorem prune_blocks (sessionId : SessionId) :
    (prune importance sessionId log budgetTokens).blocks =
      (survivors importance log budgetTokens).map log.get := by
  rw [prune_eq]

theorem prune_approxTokens (sessionId : SessionId) :
    (prune importance sessionId log budgetTokens).approxTokens =
      (fill log budgetTokens (ranked importance log) [] 0).2 := by
  rw [prune_eq]

/-- The tokens of the window are those of its blocks. -/
theorem prune_approxTokens_eq_sum (sessionId : SessionId) :
    (prune importance sessionId log budgetTokens).approxTokens =
      ((prune importance sessionId log budgetTokens).blocks.map approxTokens).sum := by
  obtain ⟨added, -, heq⟩ := fill_adds budgetTokens (ranked importance log) [] 0
  have hperm := perm_survivors importance log budgetTokens
  rw [prune_approxTokens, prune_blocks, ((hperm.map _).map _).sum_eq, heq]
  exact (Nat.zero_add _).trans (tokensOf_eq log _)

/-- The pinned blocks of the window. -/
theorem prune_filter_pinned (sessionId : SessionId) :
    (prune importance sessionId log budgetTokens).blocks.filter Pinned =
      ((survivors importance log budgetTokens).filter fun i => Pinned (log.get i)).map log.get := by
  rw [prune_blocks, List.filter_map]
  rfl

/-- Where the loop keeps all pinned positions, the window has all pinned blocks. -/
theorem prune_keeps_pins (sessionId : SessionId)
    (h : (fill log budgetTokens (ranked importance log) [] 0).1.filter
      (fun i => Pinned (log.get i)) = pins log) :
    (prune importance sessionId log budgetTokens).blocks.filter Pinned = log.filter Pinned := by
  have hperm := (perm_survivors importance log budgetTokens).filter fun i => Pinned (log.get i)
  rw [h] at hperm
  rw [prune_filter_pinned, ← map_get_pins]
  congr 1
  refine List.Perm.eq_of_pairwise ?_ ((survivors_pairwise importance log budgetTokens).filter _)
    ((List.pairwise_lt_finRange _).filter _) hperm
  intro i j _ _ hij hji
  exact absurd hji (lt_asymm hij)

end Survivors

/-- What a window of a log should be: a part of the log in its order, with all pinned blocks, and
with others only within the budget or alone. -/
structure PruneWindow.Retains (w : PruneWindow) (log : List Block) (budgetTokens : Nat) : Prop where
  sublist : w.blocks.Sublist log
  pinned : w.blocks.filter Pinned = log.filter Pinned
  tokens : w.approxTokens = (w.blocks.map Prune.approxTokens).sum
  within : (∃ b ∈ w.blocks, ¬ Pinned b) → w.approxTokens ≤ budgetTokens ∨ w.blocks.length = 1

section Retention

variable {K : Type*} [LinearOrder K] (importance : Nat → Block → K) (log : List Block)
  (budgetTokens : Nat)

theorem pinned_of_mem_pins {i : Fin log.length} (h : i ∈ pins log) : Pinned (log.get i) :=
  of_decide_eq_true (List.mem_filter.mp h).2

/-- Positions that are not pinned are kept within the budget or alone. -/
theorem fill_ranked_within {i : Fin log.length}
    (hi : i ∈ (fill log budgetTokens (ranked importance log) [] 0).1)
    (hfree : ¬ Pinned (log.get i)) :
    (fill log budgetTokens (ranked importance log) [] 0).2 ≤ budgetTokens ∨
      (fill log budgetTokens (ranked importance log) [] 0).1.length = 1 := by
  rw [ranked_eq] at hi ⊢
  set others := (ranked importance log).filter fun i => ¬ Pinned (log.get i)
  have hothers : ∀ i ∈ others, ¬ Pinned (log.get i) := fun i hi =>
    of_decide_eq_true (List.mem_filter.mp hi).2
  cases fill_pinned budgetTokens (fun i => pinned_of_mem_pins log) others [] 0 with
  | inl hstop =>
      obtain ⟨first, hinit, -, -, -, heq⟩ := hstop
      rw [heq] at hi
      exact absurd (pinned_of_mem_pins log (hinit.subset hi)) hfree
  | inr hgo =>
      obtain ⟨hlt, heq⟩ := hgo
      rw [heq]
      by_cases hpins : pins log = []
      · rw [hpins]
        exact fill_within_or_single hothers
      · have hbelow := hlt.resolve_left hpins
        left
        exact fill_within hothers hpins hbelow.le

theorem tokensOf_le_of_prefix {l l' : List (Fin log.length)} (h : l <+: l') :
    tokensOf log l ≤ tokensOf log l' := by
  obtain ⟨rest, rfl⟩ := h
  rw [tokensOf_append]
  exact Nat.le_add_right _ _

theorem filter_pinned_eq_self {l : List (Fin log.length)} (h : ∀ i ∈ l, Pinned (log.get i)) :
    l.filter (fun i => Pinned (log.get i)) = l :=
  List.filter_eq_self.mpr fun i hi => decide_eq_true (h i hi)

theorem filter_pinned_eq_nil {l : List (Fin log.length)} (h : ∀ i ∈ l, ¬ Pinned (log.get i)) :
    l.filter (fun i => Pinned (log.get i)) = [] :=
  List.filter_eq_nil_iff.mpr fun i hi hpinned => h i hi (of_decide_eq_true hpinned)

/-- Either all pinned positions are kept and those before the last leave room, or they do not and
the last one is lost. -/
theorem pins_kept_or_lost :
    let kept := (fill log budgetTokens (ranked importance log) [] 0).1.filter
      fun i => Pinned (log.get i)
    let room := (pins log).length ≤ 1 ∨ tokensOf log (pins log).dropLast < budgetTokens
    (kept = pins log ∧ room) ∨ (kept.length < (pins log).length ∧ ¬ room) := by
  intro kept room
  set others := (ranked importance log).filter fun i => ¬ Pinned (log.get i) with hothers
  have hfree : ∀ i ∈ others, ¬ Pinned (log.get i) := fun i hi =>
    of_decide_eq_true (List.mem_filter.mp hi).2
  have hkept : kept = (fill log budgetTokens (pins log ++ others) [] 0).1.filter
      fun i => Pinned (log.get i) := by
    rw [hothers, ← ranked_eq]
  cases fill_pinned budgetTokens (fun i => pinned_of_mem_pins log) others [] 0 with
  | inl hstop =>
      obtain ⟨first, hinit, hne, hreach, hbefore, heq⟩ := hstop
      rw [heq, List.nil_append, filter_pinned_eq_self log fun i hi =>
        pinned_of_mem_pins log (hinit.subset hi)] at hkept
      rw [Nat.zero_add] at hreach hbefore
      by_cases hall : first = pins log
      · rw [hall] at hkept hbefore
        exact Or.inl ⟨hkept, hbefore.imp_left le_of_eq⟩
      · -- the loop ended before the last pinned position
        have hlen : first.length < (pins log).length :=
          lt_of_le_of_ne hinit.length_le fun hlen => hall (hinit.eq_of_length hlen)
        have hcut : first <+: (pins log).dropLast := by
          apply List.prefix_of_prefix_length_le hinit (List.dropLast_prefix _)
          rw [List.length_dropLast]
          exact Nat.le_sub_one_of_lt hlen
        have hpos := List.length_pos_iff.mpr hne
        have hle := tokensOf_le_of_prefix log hcut
        refine Or.inr ⟨hkept ▸ hlen, ?_⟩
        intro hroom
        cases hroom with
        | inl hone => omega
        | inr hlt => omega
  | inr hgo =>
      obtain ⟨hlt, heq⟩ := hgo
      obtain ⟨added, hsub, hadded⟩ := fill_adds budgetTokens others ([] ++ pins log)
        (0 + tokensOf log (pins log))
      have hall : kept = pins log := by
        rw [hkept, heq, hadded, List.nil_append, List.filter_append,
          filter_pinned_eq_self log fun i => pinned_of_mem_pins log,
          filter_pinned_eq_nil log fun i hi => hfree i (hsub.subset hi), List.append_nil]
      refine Or.inl ⟨hall, ?_⟩
      cases hlt with
      | inl hnil =>
          left
          rw [hnil]
          exact Nat.zero_le _
      | inr hlt =>
          right
          have hle := tokensOf_le_of_prefix log (List.dropLast_prefix (pins log))
          omega

end Retention

/-- Pinned blocks all survive exactly where those before the last of them do not fill the budget:
the loop ends at the block that fills it. -/
theorem retains_iff {K : Type*} [LinearOrder K] (importance : Nat → Block → K)
    (sessionId : SessionId) (log : List Block) (budgetTokens : Nat) :
    (prune importance sessionId log budgetTokens).Retains log budgetTokens ↔
      (log.filter Pinned).length ≤ 1 ∨
        ((log.filter Pinned).dropLast.map approxTokens).sum < budgetTokens := by
  have hlength : (log.filter Pinned).length = (pins log).length := by
    rw [← map_get_pins, List.length_map]
  have htokens : ((log.filter Pinned).dropLast.map approxTokens).sum =
      tokensOf log (pins log).dropLast := by
    rw [← map_get_pins, ← List.map_dropLast, ← tokensOf_eq]
  rw [hlength, htokens]
  constructor
  · intro hretains
    cases pins_kept_or_lost importance log budgetTokens with
    | inl hkept => exact hkept.2
    | inr hlost =>
        have hperm := (perm_survivors importance log budgetTokens).filter
          fun i => Pinned (log.get i)
        have hsame : ((survivors importance log budgetTokens).filter
            fun i => Pinned (log.get i)).length = (pins log).length := by
          have heq := congrArg List.length hretains.pinned
          rwa [prune_filter_pinned, List.length_map, hlength] at heq
        rw [hperm.length_eq] at hsame
        exact absurd hsame hlost.1.ne
  · intro hroom
    have hkept := (pins_kept_or_lost importance log budgetTokens).resolve_right
      fun hlost => hlost.2 hroom
    refine ⟨?_, prune_keeps_pins importance log budgetTokens sessionId hkept.1,
      prune_approxTokens_eq_sum importance log budgetTokens sessionId, ?_⟩
    · rw [prune_blocks]
      exact List.map_getElem_sublist (survivors_pairwise importance log budgetTokens)
    · rintro ⟨b, hb, hfree⟩
      have hperm := perm_survivors importance log budgetTokens
      rw [prune_blocks] at hb
      obtain ⟨i, hi, rfl⟩ := List.mem_map.mp hb
      rw [prune_approxTokens, prune_blocks, List.length_map, hperm.length_eq]
      exact fill_ranked_within importance log budgetTokens (hperm.mem_iff.mp hi) hfree

/-- The first of two system blocks fills a budget of one token, and the second is dropped. -/
theorem second_system_block_dropped :
    let log : List Block := [⟨.system, 0, []⟩, ⟨.system, 1, []⟩]
    (prune (fun _ _ => (0 : Nat)) 7 log 1).blocks = [⟨.system, 0, []⟩] ∧
      ¬ (prune (fun _ _ => (0 : Nat)) 7 log 1).Retains log 1 := by
  intro log
  have hblocks : (prune (fun _ _ => (0 : Nat)) 7 log 1).blocks = [⟨.system, 0, []⟩] := by
    decide +kernel
  refine ⟨hblocks, ?_⟩
  intro hretains
  have hpinned := hretains.pinned
  rw [hblocks] at hpinned
  exact absurd hpinned (by decide)

end Dlr.Prune
