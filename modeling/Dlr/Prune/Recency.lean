import Dlr.Prune.Importance
import Mathlib.Analysis.SpecialFunctions.Pow.Real

/-!
# Recency in the importance policy

The recency factor of a block falls with its index, so of two blocks that differ in nothing else
the earlier one ranks higher. It survives alone under the budget that it fills.

## Implementation notes

Scores are exact reals here. The weight of system and summary blocks is a field of the policy
that the score does not read.
-/

namespace Dlr.Prune

open Dlr.Core

structure ImportancePolicy where
  recencyDecay : ℝ
  toolResultWeight : ℝ

namespace ImportancePolicy

noncomputable def default : ImportancePolicy where
  recencyDecay := 3 / 2
  toolResultWeight := 13 / 10

/-- The weight of a kind other than system and summary. -/
def base (policy : ImportancePolicy) : BlockKind → ℝ
  | .toolResult => policy.toolResultWeight
  | _ => 1

noncomputable def recency (policy : ImportancePolicy) (n i : Nat) : ℝ :=
  ((n - i : Nat) / (max n 1 : Nat) : ℝ) ^ policy.recencyDecay

noncomputable def lengthFactor (b : Block) : ℝ := 1 + min (b.payload.length / 4096 : ℝ) 2

/-- The finite score of the block at an index of a log of length `n`. -/
noncomputable def importance (policy : ImportancePolicy) (n i : Nat) (b : Block) : ℝ :=
  policy.base b.kind * policy.recency n i * lengthFactor b

/-- The positions that survive. -/
noncomputable def survivors (policy : ImportancePolicy) (log : List Block) (budgetTokens : Nat) :
    List (Fin log.length) :=
  Prune.survivors (policy.importance log.length) log budgetTokens

noncomputable def prune (policy : ImportancePolicy) (sessionId : SessionId) (log : List Block)
    (budgetTokens : Nat) : PruneWindow :=
  Prune.prune (policy.importance log.length) sessionId log budgetTokens

theorem lengthFactor_pos (b : Block) : 0 < lengthFactor b := by
  unfold lengthFactor
  positivity

/-- A later block is less recent to the score. -/
theorem recency_lt {policy : ImportancePolicy} (h : 0 < policy.recencyDecay) {n i j : Nat}
    (hij : i < j) (hj : j < n) : policy.recency n j < policy.recency n i := by
  have hn : (0 : ℝ) < (max n 1 : Nat) := by
    have hpos : 0 < max n 1 := by omega
    exact_mod_cast hpos
  have hlt : ((n - j : Nat) : ℝ) < (n - i : Nat) := by
    have hnat : n - j < n - i := by omega
    exact_mod_cast hnat
  apply Real.rpow_lt_rpow
  · positivity
  · exact div_lt_div_of_pos_right hlt hn
  · exact h

end ImportancePolicy

/-- Two positions with the same kind and length, neither pinned. -/
structure Twins (log : List Block) (i j : Fin log.length) : Prop where
  free : ¬ Pinned (log.get i)
  kind : (log.get i).kind = (log.get j).kind
  length : (log.get i).payload.length = (log.get j).payload.length

namespace Twins

variable {log : List Block} {i j : Fin log.length}

theorem free' (h : Twins log i j) : ¬ Pinned (log.get j) := by
  have hfree := h.free
  unfold Pinned at hfree ⊢
  rwa [← h.kind]

theorem approxTokens_eq (h : Twins log i j) :
    approxTokens (log.get i) = approxTokens (log.get j) := by
  rw [approxTokens, approxTokens, h.length]

theorem rank_lt_of_score_lt {K : Type*} [LinearOrder K] {score : Nat → Block → K}
    (hi : ¬ Pinned (log.get i)) (hj : ¬ Pinned (log.get j))
    (hlt : score j (log.get j) < score i (log.get i)) : rank score log i < rank score log j := by
  apply Prod.Lex.toLex_lt_toLex.mpr
  left
  rw [score_of_not_pinned hi, score_of_not_pinned hj]
  exact WithTop.coe_lt_coe.mpr hlt

/-- The score of a twin is that of the other with another recency. -/
theorem importance_eq (h : Twins log i j) (policy : ImportancePolicy) :
    policy.importance log.length j (log.get j) =
      policy.base (log.get i).kind * policy.recency log.length j *
        ImportancePolicy.lengthFactor (log.get i) := by
  rw [ImportancePolicy.importance, ImportancePolicy.lengthFactor, ImportancePolicy.lengthFactor,
    h.kind, h.length]

/-- With a weight that is not negative the earlier twin ranks first. -/
theorem rank_lt (h : Twins log i j) {policy : ImportancePolicy} (hdecay : 0 < policy.recencyDecay)
    (hij : i < j) (hbase : 0 ≤ policy.base (log.get i).kind) :
    rank (policy.importance log.length) log i < rank (policy.importance log.length) log j := by
  have hrecency := ImportancePolicy.recency_lt hdecay hij j.isLt
  have hfactor := ImportancePolicy.lengthFactor_pos (log.get i)
  cases hbase.lt_or_eq with
  | inl hpos =>
      apply rank_lt_of_score_lt h.free h.free'
      rw [h.importance_eq]
      exact mul_lt_mul_of_pos_right (mul_lt_mul_of_pos_left hrecency hpos) hfactor
  | inr hzero =>
      apply Prod.Lex.toLex_lt_toLex.mpr
      right
      rw [score_of_not_pinned h.free, score_of_not_pinned h.free', h.importance_eq,
        ImportancePolicy.importance, ← hzero]
      exact ⟨by simp, hij⟩

/-- With a negative weight the later twin ranks first. -/
theorem rank_lt_of_neg (h : Twins log i j) {policy : ImportancePolicy}
    (hdecay : 0 < policy.recencyDecay) (hij : i < j)
    (hbase : policy.base (log.get i).kind < 0) :
    rank (policy.importance log.length) log j < rank (policy.importance log.length) log i := by
  have hrecency := ImportancePolicy.recency_lt hdecay hij j.isLt
  have hfactor := ImportancePolicy.lengthFactor_pos (log.get i)
  apply rank_lt_of_score_lt h.free' h.free
  rw [h.importance_eq]
  exact mul_lt_mul_of_pos_right (mul_lt_mul_of_neg_left hrecency hbase) hfactor

end Twins

/-! ## Which of two positions is kept -/

section Fill

variable {log : List Block} {budgetTokens : Nat}

/-- Positions up to the one that fills the budget exactly are kept, and the loop ends there. -/
theorem fill_exact (pre post kept : List (Fin log.length)) (i : Fin log.length) (tokens : Nat) :
    fill log (tokens + tokensOf log (pre ++ [i])) (pre ++ i :: post) kept tokens =
      (kept ++ (pre ++ [i]), tokens + tokensOf log (pre ++ [i])) := by
  induction pre generalizing kept tokens with
  | nil =>
      rw [List.nil_append, List.nil_append, fill, tokensOf_cons, tokensOf_nil, Nat.add_zero,
        if_neg fun hskip => absurd hskip.1 (lt_irrefl _), if_pos (le_refl _)]
  | cons k rest ih =>
      have hpos : 0 < tokensOf log (rest ++ [i]) := by
        rw [tokensOf_append, tokensOf_cons]
        have hi := approxTokens_pos (log.get i)
        omega
      have hstep := ih (kept ++ [k]) (tokens + approxTokens (log.get k))
      rw [List.cons_append, List.cons_append, fill, tokensOf_cons, ← Nat.add_assoc,
        if_neg fun hskip => absurd hskip.1 (by omega), if_neg (by omega), hstep,
        List.append_assoc, List.singleton_append]

/-- The loop over a first part either ends there or goes on with the second. -/
theorem fill_append (budgetTokens : Nat) (pre post kept : List (Fin log.length)) (tokens : Nat) :
    ∃ added, added.Sublist pre ∧
      ((fill log budgetTokens (pre ++ post) kept tokens).1 = kept ++ added ∨
        ∃ tokens', fill log budgetTokens (pre ++ post) kept tokens =
          fill log budgetTokens post (kept ++ added) tokens') := by
  induction pre generalizing kept tokens with
  | nil => exact ⟨[], List.Sublist.slnil, Or.inr ⟨tokens, by simp⟩⟩
  | cons k rest ih =>
      rw [List.cons_append, fill]
      split_ifs
      · obtain ⟨added, hsub, hcases⟩ := ih kept tokens
        exact ⟨added, hsub.cons k, hcases⟩
      · exact ⟨[k], List.Sublist.cons_cons k (List.nil_sublist rest), Or.inl rfl⟩
      · obtain ⟨added, hsub, hcases⟩ := ih (kept ++ [k]) (tokens + approxTokens (log.get k))
        rw [List.append_assoc, List.singleton_append] at hcases
        exact ⟨k :: added, hsub.cons_cons k, hcases⟩

/-- What does not fit now never fits later. -/
theorem not_mem_fill {i : Fin log.length} (hfree : ¬ Pinned (log.get i))
    {l kept : List (Fin log.length)} {tokens : Nat} (hkept : kept ≠ []) (hi : i ∉ kept)
    (hover : budgetTokens < tokens + approxTokens (log.get i)) :
    i ∉ (fill log budgetTokens l kept tokens).1 := by
  induction l generalizing kept tokens with
  | nil => exact hi
  | cons k rest ih =>
      rw [fill]
      split_ifs with hskip hfull
      · exact ih hkept hi hover
      · have hne : i ≠ k := by
          rintro rfl
          exact hskip ⟨hover, hkept, hfree⟩
        simpa [hi] using hne
      · have hne : i ≠ k := by
          rintro rfl
          exact hskip ⟨hover, hkept, hfree⟩
        apply ih
        · simp
        · simpa [hi] using hne
        · omega

/-- Of two blocks of one size the one that comes first in the loop is kept with the other. -/
theorem mem_fill_of_mem {i j : Fin log.length} (hfree : ¬ Pinned (log.get i))
    (htokens : approxTokens (log.get i) = approxTokens (log.get j))
    {pre post : List (Fin log.length)} (hpre : i ∉ pre)
    (hi : i ∈ (fill log budgetTokens (pre ++ j :: post) [] 0).1) :
    j ∈ (fill log budgetTokens (pre ++ j :: post) [] 0).1 := by
  obtain ⟨added, hsub, hcases⟩ := fill_append budgetTokens pre (j :: post) [] 0
  have hfresh : i ∉ [] ++ added := fun hmem => hpre (hsub.subset hmem)
  cases hcases with
  | inl hstop =>
      rw [hstop] at hi
      exact absurd hi hfresh
  | inr hgo =>
      obtain ⟨tokens', heq⟩ := hgo
      rw [heq, fill] at hi ⊢
      split_ifs at hi ⊢ with hskip hfull
      · refine absurd hi (not_mem_fill hfree hskip.2.1 hfresh ?_)
        rw [htokens]
        exact hskip.1
      · simp
      · obtain ⟨more, -, hmore⟩ := fill_adds budgetTokens post ([] ++ added ++ [j])
          (tokens' + approxTokens (log.get j))
        rw [hmore]
        simp

end Fill

/-- The position of lower rank comes first in the order of the loop. -/
theorem exists_ranked_eq {K : Type*} [LinearOrder K] {importance : Nat → Block → K}
    {log : List Block} {i j : Fin log.length} (h : rank importance log i < rank importance log j) :
    ∃ pre post, ranked importance log = pre ++ i :: post ∧ j ∉ pre := by
  have hmem : i ∈ ranked importance log :=
    (ranked_perm importance log).mem_iff.mpr (List.mem_finRange i)
  obtain ⟨pre, post, heq⟩ := List.append_of_mem hmem
  refine ⟨pre, post, heq, ?_⟩
  intro hj
  have hsorted := ranked_pairwise importance log
  rw [heq] at hsorted
  have hlt := (List.pairwise_append.mp hsorted).2.2 j hj i List.mem_cons_self
  exact absurd hlt (lt_asymm h)

theorem mem_survivors {K : Type*} [LinearOrder K] {importance : Nat → Block → K}
    {log : List Block} {budgetTokens : Nat} {i : Fin log.length} :
    i ∈ survivors importance log budgetTokens ↔
      i ∈ (fill log budgetTokens (ranked importance log) [] 0).1 :=
  (perm_survivors importance log budgetTokens).mem_iff

namespace ImportancePolicy

/-- The later of two twins survives with the earlier one under every budget exactly where the
weight of their kind is negative: otherwise the earlier one ranks higher, and alone survives the
budget that it fills. -/
theorem prefers_recent_iff (policy : ImportancePolicy) (hdecay : 0 < policy.recencyDecay)
    (log : List Block) :
    (∀ (budgetTokens : Nat) (i j : Fin log.length), i < j → Twins log i j →
      i ∈ policy.survivors log budgetTokens → j ∈ policy.survivors log budgetTokens) ↔
    ∀ i j : Fin log.length, i < j → Twins log i j → policy.base (log.get i).kind < 0 := by
  constructor
  · intro hprefers i j hij htwins
    by_contra hbase
    have hrank := htwins.rank_lt hdecay hij (not_lt.mp hbase)
    obtain ⟨pre, post, heq, hpre⟩ := exists_ranked_eq hrank
    have hexact := fill_exact pre post [] i 0
    have hj := hprefers (0 + tokensOf log (pre ++ [i])) i j hij htwins
    simp only [survivors, mem_survivors, heq, hexact] at hj
    have hmem : j ∈ pre ++ [i] := hj (by simp)
    have hne : j ≠ i := hij.ne'
    simp [hpre, hne] at hmem
  · intro hneg budgetTokens i j hij htwins
    have hrank := htwins.rank_lt_of_neg hdecay hij (hneg i j hij htwins)
    obtain ⟨pre, post, heq, hpre⟩ := exists_ranked_eq hrank
    simp only [survivors, mem_survivors, heq]
    exact mem_fill_of_mem htwins.free htwins.approxTokens_eq hpre

/-- Two tool results that a negative weight turns around: the later one is preferred. -/
theorem prefers_recent_iff_negative_weight :
    let policy : ImportancePolicy := ⟨3 / 2, -1⟩
    let log : List Block := [⟨.toolResult, 0, [1, 2, 3, 4]⟩, ⟨.toolResult, 1, [5, 6, 7, 8]⟩]
    Twins log 0 1 ∧ ∀ (budgetTokens : Nat) (i j : Fin log.length), i < j → Twins log i j →
      i ∈ policy.survivors log budgetTokens → j ∈ policy.survivors log budgetTokens := by
  intro policy log
  refine ⟨⟨by decide, by decide, by decide⟩, ?_⟩
  rw [prefers_recent_iff policy (by norm_num [policy]) log]
  intro i j _ _
  have hkind : ∀ i : Fin log.length, (log.get i).kind = .toolResult := by decide
  rw [hkind i]
  norm_num [base, policy]

/-- Of two messages of four bytes the default policy keeps the earlier one under a budget of one
token. -/
theorem earlier_message_kept_alone :
    let log : List Block := [⟨.message, 0, [1, 2, 3, 4]⟩, ⟨.message, 1, [5, 6, 7, 8]⟩]
    Twins log 0 1 ∧ (0 : Fin log.length) ∈ default.survivors log 1 ∧
      (1 : Fin log.length) ∉ default.survivors log 1 ∧
      (default.prune 7 log 1).blocks = [⟨.message, 0, [1, 2, 3, 4]⟩] := by
  intro log
  have htwins : Twins log 0 1 := ⟨by decide, by decide, by decide⟩
  have hrank : rank (default.importance log.length) log 0 <
      rank (default.importance log.length) log 1 :=
    htwins.rank_lt (by norm_num [default]) (by decide) zero_le_one
  have hranked : ranked (default.importance log.length) log = [0, 1] := by
    refine List.Perm.eq_of_pairwise ?_ (ranked_pairwise _ log) ?_ (ranked_perm _ log)
    · intro i j _ _ hij hji
      exact absurd hji (lt_asymm hij)
    · exact List.pairwise_pair.mpr hrank
  have hsurvivors : default.survivors log 1 = [0] := by
    rw [survivors, Prune.survivors, hranked]
    decide +kernel
  refine ⟨htwins, ?_, ?_, ?_⟩
  · rw [hsurvivors]
    decide
  · rw [hsurvivors]
    decide
  · have hblocks := prune_blocks (default.importance log.length) log 1 7
    rw [prune, hblocks]
    exact congrArg (List.map log.get) hsurvivors

end ImportancePolicy

end Dlr.Prune
