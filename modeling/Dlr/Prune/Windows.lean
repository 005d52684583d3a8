import Dlr.Prune.Incremental

/-!
# Incremental and offline windows

A window that is maintained block by block forgets what it evicts. Under a block budget it is
still the highest entries of everything ever inserted, and under a token budget with the default
score it is the longest suffix of the insertions that fits.
-/

namespace Dlr.Prune

open Dlr.Core Lib Lib.Machine
open scoped List

/-! ## The highest entries -/

/-- The first block ranks at least as high as the second. -/
def ScoredBlock.Above (a b : ScoredBlock) : Prop := b.key ≤ a.key

namespace ScoredBlock

instance : DecidableRel Above := fun a b => inferInstanceAs (Decidable (b.key ≤ a.key))

instance : Std.Total Above := ⟨fun a b => le_total b.key a.key⟩

instance : IsTrans ScoredBlock Above := ⟨fun _ _ _ hab hbc => le_trans hbc hab⟩

end ScoredBlock

/-- What an insertion leaves among the first `n` depends on the first `n` only. -/
theorem take_orderedInsert {α : Type*} (r : α → α → Prop) [DecidableRel r] (x : α) (l : List α)
    (n : Nat) : ((l.take n).orderedInsert r x).take n = (l.orderedInsert r x).take n := by
  induction l generalizing n with
  | nil => rw [List.take_nil]
  | cons a rest ih =>
      cases n with
      | zero => rw [List.take_zero, List.take_zero]
      | succ n =>
          simp only [List.take_succ_cons, List.orderedInsert_cons]
          split_ifs
          · cases n with
            | zero => rw [List.take_succ_cons, List.take_succ_cons, List.take_zero, List.take_zero]
            | succ n => simp [List.take_take]
          · rw [List.take_succ_cons, List.take_succ_cons, ih]

/-- Blocks with different keys are sorted in one way. -/
theorem eq_of_above {l l' : List ScoredBlock} (hkeys : (l.map ScoredBlock.key).Nodup)
    (hl : l.Pairwise ScoredBlock.Above) (hl' : l'.Pairwise ScoredBlock.Above) (h : l.Perm l') :
    l = l' := by
  refine List.Perm.eq_of_pairwise ?_ hl hl' h
  intro a b ha hb hab hba
  exact List.inj_on_of_nodup_map hkeys ha (h.mem_iff.mpr hb) (le_antisymm hba hab)

theorem reverse_place {b : ScoredBlock} {l : List ScoredBlock}
    (hsorted : l.Pairwise fun a b => a.key < b.key) (hkey : ∀ c ∈ l, c.key ≠ b.key) :
    (place b l).reverse = l.reverse.orderedInsert ScoredBlock.Above b := by
  have hperm : (place b l).reverse.Perm (b :: l) :=
    (List.reverse_perm _).trans (Holds.perm_place b l)
  have hplaced := Holds.sorted_place hsorted hkey
  apply eq_of_above
  · apply List.pairwise_map.mpr
    exact List.pairwise_reverse.mpr (hplaced.imp ne_of_gt)
  · exact List.pairwise_reverse.mpr (hplaced.imp le_of_lt)
  · apply List.Pairwise.orderedInsert
    exact List.pairwise_reverse.mpr (hsorted.imp le_of_lt)
  · have hperm' := List.perm_orderedInsert ScoredBlock.Above b l.reverse
    exact hperm.trans ((List.reverse_perm l).cons b).symm |>.trans hperm'.symm

theorem insertionSort_concat {l : List ScoredBlock} {b : ScoredBlock}
    (hkeys : ((l ++ [b]).map ScoredBlock.key).Nodup) :
    (l ++ [b]).insertionSort ScoredBlock.Above =
      (l.insertionSort ScoredBlock.Above).orderedInsert ScoredBlock.Above b := by
  have hperm := List.perm_insertionSort ScoredBlock.Above (l ++ [b])
  apply eq_of_above
  · exact (hperm.map _).nodup_iff.mpr hkeys
  · exact List.pairwise_insertionSort _ _
  · exact List.Pairwise.orderedInsert _ _ (List.pairwise_insertionSort _ _)
  · calc
      (l ++ [b]).insertionSort ScoredBlock.Above ~ l ++ [b] := hperm
      _ ~ b :: l := List.perm_append_singleton b l
      _ ~ b :: l.insertionSort ScoredBlock.Above := (List.perm_insertionSort _ l).symm.cons b
      _ ~ _ := (List.perm_orderedInsert _ _ _).symm

theorem reverse_settle_blocks {n : Nat} {l : List ScoredBlock} (h : l.length ≤ n + 1) :
    (settle (.blocks n) l).reverse = l.reverse.take n := by
  cases l with
  | nil => simp [settle]
  | cons b rest =>
      rw [settle_cons]
      rw [List.length_cons] at h
      split_ifs with hover
      · have hlen : rest.reverse.length = n := by
          simp only [Budget.over, decide_eq_true_eq] at hover
          rw [List.length_reverse]
          omega
        rw [List.reverse_cons, List.take_left' hlen]
      · simp only [Budget.over, decide_eq_true_eq, Nat.not_lt] at hover
        rw [List.take_of_length_le]
        rwa [List.length_reverse, List.length_cons]

/-- The next of different ids is not among the survivors. -/
theorem not_mem_of_nodup_append {l all : List ScoredBlock} {id : BlockId} {rest : List BlockId}
    (hsub : ∀ c ∈ l, c ∈ all) (hids : (all.map ScoredBlock.id ++ id :: rest).Nodup) :
    id ∉ l.map ScoredBlock.id := by
  intro hmem
  obtain ⟨c, hc, heq⟩ := List.mem_map.mp hmem
  exact List.disjoint_of_nodup_append hids
    (List.mem_map_of_mem (hsub c hc)) (heq ▸ List.mem_cons_self)

/-- Under a block budget the survivors are the highest of all blocks inserted so far. -/
theorem survivorsFrom_blocks {b n : Nat} {scorer : Nat → Nat → Nat} {l all : List ScoredBlock}
    {inserts : List (BlockId × Nat)}
    (hl : l.reverse = (all.insertionSort ScoredBlock.Above).take b)
    (hsorted : l.Pairwise fun a b => a.key < b.key)
    (hkeys : (all.map ScoredBlock.key).Nodup) (hseq : ∀ c ∈ all, c.seq ≤ n)
    (hids : (all.map ScoredBlock.id ++ inserts.map Prod.fst).Nodup) :
    (survivorsFrom (.blocks b) scorer n l inserts).reverse =
      ((all ++ insertedFrom scorer n inserts).insertionSort ScoredBlock.Above).take b := by
  induction inserts generalizing n l all with
  | nil => rwa [insertedFrom, List.append_nil]
  | cons block rest ih =>
      obtain ⟨id, size⟩ := block
      set new : ScoredBlock := ⟨id, scorer (n + 1) size, n + 1, size⟩ with hnew
      have hsub : ∀ c ∈ l, c ∈ all := by
        intro c hc
        have hmem : c ∈ (all.insertionSort ScoredBlock.Above).take b := by
          rw [← hl]
          exact List.mem_reverse.mpr hc
        exact (List.mem_insertionSort _).mp (List.mem_of_mem_take hmem)
      have hfresh : ∀ c ∈ all, c.key ≠ new.key := by
        intro c hc heq
        have hsame : c.seq = n + 1 := congrArg (fun k : Key => (ofLex k).2) heq
        have hle := hseq c hc
        omega
      have hid : id ∉ l.map ScoredBlock.id := not_mem_of_nodup_append hsub hids
      have hkeys' : ((all ++ [new]).map ScoredBlock.key).Nodup := by
        rw [List.map_append]
        refine hkeys.append (List.nodup_singleton _) ?_
        intro k hk hk'
        obtain ⟨c, hc, rfl⟩ := List.mem_map.mp hk
        exact hfresh c hc (List.mem_singleton.mp hk')
      have hplace : (place new l).reverse =
          ((all.insertionSort ScoredBlock.Above).take b).orderedInsert ScoredBlock.Above new := by
        rw [reverse_place hsorted fun c hc => hfresh c (hsub c hc), hl]
      have hlen : (place new l).length ≤ b + 1 := by
        rw [(Holds.perm_place new l).length_eq, List.length_cons, ← List.length_reverse, hl]
        exact Nat.succ_le_succ (List.length_take_le _ _)
      have hstep : (settle (.blocks b) (place new l)).reverse =
          ((all ++ [new]).insertionSort ScoredBlock.Above).take b := by
        rw [reverse_settle_blocks hlen, hplace, take_orderedInsert, insertionSort_concat hkeys']
      rw [survivorsFrom, others_of_not_mem hid, insertedFrom]
      have hrest := ih (n := n + 1) hstep ?_ hkeys' ?_ ?_
      · rwa [List.append_assoc] at hrest
      · have hplaced := Holds.sorted_place hsorted fun c hc => hfresh c (hsub c hc)
        exact hplaced.sublist (settle_suffix _ _).sublist
      · intro c hc
        cases List.mem_append.mp hc with
        | inl hold => exact (hseq c hold).trans (Nat.le_succ n)
        | inr hone => rw [List.mem_singleton.mp hone]
      · rw [List.map_append, List.append_assoc]
        exact hids

namespace IncrementalPruner

theorem Represents.window_eq {p : IncrementalPruner} {l : List ScoredBlock}
    (h : p.Represents l) : p.window = l.reverse.map ScoredBlock.id := by
  rw [window, h.holds.ordered, ← List.map_reverse, List.map_map]
  rfl

/-- Whatever is inserted, under any score, the books are kept as long as the numbers fit, and a
block budget keeps the highest of all blocks ever inserted. -/
theorem books_kept_iff (budget : Budget) (scorer : Nat → Nat → Nat)
    (inserts : List (BlockId × Nat)) :
    (∃ p, (newWith budget scorer).insertAll inserts = some p ∧ p.budget = budget ∧ p.Books ∧
      ∀ b, budget = .blocks b → (inserts.map Prod.fst).Nodup →
        p.window = (((insertedFrom scorer 0 inserts).insertionSort ScoredBlock.Above).take b).map
          ScoredBlock.id) ↔
    (newWith budget scorer).FitsAll inserts := by
  have hnew := represents_newWith budget scorer
  constructor
  · rintro ⟨p, hall, -⟩
    exact hnew.fitsAll hall
  · intro hfits
    obtain ⟨p, hall, hbudget, hp⟩ := hnew.insertAll hfits
    refine ⟨p, hall, hbudget, hp.books, ?_⟩
    rintro b rfl hids
    have htop : (survivorsFrom (.blocks b) scorer 0 [] inserts).reverse =
        (([] ++ insertedFrom scorer 0 inserts).insertionSort ScoredBlock.Above).take b :=
      survivorsFrom_blocks (by simp) List.Pairwise.nil List.nodup_nil (by simp) hids
    rw [hp.window_eq]
    exact congrArg (List.map ScoredBlock.id) htop

/-- An id that is one byte over and over. -/
def repeated (b : UInt8) : BlockId := ⟨List.replicate 32 b, List.length_replicate⟩

/-- A second insertion on top of a block of the largest size leaves the 64 bits: the total panics
in a debug build, and in a release build it wraps to one, so that both blocks stay under a budget
of ten tokens. -/
theorem total_size_overflows :
    ((newWith (.tokens 10) defaultScore).insertAll [(repeated 0, usizeMax)]).isSome = true ∧
      (newWith (.tokens 10) defaultScore).insertAll [(repeated 0, usizeMax), (repeated 1, 2)] =
        none ∧
      (usizeMax + 2) % 2 ^ 64 = 1 := by
  decide +kernel

end IncrementalPruner

/-! ## The longest recent suffix -/

theorem defaultScore_eq {seq : Nat} (h : seq < 2 ^ 44) (size : Nat) :
    defaultScore seq size = seq * 2 ^ 20 + min size (2 ^ 20 - 1) := by
  have hcap : min size (1 <<< 20 - 1) < 2 ^ 20 := by
    have hle : min size (1 <<< 20 - 1) ≤ 1 <<< 20 - 1 := Nat.min_le_right _ _
    have hone : 1 <<< 20 - 1 < 2 ^ 20 := by decide
    exact lt_of_le_of_lt hle hone
  have hshift : seq <<< 20 < 2 ^ 64 := by
    rw [Nat.shiftLeft_eq]
    omega
  rw [defaultScore, Nat.mod_eq_of_lt hshift, ← Nat.shiftLeft_add_eq_or_of_lt hcap,
    Nat.shiftLeft_eq]
  rfl

/-- A later block scores higher, whatever the two sizes are. -/
theorem defaultScore_lt {m n : Nat} (hmn : m < n) (hn : n < 2 ^ 44) (s t : Nat) :
    defaultScore m s < defaultScore n t := by
  rw [defaultScore_eq (hmn.trans hn), defaultScore_eq hn]
  have hs : min s (2 ^ 20 - 1) ≤ 2 ^ 20 - 1 := Nat.min_le_right _ _
  omega

theorem place_eq_concat {b : ScoredBlock} {l : List ScoredBlock}
    (h : ∀ c ∈ l, c.key < b.key) : place b l = l ++ [b] := by
  induction l with
  | nil => rfl
  | cons c rest ih =>
      have hrest := ih fun d hd => h d (List.mem_cons_of_mem _ hd)
      have hbelow : ¬ b.Below c := not_le_of_gt (h c List.mem_cons_self)
      unfold place at hrest ⊢
      rw [List.orderedInsert_cons, if_neg hbelow, hrest, List.cons_append]

theorem totalOf_append (l l' : List ScoredBlock) : totalOf (l ++ l') = totalOf l + totalOf l' := by
  rw [totalOf, List.map_append, List.sum_append, totalOf, totalOf]

/-- What a window evicted would not be kept later either. -/
theorem settle_settle_concat (b : Nat) (l : List ScoredBlock) (new : ScoredBlock) :
    settle (.tokens b) (settle (.tokens b) l ++ [new]) = settle (.tokens b) (l ++ [new]) := by
  induction l with
  | nil => rfl
  | cons c rest ih =>
      rw [settle_cons]
      split_ifs with hover
      · have hover' : Budget.over (.tokens b) ((rest ++ [new]).length + 1)
            (totalOf (c :: (rest ++ [new]))) = true := by
          simp only [Budget.over, decide_eq_true_eq] at hover ⊢
          rw [← List.cons_append, totalOf_append, List.length_append]
          omega
        rw [List.cons_append, settle_cons, if_pos hover']
        exact ih
      · rfl

theorem settle_ne_nil {b : Nat} {l : List ScoredBlock} (h : l ≠ []) :
    settle (.tokens b) l ≠ [] := by
  induction l with
  | nil => exact absurd rfl h
  | cons c rest ih =>
      rw [settle_cons]
      split_ifs with hover
      · apply ih
        rintro rfl
        simp [Budget.over] at hover
      · exact List.cons_ne_nil _ _

theorem length_le_settle {b : Nat} {l w : List ScoredBlock} (hw : w <:+ l)
    (hfits : totalOf w ≤ b) : w.length ≤ (settle (.tokens b) l).length := by
  induction l with
  | nil =>
      rw [List.suffix_nil.mp hw]
      exact Nat.zero_le _
  | cons c rest ih =>
      rw [settle_cons]
      split_ifs with hover
      · cases List.suffix_cons_iff.mp hw with
        | inl heq =>
            simp only [Budget.over, decide_eq_true_eq, ← heq] at hover
            omega
        | inr hrest => exact ih hrest
      · exact hw.length_le

/-- Under a token budget and the default score the survivors are those of all blocks inserted so
far. -/
theorem survivorsFrom_tokens {b n : Nat} {all : List ScoredBlock} {inserts : List (BlockId × Nat)}
    (hall : ∀ c ∈ all, c.seq ≤ n ∧ c.score = defaultScore c.seq c.size)
    (hlen : n + inserts.length < 2 ^ 44)
    (hids : (all.map ScoredBlock.id ++ inserts.map Prod.fst).Nodup) :
    survivorsFrom (.tokens b) defaultScore n (settle (.tokens b) all) inserts =
      settle (.tokens b) (all ++ insertedFrom defaultScore n inserts) := by
  induction inserts generalizing n all with
  | nil => rw [survivorsFrom, insertedFrom, List.append_nil]
  | cons block rest ih =>
      obtain ⟨id, size⟩ := block
      rw [List.length_cons] at hlen
      set new : ScoredBlock := ⟨id, defaultScore (n + 1) size, n + 1, size⟩ with hnew
      have hsub : ∀ c ∈ settle (.tokens b) all, c ∈ all := fun c hc =>
        (settle_suffix _ _).subset hc
      have hid : id ∉ (settle (.tokens b) all).map ScoredBlock.id :=
        not_mem_of_nodup_append hsub hids
      have hlast : ∀ c ∈ settle (.tokens b) all, c.key < new.key := by
        intro c hc
        obtain ⟨hseq, hscore⟩ := hall c (hsub c hc)
        apply Prod.Lex.toLex_lt_toLex.mpr
        left
        rw [hscore]
        exact defaultScore_lt (Nat.lt_succ_of_le hseq) (by omega) _ _
      have hall' : ∀ c ∈ all ++ [new], c.seq ≤ n + 1 ∧ c.score = defaultScore c.seq c.size := by
        intro c hc
        cases List.mem_append.mp hc with
        | inl hold => exact ⟨(hall c hold).1.trans (Nat.le_succ n), (hall c hold).2⟩
        | inr hone =>
            rw [List.mem_singleton.mp hone]
            exact ⟨le_refl _, rfl⟩
      have hids' : ((all ++ [new]).map ScoredBlock.id ++ rest.map Prod.fst).Nodup := by
        rw [List.map_append, List.append_assoc]
        exact hids
      rw [survivorsFrom, others_of_not_mem hid, place_eq_concat hlast, settle_settle_concat,
        insertedFrom, ih hall' (by omega) hids', List.append_assoc]
      rfl

theorem insertedFrom_map (scorer : Nat → Nat → Nat) (n : Nat) (inserts : List (BlockId × Nat)) :
    (insertedFrom scorer n inserts).map (fun c => (c.id, c.size)) = inserts := by
  induction inserts generalizing n with
  | nil => rfl
  | cons block rest ih => rw [insertedFrom, List.map_cons, ih]

theorem lt_of_mem_insertedFrom {scorer : Nat → Nat → Nat} {n : Nat}
    {inserts : List (BlockId × Nat)} {c : ScoredBlock} (h : c ∈ insertedFrom scorer n inserts) :
    n < c.seq := by
  induction inserts generalizing n with
  | nil => cases h
  | cons block rest ih =>
      cases List.mem_cons.mp h with
      | inl heq =>
          rw [heq]
          exact Nat.lt_succ_self n
      | inr hrest => exact (Nat.lt_succ_self n).trans (ih hrest)

theorem insertedFrom_pairwise (scorer : Nat → Nat → Nat) (n : Nat)
    (inserts : List (BlockId × Nat)) :
    (insertedFrom scorer n inserts).Pairwise fun a b => a.seq < b.seq := by
  induction inserts generalizing n with
  | nil => exact List.Pairwise.nil
  | cons block rest ih =>
      apply List.Pairwise.cons
      · exact fun c hc => lt_of_mem_insertedFrom hc
      · exact ih (n + 1)

/-- The longest suffix that fits a token budget, or the last block where nothing fits. -/
structure IsRecentWindow (b : Nat) (inserts w : List (BlockId × Nat)) : Prop where
  suffix : w <:+ inserts
  ne_nil : w ≠ []
  fits : (w.map Prod.snd).sum ≤ b ∨ w.length = 1
  longest : ∀ w', w' <:+ inserts → (w'.map Prod.snd).sum ≤ b → w'.length ≤ w.length

theorem isRecentWindow_settle (b n : Nat) (scorer : Nat → Nat → Nat)
    {inserts : List (BlockId × Nat)} (hne : inserts ≠ []) :
    IsRecentWindow b inserts
      ((settle (.tokens b) (insertedFrom scorer n inserts)).map fun c => (c.id, c.size)) := by
  have hmap := insertedFrom_map scorer n inserts
  have hsizes : ∀ l : List ScoredBlock,
      ((l.map fun c => (c.id, c.size)).map Prod.snd).sum = totalOf l := by
    intro l
    rw [List.map_map]
    rfl
  have hinserted : insertedFrom scorer n inserts ≠ [] := by
    intro hnil
    rw [hnil] at hmap
    exact hne hmap.symm
  have hkept := settle_ne_nil (b := b) hinserted
  constructor
  · have hsuffix := (settle_suffix (.tokens b) (insertedFrom scorer n inserts)).map
      fun c => (c.id, c.size)
    rwa [hmap] at hsuffix
  · simpa using hkept
  · have hover : Budget.over (.tokens b) (settle (.tokens b) (insertedFrom scorer n inserts)).length
        (totalOf (settle (.tokens b) (insertedFrom scorer n inserts))) = false :=
      not_over_settle fun m hm => nomatch hm
    simp only [Budget.over, decide_eq_false_iff_not, not_and, Nat.not_lt] at hover
    rw [hsizes, List.length_map]
    have hpos := List.length_pos_iff.mpr hkept
    omega
  · intro w' hw' hfits
    rw [List.suffix_iff_eq_drop] at hw'
    set k := inserts.length - w'.length
    -- the same blocks with their scores
    have hscored : w' = ((insertedFrom scorer n inserts).drop k).map fun c => (c.id, c.size) := by
      rw [List.map_drop, hmap, ← hw']
    rw [hscored, hsizes] at hfits
    rw [hscored, List.length_map, List.length_map]
    exact length_le_settle (List.drop_suffix _ _) hfits

namespace IncrementalPruner

/-- The entries of a hash map, each once, in any order. -/
structure Lists (index : FinMap BlockId (Nat × Nat × Nat))
    (entries : List (BlockId × (Nat × Nat × Nat))) : Prop where
  nodup : (entries.map Prod.fst).Nodup
  mem_iff : ∀ id v, (id, v) ∈ entries ↔ index.get? id = some v

/-- The entry of a survivor in the hash map. -/
def indexed (c : ScoredBlock) : BlockId × (Nat × Nat × Nat) := (c.id, c.score, c.seq, c.size)

theorem Represents.perm_indexed {p : IncrementalPruner} {l : List ScoredBlock}
    (h : p.Represents l) {entries : List (BlockId × (Nat × Nat × Nat))}
    (hentries : Lists p.index entries) : entries ~ l.map indexed := by
  have hnodup : (l.map indexed).Nodup := by
    apply List.Nodup.of_map Prod.fst
    rw [List.map_map]
    exact h.holds.nodup
  apply (List.perm_ext_iff_of_nodup (List.Nodup.of_map _ hentries.nodup) hnodup).mpr
  rintro ⟨id, v⟩
  rw [hentries.mem_iff, h.holds.index, List.mem_map]
  constructor
  · rintro ⟨c, hc, rfl, rfl⟩
    exact ⟨c, hc, rfl⟩
  · rintro ⟨c, hc, heq⟩
    cases heq
    exact ⟨c, hc, rfl, rfl⟩

/-- Survivors that came in one after the other are given in this order. -/
theorem Represents.windowOrdered_eq {p : IncrementalPruner} {l : List ScoredBlock}
    (h : p.Represents l) (hseq : l.Pairwise fun a b => a.seq < b.seq)
    {entries : List (BlockId × (Nat × Nat × Nat))} (hentries : Lists p.index entries) :
    windowOrdered entries = l.map ScoredBlock.id := by
  let earlier : BlockId × (Nat × Nat × Nat) → BlockId × (Nat × Nat × Nat) → Prop :=
    fun a b => a.2.2.1 ≤ b.2.2.1
  have : Std.Total earlier := ⟨fun a b => le_total a.2.2.1 b.2.2.1⟩
  have : IsTrans _ earlier := ⟨fun _ _ _ => le_trans⟩
  have hperm := (List.perm_insertionSort earlier entries).trans (h.perm_indexed hentries)
  have hindexed : (l.map indexed).Pairwise fun a b => a.2.2.1 < b.2.2.1 :=
    List.pairwise_map.mpr hseq
  have hsorted : entries.insertionSort earlier = l.map indexed := by
    refine List.Perm.eq_of_pairwise ?_ (List.pairwise_insertionSort earlier entries)
      (hindexed.imp le_of_lt) hperm
    intro a b ha hb hab hba
    have hdistinct : ((l.map indexed).map fun v => v.2.2.1).Nodup :=
      List.pairwise_map.mpr (hindexed.imp ne_of_lt)
    exact List.inj_on_of_nodup_map hdistinct (hperm.mem_iff.mp ha) hb (le_antisymm hab hba)
  rw [windowOrdered, hsorted, List.map_map]
  rfl

/-- After any insertions of different ids the token window is the longest suffix of them that
fits, as long as the numbers fit. -/
theorem window_ordered_longest_iff (b : Nat) {inserts : List (BlockId × Nat)}
    (hne : inserts ≠ []) (hlen : inserts.length ≤ 2 ^ 44 - 1)
    (hids : (inserts.map Prod.fst).Nodup) :
    (∃ p, (newWith (.tokens b) defaultScore).insertAll inserts = some p ∧
      ∀ entries, Lists p.index entries → ∃ w, IsRecentWindow b inserts w ∧
        windowOrdered entries = w.map Prod.fst) ↔
    (newWith (.tokens b) defaultScore).FitsAll inserts := by
  have hnew := represents_newWith (.tokens b) defaultScore
  constructor
  · rintro ⟨p, hall, -⟩
    exact hnew.fitsAll hall
  · intro hfits
    obtain ⟨p, hall, -, hp⟩ := hnew.insertAll hfits
    have hkept : survivorsFrom (.tokens b) defaultScore 0 (settle (.tokens b) []) inserts =
        settle (.tokens b) ([] ++ insertedFrom defaultScore 0 inserts) :=
      survivorsFrom_tokens (by simp) (by omega) hids
    have hp' : p.Represents (settle (.tokens b) (insertedFrom defaultScore 0 inserts)) :=
      hkept ▸ hp
    refine ⟨p, hall, ?_⟩
    intro entries hentries
    refine ⟨_, isRecentWindow_settle b 0 defaultScore hne, ?_⟩
    rw [hp'.windowOrdered_eq ?_ hentries, List.map_map]
    · rfl
    · exact (insertedFrom_pairwise _ _ _).sublist (settle_suffix _ _).sublist

/-- Of three blocks under a budget of ten tokens the two last ones are left. -/
theorem window_ordered_longest_iff_three :
    ∃ p, (newWith (.tokens 10) defaultScore).insertAll
        [(repeated 0, 4), (repeated 1, 5), (repeated 2, 3)] = some p ∧
      ∀ entries, Lists p.index entries → ∃ w,
        IsRecentWindow 10 [(repeated 0, 4), (repeated 1, 5), (repeated 2, 3)] w ∧
          windowOrdered entries = w.map Prod.fst := by
  rw [window_ordered_longest_iff 10 (by decide) (by decide) (by decide)]
  have hsome : ((newWith (.tokens 10) defaultScore).insertAll
      [(repeated 0, 4), (repeated 1, 5), (repeated 2, 3)]).isSome = true := by
    decide +kernel
  obtain ⟨p, hp⟩ := Option.isSome_iff_exists.mp hsome
  exact (represents_newWith _ _).fitsAll hp

/-- A last block of the largest size should stay alone, but the total of both panics before the
first one is evicted, and in a release build it wraps to two, so that both stay. -/
theorem last_block_overflows :
    IsRecentWindow 10 [(repeated 0, 3), (repeated 1, usizeMax)] [(repeated 1, usizeMax)] ∧
      (newWith (.tokens 10) defaultScore).insertAll [(repeated 0, 3), (repeated 1, usizeMax)] =
        none ∧
      (3 + usizeMax) % 2 ^ 64 = 2 := by
  refine ⟨⟨List.suffix_cons _ _, by simp, Or.inr rfl, ?_⟩, by decide +kernel, by decide⟩
  intro w hw hfits
  cases List.suffix_cons_iff.mp hw with
  | inl heq =>
      rw [heq] at hfits
      exact absurd hfits (by decide)
  | inr hlast => exact hlast.length_le

end IncrementalPruner

end Dlr.Prune
