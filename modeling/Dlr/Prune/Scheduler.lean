import Dlr.Prune.Importance
import Dlr.Prune.Windows
import Dlr.Receiver.Restart

/-!
# Windows that follow a session

The incremental scheduler keeps one pruner for a session and feeds it every new entry of the
session's log. However the feeding lags behind the frames that come in, the pruner is the one that a
scan of the same part of the log gives, and its window holds the most recently used blocks.

## Implementation notes

An entry that refers to a block of the log moves this block to the end of the window. A hash map
gives its entries in an order of its own; what is said of a window holds for every order.
-/

namespace Dlr.Prune

open Dlr.Core Lib Lib.Machine
open scoped List

/-! ## Blocks that are inserted again -/

/-- What a scored block stands for. -/
def ScoredBlock.pair (c : ScoredBlock) : BlockId × Nat := (c.id, c.size)

/-- Eviction under a token budget sees only the sizes. -/
theorem settle_map_pair {b : Nat} {l l' : List ScoredBlock}
    (h : l.map ScoredBlock.pair = l'.map ScoredBlock.pair) :
    (settle (.tokens b) l).map ScoredBlock.pair = (settle (.tokens b) l').map ScoredBlock.pair := by
  induction l generalizing l' with
  | nil => rw [List.map_eq_nil_iff.mp h.symm]
  | cons c rest ih =>
      obtain ⟨c', rest', rfl, hc, hrest⟩ := List.map_eq_cons_iff.mp h.symm
      have hlen : rest'.length = rest.length := by simpa using congrArg List.length hrest
      have htotal : totalOf (c' :: rest') = totalOf (c :: rest) := by
        have hsizes := congrArg (fun l : List (BlockId × Nat) => (l.map Prod.snd).sum) h.symm
        rwa [List.map_map, List.map_map] at hsizes
      rw [settle_cons, settle_cons, htotal, hlen]
      split_ifs
      · exact ih hrest.symm
      · exact h

/-- A window of blocks with any scores is the longest suffix that fits. -/
theorem isRecentWindow_of_scored (b : Nat) {l : List ScoredBlock} (hne : l ≠ []) :
    IsRecentWindow b (l.map ScoredBlock.pair)
      ((settle (.tokens b) l).map ScoredBlock.pair) := by
  have hinserts : l.map ScoredBlock.pair ≠ [] := by simpa using hne
  rw [settle_map_pair (insertedFrom_map defaultScore 0 (l.map ScoredBlock.pair)).symm]
  exact isRecentWindow_settle b 0 defaultScore hinserts

/-- To insert a block again makes no difference to what was evicted before. -/
theorem settle_others_concat (b : Nat) {l : List ScoredBlock} {new : ScoredBlock}
    (hids : (l.map ScoredBlock.id).Nodup) (hsize : ∀ c ∈ l, c.id = new.id → c.size = new.size) :
    settle (.tokens b) (others (settle (.tokens b) l) new.id ++ [new]) =
      settle (.tokens b) (others l new.id ++ [new]) := by
  induction l with
  | nil => rfl
  | cons c rest ih =>
      obtain ⟨hc, hrest⟩ := List.nodup_cons.mp hids
      have ih' := ih hrest fun d hd => hsize d (List.mem_cons_of_mem c hd)
      rw [settle_cons]
      split_ifs with hover
      · rw [ih']
        by_cases hid : c.id = new.id
        · rw [others, others, List.filter_cons_of_neg (by simpa using hid)]
        · have hcons : others (c :: rest) new.id = c :: others rest new.id :=
            List.filter_cons_of_pos (by simpa using hid)
          have htotal : totalOf rest ≤ totalOf (others rest new.id ++ [new]) := by
            rw [totalOf_append]
            by_cases hmem : new.id ∈ rest.map ScoredBlock.id
            · obtain ⟨d, hd, hdid⟩ := List.mem_map.mp hmem
              have hperm := (perm_others hrest hd).map ScoredBlock.size
              have hsum : totalOf rest = d.size + totalOf (others rest d.id) := hperm.sum_eq
              rw [hsum, hsize d (List.mem_cons_of_mem c hd) hdid, hdid, Nat.add_comm]
              exact le_rfl
            · rw [others_of_not_mem hmem]
              exact Nat.le_add_right _ _
          have hover' : Budget.over (.tokens b) ((others rest new.id ++ [new]).length + 1)
              (totalOf (c :: (others rest new.id ++ [new]))) = true := by
            simp only [Budget.over, decide_eq_true_eq] at hover ⊢
            rw [List.length_append, List.length_singleton]
            have hsum : ∀ m : List ScoredBlock, totalOf (c :: m) = c.size + totalOf m :=
              fun m => List.sum_cons
            rw [hsum] at hover ⊢
            omega
          rw [hcons, List.cons_append, settle_cons, if_pos hover']
      · rfl

/-- The block that an insertion makes under the default score. -/
def fresh (size : BlockId → Nat) (n : Nat) (id : BlockId) : ScoredBlock :=
  ⟨id, defaultScore (n + 1) (size id), n + 1, size id⟩

/-- The blocks of some insertions, each where it was inserted last. -/
def recentFrom (size : BlockId → Nat) : Nat → List ScoredBlock → List BlockId → List ScoredBlock
  | _, l, [] => l
  | n, l, id :: rest => recentFrom size (n + 1) (others l id ++ [fresh size n id]) rest

/-- Different blocks in the order of the last insertion, up to the clock `n`. -/
structure Recent (size : BlockId → Nat) (n : Nat) (l : List ScoredBlock) : Prop where
  ids : (l.map ScoredBlock.id).Nodup
  sizes : ∀ c ∈ l, c.size = size c.id
  scores : ∀ c ∈ l, c.seq ≤ n ∧ c.score = defaultScore c.seq c.size
  ordered : l.Pairwise fun a b => a.seq < b.seq

namespace Recent

variable {size : BlockId → Nat} {n : Nat} {l : List ScoredBlock}

theorem push (h : Recent size n l) (id : BlockId) :
    Recent size (n + 1) (others l id ++ [fresh size n id]) := by
  have hsub : others l id <+ l := List.filter_sublist
  refine ⟨?_, ?_, ?_, ?_⟩
  · rw [List.map_append, List.nodup_append']
    refine ⟨(hsub.map ScoredBlock.id).nodup h.ids, List.nodup_singleton _, ?_⟩
    intro x hx hnew
    obtain rfl : x = id := by simpa [fresh] using hnew
    exact IncrementalPruner.Represents.not_mem_others l x hx
  · intro c hc
    cases List.mem_append.mp hc with
    | inl hold => exact h.sizes c (hsub.subset hold)
    | inr hnew =>
        rw [List.mem_singleton.mp hnew]
        rfl
  · intro c hc
    cases List.mem_append.mp hc with
    | inl hold =>
        obtain ⟨hseq, hscore⟩ := h.scores c (hsub.subset hold)
        exact ⟨hseq.trans (Nat.le_succ n), hscore⟩
    | inr hnew =>
        rw [List.mem_singleton.mp hnew]
        exact ⟨le_rfl, rfl⟩
  · refine List.pairwise_append.mpr ⟨h.ordered.sublist hsub, List.pairwise_singleton _ _, ?_⟩
    intro c hc d hd
    rw [List.mem_singleton.mp hd]
    exact Nat.lt_succ_of_le (h.scores c (hsub.subset hc)).1

theorem all (h : Recent size n l) (ids : List BlockId) :
    Recent size (n + ids.length) (recentFrom size n l ids) := by
  induction ids generalizing n l with
  | nil => exact h
  | cons id rest ih =>
      rw [List.length_cons, Nat.add_comm rest.length, ← Nat.add_assoc]
      exact ih (h.push id)

/-- Under a token budget and the default score the survivors are those of the blocks inserted so
far, each at its last insertion. -/
theorem survivorsFrom_eq (h : Recent size n l) (b : Nat) {ids : List BlockId}
    (hlen : n + ids.length < 2 ^ 44) :
    survivorsFrom (.tokens b) defaultScore n (settle (.tokens b) l)
        (ids.map fun id => (id, size id)) =
      settle (.tokens b) (recentFrom size n l ids) := by
  induction ids generalizing n l with
  | nil => rfl
  | cons id rest ih =>
      rw [List.length_cons] at hlen
      have hlast : ∀ c ∈ others (settle (.tokens b) l) id, c.key < (fresh size n id).key := by
        intro c hc
        obtain ⟨hseq, hscore⟩ :=
          h.scores c ((settle_suffix _ _).subset (List.mem_of_mem_filter hc))
        apply Prod.Lex.toLex_lt_toLex.mpr
        left
        rw [hscore]
        exact defaultScore_lt (Nat.lt_succ_of_le hseq) (by omega) _ _
      have hsame : ∀ c ∈ l, c.id = (fresh size n id).id → c.size = (fresh size n id).size :=
        fun c hc hid => (h.sizes c hc).trans (congrArg size hid)
      rw [List.map_cons, survivorsFrom, recentFrom, ← ih (h.push id) (by omega)]
      congr 1
      exact (congrArg (settle _) (place_eq_concat hlast)).trans
        (settle_others_concat b h.ids hsame)

end Recent

/-- Only the last one of equal entries is left. -/
theorem dedup_filter_append {α : Type*} [DecidableEq α] (l r : List α) (a : α) :
    (l.filter (fun c => c ≠ a) ++ a :: r).dedup = (l ++ a :: r).dedup := by
  induction l with
  | nil => rfl
  | cons c rest ih =>
      by_cases hc : c = a
      · subst hc
        rw [List.filter_cons_of_neg (by simp), ih, List.cons_append,
          List.dedup_cons_of_mem (by simp)]
      · rw [List.filter_cons_of_pos (by simpa using hc), List.cons_append, List.cons_append]
        have hmem : c ∈ rest.filter (fun c => c ≠ a) ++ a :: r ↔ c ∈ rest ++ a :: r := by
          simp [hc]
        by_cases hin : c ∈ rest ++ a :: r
        · rw [List.dedup_cons_of_mem hin, List.dedup_cons_of_mem (hmem.mpr hin), ih]
        · rw [List.dedup_cons_of_notMem hin, List.dedup_cons_of_notMem (mt hmem.mp hin), ih]

theorem Recent.map_id {size : BlockId → Nat} {n : Nat} {l : List ScoredBlock}
    (h : Recent size n l) (ids : List BlockId) :
    (recentFrom size n l ids).map ScoredBlock.id = (l.map ScoredBlock.id ++ ids).dedup := by
  induction ids generalizing n l with
  | nil => rw [recentFrom, List.append_nil, h.ids.dedup]
  | cons id rest ih =>
      have hothers : (others l id).map ScoredBlock.id =
          (l.map ScoredBlock.id).filter fun c => c ≠ id := by
        rw [List.filter_map]
        rfl
      rw [recentFrom, ih (h.push id), List.map_append, hothers, List.append_assoc]
      exact dedup_filter_append _ _ _

/-! ## The scheduler -/

/-- A pruner with a token budget and the default score. -/
def IncrementalPruner.newTokenBudget (tokenBudget : Nat) : IncrementalPruner :=
  newWith (.tokens tokenBudget) defaultScore

structure IncrementalPruneScheduler where
  tokenBudget : Nat
  pruners : FinMap SessionId IncrementalPruner := ∅

/-- The size of a stored block, and zero for a missing one. -/
def blockSize (store : ContentStore) (id : BlockId) : Nat :=
  ((store.get id).map fun b => b.payload.length).getD 0

/-- Ids with the sizes of their blocks. -/
def sized (store : ContentStore) (ids : List BlockId) : List (BlockId × Nat) :=
  ids.map fun id => (id, blockSize store id)

namespace IncrementalPruneScheduler

open IncrementalPruner

def new (tokenBudget : Nat) : IncrementalPruneScheduler := { tokenBudget }

/-- The pruner of a session, a new one where there is none. -/
def pruner (s : IncrementalPruneScheduler) (sid : SessionId) : IncrementalPruner :=
  (s.pruners.get? sid).getD (newTokenBudget s.tokenBudget)

def setPruner (s : IncrementalPruneScheduler) (sid : SessionId) (p : IncrementalPruner) :
    IncrementalPruneScheduler := { s with pruners := s.pruners.set sid p }

/-- Insert every block of an assembled session. -/
def ingestSession (s : IncrementalPruneScheduler) (store : ContentStore) (sid : SessionId) :
    Option IncrementalPruneScheduler :=
  ((newTokenBudget s.tokenBudget).insertAll (sized store (store.sessionIds sid))).map
    (s.setPruner sid)

/-- Insert one block that has just arrived. -/
def ingestBlock (s : IncrementalPruneScheduler) (sid : SessionId) (id : BlockId) (size : Nat) :
    Option IncrementalPruneScheduler :=
  ((s.pruner sid).insert id size).map fun r => s.setPruner sid r.2

/-- The survivors of a session in the order of the log, with their blocks from the store. The
hash map of the pruner gives its entries as `iter` does. -/
def window (s : IncrementalPruneScheduler)
    (iter : FinMap BlockId (Nat × Nat × Nat) → List (BlockId × (Nat × Nat × Nat)))
    (store : ContentStore) (sid : SessionId) : Option PruneWindow :=
  (s.pruners.get? sid).map fun p =>
    let blocks := (windowOrdered (iter p.index)).filterMap store.get
    ⟨sid, blocks, (blocks.map approxTokens).sum⟩

end IncrementalPruneScheduler

/-! ## What the pruner of a session is built from -/

namespace IncrementalPruner

theorem insertAll_append (p : IncrementalPruner) (l l' : List (BlockId × Nat)) :
    p.insertAll (l ++ l') = (p.insertAll l).bind fun p => p.insertAll l' := by
  induction l generalizing p with
  | nil => rfl
  | cons e rest ih =>
      rw [List.cons_append, insertAll, insertAll]
      cases p.insert e.1 e.2 with
      | none => rfl
      | some r => exact ih r.2

theorem Represents.clock_insertAll {p p' : IncrementalPruner} {l : List ScoredBlock}
    (h : p.Represents l) {inserts : List (BlockId × Nat)} (hall : p.insertAll inserts = some p') :
    p'.clock = p.clock + inserts.length := by
  induction inserts generalizing p l with
  | nil =>
      cases hall
      rfl
  | cons e rest ih =>
      obtain ⟨first, p₁, hinsert, h₁, -, -, hclock⟩ := h.insert (h.fitsAll hall).1
      rw [IncrementalPruner.insertAll, hinsert] at hall
      rw [ih h₁ hall, hclock, List.length_cons]
      omega

/-- The window of a pruner that was fed some ids with the sizes of their blocks. -/
theorem window_of_sized {b : Nat} {size : BlockId → Nat} {ids : List BlockId}
    {p : IncrementalPruner} (hlen : ids.length < 2 ^ 44)
    (hall : (newTokenBudget b).insertAll (ids.map fun id => (id, size id)) = some p) :
    ∃ l, p.Represents (settle (.tokens b) l) ∧ Recent size ids.length l ∧
      l.map ScoredBlock.id = ids.dedup := by
  have hnew := represents_newWith (.tokens b) defaultScore
  obtain ⟨p', hp', -, hrep⟩ := hnew.insertAll (hnew.fitsAll hall)
  cases hp'.symm.trans hall
  have hnil : Recent size 0 [] := ⟨List.nodup_nil, nofun, nofun, List.Pairwise.nil⟩
  refine ⟨recentFrom size 0 [] ids, ?_, by simpa using hnil.all ids, hnil.map_id ids⟩
  rw [← hnil.survivorsFrom_eq b (by omega)]
  exact hrep

end IncrementalPruner

namespace IncrementalPruneScheduler

open IncrementalPruner

variable [Blake3] [Compress.Zstd]

/-- A receiver with the scheduler beside it. -/
structure Runtime where
  receiver : Receiver
  scheduler : IncrementalPruneScheduler

/-- What happens beside a session that the scheduler follows: any frame but a RESYNC of it, the
flushes, a scan of any session, blocks of other sessions, and the next block of its log. -/
inductive Step (sid : SessionId) : Runtime → Runtime → Prop
  | frame (s : Runtime) (f : Frame) (hf : ∀ m, f = .resync m → m.sessionId ≠ sid) :
      Step sid s { s with receiver := (s.receiver.handleFrame f).2 }
  | flush (s : Runtime) (sync : Bool) :
      Step sid s { s with receiver :=
        { s.receiver with store := (s.receiver.store.flushWal sync).2 } }
  | ingestSession (s : Runtime) (other : SessionId) (after : IncrementalPruneScheduler)
      (h : s.scheduler.ingestSession s.receiver.store other = some after) :
      Step sid s { s with scheduler := after }
  | ingestOther (s : Runtime) (other : SessionId) (hother : other ≠ sid) (id : BlockId)
      (size : Nat) (after : IncrementalPruneScheduler)
      (h : s.scheduler.ingestBlock other id size = some after) :
      Step sid s { s with scheduler := after }
  | ingestNext (s : Runtime) (id : BlockId) (after : IncrementalPruneScheduler)
      (hnext : (s.receiver.store.sessionIds sid)[(s.scheduler.pruner sid).clock]? = some id)
      (h : s.scheduler.ingestBlock sid id (blockSize s.receiver.store id) = some after) :
      Step sid s { s with scheduler := after }

/-- The pruner of the session is built from the part of its log that it has seen. -/
structure Follows (b : Nat) (sid : SessionId) (s : Runtime) : Prop where
  budget : s.scheduler.tokenBudget = b
  complete : s.receiver.store.Complete sid
  le : (s.scheduler.pruner sid).clock ≤ (s.receiver.store.sessionIds sid).length
  built : (newTokenBudget b).insertAll (sized s.receiver.store
    ((s.receiver.store.sessionIds sid).take (s.scheduler.pruner sid).clock)) =
      some (s.scheduler.pruner sid)

section Sized

variable {store store' : ContentStore}

omit [Blake3] [Compress.Zstd] in
theorem sized_congr {ids : List BlockId}
    (hkeep : ∀ id b, store.blocks.get? id = some b → store'.blocks.get? id = some b)
    (hids : ∀ id ∈ ids, store.contains id = true) : sized store' ids = sized store ids := by
  refine List.map_congr_left fun id hid => ?_
  obtain ⟨b, hb⟩ := ContentStore.contains_iff.mp (hids id hid)
  rw [blockSize, blockSize, ContentStore.get, ContentStore.get, hb, hkeep id b hb]

omit [Blake3] [Compress.Zstd] in
/-- A store with more blocks and a longer log of the session. -/
theorem Follows.grow {b : Nat} {sid : SessionId} {s : Runtime} (h : Follows b sid s)
    {receiver : Receiver}
    (hkeep : ∀ id b, s.receiver.store.blocks.get? id = some b →
      receiver.store.blocks.get? id = some b)
    (hids : s.receiver.store.sessionIds sid <+: receiver.store.sessionIds sid)
    (hcomplete : receiver.store.Complete sid) :
    Follows b sid { s with receiver } := by
  obtain ⟨more, hmore⟩ := hids
  refine ⟨h.budget, hcomplete, ?_, ?_⟩
  · rw [← hmore, List.length_append]
    exact h.le.trans (Nat.le_add_right _ _)
  · rw [← hmore, List.take_append_of_le_length h.le, sized_congr hkeep]
    · exact h.built
    · exact fun id hid => h.complete id (List.mem_of_mem_take hid)

end Sized

variable {b : Nat} {sid : SessionId}

omit [Blake3] [Compress.Zstd] in
@[simp] theorem pruner_setPruner (s : IncrementalPruneScheduler) (sid other : SessionId)
    (p : IncrementalPruner) :
    (s.setPruner sid p).pruner other = if other = sid then p else s.pruner other := by
  unfold pruner setPruner
  simp only [FinMap.get?_set]
  split_ifs <;> rfl

theorem Step.follows {s s' : Runtime} (hstep : Step sid s s') (h : Follows b sid s) :
    Follows b sid s' := by
  cases hstep with
  | frame f hf =>
      obtain ⟨ops, haff, -⟩ := s.receiver.handleFrame_affects f
      obtain ⟨⟨more, hmore⟩, hcomplete⟩ := Receiver.frame_extends hf h.complete
      refine h.grow (fun id b hb => ?_) ⟨more, (congrArg SessionLog.ids hmore).symm⟩ hcomplete
      rw [haff.store]
      exact ContentStore.performAll_preserves ops hb
  | flush sync =>
      refine h.grow (fun id b hb => ?_) ?_ (h.complete.flushWal sync)
      · rwa [ContentStore.flushWal_blocks]
      · rw [ContentStore.sessionIds, ContentStore.sessionIds, ContentStore.flushWal_sessions]
  | ingestSession other after hafter =>
      obtain ⟨p, hp, rfl⟩ := Option.map_eq_some_iff.mp hafter
      by_cases hother : sid = other
      · subst hother
        rw [h.budget] at hp
        have hclock := (represents_newWith (.tokens b) defaultScore).clock_insertAll hp
        have hlen : p.clock = (s.receiver.store.sessionIds sid).length := by
          rw [hclock, sized, List.length_map]
          exact Nat.zero_add _
        refine ⟨h.budget, h.complete, ?_, ?_⟩
        · simp only [pruner_setPruner, if_true, hlen, le_refl]
        · simpa only [pruner_setPruner, if_true, hlen, List.take_length] using hp
      · refine ⟨h.budget, h.complete, ?_, ?_⟩
        · simpa only [pruner_setPruner, if_neg hother] using h.le
        · simpa only [pruner_setPruner, if_neg hother] using h.built
  | ingestOther other hother id size after hafter =>
      obtain ⟨r, -, rfl⟩ := Option.map_eq_some_iff.mp hafter
      refine ⟨h.budget, h.complete, ?_, ?_⟩
      · simpa only [pruner_setPruner, if_neg hother.symm] using h.le
      · simpa only [pruner_setPruner, if_neg hother.symm] using h.built
  | ingestNext id after hnext hafter =>
      obtain ⟨r, hr, rfl⟩ := Option.map_eq_some_iff.mp hafter
      obtain ⟨hlt, hget⟩ := List.getElem?_eq_some_iff.mp hnext
      set clock := (s.scheduler.pruner sid).clock
      -- one entry more of the log
      have hbuilt : (newTokenBudget b).insertAll (sized s.receiver.store
          ((s.receiver.store.sessionIds sid).take (clock + 1))) = some r.2 := by
        rw [List.take_succ_eq_append_getElem hlt, hget, sized, List.map_append, ← sized,
          insertAll_append, h.built, Option.bind_some, List.map_singleton,
          IncrementalPruner.insertAll, hr]
        rfl
      have hclock : r.2.clock = clock + 1 := by
        rw [(represents_newWith (.tokens b) defaultScore).clock_insertAll hbuilt, sized,
          List.length_map, List.length_take_of_le hlt]
        exact Nat.zero_add _
      refine ⟨h.budget, h.complete, ?_, ?_⟩
      · simp only [pruner_setPruner, if_true, hclock]
        exact hlt
      · simpa only [pruner_setPruner, if_true, hclock] using hbuilt

theorem Follows.run {s s' : Runtime} (h : Follows b sid s)
    (hrun : Relation.ReflTransGen (Step sid) s s') : Follows b sid s' := by
  induction hrun with
  | refl => exact h
  | tail _ hstep ih => exact hstep.follows ih

/-- The blocks of some ids in a store. -/
def Stored (store : ContentStore) (ids : List BlockId) (blocks : List Block) : Prop :=
  List.Forall₂ (fun id block => store.get id = some block) ids blocks

omit [Blake3] [Compress.Zstd] in
theorem Stored.of_contains {store : ContentStore} {ids : List BlockId}
    (h : ∀ id ∈ ids, store.contains id = true) : Stored store ids (ids.filterMap store.get) := by
  induction ids with
  | nil => exact .nil
  | cons id rest ih =>
      obtain ⟨block, hblock⟩ := ContentStore.contains_iff.mp (h id List.mem_cons_self)
      rw [List.filterMap_cons_some (show store.get id = some block from hblock)]
      exact .cons hblock (ih fun k hk => h k (List.mem_cons_of_mem id hk))

/-- A runtime follows a session from the start: any frames come in, a scan or an append feeds the
scheduler, in any order and with any delay. At every point the pruner of the session is the one that
a scan of the log up to the same entry builds. When nothing is left to feed, a scan changes nothing;
and the window is the longest suffix, within the budget, of the blocks fed so far in the order of
their last use, each with its content. -/
theorem incremental_window_is_rescan {receiver : Receiver} (hcomplete : receiver.store.Complete sid)
    {s : Runtime} (hrun : Relation.ReflTransGen (Step sid) ⟨receiver, new b⟩ s) :
    let log := s.receiver.store.sessionIds sid
    let seen := log.take (s.scheduler.pruner sid).clock
    (newTokenBudget b).insertAll (sized s.receiver.store seen) = some (s.scheduler.pruner sid) ∧
      (seen = log → s.scheduler.ingestSession s.receiver.store sid =
        some (s.scheduler.setPruner sid (s.scheduler.pruner sid))) ∧
      (seen ≠ [] → seen.length < 2 ^ 44 → ∃ w blocks,
        IsRecentWindow b (sized s.receiver.store seen.dedup) w ∧
        Stored s.receiver.store (w.map Prod.fst) blocks ∧
        ∀ iter, (∀ index, Lists index (iter index)) →
          s.scheduler.window iter s.receiver.store sid =
            some ⟨sid, blocks, (blocks.map approxTokens).sum⟩) := by
  intro log seen
  have hinit : Follows b sid ⟨receiver, new b⟩ := ⟨rfl, hcomplete, Nat.zero_le _, rfl⟩
  have h := hinit.run hrun
  refine ⟨h.built, fun hseen => ?_, fun hne hlen => ?_⟩
  · have hbuilt : (newTokenBudget b).insertAll (sized s.receiver.store log) =
        some (s.scheduler.pruner sid) := hseen ▸ h.built
    rw [ingestSession, h.budget, hbuilt]
    rfl
  · obtain ⟨l, hrep, hrecent, hids⟩ := window_of_sized hlen h.built
    have hpairs : l.map ScoredBlock.pair = sized s.receiver.store seen.dedup := by
      rw [← hids, sized, List.map_map]
      exact List.map_congr_left fun c hc => congrArg (Prod.mk c.id) (hrecent.sizes c hc)
    have hl : l ≠ [] := by
      rintro rfl
      exact hne (by simpa using hids.symm)
    have hwindow := isRecentWindow_of_scored b hl
    rw [hpairs] at hwindow
    set kept := settle (.tokens b) l
    have hpruner : s.scheduler.pruners.get? sid = some (s.scheduler.pruner sid) := by
      cases hget : s.scheduler.pruners.get? sid with
      | some p => rw [pruner, hget, Option.getD_some]
      | none =>
          have hclock : (s.scheduler.pruner sid).clock = 0 := by
            rw [pruner, hget]
            rfl
          exact absurd (by simp only [seen, hclock, List.take_zero]) hne
    have hsuffix : kept <:+ l := settle_suffix _ _
    have hkept : ∀ id ∈ (kept.map ScoredBlock.pair).map Prod.fst,
        s.receiver.store.contains id = true := by
      intro id hid
      rw [List.map_map] at hid
      have hmem : id ∈ l.map ScoredBlock.id := (hsuffix.map ScoredBlock.id).subset hid
      rw [hids, List.mem_dedup] at hmem
      exact h.complete id (List.mem_of_mem_take hmem)
    refine ⟨kept.map ScoredBlock.pair, _, hwindow, .of_contains hkept, fun iter hiter => ?_⟩
    have hordered := hrep.windowOrdered_eq (hrecent.ordered.sublist hsuffix.sublist)
      (hiter (s.scheduler.pruner sid).index)
    rw [window, hpruner, Option.map_some, hordered, List.map_map]
    rfl

omit [Blake3] [Compress.Zstd] in
/-- Two blocks of two bytes come in and a reference to the first of them, and the session is
scanned. Only the block that is referred to fits a budget of three bytes. -/
theorem incremental_window_is_rescan_reference :
    letI := prefixHash
    letI := Compress.storedZstd
    let b₁ : Block := ⟨.message, 1, [7, 7]⟩
    let b₂ : Block := ⟨.message, 2, [8, 8]⟩
    let receiver := Receiver.new ContentStore.new Compress.Compressor.default
    let frame : AppendFrame := ⟨5, rootZero, [.inline ⟨.message, 1, 0 :: canonicalBytes b₁⟩,
      .inline ⟨.message, 2, 0 :: canonicalBytes b₂⟩, .ref b₁.blockId]⟩
    let r := (receiver.handleFrame (.append frame)).2
    ∃ s blocks, Relation.ReflTransGen (Step 5) ⟨receiver, new 3⟩ ⟨r, s⟩ ∧
      Stored r.store [b₁.blockId] blocks ∧
      ∀ iter, (∀ index, Lists index (iter index)) →
        s.window iter r.store 5 = some ⟨5, blocks, (blocks.map approxTokens).sum⟩ := by
  let _ := prefixHash
  let _ := Compress.storedZstd
  intro b₁ b₂ receiver frame r
  have hcomplete : receiver.store.Complete 5 := fun id hid => nomatch hid
  have hlog : r.store.sessionIds 5 = [b₁.blockId, b₂.blockId, b₁.blockId] := by decide +kernel
  have hdedup : [b₁.blockId, b₂.blockId, b₁.blockId].dedup = [b₂.blockId, b₁.blockId] := by
    decide +kernel
  have hsized : sized r.store [b₂.blockId, b₁.blockId] = [(b₂.blockId, 2), (b₁.blockId, 2)] := by
    decide +kernel
  have hclock : ((new 3).ingestSession r.store 5).map (fun s => (s.pruner 5).clock) = some 3 := by
    decide +kernel
  have hframe : Step 5 ⟨receiver, new 3⟩ ⟨r, new 3⟩ := .frame _ (.append frame) nofun
  clear_value r
  obtain ⟨s, hscan, hseen⟩ := Option.map_eq_some_iff.mp hclock
  have hrun : Relation.ReflTransGen (Step 5) ⟨receiver, new 3⟩ ⟨r, s⟩ :=
    .tail (.single hframe) (.ingestSession _ 5 s hscan)
  obtain ⟨-, -, hwindow⟩ := incremental_window_is_rescan hcomplete hrun
  simp only [hseen, hlog, List.take_succ_cons, List.take_zero] at hwindow
  obtain ⟨w, blocks, hw, hstored, hiter⟩ := hwindow (by simp) (by decide)
  rw [hdedup, hsized] at hw
  obtain rfl : w = [(b₁.blockId, 2)] := by
    rcases List.suffix_cons_iff.mp hw.suffix with rfl | hlast
    · exact absurd hw.fits (by decide)
    · exact (List.suffix_cons_iff.mp hlast).resolve_right
        fun hnil => hw.ne_nil (List.suffix_nil.mp hnil)
  exact ⟨s, blocks, hrun, hstored, hiter⟩

end IncrementalPruneScheduler

end Dlr.Prune
