import Dlr.Sidecar.Projection

/-!
# The projection cache over any calls

The cache keeps a map of projections, a queue of sessions and a byte counter. After any
calls the queue lists the cached sessions in the order of their last successful use, the
counter is the sum over the map, and an insertion has evicted no more than it had to.

## Implementation notes

A use is an insertion or a hit. A lookup at another root is a miss and leaves the queue as
it is. The uses are recorded newest first, so that the index of a session is how long ago it
was used.
-/

namespace Dlr.Sidecar

open Dlr.Core Lib Lib.Machine

namespace ChatProjectionCache

/-- The queue lists the cached sessions once, and the counter counts their bytes. -/
structure Consistent (cache : ChatProjectionCache) : Prop where
  nodup : cache.lru.Nodup
  mem_lru : ∀ sid, sid ∈ cache.lru ↔ (cache.entries.get? sid).isSome
  jsonBytes : cache.jsonBytes = cache.entries.sumOf CachedChatProjection.jsonBytes

/-- The bytes cached for a session. -/
def bytesOf (cache : ChatProjectionCache) (sid : SessionId) : Nat :=
  (cache.entries.get? sid).elim 0 CachedChatProjection.jsonBytes

/-- Whether `incoming` bytes fit beside the sessions in `kept`. Beside nothing, every
projection does. -/
def HasRoom (cache : ChatProjectionCache) (incoming : Nat) (kept : List SessionId) : Prop :=
  kept = [] ∨
    kept.length < projectionCacheSessions ∧
      (kept.map cache.bytesOf).sum + incoming ≤ projectionCacheJsonBytes

theorem map_bytesOf_congr {cache cache' : ChatProjectionCache} {kept : List SessionId}
    (h : ∀ sid ∈ kept, cache.entries.get? sid = cache'.entries.get? sid) :
    kept.map cache.bytesOf = kept.map cache'.bytesOf := by
  apply List.map_congr_left
  intro sid hsid
  rw [bytesOf, bytesOf, h sid hsid]

/-- Room is a matter of the kept sessions only. -/
theorem hasRoom_congr {cache cache' : ChatProjectionCache} {kept : List SessionId}
    (h : ∀ sid ∈ kept, cache.entries.get? sid = cache'.entries.get? sid) (incoming : Nat) :
    cache.HasRoom incoming kept ↔ cache'.HasRoom incoming kept := by
  rw [HasRoom, HasRoom, map_bytesOf_congr h]

namespace Consistent

variable {cache : ChatProjectionCache}

theorem size_eq (h : cache.Consistent) : cache.entries.size = cache.lru.length :=
  FinMap.size_eq_length h.nodup h.mem_lru

/-- Without the head of the queue, the cache is consistent again. -/
theorem tail {oldest : SessionId} {rest : List SessionId}
    {entries : FinMap SessionId CachedChatProjection} {jsonBytes : Nat}
    (h : Consistent ⟨entries, oldest :: rest, jsonBytes⟩) :
    Consistent ⟨entries.unset oldest, rest,
      jsonBytes - (entries.get? oldest).elim 0 fun p => p.jsonBytes⟩ := by
  obtain ⟨hfresh, hnodup⟩ := List.nodup_cons.mp h.nodup
  refine ⟨hnodup, ?_, ?_⟩
  · intro sid
    have hmem := h.mem_lru sid
    simp only [FinMap.get?_unset]
    split_ifs with hsid
    · subst hsid
      simpa using hfresh
    · simpa [hsid] using hmem
  · have hbytes : jsonBytes = entries.sumOf CachedChatProjection.jsonBytes := h.jsonBytes
    apply Nat.sub_eq_of_eq_add
    rw [hbytes, FinMap.sumOf_unset CachedChatProjection.jsonBytes entries oldest, Nat.add_comm]

/-- The sessions behind the head have the same entries with and without it. -/
theorem get?_tail {oldest : SessionId} {rest : List SessionId}
    {entries : FinMap SessionId CachedChatProjection} {jsonBytes : Nat}
    (h : Consistent ⟨entries, oldest :: rest, jsonBytes⟩) :
    ∀ sid ∈ rest, entries.get? sid = (entries.unset oldest).get? sid := by
  obtain ⟨hfresh, -⟩ := List.nodup_cons.mp h.nodup
  intro sid hsid
  have hne : sid ≠ oldest := fun heq => hfresh (heq ▸ hsid)
  rw [FinMap.get?_unset, if_neg hne]

/-- The counter is the sum over the queue. -/
theorem sum_lru (h : cache.Consistent) : (cache.lru.map cache.bytesOf).sum = cache.jsonBytes := by
  obtain ⟨entries, lru, jsonBytes⟩ := cache
  induction lru generalizing entries jsonBytes with
  | nil =>
      have hsize : entries.size = 0 := h.size_eq
      have hempty : entries.entries = 0 := Multiset.card_eq_zero.mp hsize
      simpa [FinMap.sumOf, hempty] using h.jsonBytes.symm
  | cons oldest rest ih =>
      have hrest := ih _ _ h.tail
      have hbytes : jsonBytes = entries.sumOf CachedChatProjection.jsonBytes := h.jsonBytes
      have hsame : rest.map (bytesOf ⟨entries, oldest :: rest, jsonBytes⟩) =
          rest.map (bytesOf ⟨entries.unset oldest, rest,
            jsonBytes - (entries.get? oldest).elim 0 fun p => p.jsonBytes⟩) :=
        map_bytesOf_congr h.get?_tail
      rw [List.map_cons, List.sum_cons, hsame, hrest, h.tail.jsonBytes]
      exact (FinMap.sumOf_unset _ entries oldest).symm.trans hbytes.symm

end Consistent

/-- The cache `evict` leaves when it drops the first `n` sessions of the queue. -/
structure Evicted (cache : ChatProjectionCache) (incoming n : Nat)
    (left : ChatProjectionCache) : Prop where
  consistent : left.Consistent
  lru : left.lru = cache.lru.drop n
  get? : ∀ sid, left.entries.get? sid =
    if sid ∈ cache.lru.drop n then cache.entries.get? sid else none
  room : cache.HasRoom incoming (cache.lru.drop n)
  least : ∀ m < n, ¬ cache.HasRoom incoming (cache.lru.drop m)

/-- The bytes of the sessions that stay are what the counter is left at. -/
theorem Evicted.sum_kept {cache left : ChatProjectionCache} {incoming n : Nat}
    (h : cache.Evicted incoming n left) :
    ((cache.lru.drop n).map cache.bytesOf).sum = left.jsonBytes := by
  have hsame : ∀ sid ∈ cache.lru.drop n, cache.entries.get? sid = left.entries.get? sid := by
    intro sid hsid
    rw [h.get? sid, if_pos hsid]
  rw [map_bytesOf_congr hsame, ← h.lru, h.consistent.sum_lru]

/-- The loop of `insert` goes on exactly while there is no room. -/
theorem evict_guard_iff {cache : ChatProjectionCache} (h : cache.Consistent) (incoming : Nat) :
    (0 < cache.entries.size ∧ (cache.entries.size ≥ projectionCacheSessions ∨
      saturatingAdd cache.jsonBytes incoming > projectionCacheJsonBytes)) ↔
      ¬ cache.HasRoom incoming cache.lru := by
  have hmax : projectionCacheJsonBytes < usizeMax := by decide
  have hempty : cache.lru = [] ↔ cache.lru.length = 0 := List.length_eq_zero_iff.symm
  rw [HasRoom, h.size_eq, h.sum_lru, hempty]
  unfold saturatingAdd
  omega

/-- Eviction drops the shortest prefix of the queue that makes room. -/
theorem evict_spec (incoming : Nat) {cache : ChatProjectionCache} (h : cache.Consistent) :
    ∃ n, cache.Evicted incoming n
      (evict incoming cache.lru cache.entries cache.jsonBytes) := by
  obtain ⟨entries, lru, jsonBytes⟩ := cache
  induction lru generalizing entries jsonBytes with
  | nil =>
      refine ⟨0, h, rfl, ?_, Or.inl rfl, fun m hm => absurd hm (Nat.not_lt_zero m)⟩
      intro sid
      have hnone : ¬ (entries.get? sid).isSome := fun hsome =>
        List.not_mem_nil ((h.mem_lru sid).mpr hsome)
      simpa [evict] using hnone
  | cons oldest rest ih =>
      by_cases hroom : HasRoom ⟨entries, oldest :: rest, jsonBytes⟩ incoming (oldest :: rest)
      · have hstop := mt (evict_guard_iff h incoming).mp (not_not.mpr hroom)
        refine ⟨0, ?_⟩
        rw [evict, if_neg hstop]
        refine ⟨h, rfl, ?_, hroom, fun m hm => absurd hm (Nat.not_lt_zero m)⟩
        intro sid
        have hmem := h.mem_lru sid
        split_ifs with hsid
        · rfl
        · simpa using mt hmem.mpr hsid
      · have hgo := (evict_guard_iff h incoming).mpr hroom
        obtain ⟨n, hleft⟩ := ih _ _ h.tail
        have hiff : ∀ k, HasRoom ⟨entries, oldest :: rest, jsonBytes⟩ incoming (rest.drop k) ↔
            HasRoom ⟨entries.unset oldest, rest,
              jsonBytes - (entries.get? oldest).elim 0 fun p => p.jsonBytes⟩ incoming
              (rest.drop k) := fun k =>
          hasRoom_congr (fun sid hsid => h.get?_tail sid (List.mem_of_mem_drop hsid)) incoming
        refine ⟨n + 1, ?_⟩
        rw [evict, if_pos hgo]
        refine ⟨hleft.consistent, hleft.lru, ?_, (hiff n).mpr hleft.room, ?_⟩
        · intro sid
          rw [hleft.get? sid]
          simp only [List.drop_succ_cons]
          split_ifs with hsid
          · exact (h.get?_tail sid (List.mem_of_mem_drop hsid)).symm
          · rfl
        · intro m hm
          cases m with
          | zero => exact hroom
          | succ m => exact mt (hiff m).mp (hleft.least m (Nat.lt_of_succ_lt_succ hm))

theorem Consistent.remove {cache : ChatProjectionCache} (h : cache.Consistent)
    (sid : SessionId) : (cache.remove sid).Consistent := by
  refine ⟨h.nodup.filter _, ?_, ?_⟩
  · intro other
    have hmem := h.mem_lru other
    simp only [ChatProjectionCache.remove, FinMap.get?_unset, List.mem_filter, hmem]
    split_ifs with hother <;> simp [hother]
  · apply Nat.sub_eq_of_eq_add
    rw [h.jsonBytes, FinMap.sumOf_unset CachedChatProjection.jsonBytes cache.entries sid,
      Nat.add_comm]
    rfl

/-- The sessions of the queue other than `sid`, in order. -/
def others (cache : ChatProjectionCache) (sid : SessionId) : List SessionId :=
  cache.lru.filter fun id => id ≠ sid

theorem remove_lru (cache : ChatProjectionCache) (sid : SessionId) :
    (cache.remove sid).lru = cache.others sid := rfl

/-- What an insertion that drops `n` other sessions leaves. -/
structure Inserted (cache : ChatProjectionCache) (sid : SessionId)
    (projection : CachedChatProjection) (n : Nat) : Prop where
  lru : (cache.insert sid projection).lru = (cache.others sid).drop n ++ [sid]
  get? : ∀ s, (cache.insert sid projection).entries.get? s =
    if s = sid then some projection
    else if s ∈ (cache.others sid).drop n then cache.entries.get? s else none
  room : cache.HasRoom projection.jsonBytes ((cache.others sid).drop n)
  least : ∀ m < n, ¬ cache.HasRoom projection.jsonBytes ((cache.others sid).drop m)

/-- Room beside other sessions is the same before and after `sid` is removed. -/
theorem hasRoom_remove_iff (cache : ChatProjectionCache) (sid : SessionId) (incoming n : Nat) :
    (cache.remove sid).HasRoom incoming ((cache.others sid).drop n) ↔
      cache.HasRoom incoming ((cache.others sid).drop n) := by
  apply hasRoom_congr
  intro other hother
  have hne : other ≠ sid := by
    simpa using (List.mem_filter.mp (List.mem_of_mem_drop hother)).2
  rw [remove, FinMap.get?_unset, if_neg hne]

/-- An insertion evicts the shortest prefix of the other sessions that makes room. -/
theorem insert_evicts {cache : ChatProjectionCache} (h : cache.Consistent) (sid : SessionId)
    (projection : CachedChatProjection) : ∃ n, cache.Inserted sid projection n := by
  obtain ⟨n, hleft⟩ := evict_spec projection.jsonBytes (h.remove sid)
  refine ⟨n, ?_, ?_, ?_, ?_⟩
  · exact congrArg (· ++ [sid]) hleft.lru
  · intro s
    have hget := hleft.get? s
    rw [remove_lru] at hget
    simp only [insert, FinMap.get?_set]
    split_ifs with hs hmem
    · rfl
    · rw [remove_lru, hget, if_pos hmem, remove, FinMap.get?_unset, if_neg hs]
    · rw [remove_lru, hget, if_neg hmem]
  · exact (hasRoom_remove_iff cache sid _ n).mp hleft.room
  · intro m hm
    exact mt (hasRoom_remove_iff cache sid _ m).mpr (hleft.least m hm)

/-- At most so many sessions, and at most so many bytes beyond one session. -/
structure Bounded (cache : ChatProjectionCache) : Prop where
  sessions : cache.entries.size ≤ projectionCacheSessions
  jsonBytes : 1 < cache.entries.size → cache.jsonBytes ≤ projectionCacheJsonBytes

/-- A session that is not cached is added at the end of the queue. -/
theorem Consistent.push {cache : ChatProjectionCache} (h : cache.Consistent) {sid : SessionId}
    (hfresh : cache.entries.get? sid = none) (projection : CachedChatProjection) :
    Consistent ⟨cache.entries.set sid projection, cache.lru ++ [sid],
      projection.jsonBytes + cache.jsonBytes⟩ := by
  have hnot : sid ∉ cache.lru := fun hmem => by
    simpa [hfresh] using (h.mem_lru sid).mp hmem
  refine ⟨?_, ?_, ?_⟩
  · exact List.nodup_append.mpr ⟨h.nodup, List.nodup_singleton sid,
      by simpa using fun a ha (heq : a = sid) => hnot (heq ▸ ha)⟩
  · intro other
    have hmem := h.mem_lru other
    simp only [FinMap.get?_set, List.mem_append, List.mem_singleton]
    split_ifs with hother <;> simp [hother, hmem]
  · rw [FinMap.sumOf_set _ _ hfresh, ← h.jsonBytes]

/-- The counter of `insert` does not saturate: what is left of the cache is empty or small. -/
theorem Consistent.insert {cache : ChatProjectionCache} (h : cache.Consistent) (sid : SessionId)
    {projection : CachedChatProjection} (hbytes : projection.jsonBytes ≤ usizeMax) :
    (cache.insert sid projection).Consistent ∧ (cache.insert sid projection).Bounded := by
  have hmax : projectionCacheJsonBytes < usizeMax := by decide
  have hsessions : 0 < projectionCacheSessions := by decide
  obtain ⟨n, hleft⟩ := evict_spec projection.jsonBytes (h.remove sid)
  generalize heq : evict projection.jsonBytes (cache.remove sid).lru (cache.remove sid).entries
    (cache.remove sid).jsonBytes = left at hleft
  have hfresh : left.entries.get? sid = none := by
    rw [hleft.get? sid, ChatProjectionCache.remove, FinMap.get?_unset, if_pos rfl, ite_self]
  have hroom := hleft.room
  rw [HasRoom, hleft.sum_kept, ← hleft.lru] at hroom
  have hempty : left.lru = [] → left.jsonBytes = 0 := fun hnil => by
    simpa [hnil] using hleft.consistent.sum_lru.symm
  have hexact : saturatingAdd left.jsonBytes projection.jsonBytes =
      projection.jsonBytes + left.jsonBytes := by
    unfold saturatingAdd
    cases hroom with
    | inl hnil => have := hempty hnil; omega
    | inr hfits => omega
  have hinsert : cache.insert sid projection = ⟨left.entries.set sid projection,
      left.lru ++ [sid], projection.jsonBytes + left.jsonBytes⟩ := by
    simp only [ChatProjectionCache.insert, heq, hexact]
  have hconsistent : (cache.insert sid projection).Consistent :=
    hinsert ▸ hleft.consistent.push hfresh projection
  have hlength : (cache.insert sid projection).entries.size = left.lru.length + 1 := by
    rw [hconsistent.size_eq, hinsert, List.length_append, List.length_singleton]
  have hcounter : (cache.insert sid projection).jsonBytes =
      projection.jsonBytes + left.jsonBytes := by rw [hinsert]
  refine ⟨hconsistent, ?_, ?_⟩
  · rw [hlength]
    cases hroom with
    | inl hnil => simpa [hnil] using Nat.succ_le_of_lt hsessions
    | inr hfits => exact Nat.succ_le_of_lt hfits.1
  · rw [hlength, hcounter]
    intro hmany
    cases hroom with
    | inl hnil => simp [hnil] at hmany
    | inr hfits => omega

theorem Consistent.touch {cache : ChatProjectionCache} (h : cache.Consistent) {sid : SessionId}
    (hsid : (cache.entries.get? sid).isSome) : (cache.touch sid).Consistent := by
  refine ⟨?_, ?_, h.jsonBytes⟩
  · refine List.nodup_append.mpr ⟨h.nodup.filter _, List.nodup_singleton sid, ?_⟩
    simp
  · intro other
    have hmem := h.mem_lru other
    simp only [ChatProjectionCache.touch, List.mem_append, List.mem_filter, List.mem_singleton,
      hmem]
    by_cases hother : other = sid
    · simp [hother, hsid]
    · simp [hother]

/-! ## Any calls -/

/-- A call on the cache. The size of a projection is a `usize`. -/
inductive Call
  | get (sid : SessionId) (root : MerkleRoot)
  | insert (sid : SessionId) (projection : CachedChatProjection)
      (fits : projection.jsonBytes ≤ usizeMax)
  | remove (sid : SessionId)

/-- One call, with the sessions used successfully so far, the newest first. -/
def call (st : ChatProjectionCache × List SessionId) :
    Call → ChatProjectionCache × List SessionId
  | .get sid root =>
      match st.1.get sid root with
      | (some _, cache) => (cache, sid :: st.2)
      | (none, cache) => (cache, st.2)
  | .insert sid projection _ => (st.1.insert sid projection, sid :: st.2)
  | .remove sid => (st.1.remove sid, st.2)

/-- The queue is ordered by last use, the oldest in front. -/
structure Ordered (lru uses : List SessionId) : Prop where
  used : ∀ sid ∈ lru, sid ∈ uses
  oldest_first : lru.Pairwise fun a b => uses.idxOf b < uses.idxOf a

theorem Ordered.sublist {lru lru' uses : List SessionId} (h : Ordered lru uses)
    (hsub : lru'.Sublist lru) : Ordered lru' uses :=
  ⟨fun sid hsid => h.used sid (hsub.subset hsid), h.oldest_first.sublist hsub⟩

/-- A session that is used goes to the end of the queue. -/
theorem Ordered.use {lru uses : List SessionId} (h : Ordered lru uses) {sid : SessionId}
    (hnot : sid ∉ lru) : Ordered (lru ++ [sid]) (sid :: uses) := by
  have hidx : ∀ a ∈ lru, (sid :: uses).idxOf a = uses.idxOf a + 1 := fun a ha =>
    List.idxOf_cons_ne uses fun heq => hnot (heq ▸ ha)
  constructor
  · intro a ha
    cases List.mem_append.mp ha with
    | inl hold => exact List.mem_cons_of_mem _ (h.used a hold)
    | inr hnew => exact List.mem_singleton.mp hnew ▸ List.mem_cons_self
  · refine List.pairwise_append.mpr ⟨?_, List.pairwise_singleton _ _, ?_⟩
    · refine h.oldest_first.imp_of_mem ?_
      intro a b ha hb hlt
      rw [hidx a ha, hidx b hb]
      exact Nat.succ_lt_succ hlt
    · intro a ha b hb
      rw [List.mem_singleton.mp hb, List.idxOf_cons_self, hidx a ha]
      exact Nat.succ_pos _

/-- What every call keeps. -/
structure Invariant (st : ChatProjectionCache × List SessionId) : Prop where
  consistent : st.1.Consistent
  bounded : st.1.Bounded
  ordered : Ordered st.1.lru st.2

namespace Invariant

variable {cache : ChatProjectionCache} {uses : List SessionId}

theorem touch (h : Invariant (cache, uses)) {sid : SessionId}
    (hsid : (cache.entries.get? sid).isSome) : Invariant (cache.touch sid, sid :: uses) := by
  refine ⟨h.consistent.touch hsid, ⟨h.bounded.sessions, h.bounded.jsonBytes⟩, ?_⟩
  apply (h.ordered.sublist List.filter_sublist).use
  simp

theorem insert (h : Invariant (cache, uses)) (sid : SessionId)
    {projection : CachedChatProjection} (fits : projection.jsonBytes ≤ usizeMax) :
    Invariant (cache.insert sid projection, sid :: uses) := by
  obtain ⟨hconsistent, hbounded⟩ := h.consistent.insert sid fits
  obtain ⟨n, hinserted⟩ := insert_evicts h.consistent sid projection
  refine ⟨hconsistent, hbounded, ?_⟩
  change Ordered (cache.insert sid projection).lru (sid :: uses)
  rw [hinserted.lru]
  have hsub : ((cache.others sid).drop n).Sublist cache.lru :=
    (List.drop_sublist n _).trans List.filter_sublist
  apply (h.ordered.sublist hsub).use
  intro hmem
  simpa [others] using List.mem_of_mem_drop hmem

theorem remove (h : Invariant (cache, uses)) (sid : SessionId) :
    Invariant (cache.remove sid, uses) := by
  have hconsistent := h.consistent.remove sid
  have hsize : (cache.remove sid).entries.size ≤ cache.entries.size := by
    rw [hconsistent.size_eq, h.consistent.size_eq]
    exact List.length_filter_le _ _
  refine ⟨hconsistent, ⟨hsize.trans h.bounded.sessions, ?_⟩,
    h.ordered.sublist List.filter_sublist⟩
  intro hmany
  exact (Nat.sub_le _ _).trans (h.bounded.jsonBytes (hmany.trans_le hsize))

theorem call {st : ChatProjectionCache × List SessionId} (h : Invariant st) (c : Call) :
    Invariant (ChatProjectionCache.call st c) := by
  obtain ⟨cache, uses⟩ := st
  cases c with
  | get sid root =>
      simp only [ChatProjectionCache.call, ChatProjectionCache.get]
      cases hfound : (cache.entries.get? sid).filter fun p => p.root = root with
      | none => exact h
      | some projection =>
          obtain ⟨hentry, -⟩ := Option.filter_eq_some_iff.mp hfound
          exact h.touch (by simp [hentry])
  | insert sid projection fits => exact h.insert sid fits
  | remove sid => exact h.remove sid

end Invariant

theorem invariant_empty : Invariant ({}, []) :=
  ⟨⟨List.nodup_nil, by simp, rfl⟩, ⟨Nat.zero_le _, fun _ => Nat.zero_le _⟩,
    ⟨by simp, List.Pairwise.nil⟩⟩

theorem calls_invariant (calls : List Call) : Invariant (calls.foldl call ({}, [])) :=
  List.foldlRecOn calls call invariant_empty fun _ h c _ => h.call c

/-- After any calls, the queue lists the cached sessions once and in the order of their last
successful use, the counter is the sum over the entries, both bounds hold, and an insertion
evicts the shortest prefix of the other sessions that makes room. -/
theorem cache_is_bounded_lru (calls : List Call) :
    let st := calls.foldl call ({}, [])
    st.1.lru.Nodup ∧ (∀ sid, sid ∈ st.1.lru ↔ (st.1.entries.get? sid).isSome) ∧
      ((∀ sid ∈ st.1.lru, sid ∈ st.2) ∧
        st.1.lru.Pairwise fun a b => st.2.idxOf b < st.2.idxOf a) ∧
      st.1.jsonBytes = st.1.entries.sumOf CachedChatProjection.jsonBytes ∧
      st.1.entries.size ≤ projectionCacheSessions ∧
      (1 < st.1.entries.size → st.1.jsonBytes ≤ projectionCacheJsonBytes) ∧
      ∀ (sid : SessionId) (projection : CachedChatProjection),
        ∃ n, st.1.Inserted sid projection n := by
  intro st
  have h : Invariant st := calls_invariant calls
  exact ⟨h.consistent.nodup, h.consistent.mem_lru, ⟨h.ordered.used, h.ordered.oldest_first⟩,
    h.consistent.jsonBytes, h.bounded.sessions, h.bounded.jsonBytes,
    insert_evicts h.consistent⟩

end ChatProjectionCache

end Dlr.Sidecar
