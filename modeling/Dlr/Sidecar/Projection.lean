import Dlr.Receiver.Invariants
import Dlr.Sidecar.ChatSession

/-!
# Chat projections

The messages of a session, as the contents of a JSON array, cut into chunks for the
upstream request. The sidecar keeps the projection of the root it acknowledged last, in a
cache bounded by sessions and by bytes, and extends it by what was appended since.

## Implementation notes

Chunk boundaries depend on how a projection was built up. Everything that is sent depends
only on the concatenation of the chunks and on the two counters, so a projection is
described by the payloads it represents. The message counter counts the elements of a
vector and is a natural number; the byte counters saturate.
-/

namespace Dlr.Sidecar

open Dlr.Core Lib Lib.Machine

def projectionChunkBytes : Nat := 64 * 1024
def projectionCacheJsonBytes : Nat := 256 * 1024 * 1024
def projectionCacheSessions : Nat := 64

/-- Validated message payloads at an acknowledged root. -/
structure CachedChatProjection where
  root : MerkleRoot
  messageCount : Nat
  /-- The contents of the message array, including the commas between messages. -/
  chunks : List (List UInt8)
  jsonBytes : Nat
  deriving DecidableEq

/-! ## The cache -/

structure ChatProjectionCache where
  entries : FinMap SessionId CachedChatProjection := ∅
  lru : List SessionId := []
  jsonBytes : Nat := 0

namespace ChatProjectionCache

def touch (cache : ChatProjectionCache) (sid : SessionId) : ChatProjectionCache :=
  { cache with lru := cache.lru.filter (fun id => id ≠ sid) ++ [sid] }

/-- The projection of a session, if it is the one at `root`. -/
def get (cache : ChatProjectionCache) (sid : SessionId) (root : MerkleRoot) :
    Option CachedChatProjection × ChatProjectionCache :=
  match (cache.entries.get? sid).filter fun projection => projection.root = root with
  | none => (none, cache)
  | some projection => (some projection, cache.touch sid)

def remove (cache : ChatProjectionCache) (sid : SessionId) : ChatProjectionCache where
  entries := cache.entries.unset sid
  lru := cache.lru.filter fun id => id ≠ sid
  jsonBytes := cache.jsonBytes - ((cache.entries.get? sid).elim 0 fun p => p.jsonBytes)

/-- Drop the least recently used projections until one of `incoming` bytes fits. -/
def evict (incoming : Nat) :
    List SessionId → FinMap SessionId CachedChatProjection → Nat → ChatProjectionCache
  | [], entries, jsonBytes => ⟨entries, [], jsonBytes⟩
  | oldest :: rest, entries, jsonBytes =>
      if 0 < entries.size ∧ (entries.size ≥ projectionCacheSessions ∨
          saturatingAdd jsonBytes incoming > projectionCacheJsonBytes) then
        evict incoming rest (entries.unset oldest)
          (jsonBytes - ((entries.get? oldest).elim 0 fun p => p.jsonBytes))
      else ⟨entries, oldest :: rest, jsonBytes⟩

def insert (cache : ChatProjectionCache) (sid : SessionId) (projection : CachedChatProjection) :
    ChatProjectionCache :=
  let removed := cache.remove sid
  let cache := evict projection.jsonBytes removed.lru removed.entries removed.jsonBytes
  { entries := cache.entries.set sid projection
    lru := cache.lru ++ [sid]
    jsonBytes := saturatingAdd cache.jsonBytes projection.jsonBytes }

theorem get_entries (cache : ChatProjectionCache) (sid : SessionId) (root : MerkleRoot) :
    (cache.get sid root).2.entries = cache.entries := by
  unfold get
  split <;> rfl

theorem get_eq_some {cache : ChatProjectionCache} {sid : SessionId} {root : MerkleRoot}
    {p : CachedChatProjection} (h : (cache.get sid root).1 = some p) :
    cache.entries.get? sid = some p ∧ p.root = root := by
  unfold get at h
  split at h
  · cases h
  · rename_i found hfound
    cases h
    obtain ⟨hentry, hroot⟩ := Option.filter_eq_some_iff.mp hfound
    exact ⟨hentry, by simpa using hroot⟩

/-- Eviction only drops entries. -/
theorem get?_of_evict {incoming : Nat} {lru : List SessionId}
    {entries : FinMap SessionId CachedChatProjection} {jsonBytes : Nat} {s : SessionId}
    {p : CachedChatProjection} (h : (evict incoming lru entries jsonBytes).entries.get? s = some p) :
    entries.get? s = some p := by
  induction lru generalizing entries jsonBytes with
  | nil => exact h
  | cons oldest rest ih =>
      unfold evict at h
      split_ifs at h
      · have hrest := ih h
        rw [FinMap.get?_unset] at hrest
        split_ifs at hrest
        exact hrest
      · exact h

theorem get?_of_remove {cache : ChatProjectionCache} {sid s : SessionId}
    {p : CachedChatProjection} (h : (cache.remove sid).entries.get? s = some p) :
    s ≠ sid ∧ cache.entries.get? s = some p := by
  simp only [remove, FinMap.get?_unset] at h
  split_ifs at h with hs
  exact ⟨hs, h⟩

/-- What an insertion leaves behind is the new projection and some of the others. -/
theorem get?_of_insert {cache : ChatProjectionCache} {sid s : SessionId}
    {p q : CachedChatProjection} (h : (cache.insert sid p).entries.get? s = some q) :
    s = sid ∧ q = p ∨ s ≠ sid ∧ cache.entries.get? s = some q := by
  simp only [insert, FinMap.get?_set] at h
  split_ifs at h with hs
  · exact Or.inl ⟨hs, (Option.some.inj h).symm⟩
  · exact Or.inr (get?_of_remove (get?_of_evict h))

end ChatProjectionCache

/-! ## Building a projection -/

/-- The chunks, message count and byte count of a projection under construction, and the
small payloads that are still being coalesced. -/
structure Building where
  chunks : List (List UInt8)
  messageCount : Nat
  jsonBytes : Nat
  pending : List UInt8

/-- Add one payload, behind a comma unless it is the first message. -/
def Building.add (st : Building) (payload : List UInt8) : Building :=
  let comma : List UInt8 := if st.messageCount > 0 then [0x2C] else []
  let jsonBytes := saturatingAdd (saturatingAdd st.jsonBytes comma.length) payload.length
  let combinedLen := saturatingAdd comma.length payload.length
  if combinedLen ≤ projectionChunkBytes then
    let (chunks, pending) :=
      if saturatingAdd st.pending.length combinedLen > projectionChunkBytes then
        (st.chunks ++ [st.pending], [])
      else (st.chunks, st.pending)
    ⟨chunks, st.messageCount + 1, jsonBytes, pending ++ comma ++ payload⟩
  else
    let chunks := if st.pending ≠ [] then st.chunks ++ [st.pending] else st.chunks
    let chunks := if comma ≠ [] then chunks ++ [comma] else chunks
    ⟨chunks ++ [payload], st.messageCount + 1, jsonBytes, []⟩

def appendProjectionPayloads (projection : CachedChatProjection) (payloads : List (List UInt8)) :
    CachedChatProjection :=
  let st := payloads.foldl Building.add
    ⟨projection.chunks, projection.messageCount, projection.jsonBytes, []⟩
  { projection with
    chunks := if st.pending ≠ [] then st.chunks ++ [st.pending] else st.chunks
    messageCount := st.messageCount
    jsonBytes := st.jsonBytes }

/-- The contents of the JSON array of some messages. -/
def messagesJson (payloads : List (List UInt8)) : List UInt8 := [0x2C].intercalate payloads

/-- What a projection stands for: these payloads, in order. -/
structure CachedChatProjection.Represents (p : CachedChatProjection)
    (payloads : List (List UInt8)) : Prop where
  messageCount : p.messageCount = payloads.length
  chunks : p.chunks.flatten = messagesJson payloads
  jsonBytes : p.jsonBytes = min (messagesJson payloads).length usizeMax

theorem messagesJson_concat (payloads : List (List UInt8)) (payload : List UInt8) :
    messagesJson (payloads ++ [payload]) = messagesJson payloads ++
      (if payloads.length > 0 then [0x2C] else []) ++ payload := by
  induction payloads with
  | nil => simp [messagesJson, List.intercalate]
  | cons first rest ih =>
      cases rest with
      | nil => simp [messagesJson, List.intercalate]
      | cons second rest =>
          have hstep : ∀ l : List (List UInt8), messagesJson (first :: second :: l) =
              first ++ [0x2C] ++ messagesJson (second :: l) := by
            intro l
            simp [messagesJson, List.intercalate]
          rw [List.cons_append, List.cons_append, hstep, ← List.cons_append, ih, hstep]
          simp

theorem saturatingAdd_min (n m : Nat) :
    saturatingAdd (min n usizeMax) m = min (n + m) usizeMax := by
  unfold saturatingAdd
  omega

/-- What holds while payloads are being added. -/
structure Building.Represents (st : Building) (payloads : List (List UInt8)) : Prop where
  messageCount : st.messageCount = payloads.length
  chunks : st.chunks.flatten ++ st.pending = messagesJson payloads
  jsonBytes : st.jsonBytes = min (messagesJson payloads).length usizeMax

theorem Building.Represents.add {st : Building} {payloads : List (List UInt8)}
    (h : st.Represents payloads) (payload : List UInt8) :
    (st.add payload).Represents (payloads ++ [payload]) := by
  have hbytes : saturatingAdd (saturatingAdd st.jsonBytes
      (if payloads.length > 0 then [(0x2C : UInt8)] else []).length) payload.length =
      min (messagesJson (payloads ++ [payload])).length usizeMax := by
    rw [h.jsonBytes, saturatingAdd_min, saturatingAdd_min, messagesJson_concat]
    simp only [List.length_append]
  unfold Building.add
  simp only [h.messageCount]
  constructor
  · split_ifs <;> simp
  · rw [messagesJson_concat, ← h.chunks]
    split_ifs <;> simp_all
  · rw [← hbytes]
    split_ifs <;> rfl

theorem Building.Represents.addAll {st : Building} {payloads : List (List UInt8)}
    (h : st.Represents payloads) (more : List (List UInt8)) :
    (more.foldl Building.add st).Represents (payloads ++ more) := by
  induction more generalizing st payloads with
  | nil => simpa using h
  | cons payload rest ih =>
      rw [List.foldl_cons, List.append_cons]
      exact ih (h.add payload)

namespace CachedChatProjection.Represents

variable {p : CachedChatProjection} {payloads : List (List UInt8)}

/-- Appending payloads appends them to what is represented. -/
theorem append (h : p.Represents payloads) (more : List (List UInt8)) :
    (appendProjectionPayloads p more).Represents (payloads ++ more) := by
  have hstart : Building.Represents ⟨p.chunks, p.messageCount, p.jsonBytes, []⟩ payloads :=
    ⟨h.messageCount, by simpa using h.chunks, h.jsonBytes⟩
  have hall := hstart.addAll more
  refine ⟨hall.messageCount, ?_, hall.jsonBytes⟩
  rw [← hall.chunks]
  simp only [appendProjectionPayloads]
  split_ifs with hpending
  · simp
  · push Not at hpending
    simp [hpending]

theorem withRoot (h : p.Represents payloads) (root : MerkleRoot) :
    ({ p with root } : CachedChatProjection).Represents payloads :=
  ⟨h.messageCount, h.chunks, h.jsonBytes⟩

end CachedChatProjection.Represents

theorem represents_nil (root : MerkleRoot) :
    CachedChatProjection.Represents ⟨root, 0, [], 0⟩ [] :=
  ⟨rfl, rfl, rfl⟩

/-! ## Successive calls -/

/-- What a chunk was pushed as: the small payloads coalesced so far, the comma before a large
payload, or a large payload in its own allocation. -/
inductive PushedChunk
  | coalesced (pending : List UInt8)
  | comma
  | payload (bytes : List UInt8)

def PushedChunk.bytes : PushedChunk → List UInt8
  | coalesced pending => pending
  | comma => [0x2C]
  | payload bytes => bytes

/-- A chunk that was coalesced keeps to the chunk size. -/
def PushedChunk.Bounded : PushedChunk → Prop
  | coalesced pending => pending.length ≤ projectionChunkBytes
  | comma => True
  | payload _ => True

namespace Building

/-- The chunks pushed for one payload. -/
def pushed (st : Building) (payload : List UInt8) : List PushedChunk :=
  let comma : List UInt8 := if st.messageCount > 0 then [0x2C] else []
  let combinedLen := saturatingAdd comma.length payload.length
  if combinedLen ≤ projectionChunkBytes then
    if saturatingAdd st.pending.length combinedLen > projectionChunkBytes then
      [.coalesced st.pending]
    else []
  else
    (if st.pending ≠ [] then [.coalesced st.pending] else []) ++
      (if comma ≠ [] then [.comma] else []) ++ [.payload payload]

/-- The chunks pushed for some payloads and, at the end of the call, for what is pending. -/
def pushedAll (st : Building) : List (List UInt8) → List PushedChunk
  | [] => if st.pending ≠ [] then [.coalesced st.pending] else []
  | payload :: rest => st.pushed payload ++ (st.add payload).pushedAll rest

theorem add_chunks (st : Building) (payload : List UInt8) :
    (st.add payload).chunks = st.chunks ++ (st.pushed payload).map PushedChunk.bytes := by
  unfold add pushed
  by_cases hcount : st.messageCount > 0
  · simp only [if_pos hcount]
    split_ifs <;> simp [PushedChunk.bytes]
  · simp only [if_neg hcount, ne_eq, not_true_eq_false, if_false]
    split_ifs <;> simp [PushedChunk.bytes]

/-- What is pending never outgrows a chunk, so what is flushed does not either. -/
theorem add_bounded {st : Building} (h : st.pending.length ≤ projectionChunkBytes)
    (payload : List UInt8) :
    (st.add payload).pending.length ≤ projectionChunkBytes ∧
      ∀ chunk ∈ st.pushed payload, chunk.Bounded := by
  have hmax : projectionChunkBytes < usizeMax := by decide
  unfold add pushed
  generalize (if st.messageCount > 0 then [(0x2C : UInt8)] else []) = comma
  by_cases hsmall : saturatingAdd comma.length payload.length ≤ projectionChunkBytes
  · simp only [if_pos hsmall]
    unfold saturatingAdd at *
    constructor
    · split_ifs <;> simp only [List.length_append, List.length_nil] <;> omega
    · split_ifs <;> simp [PushedChunk.Bounded, h]
  · simp only [if_neg hsmall]
    refine ⟨Nat.zero_le _, ?_⟩
    split_ifs <;> simp [PushedChunk.Bounded, h]

theorem foldl_add_chunks (st : Building) (payloads : List (List UInt8)) :
    (let last := payloads.foldl add st
      if last.pending ≠ [] then last.chunks ++ [last.pending] else last.chunks) =
      st.chunks ++ (st.pushedAll payloads).map PushedChunk.bytes := by
  induction payloads generalizing st with
  | nil =>
      by_cases hpending : st.pending = []
      · simp [pushedAll, hpending]
      · simp [pushedAll, hpending, PushedChunk.bytes]
  | cons payload rest ih =>
      rw [List.foldl_cons, ih, add_chunks, pushedAll, List.map_append, List.append_assoc]

theorem pushedAll_bounded {st : Building} (h : st.pending.length ≤ projectionChunkBytes)
    (payloads : List (List UInt8)) : ∀ chunk ∈ st.pushedAll payloads, chunk.Bounded := by
  induction payloads generalizing st with
  | nil =>
      intro chunk hchunk
      simp only [pushedAll] at hchunk
      split_ifs at hchunk
      · rw [List.mem_singleton] at hchunk
        simpa [hchunk, PushedChunk.Bounded] using h
      · cases hchunk
  | cons payload rest ih =>
      obtain ⟨hpending, hpushed⟩ := add_bounded h payload
      intro chunk hchunk
      cases List.mem_append.mp hchunk with
      | inl hfirst => exact hpushed chunk hfirst
      | inr hrest => exact ih hpending chunk hrest

end Building

/-- An empty projection extended by some calls, one list of payloads each. -/
def appendCalls (root : MerkleRoot) (calls : List (List (List UInt8))) : CachedChatProjection :=
  calls.foldl appendProjectionPayloads ⟨root, 0, [], 0⟩

/-- The chunks pushed by some calls on a projection, and what each was pushed as. -/
def pushedByCalls (projection : CachedChatProjection) :
    List (List (List UInt8)) → List PushedChunk
  | [] => []
  | payloads :: rest =>
      Building.pushedAll ⟨projection.chunks, projection.messageCount, projection.jsonBytes, []⟩
          payloads ++
        pushedByCalls (appendProjectionPayloads projection payloads) rest

theorem pushedByCalls_bounded (projection : CachedChatProjection)
    (calls : List (List (List UInt8))) :
    ∀ chunk ∈ pushedByCalls projection calls, chunk.Bounded := by
  induction calls generalizing projection with
  | nil => simp [pushedByCalls]
  | cons payloads rest ih =>
      intro chunk hchunk
      cases List.mem_append.mp hchunk with
      | inl hfirst => exact Building.pushedAll_bounded (Nat.zero_le _) payloads chunk hfirst
      | inr hrest => exact ih _ chunk hrest

theorem foldl_append_chunks (projection : CachedChatProjection)
    (calls : List (List (List UInt8))) :
    (calls.foldl appendProjectionPayloads projection).chunks =
      projection.chunks ++ (pushedByCalls projection calls).map PushedChunk.bytes := by
  induction calls generalizing projection with
  | nil => simp [pushedByCalls]
  | cons payloads rest ih =>
      have hfirst : (appendProjectionPayloads projection payloads).chunks = _ :=
        Building.foldl_add_chunks _ payloads
      rw [List.foldl_cons, ih, hfirst, pushedByCalls, List.map_append, List.append_assoc]

/-- Any way of splitting the payloads into calls represents all of them. -/
theorem CachedChatProjection.Represents.appendAll {p : CachedChatProjection}
    {payloads : List (List UInt8)} (h : p.Represents payloads)
    (calls : List (List (List UInt8))) :
    (calls.foldl appendProjectionPayloads p).Represents (payloads ++ calls.flatten) := by
  induction calls generalizing p payloads with
  | nil => simpa using h
  | cons more rest ih =>
      rw [List.foldl_cons, List.flatten_cons, ← List.append_assoc]
      exact ih (h.append more)

theorem appendCalls_represents (root : MerkleRoot) (calls : List (List (List UInt8))) :
    (appendCalls root calls).Represents calls.flatten :=
  (represents_nil root).appendAll calls

/-- A projection built up by any calls is the payloads joined by commas, cut into chunks of
which the coalesced ones are bounded, with the byte count capped at the largest `usize`. -/
theorem appended_chunks_exact (root : MerkleRoot) (calls : List (List (List UInt8))) :
    (appendCalls root calls).chunks.flatten = [0x2C].intercalate calls.flatten ∧
      (appendCalls root calls).messageCount = calls.flatten.length ∧
      (appendCalls root calls).jsonBytes =
        min ((appendCalls root calls).chunks.map List.length).sum usizeMax ∧
      (appendCalls root calls).chunks =
        (pushedByCalls ⟨root, 0, [], 0⟩ calls).map PushedChunk.bytes ∧
      (∀ pending, PushedChunk.coalesced pending ∈ pushedByCalls ⟨root, 0, [], 0⟩ calls →
        pending.length ≤ projectionChunkBytes) ∧
      ∀ calls' : List (List (List UInt8)), calls'.flatten = calls.flatten →
        (appendCalls root calls').chunks.flatten = (appendCalls root calls).chunks.flatten := by
  have hrep := appendCalls_represents root calls
  refine ⟨hrep.chunks, hrep.messageCount, ?_, ?_, ?_, ?_⟩
  · rw [← List.length_flatten, hrep.chunks, hrep.jsonBytes]
  · exact foldl_append_chunks _ calls
  · intro pending hpending
    exact pushedByCalls_bounded _ calls _ hpending
  · intro calls' hsame
    rw [(appendCalls_represents root calls').chunks, hrep.chunks, hsame]

theorem sum_length_le_messagesJson (payloads : List (List UInt8)) :
    (payloads.map List.length).sum ≤ (messagesJson payloads).length := by
  induction payloads with
  | nil => exact Nat.zero_le _
  | cons payload rest ih =>
      cases rest with
      | nil => simp [messagesJson]
      | cons next rest =>
          simp only [messagesJson, List.intercalate, List.intersperse, List.flatten_cons,
            List.length_append, List.map_cons, List.sum_cons] at ih ⊢
          omega

/-- Many payloads that share one allocation are longer together than a `usize` can count. -/
theorem appended_bytes_saturate :
    ∃ (root : MerkleRoot) (calls : List (List (List UInt8))),
      (∀ payload ∈ calls.flatten, payload.length ≤ 2 ^ 34) ∧ calls.flatten.length ≤ 2 ^ 30 ∧
        (appendCalls root calls).jsonBytes ≠
          ((appendCalls root calls).chunks.map List.length).sum := by
  obtain ⟨payload, hlength⟩ : ∃ payload : List UInt8, payload.length = 2 ^ 34 :=
    ⟨List.replicate (2 ^ 34) 0x20, List.length_replicate⟩
  obtain ⟨clones, hclones⟩ : ∃ clones : Nat, clones = 2 ^ 30 := ⟨_, rfl⟩
  have hflat : [List.replicate clones payload].flatten = List.replicate clones payload := by simp
  refine ⟨rootZero, [List.replicate clones payload], ?_, ?_, ?_⟩
  · intro other hother
    rw [hflat] at hother
    exact (List.eq_of_mem_replicate hother) ▸ hlength.le
  · rw [hflat, List.length_replicate, hclones]
  · have hrep := appendCalls_represents rootZero [List.replicate clones payload]
    have htotal := sum_length_le_messagesJson (List.replicate clones payload)
    rw [List.map_replicate, List.sum_replicate, hlength, hclones, smul_eq_mul] at htotal
    have hmax : usizeMax = 2 ^ 64 - 1 := rfl
    rw [← List.length_flatten, hrep.chunks, hrep.jsonBytes, hflat, hclones]
    omega

end Dlr.Sidecar
