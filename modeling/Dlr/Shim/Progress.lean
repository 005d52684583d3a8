import Dlr.Shim.Delta

/-!
# Acknowledged progress

A shim records in `baseLen` how much of its log the receiver acknowledged. The roots it
keeps always belong to its own log, but the prefix scan of `apply_ack` accepts the root of
any nonempty prefix, also one shorter than what is acknowledged already: an ACK that
arrives after a newer one takes `baseLen` back.
-/

namespace Dlr

open Dlr.Core Compress Lib

namespace SessionShim

variable {F : Type} [DedupFilter F] [Blake3] [Zstd]

omit [DedupFilter F] [Zstd] in
/-- The scan stops at the first prefix with the acknowledged root. -/
theorem findPrefix_of_prefix {acked r : MerkleRoot} (i : Nat) {ids : List BlockId} {len : Nat}
    (hpos : 0 < len) (hle : len ≤ ids.length) (hroot : rootOver r (ids.take len) = acked) :
    ∃ n, findPrefix acked r i ids = some n ∧ n ≤ i + len := by
  induction ids generalizing r i len with
  | nil =>
      rw [List.length_nil] at hle
      omega
  | cons id rest ih =>
      obtain ⟨m, rfl⟩ : ∃ m, len = m + 1 := ⟨len - 1, by omega⟩
      by_cases hhead : appendRoot r id = acked
      · exact ⟨i + 1, by rw [findPrefix, if_pos hhead], by omega⟩
      · rw [List.take_succ_cons, rootOver_cons] at hroot
        have hm : 0 < m := by
          apply Nat.pos_of_ne_zero
          rintro rfl
          exact hhead hroot
        obtain ⟨n, hn, hnle⟩ := ih (i + 1) hm (by simpa using hle) hroot
        refine ⟨n, ?_, by omega⟩
        rw [findPrefix, if_neg hhead]
        exact hn

/-- An ACK for a shorter prefix than the acknowledged one: its root is neither the current
root nor the base root, and a nonempty prefix below `baseLen` has it. -/
def Stale (shim : SessionShim F) (acked : MerkleRoot) : Prop :=
  acked ≠ shim.root ∧ acked ≠ shim.baseRoot ∧
    ∃ len, 0 < len ∧ len < shim.baseLen ∧ rootOver rootZero (shim.ids.take len) = acked

omit [DedupFilter F] [Zstd] in
/-- One ACK takes the acknowledged length back exactly when it is stale. -/
theorem applyAck_baseLen_lt_iff {shim : SessionShim F} (h : shim.Rooted) (acked : MerkleRoot) :
    (shim.applyAck acked).2.baseLen < shim.baseLen ↔ shim.Stale acked := by
  have hbound := h.baseLen
  by_cases hroot : acked = shim.root
  · have hlen : (shim.applyAck acked).2.baseLen = shim.ids.length := by
      rw [applyAck, if_pos hroot]
    constructor
    · intro hlt
      omega
    · exact fun hstale => absurd hroot hstale.1
  · by_cases hbase : acked = shim.baseRoot
    · have hlen : (shim.applyAck acked).2.baseLen = shim.baseLen := by
        rw [applyAck, if_neg hroot, if_pos hbase]
      constructor
      · intro hlt
        omega
      · exact fun hstale => absurd hbase hstale.2.1
    · -- the scan decides: it returns the shortest prefix with this root
      rw [applyAck, if_neg hroot, if_neg hbase]
      constructor
      · intro hlt
        cases hscan : findPrefix acked rootZero 0 shim.ids with
        | none =>
            rw [hscan] at hlt
            exact absurd hlt (lt_irrefl _)
        | some n =>
            rw [hscan] at hlt
            obtain ⟨hpos, -, hprefix⟩ := findPrefix_eq_some hscan
            exact ⟨hroot, hbase, n, hpos, hlt, hprefix⟩
      · rintro ⟨-, -, len, hpos, hlt, hprefix⟩
        obtain ⟨n, hn, hle⟩ := findPrefix_of_prefix 0 hpos (by omega) hprefix
        rw [hn]
        show n < shim.baseLen
        omega

/-- A call that is not a stale ACK does not take the acknowledged length back. -/
theorem call_baseLen_le {shim : SessionShim F} (h : shim.Rooted) (c : Call F)
    (hfresh : ∀ acked, c = .applyAck acked → ¬ shim.Stale acked) :
    shim.baseLen ≤ (shim.call c).baseLen := by
  cases c with
  | ingestTurn blocks => exact (shim.ingestTurn_spec blocks).baseLen.ge
  | ingestCoalesced turns => exact (shim.ingestTurn_spec turns.flatten).baseLen.ge
  | applyAck acked =>
      apply Nat.le_of_not_lt
      exact fun hlt => hfresh acked rfl ((applyAck_baseLen_lt_iff h acked).mp hlt)
  | shared op filter => exact le_rfl

/-- No ACK of the run is stale when it is applied. -/
def NoStaleAck (shim : SessionShim F) (calls : List (Call F)) : Prop :=
  ∀ before acked after, calls = before ++ .applyAck acked :: after →
    ¬ (shim.callAll before).Stale acked

theorem NoStaleAck.head {shim : SessionShim F} {c : Call F} {rest : List (Call F)}
    (h : shim.NoStaleAck (c :: rest)) : ∀ acked, c = .applyAck acked → ¬ shim.Stale acked := by
  rintro acked rfl
  exact h [] acked rest rfl

theorem NoStaleAck.drop {shim : SessionShim F} {before after : List (Call F)}
    (h : shim.NoStaleAck (before ++ after)) : (shim.callAll before).NoStaleAck after := by
  intro mid acked rest heq
  rw [← callAll_append]
  apply h (before ++ mid) acked rest
  rw [heq, List.append_assoc]

theorem NoStaleAck.take {shim : SessionShim F} {before after : List (Call F)}
    (h : shim.NoStaleAck (before ++ after)) : shim.NoStaleAck before := by
  intro mid acked rest heq
  apply h mid acked (rest ++ after)
  rw [heq, List.append_assoc, List.cons_append]

/-- Over a run without stale ACKs the acknowledged length only grows. -/
theorem callAll_baseLen_le {shim : SessionShim F} (h : shim.Rooted) {calls : List (Call F)}
    (hfresh : shim.NoStaleAck calls) : shim.baseLen ≤ (shim.callAll calls).baseLen := by
  induction calls generalizing shim with
  | nil => exact le_rfl
  | cons c rest ih =>
      calc shim.baseLen ≤ (shim.call c).baseLen := call_baseLen_le h c hfresh.head
        _ ≤ ((shim.call c).callAll rest).baseLen :=
            ih (rooted_callAll h [c]) (show shim.NoStaleAck ([c] ++ rest) from hfresh).drop

/-- Acknowledged progress over a run: in every state the roots are those of the log and of
its acknowledged prefix, and no state has acknowledged less than an earlier one. -/
structure Progresses (shim : SessionShim F) (calls : List (Call F)) : Prop where
  rooted : ∀ before after, calls = before ++ after → (shim.callAll before).Rooted
  grows : ∀ before mid after, calls = before ++ mid ++ after →
    (shim.callAll before).baseLen ≤ (shim.callAll (before ++ mid)).baseLen

/-- A run of a shim makes progress exactly when no ACK it applies is stale. -/
theorem progresses_iff (sid : SessionId) (store : ContentStore) (c : Compressor) (filter : F)
    (calls : List (Call F)) :
    (withFilter sid store c filter).Progresses calls ↔
      (withFilter sid store c filter).NoStaleAck calls := by
  have hstart := rooted_withFilter sid store c filter
  constructor
  · rintro ⟨hrooted, hgrows⟩ before acked after heq hstale
    have hle := hgrows before [.applyAck acked] after (by rw [heq]; simp)
    rw [callAll_append] at hle
    have hlt := (applyAck_baseLen_lt_iff (rooted_callAll hstart before) acked).mpr hstale
    exact absurd hlt (Nat.not_lt.mpr hle)
  · intro hfresh
    refine ⟨fun before after _ => rooted_callAll hstart before, ?_⟩
    intro before mid after heq
    rw [callAll_append]
    apply callAll_baseLen_le (rooted_callAll hstart before)
    rw [heq] at hfresh
    exact hfresh.take.drop

omit [DedupFilter F] [Blake3] [Zstd] in
/-- The receiver takes two turns and acknowledges each. The first ACK arrives once more after
the second one: it is known, and the acknowledged length falls from two to one. -/
theorem delayed_ack_moves_back :
    letI := prefixHash
    letI := storedZstd
    letI := DedupFilter.exact
    let b₁ : Block := ⟨.message, 0, [7]⟩
    let b₂ : Block := ⟨.message, 1, [8]⟩
    let fresh := withFilter 5 ContentStore.new Compressor.default ([] : List BlockId)
    let r₀ := Receiver.new ContentStore.new Compressor.default
    let (ack₁, r₁) := r₀.handleAppend (fresh.ingestTurn [b₁]).1
    let root₁ := r₁.store.sessionRoot 5
    let one := fresh.callAll [.ingestTurn [b₁], .applyAck root₁]
    let (ack₂, r₂) := r₁.handleAppend (one.ingestTurn [b₂]).1
    let root₂ := r₂.store.sessionRoot 5
    let two := one.callAll [.ingestTurn [b₂], .applyAck root₂]
    ack₁ = .ok ⟨5, root₁⟩ ∧ ack₂ = .ok ⟨5, root₂⟩ ∧ two.baseLen = 2 ∧
      (two.applyAck root₁).1 = true ∧ (two.call (.applyAck root₁)).baseLen = 1 ∧
      ¬ fresh.Progresses [.ingestTurn [b₁], .applyAck root₁, .ingestTurn [b₂], .applyAck root₂,
        .applyAck root₁] := by
  let _ := prefixHash
  let _ := storedZstd
  let _ := DedupFilter.exact
  refine ⟨by decide +kernel, by decide +kernel, by decide +kernel, by decide +kernel,
    by decide +kernel, ?_⟩
  rintro ⟨-, hgrows⟩
  have hle := hgrows [_, _, _, _] [_] [] rfl
  revert hle
  decide +kernel

end SessionShim

end Dlr
