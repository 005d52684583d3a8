import Dlr.Sidecar.ChatSession

/-!
# Preparing a request

A request that is refused leaves the session alone, since the size is bounded before the shim
is touched. A request that is prepared fits the wire and carries the frame of its turn. The
frame starts at the base root, but it carries the blocks of this turn only: it leads to the
expected root exactly when nothing lies between the base and the root.
-/

namespace Dlr.Sidecar

open Dlr.Core Compress Lib.Bytes Lib.Machine

namespace ChatSession

variable {F : Type} [DedupFilter F] [Blake3] [Zstd] [SerdeJson]

/-- What a prepared request is: a body within the limit that decodes to the request and to an
APPEND frame at the base root, whose ids are those the shim recorded and fold to the expected
root. -/
structure Prepared (session : ChatSession F) (request : Value) (prepared : PreparedChatRequest)
    (after : ChatSession F) (env : ChatEnvelope) (frame : AppendFrame)
    (ids : List BlockId) : Prop where
  size : prepared.body.length ≤ maxRequestBytes
  decodes : ChatEnvelope.decode prepared.body = .ok env
  carries : env.request = request
  append : decodeFrame env.frame = .ok (.append frame)
  baseRoot : frame.baseRoot = session.shim.baseRoot
  recorded : after.shim.ids = session.shim.ids ++ ids
  /-- A receiver that restores compressed blocks reads these ids from the frame. -/
  resolves : ∀ c, Compressor.RoundTrips session.shim.appendCompressor c →
    ∃ resolved, frame.blocks.mapM (Receiver.resolveBlock c) = .ok resolved ∧
      resolved.map Resolved.id = ids
  folds : rootOver frame.baseRoot ids = prepared.expectedRoot
  pending : after.pendingRoot = some prepared.expectedRoot

/-- An error leaves the session as it was, and a success is a request as above. -/
def PrepareSound (session : ChatSession F) (newMessages : List Value) (request : Value) : Prop :=
  match session.prepareRef newMessages request with
  | (.error _, after) => after = session
  | (.ok prepared, after) =>
      ∃ env frame ids, session.Prepared request prepared after env frame ids

theorem prepareRef_ok {session after : ChatSession F} {newMessages : List Value}
    {request : Value} {prepared : PreparedChatRequest}
    (h : session.prepareRef newMessages request = (.ok prepared, after)) :
    after.pendingRoot = some prepared.expectedRoot ∧ prepared.body.length ≤ maxRequestBytes := by
  unfold prepareRef at h
  split at h
  · cases h
  · simp only at h
    split at h
    · cases h
    · rename_i hencode
      cases h
      exact ⟨rfl, ChatEnvelope.length_le_of_encodeParts hencode⟩

omit [DedupFilter F] [Blake3] [Zstd] [SerdeJson] in
theorem length_le_of_sum_le {blocks : List Block}
    (hsize : (blocks.map fun b => 39 + b.payload.length).sum ≤ maxRequestBytes) :
    ∀ b ∈ blocks, b.payload.length ≤ maxBlockPayloadBytes := by
  intro b hb
  have hone : 39 + b.payload.length ≤ (blocks.map fun b => 39 + b.payload.length).sum :=
    List.single_le_sum (fun _ _ => Nat.zero_le _) _ (List.mem_map_of_mem hb)
  simp only [maxRequestBytes, maxBlockPayloadBytes] at hsize ⊢
  omega

/-- Everything of a prepared request but the fold holds whatever the base is. -/
theorem prepared_of_check {session : ChatSession F} {newMessages : List Value} {request : Value}
    {serialized : List (BlockKind × List UInt8)}
    (hserde : SerdeJson.metadataFromSlice (requestMetadata request) = .ok request)
    (hcheck : checkPrepare session.pendingRoot newMessages request = .ok serialized) :
    ∃ prepared after, session.prepareRef newMessages request = (.ok prepared, after) ∧
      prepared.expectedRoot =
        rootOver session.shim.root ((session.turn newMessages).map Block.blockId) ∧
      after.shim.ids = session.shim.ids ++ (session.turn newMessages).map Block.blockId ∧
      (rootOver session.shim.baseRoot ((session.turn newMessages).map Block.blockId) =
          prepared.expectedRoot →
        ∃ env frame, session.Prepared request prepared after env frame
          ((session.turn newMessages).map Block.blockId)) := by
  obtain ⟨nextSeq, prepared, -, hprep, hmeta, hbody, hsize⟩ := prepareRef_of_check hcheck
  have hspec := session.shim.ingestTurn_spec (session.turn newMessages)
  obtain ⟨hpending, hlength⟩ := prepareRef_ok hprep
  have hexpected : prepared.expectedRoot =
      rootOver session.shim.root ((session.turn newMessages).map Block.blockId) := by
    rw [← hspec.root]
    exact (Option.some.inj hpending).symm
  refine ⟨prepared, _, hprep, hexpected, hspec.ids, ?_⟩
  intro hfold
  have hframe : encodeFrame (.append
      (session.shim.ingestTurn (session.turn newMessages)).1) ≠ [] := by
    apply List.ne_nil_of_length_pos
    rw [length_encodeFrame_append]
    omega
  refine ⟨⟨request, encodeFrame (.append
    (session.shim.ingestTurn (session.turn newMessages)).1)⟩, _, hlength, ?_, rfl,
    decodeFrame_turn session.shim hsize, ?_, hspec.ids, ?_, ?_, hpending⟩
  · rw [ChatEnvelope.decode_parts hmeta hbody, if_neg hframe, hserde]
  · rw [SessionShim.ingestTurn_frame]
  · intro c hrt
    obtain ⟨resolved, hmap, hids, -⟩ := session.shim.ingestBlocks_resolves _ hrt
      (length_le_of_sum_le hsize) session.shim.store [] fun _ _ h => Or.inl h
    refine ⟨resolved, ?_, hids⟩
    rw [SessionShim.ingestTurn_frame]
    exact hmap
  · rw [SessionShim.ingestTurn_frame]
    exact hfold

/-- In a sound request the ids of the turn fold from the base to where they fold from the
root. -/
theorem PrepareSound.folds {session : ChatSession F} {newMessages : List Value} {request : Value}
    {serialized : List (BlockKind × List UInt8)}
    (hserde : SerdeJson.metadataFromSlice (requestMetadata request) = .ok request)
    (hcheck : checkPrepare session.pendingRoot newMessages request = .ok serialized)
    (h : session.PrepareSound newMessages request) :
    rootOver session.shim.baseRoot ((session.turn newMessages).map Block.blockId) =
      rootOver session.shim.root ((session.turn newMessages).map Block.blockId) := by
  obtain ⟨prepared, after, hprep, hexpected, hrecorded, -⟩ := prepared_of_check hserde hcheck
  simp only [PrepareSound, hprep] at h
  obtain ⟨env, frame, ids, hsound⟩ := h
  have hids : (session.turn newMessages).map Block.blockId = ids :=
    List.append_cancel_left (hrecorded.symm.trans hsound.recorded)
  rw [hids, ← hsound.baseRoot, hsound.folds, hexpected, hids]

/-- Preparing is atomic and its request leads to the expected root, exactly when the request is
refused or the base of the session is its root. -/
theorem prepare_sound_iff (session : ChatSession F) (newMessages : List Value) (request : Value)
    (hserde : SerdeJson.metadataFromSlice (requestMetadata request) = .ok request)
    (hS : CollisionFree {x |
      x ∈ rootInputs session.shim.baseRoot ((session.turn newMessages).map Block.blockId) ∨
      x ∈ rootInputs session.shim.root ((session.turn newMessages).map Block.blockId)}) :
    session.PrepareSound newMessages request ↔
      session.shim.baseRoot = session.shim.root ∨
        ∃ e, checkPrepare session.pendingRoot newMessages request = .error e := by
  cases hcheck : checkPrepare session.pendingRoot newMessages request with
  | error e => simp [PrepareSound, prepareRef_error hcheck]
  | ok serialized =>
      simp only [reduceCtorEq, exists_false, or_false]
      constructor
      · intro h
        exact rootOver_start_injective hS (fun x hx => Or.inl hx) (fun x hx => Or.inr hx)
          (h.folds hserde hcheck)
      · intro hbase
        obtain ⟨prepared, after, hprep, hexpected, -, hprepared⟩ :=
          prepared_of_check hserde hcheck
        obtain ⟨env, frame, h⟩ := hprepared (by rw [hexpected, hbase])
        simp only [PrepareSound, hprep]
        exact ⟨env, frame, _, h⟩

omit [DedupFilter F] [Blake3] [Zstd] [SerdeJson] in
/-- The first request of a session. -/
theorem first_prepare_sound :
    letI := prefixHash
    letI := storedZstd
    letI := DedupFilter.exact
    letI := sampleJson [.object []]
    let message : Value := .object [("role", .string "user")]
    let session : ChatSession (List BlockId) := ChatSession.new "chat" []
    (session.prepareRef [message] (.object [])).1.isOk = true ∧
      session.PrepareSound [message] (.object []) := by
  let _ := prefixHash
  let _ := storedZstd
  let _ := DedupFilter.exact
  let _ := sampleJson [.object []]
  intro message session
  have hone : (session.turn [message]).map Block.blockId =
      [Block.blockId ⟨.message, 1, message.print⟩] := by decide +kernel
  have hbase : session.shim.baseRoot = session.shim.root := rfl
  have honly : ∀ x, x ∈ rootInputs rootZero [Block.blockId ⟨.message, 1, message.print⟩] →
      x = rootZero.bytes ++ (Block.blockId ⟨.message, 1, message.print⟩).bytes := by
    simp [rootInputs, Lib.HashChain.links]
  have hiff := prepare_sound_iff session [message] (.object []) rfl ⟨by
    rw [hone]
    intro x hx y hy _
    rw [honly x (hx.elim id id), honly y (hy.elim id id)], fun x _ => prefixHash_ne_rootZero x⟩
  constructor
  · decide +kernel
  · rw [hiff]
    exact Or.inl hbase

omit [DedupFilter F] [Blake3] [Zstd] [SerdeJson] in
/-- Two requests are acknowledged, and the first ACK arrives once more. The next request is
prepared for the root after the first one, but carries only the third message. -/
theorem prepare_after_delayed_ack :
    letI := prefixHash
    letI := storedZstd
    letI := DedupFilter.exact
    letI := sampleJson [.object []]
    let message : String → Value := fun role => .object [("role", .string role)]
    let s₀ : ChatSession (List BlockId) := ChatSession.new "chat" []
    let s₁ := (s₀.prepareRef [message "user"] (.object [])).2
    let s₂ := ((s₁.applyAck s₁.shim.root).2.prepareRef [message "tool"] (.object [])).2
    let s₃ := ((s₂.applyAck s₂.shim.root).2.applyAck s₁.shim.root).2
    (s₃.prepareRef [message "user"] (.object [])).1.isOk = true ∧
      ¬ s₃.PrepareSound [message "user"] (.object []) := by
  let _ := prefixHash
  let _ := storedZstd
  let _ := DedupFilter.exact
  let _ := sampleJson [.object []]
  intro message s₀ s₁ s₂ s₃
  have hcheck : checkPrepare s₃.pendingRoot [message "user"] (.object []) =
      .ok [(.message, (message "user").print)] := by decide +kernel
  exact ⟨by decide +kernel, mt (PrepareSound.folds rfl hcheck) (by decide +kernel)⟩

end ChatSession

end Dlr.Sidecar
