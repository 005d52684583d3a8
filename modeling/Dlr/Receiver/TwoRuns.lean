import Dlr.Receiver.Effects

/-!
# Two runs that agree on one session

The answers of a receiver to the frames of a session depend only on the content store,
the session logs and the bookkeeping of that session. Two receivers that agree on these
stay in step.
-/

namespace Dlr

open Dlr.Core Coding Compress Lib

namespace Core.ContentStore

variable [Blake3] {st st' : ContentStore}

/-- What an operation does to the maps depends on the maps only. -/
theorem perform_maps_congr (h : st.maps = st'.maps) (op : StoreOp) :
    (st.perform op).maps = (st'.perform op).maps := by
  have hblocks : st.blocks = st'.blocks := congrArg Maps.blocks h
  have hsessions : st.sessions = st'.sessions := congrArg Maps.sessions h
  cases op with
  | insertWithCanonical sid block given =>
      apply Maps.ext
      · simp [perform, hblocks]
      · simp [perform, hsessions]
  | reference sid id =>
      apply Maps.ext
      · simp [perform, hblocks]
      · simp only [perform, maps_sessions]
        cases hb : st.blocks.get? id with
        | none =>
            rw [reference_of_absent st sid id hb, reference_of_absent st' sid id (hblocks ▸ hb)]
            exact hsessions
        | some b =>
            rw [(reference_of_contains st sid id hb).1,
              (reference_of_contains st' sid id (hblocks ▸ hb)).1, hsessions]
  | seedSession sid ids root =>
      apply Maps.ext
      · simp [perform, hblocks]
      · simp [perform, hsessions]
  | storeContentWithId sid block =>
      apply Maps.ext
      · simp [perform, hblocks]
      · simp [perform, hsessions]

theorem performAll_maps_congr (h : st.maps = st'.maps) (ops : List StoreOp) :
    (st.performAll ops).maps = (st'.performAll ops).maps := by
  induction ops generalizing st st' with
  | nil => exact h
  | cons op rest ih => exact ih (perform_maps_congr h op)

omit [Blake3] in
theorem contains_congr (h : st.maps = st'.maps) (id : BlockId) :
    st.contains id = st'.contains id := by
  simp only [contains, show st.blocks = st'.blocks from congrArg Maps.blocks h]

omit [Blake3] in
theorem logOf_congr (h : st.maps = st'.maps) (sid : SessionId) :
    logOf st.sessions sid = logOf st'.sessions sid := by
  rw [show st.sessions = st'.sessions from congrArg Maps.sessions h]

end Core.ContentStore

namespace Receiver

/-- Two receivers that cannot be told apart by the frames of a session. -/
structure Alike (sid : SessionId) (r r' : Receiver) : Prop where
  maps : r.store.maps = r'.store.maps
  compressor : r.compressor = r'.compressor
  known : (r.sessions.get? sid).isSome = (r'.sessions.get? sid).isSome
  session : r.session sid = r'.session sid

theorem Alike.sessionRoot {sid : SessionId} {r r' : Receiver} (h : Alike sid r r') :
    r.store.sessionRoot sid = r'.store.sessionRoot sid :=
  congrArg SessionLog.root (ContentStore.logOf_congr h.maps sid)

theorem Alike.sessionIds {sid : SessionId} {r r' : Receiver} (h : Alike sid r r') :
    r.store.sessionIds sid = r'.store.sessionIds sid :=
  congrArg SessionLog.ids (ContentStore.logOf_congr h.maps sid)

theorem Alike.reconstruct {sid : SessionId} {r r' : Receiver} (h : Alike sid r r') :
    r.reconstruct sid = r'.reconstruct sid := by
  have hblocks : r.store.blocks = r'.store.blocks := congrArg Maps.blocks h.maps
  have hget : r.store.get = r'.store.get := by
    funext id
    rw [ContentStore.get, ContentStore.get, hblocks]
  rw [Receiver.reconstruct, Receiver.reconstruct, h.known, ContentStore.reconstruct,
    ContentStore.reconstruct, hget, h.sessionIds]

/-- Setting the same entry keeps two receivers alike. -/
theorem Alike.setSession {sid : SessionId} {r r' : Receiver} (h : Alike sid r r')
    (st : SessionState) : Alike sid (r.setSession sid st) (r'.setSession sid st) :=
  ⟨h.maps, h.compressor, by simp [Receiver.setSession], by simp⟩

theorem refsAvailable_congr {store store' : ContentStore}
    (h : ∀ id, store.contains id = store'.contains id) (available : List BlockId)
    (resolved : List Resolved) :
    refsAvailable store available resolved = refsAvailable store' available resolved := by
  induction resolved generalizing available with
  | nil => rfl
  | cons x rest ih =>
      cases x with
      | inline id block => exact ih _
      | ref id => rw [refsAvailable, refsAvailable, h id, ih]

section Step

variable [Blake3] {r r' : Receiver}

/-- A RESYNC brings two receivers into step that differ in the cold-start bookkeeping of
the session, provided they hold the same decoders for it. -/
theorem alike_handleResync (frame : ResyncFrame) (hmaps : r.store.maps = r'.store.maps)
    (hcomp : r.compressor = r'.compressor)
    (hdec : (r.session frame.sessionId).decoders = (r'.session frame.sessionId).decoders) :
    (r.handleResync frame).1 = (r'.handleResync frame).1 ∧
      Alike frame.sessionId (r.handleResync frame).2 (r'.handleResync frame).2 := by
  have hmissing : (frame.manifest.filter fun id => !r.store.contains id) =
      frame.manifest.filter fun id => !r'.store.contains id := by
    simp only [ContentStore.contains_congr hmaps]
  refine ⟨hmissing, ?_, hcomp, by simp [handleResync, setSession], ?_⟩
  · exact ContentStore.perform_maps_congr hmaps
      (.seedSession frame.sessionId frame.manifest frame.clientRoot)
  · simp only [handleResync, session_setSession_self, hmissing, hdec]

variable [Zstd]

theorem Alike.handleAppend {frame : AppendFrame} (h : Alike frame.sessionId r r') :
    (r.handleAppend frame).1 = (r'.handleAppend frame).1 ∧
      Alike frame.sessionId (r.handleAppend frame).2 (r'.handleAppend frame).2 := by
  have htouch : Alike frame.sessionId (r.touch frame.sessionId) (r'.touch frame.sessionId) := by
    rw [touch, touch, h.session]
    exact h.setSession _
  simp only [Receiver.handleAppend, ← h.compressor]
  cases hres : frame.blocks.mapM (resolveBlock r.compressor) with
  | error e => exact ⟨rfl, h⟩
  | ok resolved =>
      simp only [← refsAvailable_congr (ContentStore.contains_congr h.maps) [] resolved]
      by_cases havail : refsAvailable r.store [] resolved = true
      · have havail' : refsAvailable r'.store [] resolved = true := by
          rw [← refsAvailable_congr (ContentStore.contains_congr h.maps)]
          exact havail
        rw [if_pos havail, if_pos havail, appendResolved_eq r frame (resolve_addressed hres) havail,
          appendResolved_eq r' frame (resolve_addressed hres) havail', ← h.session, ← h.sessionRoot]
        split_ifs
        · exact ⟨rfl, htouch⟩
        · exact ⟨rfl, htouch⟩
        · exact ⟨rfl, htouch⟩
        · refine ⟨rfl, ?_, htouch.compressor, htouch.known, htouch.session⟩
          exact ContentStore.performAll_maps_congr h.maps _
      · rw [if_neg havail, if_neg havail]
        exact ⟨rfl, h⟩

omit [Zstd] in
theorem Alike.finished {sid : SessionId} (h : Alike sid r r') (generation : UInt32)
    (recovered : List (Block × BlockId)) :
    Alike sid (r.finished sid generation recovered) (r'.finished sid generation recovered) := by
  refine ⟨?_, h.compressor, by simp [Receiver.finished, Receiver.setSession], ?_⟩
  · exact ContentStore.performAll_maps_congr h.maps _
  · simp only [Receiver.finished, session_setSession_self, h.session]

theorem Alike.handleBulkWith {frame : BulkFrame} (h : Alike frame.sessionId r r')
    (winner : Nat) :
    (r.handleBulkWith winner frame).1 = (r'.handleBulkWith winner frame).1 ∧
      Alike frame.sessionId (r.handleBulkWith winner frame).2
        (r'.handleBulkWith winner frame).2 := by
  have hkeep : ∀ d, Alike frame.sessionId
      (r.setSession frame.sessionId { r.session frame.sessionId with
        decoders := (r.session frame.sessionId).decoders.set frame.generation d })
      (r'.setSession frame.sessionId { r.session frame.sessionId with
        decoders := (r.session frame.sessionId).decoders.set frame.generation d }) :=
    fun d => h.setSession _
  simp only [Receiver.handleBulkWith, ← h.session, ← h.compressor]
  rcases (((r.session frame.sessionId).decoders.get? frame.generation).getD
    (FountainDecoder.new frame.k.toNat frame.symbolSize.toNat)).addAll frame.symbols with
    ⟨e | ⟨⟩, d⟩
  · exact ⟨rfl, hkeep d⟩
  · rcases hdec : d.decode with ⟨e | syms, d'⟩
    · simp only [hdec]
      cases e with
      | underdetermined got need => exact ⟨rfl, hkeep d'⟩
      | empty => exact ⟨rfl, hkeep d'⟩
      | sizeMismatch a b => exact ⟨rfl, hkeep d'⟩
    · simp only [hdec]
      cases hrec : recoverRecords winner r.compressor (parseRecords syms.flatten) with
      | error e => exact ⟨rfl, hkeep d'⟩
      | ok recovered =>
          have haddr : ∀ b ∈ recovered, b.2 = b.1.blockId :=
            recovered_addressed (mapM_of_recoverRecords hrec)
          have hfinish := finishGeneration_eq r' frame.sessionId frame.generation d' haddr
          rw [← h.session, ← h.sessionRoot] at hfinish
          simp only [finishGeneration_eq r frame.sessionId frame.generation d' haddr, hfinish]
          exact ⟨trivial, h.finished frame.generation recovered⟩

/-- Which error is reported changes neither the answer to an accepted frame nor the receiver
after it. -/
theorem handleFrameWith_agrees (winner : Nat) (r : Receiver) (f : Frame) :
    (r.handleFrameWith winner f).1.toOption = (r.handleFrame f).1.toOption ∧
      (r.handleFrameWith winner f).2 = (r.handleFrame f).2 := by
  cases f with
  | bulk b =>
      obtain ⟨hans, hnext⟩ := r.handleBulkWith_agrees winner b
      simp only [handleFrameWith, Receiver.handleFrame]
      rcases hw : r.handleBulkWith winner b with ⟨e | root, r₁⟩ <;>
        rcases hb : r.handleBulk b with ⟨e' | root', r₁'⟩ <;>
        simp only [hw, hb] at hans hnext <;> cases hans
      · exact ⟨rfl, hnext⟩
      · cases root <;> exact ⟨rfl, hnext⟩
  | _ => exact ⟨rfl, rfl⟩

/-- Frames of the session are answered alike and keep the receivers alike. -/
theorem Alike.handleFrame {f : Frame} (h : Alike f.sessionId r r') (winner : Nat) :
    (r.handleFrameWith winner f).1 = (r'.handleFrameWith winner f).1 ∧
      Alike f.sessionId (r.handleFrameWith winner f).2 (r'.handleFrameWith winner f).2 := by
  cases f with
  | append a =>
      obtain ⟨hans, hnext⟩ := (show Alike a.sessionId r r' from h).handleAppend
      refine ⟨?_, by simpa [handleFrameWith, Frame.sessionId] using hnext⟩
      simp only [handleFrameWith, Receiver.handleFrame]
      rcases hr : r.handleAppend a with ⟨e | ack, r₁⟩ <;>
        rcases hr' : r'.handleAppend a with ⟨e' | ack', r₁'⟩ <;> simp_all
  | resync m =>
      obtain ⟨hans, hnext⟩ := alike_handleResync m h.maps h.compressor
        (congrArg SessionState.decoders h.session)
      refine ⟨?_, by simpa [handleFrameWith, Frame.sessionId] using hnext⟩
      simp only [handleFrameWith, Receiver.handleFrame, ← hans, ← hnext.sessionRoot]
      split_ifs <;> rfl
  | bulk b =>
      obtain ⟨hans, hnext⟩ := (show Alike b.sessionId r r' from h).handleBulkWith winner
      simp only [handleFrameWith]
      rcases hr : r.handleBulkWith winner b with ⟨e | root, r₁⟩ <;>
        rcases hr' : r'.handleBulkWith winner b with ⟨e' | root', r₁'⟩ <;>
        simp only [hr, hr'] at hans hnext <;> cases hans
      · exact ⟨rfl, hnext⟩
      · cases root <;> exact ⟨rfl, hnext⟩
  | ack a => exact ⟨rfl, h⟩
  | missing m => exact ⟨rfl, h⟩

end Step

section Run

variable [Blake3] [Zstd]

/-- The answers to a sequence of frames. When several records of a frame fail, `winners`
says for each frame whose error is reported. -/
def answers (r : Receiver) :
    List Nat → List Frame → List (Except ReceiverError (Option Frame))
  | _, [] => []
  | winners, f :: rest =>
      (r.handleFrameWith (winners.headD 0) f).1 ::
        answers (r.handleFrameWith (winners.headD 0) f).2 winners.tail rest

/-- The accepted answers do not depend on which errors are reported. -/
theorem answers_toOption (r : Receiver) (winners winners' : List Nat) (frames : List Frame) :
    (r.answers winners frames).map Except.toOption =
      (r.answers winners' frames).map Except.toOption := by
  induction frames generalizing r winners winners' with
  | nil => rfl
  | cons f rest ih =>
      obtain ⟨hans, hnext⟩ := r.handleFrameWith_agrees (winners.headD 0) f
      obtain ⟨hans', hnext'⟩ := r.handleFrameWith_agrees (winners'.headD 0) f
      simp only [answers, List.map_cons, hans, hans', hnext, hnext', ih _ winners.tail winners'.tail]

theorem Alike.run {sid : SessionId} {r r' : Receiver} (h : Alike sid r r') {frames : List Frame}
    (hsid : ∀ f ∈ frames, f.sessionId = sid) (winners : List Nat) :
    r.answers winners frames = r'.answers winners frames ∧
      Alike sid (r.handleAll frames) (r'.handleAll frames) := by
  induction frames generalizing r r' winners with
  | nil => exact ⟨rfl, h⟩
  | cons f rest ih =>
      obtain rfl := hsid f List.mem_cons_self
      obtain ⟨hans, hnext⟩ := h.handleFrame (winners.headD 0)
      obtain ⟨hrest, hfinal⟩ := ih hnext (fun g hg => hsid g (List.mem_cons_of_mem _ hg))
        winners.tail
      refine ⟨by rw [answers, answers, hans, hrest], ?_⟩
      rw [(handleFrameWith_agrees _ _ _).2, (handleFrameWith_agrees _ _ _).2] at hfinal
      exact hfinal

end Run

end Receiver

end Dlr
