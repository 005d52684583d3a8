import Dlr.Receiver.TwoRuns
import Dlr.Shim.ColdStart

/-!
# What an abandoned transfer leaves behind

A RESYNC replaces the log, the pending set and the acknowledgement flag of its session,
but not the decoders: generation numbers restart from zero, so a decoder that is still
waiting for symbols of an abandoned transfer takes the symbols of the next one. Without
such a decoder a RESYNC starts from a clean state.
-/

namespace Dlr

open Dlr.Core Coding Compress Lib

namespace SessionShim

variable [Blake3] [Zstd]

/-- Two runs of a receiver lead to the same content store and logs, and neither has an
unfinished decoder for the session. Then the same RESYNC and the same later frames of the
session get the same answers, up to the text of an error where several records fail and each
run may report another one of theirs, and lead to the same log, pending set and reconstruction;
and the transfer of what the RESYNC is missing completes the cold start. -/
theorem resync_starts_clean [FloatChoices] {storeA storeB : ContentStore} (hA : storeA.Opened)
    (hB : storeB.Opened) (c : Compressor) (framesA framesB : List Frame) (sid : SessionId)
    {a b : Receiver} (ha : a = (Receiver.new storeA c).handleAll framesA)
    (hb : b = (Receiver.new storeB c).handleAll framesB) (hmaps : a.store.maps = b.store.maps)
    (hdecA : (a.session sid).decoders = ∅) (hdecB : (b.session sid).decoders = ∅) :
    (∀ (manifest : List BlockId) (root : MerkleRoot) (later : List Frame),
      (∀ f ∈ later, f.sessionId = sid) →
      let frames := .resync ⟨sid, root, manifest⟩ :: later
      (∀ winners, a.answers winners frames = b.answers winners frames) ∧
        (∀ winners winners', (a.answers winners frames).map Except.toOption =
          (b.answers winners' frames).map Except.toOption) ∧
        (a.handleAll frames).store.sessionIds sid = (b.handleAll frames).store.sessionIds sid ∧
        (a.handleAll frames).store.sessionRoot sid = (b.handleAll frames).store.sessionRoot sid ∧
        ((a.handleAll frames).session sid).pending = ((b.handleAll frames).session sid).pending ∧
        (a.handleAll frames).reconstruct sid = (b.handleAll frames).reconstruct sid) ∧
    ∀ r, r = a ∨ r = b → ∀ (F : Type) (shim : SessionShim F) (blocks : List Block)
      (S : Set (List UInt8)) (margin : UInt32), shim.sessionId = sid →
      shim.Transferable c blocks S →
      let resynced := (r.handleResync shim.resyncFrame).2
      ∃ frames, shim.bulkFramesFor (r.handleResync shim.resyncFrame).1 margin = .ok frames ∧
        ∀ run : List Frame, (∀ f ∈ frames, .bulk f ∈ run) →
          (∀ f ∈ run, f.sessionId = sid → ∃ g ∈ frames, f = .bulk g) →
          Receiver.acks sid resynced run =
              (if (r.handleResync shim.resyncFrame).1 = [] then [] else [⟨sid, shim.root⟩]) ∧
            ((resynced.handleAll run).session sid).pending = ∅ ∧
            (resynced.handleAll run).store.sessionRoot sid = shim.root ∧
            ((∀ id x, (resynced.handleAll run).store.get id = some x → canonicalBytes x ∈ S) →
              (resynced.handleAll run).reconstruct sid = blocks) := by
  have hcompA : a.compressor = c := by
    rw [ha, Receiver.handleAll_compressor]
    rfl
  have hcompB : b.compressor = c := by
    rw [hb, Receiver.handleAll_compressor]
    rfl
  have hwfA : a.WellFormed := ha ▸ (Receiver.wellFormed_new hA c).handleAll framesA
  have hwfB : b.WellFormed := hb ▸ (Receiver.wellFormed_new hB c).handleAll framesB
  constructor
  · intro manifest root later hlater frames
    obtain ⟨hmissing, halike⟩ := Receiver.alike_handleResync ⟨sid, root, manifest⟩ hmaps
      (hcompA.trans hcompB.symm) (hdecA.trans hdecB.symm)
    have hfirst : (a.handleFrame (.resync ⟨sid, root, manifest⟩)).1 =
        (b.handleFrame (.resync ⟨sid, root, manifest⟩)).1 := by
      simp only [Receiver.handleFrame, ← hmissing, ← halike.sessionRoot]
      split_ifs <;> rfl
    have hfinal := (halike.run hlater []).2
    have hanswers : ∀ winners, a.answers winners frames = b.answers winners frames := by
      intro winners
      simp only [frames, Receiver.answers, Receiver.handleFrameWith, hfirst,
        Receiver.handleFrame_resync_snd, (halike.run hlater winners.tail).1]
    refine ⟨hanswers, fun winners winners' => ?_, ?_, ?_, ?_, ?_⟩
    · rw [a.answers_toOption winners winners', hanswers]
    · simpa [frames, Receiver.handleAll] using hfinal.sessionIds
    · simpa [frames, Receiver.handleAll] using hfinal.sessionRoot
    · simpa [frames, Receiver.handleAll] using congrArg SessionState.pending hfinal.session
    · simpa [frames, Receiver.handleAll] using hfinal.reconstruct
  · rintro r hr F shim blocks S margin rfl hshim resynced
    obtain ⟨hcomp, hdec, hwf⟩ : r.compressor = c ∧ (r.session shim.sessionId).decoders = ∅ ∧
        r.WellFormed := by
      rcases hr with rfl | rfl
      · exact ⟨hcompA, hdecA, hwfA⟩
      · exact ⟨hcompB, hdecB, hwfB⟩
    obtain ⟨frames, hframes, hrun⟩ := hshim.transfer hcomp hdec margin
    refine ⟨frames, hframes, fun run hcontains honly => ?_⟩
    obtain ⟨hacks, hdone, hempty⟩ := hrun run hcontains honly
    refine ⟨hacks, hempty, hdone.sessionRoot, fun hin => ?_⟩
    exact hshim.reconstructs ((hwf.handleResync _).handleAll run) hdone hempty hin

omit [Blake3] [Zstd] in
/-- One run has taken a generation of nothing but padding before the RESYNC, which marked the
session as acknowledged; the transfer and the next turn are answered as in a fresh run. -/
theorem resync_starts_clean_after_padding :
    letI := prefixHash
    letI := storedZstd
    letI := DedupFilter.exact
    letI := percentChoices
    let block : Block := ⟨.message, 1, [8]⟩
    let shim := (withFilter 5 ContentStore.new Compressor.default ([] : List BlockId)).callAll
      [.ingestTurn [block]]
    let fresh := Receiver.new ContentStore.new Compressor.default
    let padding : Frame := .bulk ⟨5, 0, 1, 1024, [[1, 0, 0, 0, 1] ++ List.replicate 1024 0]⟩
    let transfer := ((shim.bulkFramesFor [block.blockId] 0).toOption.getD []).map Frame.bulk
    let frames := .resync shim.resyncFrame ::
      (transfer ++ [.append (shim.nextTurn [⟨.message, 2, [9]⟩])])
    ((fresh.handleAll []).session 5).acked ≠ ((fresh.handleAll [padding]).session 5).acked ∧
      (∀ winners, (fresh.handleAll []).answers winners frames =
        (fresh.handleAll [padding]).answers winners frames) ∧
      ((fresh.handleAll []).handleAll frames).reconstruct 5 = [block, ⟨.message, 2, [9]⟩] ∧
      ((fresh.handleAll [padding]).handleAll frames).reconstruct 5 =
        [block, ⟨.message, 2, [9]⟩] := by
  let _ := prefixHash
  let _ := storedZstd
  let _ := DedupFilter.exact
  let _ := percentChoices
  intro block shim fresh padding transfer frames
  have hacked : ((fresh.handleAll []).session 5).acked ≠
      ((fresh.handleAll [padding]).session 5).acked := by decide +kernel
  have hdec : ((fresh.handleAll [padding]).session 5).decoders = ∅ := by decide +kernel
  have hmaps : (fresh.handleAll []).store.maps = (fresh.handleAll [padding]).store.maps := by
    apply Maps.ext <;> decide +kernel
  have hlater : ∀ f ∈ transfer ++ [.append (shim.nextTurn [⟨.message, 2, [9]⟩])],
      f.sessionId = 5 := by decide +kernel
  have hfinal : ((fresh.handleAll []).handleAll frames).reconstruct 5 =
      [block, ⟨.message, 2, [9]⟩] := by decide +kernel
  obtain ⟨halike, -⟩ := resync_starts_clean ContentStore.Opened.fresh ContentStore.Opened.fresh
    Compressor.default [] [padding] 5 rfl rfl hmaps rfl hdec
  obtain ⟨hans, -, -, -, -, hrec⟩ := halike shim.ids shim.root _ hlater
  exact ⟨hacked, hans, hfinal, hrec.symm.trans hfinal⟩

omit [Blake3] [Zstd] in
/-- One empty BULK frame, whose decoder waits for two symbols, is the whole difference
between two runs. After the same RESYNC the honest transfer completes in one run and is
swallowed by the leftover decoder in the other, however often it is sent. -/
theorem leftover_decoder_swallows_transfer :
    letI := prefixHash
    letI := storedZstd
    letI := DedupFilter.exact
    letI := percentChoices
    let block : Block := ⟨.message, 1, [8]⟩
    let shim := (withFilter 5 ContentStore.new Compressor.default ([] : List BlockId)).callAll
      [.ingestTurn [block]]
    let clean := Receiver.new ContentStore.new Compressor.default
    let abandoned := clean.handleAll [.bulk ⟨5, 0, 2, 1024, []⟩]
    let transfer := ((shim.bulkFramesFor [block.blockId] 0).toOption.getD []).map Frame.bulk
    let frames := .resync shim.resyncFrame :: (transfer ++ transfer)
    clean.store.maps = abandoned.store.maps ∧
      (clean.handleFrame (.resync shim.resyncFrame)).1 =
        .ok (some (.missing ⟨5, [block.blockId]⟩)) ∧
      (∀ winners winners', clean.answers winners frames ≠ abandoned.answers winners' frames) ∧
      Receiver.acks 5 clean frames = [⟨5, shim.root⟩] ∧ Receiver.acks 5 abandoned frames = [] ∧
      (clean.handleAll frames).reconstruct 5 = [block] ∧
      (abandoned.handleAll frames).reconstruct 5 = [] := by
  let _ := prefixHash
  let _ := storedZstd
  let _ := DedupFilter.exact
  let _ := percentChoices
  intro block shim clean abandoned transfer frames
  have hne : (clean.answers [] frames).map Except.toOption ≠
      (abandoned.answers [] frames).map Except.toOption := by decide +kernel
  refine ⟨rfl, by decide, fun winners winners' heq => ?_, ?_, ?_, ?_, ?_⟩
  · apply hne
    rw [clean.answers_toOption [] winners, heq, abandoned.answers_toOption winners' []]
  · decide +kernel
  · decide +kernel
  · decide +kernel
  · decide +kernel

end SessionShim

end Dlr
