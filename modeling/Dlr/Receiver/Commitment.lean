import Dlr.Receiver.Invariants

/-!
# When the acknowledged root commits to the log

Appending advances the root from the ids it appends, and content storage leaves
it alone. A RESYNC is the one place where a root is taken from the peer: the log
stays committed exactly as long as those roots are.

## Implementation notes

A run mixes frames, flushes and restarts. A restart keeps an arbitrary byte
prefix of the log and rebuilds the receiver from it, so the invariant also
speaks about the records of the log.
-/

namespace Dlr

open Dlr.Core Compress Lib

namespace Core

variable [Blake3]

/-- Every root is the root over its id list. -/
def Maps.Committed (m : Maps) : Prop :=
  ∀ sid, (logOf m.sessions sid).root = rootOver rootZero (logOf m.sessions sid).ids

/-- A seed names the root over its own manifest. -/
def StoreOp.Commits : StoreOp → Prop
  | .seedSession _ ids root => root = rootOver rootZero ids
  | _ => True

def Wal.Record.Commits : Wal.Record → Prop
  | .seed _ ids root => root = rootOver rootZero ids
  | _ => True

theorem pushLog_committed {sessions : FinMap SessionId SessionLog} (sid : SessionId)
    (id : BlockId)
    (h : ∀ s, (logOf sessions s).root = rootOver rootZero (logOf sessions s).ids) (s : SessionId) :
    (logOf (pushLog sessions sid id) s).root =
      rootOver rootZero (logOf (pushLog sessions sid id) s).ids := by
  rw [logOf_pushLog]
  split_ifs
  · rw [h sid, rootOver_concat]
  · exact h s

theorem set_committed {sessions : FinMap SessionId SessionLog} (sid : SessionId)
    {ids : List BlockId} {root : MerkleRoot} (hroot : root = rootOver rootZero ids)
    (h : ∀ s, (logOf sessions s).root = rootOver rootZero (logOf sessions s).ids) (s : SessionId) :
    (logOf (sessions.set sid ⟨ids, root⟩) s).root =
      rootOver rootZero (logOf (sessions.set sid ⟨ids, root⟩) s).ids := by
  rw [logOf_set]
  split_ifs
  · exact hroot
  · exact h s

theorem committed_empty : Maps.empty.Committed := fun sid => by simp [logOf, Maps.empty]

theorem applyRecord_committed {m : Maps} {r : Wal.Record} (hr : r.Commits) (h : m.Committed) :
    (Wal.applyRecord m r).Committed := by
  cases r with
  | insert sid canonical =>
      simp only [Wal.applyRecord]
      split
      · exact pushLog_committed sid _ h
      · exact h
  | reference sid id =>
      simp only [Wal.applyRecord]
      split_ifs
      · exact pushLog_committed sid id h
      · exact h
  | seed sid ids root => exact set_committed sid hr h
  | content sid canonical =>
      simp only [Wal.applyRecord]
      split <;> exact h

theorem foldl_applyRecord_committed {rs : List Wal.Record} (hrs : ∀ r ∈ rs, r.Commits) {m : Maps}
    (h : m.Committed) : (rs.foldl Wal.applyRecord m).Committed := by
  induction rs generalizing m with
  | nil => exact h
  | cons r rest ih =>
      exact ih (fun r hr => hrs r (List.mem_cons_of_mem _ hr))
        (applyRecord_committed (hrs r List.mem_cons_self) h)

theorem perform_committed {st : ContentStore} {op : StoreOp} (hop : op.Commits)
    (h : st.maps.Committed) : (st.perform op).maps.Committed := by
  cases op with
  | insertWithCanonical sid block given =>
      simpa [ContentStore.perform, Maps.Committed] using pushLog_committed sid block.blockId h
  | reference sid id =>
      simp only [ContentStore.perform]
      cases hb : st.blocks.get? id with
      | none =>
          rw [ContentStore.reference_of_absent st sid id hb]
          exact h
      | some b =>
          intro s
          rw [ContentStore.maps_sessions, (ContentStore.reference_of_contains st sid id hb).1]
          exact pushLog_committed sid id h s
  | seedSession sid ids root =>
      simpa [ContentStore.perform, Maps.Committed] using set_committed sid hop h
  | storeContentWithId sid block => simpa [ContentStore.perform, Maps.Committed] using h

theorem performAll_committed {st : ContentStore} {ops : List StoreOp}
    (hops : ∀ op ∈ ops, op.Commits) (h : st.maps.Committed) :
    (st.performAll ops).maps.Committed := by
  induction ops generalizing st with
  | nil => exact h
  | cons op rest ih =>
      exact ih (fun op hop => hops op (List.mem_cons_of_mem _ hop))
        (perform_committed (hops op List.mem_cons_self) h)

theorem loggedRecord_commits {st : ContentStore} {op : StoreOp} (hop : op.Commits) :
    ∀ r ∈ st.loggedRecord op, r.Commits := by
  intro r hr
  cases op with
  | insertWithCanonical sid block given =>
      simp only [ContentStore.loggedRecord] at hr
      split_ifs at hr <;> cases hr <;> trivial
  | reference sid id =>
      simp only [ContentStore.loggedRecord] at hr
      split_ifs at hr
      · cases hr
        trivial
      · cases hr
  | seedSession sid ids root =>
      cases hr
      exact hop
  | storeContentWithId sid block =>
      simp only [ContentStore.loggedRecord] at hr
      split_ifs at hr
      · cases hr
        trivial
      · cases hr

theorem loggedRecords_commits {st : ContentStore} {ops : List StoreOp}
    (hops : ∀ op ∈ ops, op.Commits) : ∀ r ∈ st.loggedRecords ops, r.Commits := by
  induction ops generalizing st with
  | nil => simp [ContentStore.loggedRecords]
  | cons op rest ih =>
      intro r hr
      rcases List.mem_append.mp hr with hr | hr
      · exact loggedRecord_commits (hops op List.mem_cons_self) r (by simpa using hr)
      · exact ih (fun op hop => hops op (List.mem_cons_of_mem _ hop)) r hr

/-- The store commits, and so does everything its log can be replayed to. -/
structure ContentStore.CommittedWithLog (st : ContentStore) : Prop where
  maps : st.maps.Committed
  log : st.wal.isSome → st.walError = none → ∃ rs, st.Logged rs ∧ ∀ r ∈ rs, r.Commits

theorem ContentStore.CommittedWithLog.performAll {st : ContentStore} (h : st.CommittedWithLog)
    {ops : List StoreOp} (hops : ∀ op ∈ ops, op.Commits) :
    (st.performAll ops).CommittedWithLog := by
  refine ⟨performAll_committed hops h.maps, fun hw herr => ?_⟩
  rw [ContentStore.performAll_isSome] at hw
  obtain ⟨rs, hlog, hrs⟩ := h.log hw (ContentStore.performAll_walError ops hw herr)
  refine ⟨_, hlog.performAll ops herr, fun r hr => ?_⟩
  rcases List.mem_append.mp hr with hr | hr
  · exact hrs r hr
  · exact loggedRecords_commits hops r hr

/-- A flush changes neither the maps nor the bytes of the log. -/
theorem ContentStore.CommittedWithLog.flushWal {st : ContentStore} (h : st.CommittedWithLog)
    (sync : Bool) : (st.flushWal sync).2.CommittedWithLog := by
  unfold ContentStore.flushWal
  split
  · exact h
  · rename_i herr
    split
    · exact h
    · rename_i w hw
      have hbytes : (w.flush sync).2.bytes = w.bytes := by
        unfold Wal.flush
        split <;> rfl
      split
      · rename_i w' hflush
        rw [hflush] at hbytes
        refine ⟨h.maps, fun _ _ => ?_⟩
        obtain ⟨rs, hlog, hrs⟩ := h.log (by simp [hw]) herr
        refine ⟨rs, ⟨rfl, ?_, hlog.valid, hlog.maps⟩, hrs⟩
        rw [← hlog.bytes]
        simpa [ContentStore.walBytes, hw] using hbytes
      · exact ⟨h.maps, fun _ hlatched => by simp [ContentStore.latchWalError] at hlatched⟩

/-- Reopening any byte prefix of a sound log gives a committed store. -/
theorem ContentStore.CommittedWithLog.withWal {st st' : ContentStore} (h : st.CommittedWithLog)
    {w : Wal} (hw : st.wal = some w) (herr : st.walError = none) {cut : Nat}
    {writes : List (Option (Nat × IoError))} {flushes : List (Option IoError)}
    (hopen : ContentStore.withWal (w.bytes.take cut) writes flushes = .ok st') :
    st'.CommittedWithLog := by
  obtain ⟨rs, hlog, hrs⟩ := h.log (by simp [hw]) herr
  have hbytes : w.bytes = rs.flatMap Wal.Record.encode := by
    simpa [ContentStore.walBytes, hw] using hlog.bytes
  rw [hbytes] at hopen
  obtain ⟨whole, later, -, hsplit, -, -, -, -, hreopen⟩ :=
    ContentStore.withWal_cut hlog.valid (List.take_prefix cut (rs.flatMap Wal.Record.encode))
  obtain ⟨st₁, hst₁, hlogged⟩ := hreopen writes flushes
  cases hopen.symm.trans hst₁
  have hwhole : ∀ r ∈ whole, r.Commits := fun r hr => hrs r (by simp [hsplit, hr])
  refine ⟨?_, fun _ _ => ⟨whole, hlogged, hwhole⟩⟩
  rw [hlogged.maps]
  exact foldl_applyRecord_committed hwhole committed_empty

end Core

namespace Receiver

variable [Blake3] [Zstd]

/-- The steps of a deployed receiver. A restart keeps a byte prefix of the log and
fixes the outcomes of the writes and flushes that follow. -/
inductive Action
  | frame (f : Frame)
  | flush (sync : Bool)
  | restart (cut : Nat) (writes : List (Option (Nat × IoError))) (flushes : List (Option IoError))

/-- One step; a restart fails when the log cannot be opened. -/
def act (r : Receiver) : Action → Except IoError Receiver
  | .frame f => .ok (r.handleFrame f).2
  | .flush sync => .ok { r with store := (r.store.flushWal sync).2 }
  | .restart cut writes flushes =>
      match r.store.wal with
      | none => .ok (Receiver.new ContentStore.new r.compressor)
      | some w =>
          (ContentStore.withWal (w.bytes.take cut) writes flushes).map
            fun store => Receiver.new store r.compressor

/-- The receivers reached by runs all of whose steps satisfy `P`, from an empty store
with or without a log. -/
inductive Reaches (P : Receiver → Action → Prop) : Receiver → Prop
  | volatile (c : Compressor) : Reaches P (Receiver.new ContentStore.new c)
  | durable {writes : List (Option (Nat × IoError))} {flushes : List (Option IoError)}
      {store : ContentStore} (h : ContentStore.withWal [] writes flushes = .ok store)
      (c : Compressor) : Reaches P (Receiver.new store c)
  | step {r r' : Receiver} {a : Action} (hr : Reaches P r) (ha : P r a) (h : r.act a = .ok r') :
      Reaches P r'

/-- A step that keeps roots committed: a RESYNC states the root over its manifest, and
a restart reopens a log none of whose appends failed. -/
def StepCommits (r : Receiver) : Action → Prop
  | .frame (.resync m) => m.clientRoot = rootOver rootZero m.manifest
  | .frame _ => True
  | .flush _ => True
  | .restart _ _ _ => r.store.walError = none

/-- A frame whose root is honest performs committing operations only. -/
theorem handleFrame_commits (r : Receiver) {f : Frame} (hf : r.StepCommits (.frame f)) :
    ∃ ops, Affects r (r.handleFrame f).2 f.sessionId ops ∧ ∀ op ∈ ops, op.Commits := by
  obtain ⟨ops, haff, hseed⟩ := r.handleFrame_affects f
  refine ⟨ops, haff, ?_⟩
  intro op hop
  cases op with
  | seedSession sid ids root =>
      obtain ⟨m, rfl, rfl, rfl⟩ := hseed sid ids root hop
      exact hf
  | insertWithCanonical sid block given => trivial
  | reference sid id => trivial
  | storeContentWithId sid block => trivial

/-- A restart opens a fresh store, or what is left of the log. -/
theorem act_restart {r r' : Receiver} {cut : Nat} {writes : List (Option (Nat × IoError))}
    {flushes : List (Option IoError)} (h : r.act (.restart cut writes flushes) = .ok r') :
    ∃ store, r' = Receiver.new store r.compressor ∧
      (store = ContentStore.new ∨ ∃ w, r.store.wal = some w ∧
        ContentStore.withWal (w.bytes.take cut) writes flushes = .ok store) := by
  simp only [act] at h
  split at h
  · cases h
    exact ⟨_, rfl, Or.inl rfl⟩
  · rename_i w hw
    cases hopen : ContentStore.withWal (w.bytes.take cut) writes flushes with
    | error e =>
        rw [hopen] at h
        cases h
    | ok store =>
        rw [hopen] at h
        cases h
        exact ⟨store, rfl, Or.inr ⟨w, hw, hopen⟩⟩

theorem act_committed {r r' : Receiver} {a : Action} (h : r.store.CommittedWithLog)
    (ha : r.StepCommits a) (hact : r.act a = .ok r') : r'.store.CommittedWithLog := by
  cases a with
  | frame f =>
      cases hact
      obtain ⟨ops, haff, hops⟩ := r.handleFrame_commits ha
      rw [haff.store]
      exact h.performAll hops
  | flush sync =>
      cases hact
      exact h.flushWal sync
  | restart cut writes flushes =>
      obtain ⟨store, rfl, rfl | ⟨w, hw, hopen⟩⟩ := act_restart hact
      · exact ⟨committed_empty, fun hw => by simp [Receiver.new, ContentStore.new] at hw⟩
      · exact h.withWal hw ha hopen

/-- Every receiver that a run reaches is well formed. -/
theorem Reaches.wellFormed {P : Receiver → Action → Prop} {r : Receiver} (h : Reaches P r) :
    r.WellFormed := by
  induction h with
  | volatile c => exact wellFormed_new .fresh c
  | durable hopen c => exact wellFormed_new (.replayed hopen) c
  | @step r r' a _ _ hact ih =>
      cases a with
      | frame f =>
          cases hact
          exact ih.handleFrame f
      | flush sync =>
          cases hact
          exact ih.flush sync
      | restart cut writes flushes =>
          obtain ⟨store, rfl, rfl | ⟨w, -, hopen⟩⟩ := act_restart hact
          · exact wellFormed_new .fresh _
          · exact wellFormed_new (.replayed hopen) _

theorem Reaches.committedWithLog {r : Receiver} (h : Reaches StepCommits r) :
    r.store.CommittedWithLog := by
  induction h with
  | volatile c =>
      exact ⟨committed_empty, fun hw => by simp [Receiver.new, ContentStore.new] at hw⟩
  | durable hopen c =>
      obtain ⟨hlog, -⟩ := ContentStore.withWal_nil hopen
      refine ⟨?_, fun _ _ => ⟨[], hlog, by simp⟩⟩
      simp only [Receiver.new]
      rw [hlog.maps]
      exact committed_empty
  | step _ ha hact ih => exact act_committed ih ha hact

/-- In every run whose RESYNC frames state the root over their manifest, every session
root is the root over the session's ids, also across restarts. -/
theorem root_commits_of_committed_resyncs {r : Receiver} (h : Reaches StepCommits r)
    (sid : SessionId) :
    r.store.sessionRoot sid = rootOver rootZero (r.store.sessionIds sid) :=
  h.committedWithLog.maps sid

omit [Blake3] [Zstd] in
/-- A RESYNC of one block with its true root on a durable receiver. -/
theorem root_commits_after_resync :
    letI := prefixHash
    letI := storedZstd
    let id : BlockId := Block.blockId ⟨.message, 1, [7]⟩
    let opened : ContentStore := { ContentStore.new with wal := some ⟨[], 0, [], []⟩ }
    let r := ((Receiver.new opened Compressor.default).handleFrame
      (.resync ⟨5, rootOver rootZero [id], [id]⟩)).2
    r.store.sessionIds 5 = [id] ∧ r.store.sessionRoot 5 = rootOver rootZero [id] := by
  let _ := prefixHash
  let _ := storedZstd
  intro id opened r
  have hopen : ContentStore.withWal [] [] [] = .ok opened := by
    rw [ContentStore.withWal, Wal.replay, Wal.replayFrom_nil]
    rfl
  have hreach : Reaches StepCommits r :=
    Reaches.step (a := .frame (.resync ⟨5, rootOver rootZero [id], [id]⟩))
      (Reaches.durable hopen Compressor.default)
      (rfl : rootOver rootZero [id] = rootOver rootZero [id]) rfl
  have hids : r.store.sessionIds 5 = [id] := by decide
  exact ⟨hids, hids ▸ root_commits_of_committed_resyncs hreach 5⟩

omit [Blake3] [Zstd] in
/-- A RESYNC with an empty manifest and a nonzero root makes the receiver acknowledge a
root that commits to no log. -/
theorem resync_root_not_committed :
    letI := prefixHash
    letI := storedZstd
    ¬ ∀ r, Reaches (fun _ _ => True) r →
      ∀ sid, r.store.sessionRoot sid = rootOver rootZero (r.store.sessionIds sid) := by
  let _ := prefixHash
  let _ := storedZstd
  intro hall
  have hreach := Reaches.step (P := fun _ _ => True)
    (a := .frame (.resync ⟨5, ⟨List.replicate 32 1, by simp⟩, []⟩))
    (Reaches.volatile Compressor.default) trivial rfl
  exact absurd (hall _ hreach 5) (by decide)

end Receiver

end Dlr
