import Dlr.Core.FrameCodec
import Dlr.Core.Recovery
import Dlr.Receiver.Steps

/-!
# Which frames keep the log writable

The store latches its first failed append, and every later flush reports it. On a
device that never fails, an append fails only when its record is above the record
limit. That limit is below the block limit and below the manifest limit of the wire, so
there are frames the receiver accepts whose record the log refuses.

## Implementation notes

A run mixes frames and flushes. The condition on a frame is about what it carries and
the store it meets: its manifest, and those of its blocks that are not stored yet.
-/

namespace Dlr

open Dlr.Core Coding Compress Lib

/-- The block that an entry carries. -/
def Resolved.block : Resolved → Option Block
  | inline _ block => some block
  | ref _ => none

namespace Core

/-- No write and no flush of the device fails. -/
def Wal.Healthy (w : Wal) : Prop := (∀ o ∈ w.writes, o = none) ∧ ∀ o ∈ w.flushes, o = none

/-- The record is within the size limit of the log. -/
def Wal.Record.Fits (r : Wal.Record) : Prop := r.payload.length ≤ Wal.maxRecordBytes

namespace Wal

theorem Healthy.writeParts {w : Wal} (h : w.Healthy) (parts : List (List UInt8)) :
    (writeParts parts w).1 = .ok () ∧ (writeParts parts w).2.Healthy := by
  induction parts generalizing w with
  | nil => exact ⟨rfl, h⟩
  | cons part rest ih =>
      have hstep : ∃ w', w.writeAll part = (.ok (), w') ∧ w'.Healthy := by
        unfold writeAll
        cases hw : w.writes with
        | nil => exact ⟨_, rfl, by simpa [Healthy, hw] using h.2⟩
        | cons o os =>
            have hos : ∀ x ∈ o :: os, x = none := hw ▸ h.1
            obtain rfl := hos o List.mem_cons_self
            exact ⟨_, rfl, fun x hx => hos x (List.mem_cons_of_mem _ hx), h.2⟩
      obtain ⟨w', hw', hhealthy⟩ := hstep
      simp only [Wal.writeParts, hw']
      exact ih hhealthy

/-- On a healthy device an append fails exactly when its record is too large. -/
theorem Healthy.append {w : Wal} (h : w.Healthy) (r : Record) :
    ((w.append r).1 = .ok () ↔ r.Fits) ∧ (w.append r).2.Healthy := by
  by_cases hfits : r.Fits
  · rw [append_of_fits w hfits]
    obtain ⟨hok, hhealthy⟩ := h.writeParts r.parts
    exact ⟨⟨fun _ => hfits, fun _ => hok⟩, hhealthy⟩
  · obtain ⟨message, hrefused⟩ := append_of_oversized w (Nat.lt_of_not_le hfits)
    rw [hrefused]
    refine ⟨⟨fun hok => ?_, fun hf => absurd hf hfits⟩, h⟩
    cases hok

theorem Healthy.flush {w : Wal} (h : w.Healthy) (sync : Bool) :
    (w.flush sync).1 = .ok () ∧ (w.flush sync).2.Healthy := by
  unfold Wal.flush
  cases hw : w.flushes with
  | nil => exact ⟨rfl, by simpa [Healthy, hw] using h.1⟩
  | cons o os =>
      have hos : ∀ x ∈ o :: os, x = none := hw ▸ h.2
      obtain rfl := hos o List.mem_cons_self
      exact ⟨rfl, h.1, fun x hx => hos x (List.mem_cons_of_mem _ hx)⟩

end Wal

/-- Replaying a record performs one operation or none. -/
theorem Wal.replayRecord_performs [Blake3] (st : ContentStore) (sid : SessionId)
    (variant : UInt8) (payload : List UInt8) :
    replayRecord st sid variant payload = st ∨
      ∃ op, replayRecord st sid variant payload = st.perform op := by
  unfold replayRecord
  split_ifs with h₁ h₂ h₃ h₄ h₅ h₆
  · cases fromCanonical payload with
    | error e => exact Or.inl rfl
    | ok block => exact Or.inr ⟨.insertWithCanonical sid block false, rfl⟩
  · exact Or.inr ⟨.reference sid (Digest.ofSlice payload), rfl⟩
  · exact Or.inl rfl
  · simp only
    split_ifs
    · exact Or.inr ⟨.seedSession sid _ _, rfl⟩
    · exact Or.inl rfl
  · exact Or.inl rfl
  · cases fromCanonical payload with
    | error e => exact Or.inl rfl
    | ok block => exact Or.inr ⟨.storeContentWithId sid block, rfl⟩
  · exact Or.inl rfl

namespace ContentStore

/-- A log on a healthy device is attached. -/
def Healthy (st : ContentStore) : Prop := ∃ w, st.wal = some w ∧ w.Healthy

theorem Healthy.logWal {st : ContentStore} (h : st.Healthy) (r : Wal.Record) :
    ((st.logWal (·.append r)).walError = none ↔ st.walError = none ∧ r.Fits) ∧
      (st.logWal (·.append r)).Healthy := by
  obtain ⟨w, hw, hhealthy⟩ := h
  obtain ⟨hiff, hafter⟩ := hhealthy.append r
  refine ⟨⟨fun hok => ?_, fun ⟨hnone, hfits⟩ => ?_⟩, ?_⟩
  · obtain ⟨hnone, hres⟩ := logWal_walError st (·.append r) hok
    exact ⟨hnone, hiff.mp (hres w hw)⟩
  · simp only [ContentStore.logWal, hw, hiff.mpr hfits, recordWalResult]
    exact hnone
  · exact ⟨(w.append r).2, by simp [logWal_wal, hw], hafter⟩

/-- A flush on a healthy device fails exactly when an error is latched. -/
theorem Healthy.flushWal {st : ContentStore} (h : st.Healthy) (sync : Bool) :
    ((st.flushWal sync).1 = .ok () ↔ st.walError = none) ∧ (st.flushWal sync).2.Healthy ∧
      (st.flushWal sync).2.walError = st.walError := by
  obtain ⟨w, hw, hhealthy⟩ := h
  obtain ⟨hok, hafter⟩ := hhealthy.flush sync
  unfold ContentStore.flushWal
  cases herr : st.walError with
  | some e =>
      refine ⟨⟨fun h => ?_, fun h => ?_⟩, ⟨w, hw, hhealthy⟩, herr⟩
      · cases h
      · cases h
  | none =>
      cases hflush : w.flush sync with
      | mk result w' =>
          rw [hflush] at hok hafter
          cases hok
          simp only [hw, hflush]
          exact ⟨trivial, ⟨w', rfl, hafter⟩, trivial⟩

variable [Blake3]

omit [Blake3] in
/-- Without a log an operation latches nothing. -/
theorem logWal_of_none {st : ContentStore} (h : st.wal = none)
    (append : Wal → Except IoError Unit × Wal) : st.logWal append = st := by
  simp only [ContentStore.logWal, h]

/-- An operation on a store without a log leaves the latch alone. -/
theorem perform_volatile {st : ContentStore} (h : st.wal = none) (op : StoreOp) :
    (st.perform op).wal = none ∧ (st.perform op).walError = st.walError := by
  obtain ⟨st₁, hwal, herr, heq, -⟩ := st.perform_logs op
  have hnone : st₁.wal = none := hwal.trans h
  rw [heq]
  cases st.loggedRecord op with
  | none => exact ⟨hnone, herr⟩
  | some r =>
      rw [logRecord, logWal_of_none hnone]
      exact ⟨hnone, herr⟩

/-- Replay runs without a log, so an opened store starts with an empty latch. -/
theorem withWal_healthy {file : List UInt8} {writes : List (Option (Nat × IoError))}
    {flushes : List (Option IoError)} {st : ContentStore}
    (h : withWal file writes flushes = .ok st) (hwrites : ∀ o ∈ writes, o = none)
    (hflushes : ∀ o ∈ flushes, o = none) : st.Healthy ∧ st.walError = none := by
  unfold withWal at h
  cases hrun : Wal.replay file new with
  | error e => simp [hrun] at h
  | ok result =>
      simp only [hrun] at h
      cases h
      refine ⟨⟨_, rfl, hwrites, hflushes⟩, ?_⟩
      have hvolatile := Wal.replayFrom_preserves (P := fun st => st.wal = none ∧ st.walError = none)
        (fun st sid variant payload hst => ?_) hrun ⟨rfl, rfl⟩
      · exact hvolatile.2
      · obtain ⟨hwal, herr⟩ := hst
        have hop : ∀ op, (st.perform op).wal = none ∧ (st.perform op).walError = none := by
          intro op
          obtain ⟨hwal', herr'⟩ := perform_volatile hwal op
          exact ⟨hwal', herr'.trans herr⟩
        rcases Wal.replayRecord_performs st sid variant payload with hsame | ⟨op, hop'⟩
        · rw [hsame]
          exact ⟨hwal, herr⟩
        · rw [hop']
          exact hop op

/-- A run of operations latches nothing exactly when all its records fit. -/
theorem Healthy.performAll {st : ContentStore} (h : st.Healthy) (ops : List StoreOp) :
    ((st.performAll ops).walError = none ↔
        st.walError = none ∧ ∀ r ∈ st.loggedRecords ops, r.Fits) ∧
      (st.performAll ops).Healthy := by
  induction ops generalizing st with
  | nil => exact ⟨by simp [loggedRecords], h⟩
  | cons op rest ih =>
      have hstep : ((st.perform op).walError = none ↔
          st.walError = none ∧ ∀ r ∈ st.loggedRecord op, r.Fits) ∧ (st.perform op).Healthy := by
        obtain ⟨st₁, hwal, herr, heq, -⟩ := st.perform_logs op
        obtain ⟨w, hw, hhealthy⟩ := h
        have h₁ : st₁.Healthy := ⟨w, hwal.trans hw, hhealthy⟩
        rw [heq]
        cases st.loggedRecord op with
        | none => exact ⟨by simp [logRecord, herr], h₁⟩
        | some r =>
            obtain ⟨hiff, hafter⟩ := h₁.logWal r
            exact ⟨by simpa [logRecord, herr] using hiff, hafter⟩
      obtain ⟨hiff, hafter⟩ := ih hstep.2
      refine ⟨?_, hafter⟩
      rw [performAll_cons, hiff, hstep.1]
      simp [loggedRecords, or_imp, forall_and, and_assoc]

/-- Every block that is not stored yet is within the record limit, in the order in which
the blocks are stored. -/
def NewFit (blocks : FinMap BlockId Block) : List Block → Prop
  | [] => True
  | b :: rest =>
      ((blocks.get? b.blockId).isSome ∨ (canonicalBytes b).length ≤ Wal.maxRecordBytes) ∧
        NewFit (putBlock blocks b.blockId b) rest

omit [Blake3] in
theorem fits_reference (sid : SessionId) (id : BlockId) : (Wal.Record.reference sid id).Fits := by
  simp [Wal.Record.Fits, Wal.Record.payload, id.size, Wal.maxRecordBytes]

theorem loggedRecords_content_fit (sid : SessionId) (blocks : List (Block × BlockId))
    (st : ContentStore) :
    (∀ r ∈ st.loggedRecords (Receiver.contentOps sid blocks), r.Fits) ↔
      NewFit st.blocks (blocks.map Prod.fst) := by
  induction blocks generalizing st with
  | nil => simp [Receiver.contentOps, loggedRecords, NewFit]
  | cons b rest ih =>
      have hrest := ih (st.perform (.storeContentWithId sid b.1))
      have hblocks : (st.perform (.storeContentWithId sid b.1)).blocks =
          putBlock st.blocks b.1.blockId b.1 := storeContentWithId_blocks _ _ _ _
      rw [hblocks] at hrest
      simp only [Receiver.contentOps, List.map_cons, loggedRecords, NewFit] at hrest ⊢
      rw [← hrest]
      simp only [List.mem_append, or_imp, forall_and]
      refine and_congr_left fun _ => ?_
      cases hg : st.blocks.get? b.1.blockId with
      | none => simp [loggedRecord, hg, Wal.Record.Fits, Wal.Record.payload]
      | some c => simp [loggedRecord, hg]

theorem loggedRecords_append_fit (sid : SessionId) (resolved : List Resolved)
    (st : ContentStore) :
    (∀ r ∈ st.loggedRecords (resolved.map (Resolved.op sid)), r.Fits) ↔
      NewFit st.blocks (resolved.filterMap Resolved.block) := by
  induction resolved generalizing st with
  | nil => simp [loggedRecords, NewFit]
  | cons item rest ih =>
      have hrest := ih (st.perform (item.op sid))
      rw [List.map_cons, loggedRecords]
      simp only [List.mem_append, or_imp, forall_and, hrest]
      cases item with
      | ref id =>
          have hblocks : (st.perform (.reference sid id)).blocks = st.blocks :=
            reference_blocks _ _ _
          have hone : ∀ r ∈ (st.loggedRecord (.reference sid id)).toList, r.Fits := by
            intro r hr
            simp only [loggedRecord] at hr
            split_ifs at hr
            · cases List.mem_singleton.mp hr
              exact fits_reference sid id
            · cases hr
          simp only [Resolved.op, hblocks, Resolved.block, List.filterMap_cons]
          exact and_iff_right hone
      | inline id block =>
          have hblocks : (st.perform (.insertWithCanonical sid block false)).blocks =
              putBlock st.blocks block.blockId block := insertWithCanonical_blocks _ _ _ _ _
          simp only [Resolved.op, hblocks, Resolved.block, List.filterMap_cons, NewFit]
          refine and_congr_left fun _ => ?_
          cases hg : st.blocks.get? block.blockId with
          | none => simp [loggedRecord, hg, Wal.Record.Fits, Wal.Record.payload]
          | some c => simp [loggedRecord, hg, fits_reference]

end ContentStore

end Core

namespace Receiver

variable [Blake3] [Zstd]

/-- The blocks a frame brings into the store, in order: the inline blocks of an APPEND
that extends its log, or the generation that a BULK completes. -/
def brings (r : Receiver) : Frame → List Block
  | .append f =>
      match f.blocks.mapM (resolveBlock r.compressor) with
      | .error _ => []
      | .ok resolved =>
          if refsAvailable r.store [] resolved ∧ (r.session f.sessionId).pending = ∅ ∧
              f.baseRoot = r.store.sessionRoot f.sessionId then
            resolved.filterMap Resolved.block
          else []
  | .bulk f =>
      match (r.decodeGeneration f).2 with
      | .storing _ recovered => recovered.map Prod.fst
      | _ => []
  | _ => []

/-- The log takes every record of the frame: its manifest is below the record limit, and
so is each of its blocks that is not stored yet. -/
def FitsLog (r : Receiver) (f : Frame) : Prop :=
  (∀ m, f = .resync m → m.manifest.length * 32 + 36 ≤ Wal.maxRecordBytes) ∧
    ContentStore.NewFit r.store.blocks (r.brings f)

theorem handleAppend_logs (r : Receiver) (f : AppendFrame) :
    ∃ ops, (r.handleAppend f).2.store = r.store.performAll ops ∧
      ((∀ rec ∈ r.store.loggedRecords ops, rec.Fits) ↔
        ContentStore.NewFit r.store.blocks (r.brings (.append f))) := by
  have hnone : ∀ {b : List Block}, b = [] → ∃ ops, r.store = r.store.performAll ops ∧
      ((∀ rec ∈ r.store.loggedRecords ops, rec.Fits) ↔ ContentStore.NewFit r.store.blocks b) := by
    rintro b rfl
    exact ⟨[], rfl, by simp [ContentStore.loggedRecords, ContentStore.NewFit]⟩
  unfold handleAppend
  simp only [brings]
  cases hres : f.blocks.mapM (resolveBlock r.compressor) with
  | error e => exact hnone rfl
  | ok resolved =>
      simp only
      by_cases havail : refsAvailable r.store [] resolved = true
      · rw [if_pos havail, appendResolved_eq r f (resolve_addressed hres) havail]
        by_cases hpend : (r.session f.sessionId).pending = ∅
        · by_cases hbase : f.baseRoot = r.store.sessionRoot f.sessionId
          · rw [if_neg (by simpa using hpend), if_neg (by simpa using hbase),
              if_pos ⟨havail, hpend, hbase⟩]
            exact ⟨_, rfl, ContentStore.loggedRecords_append_fit _ _ _⟩
          · have hbrings : ¬ (refsAvailable r.store [] resolved = true ∧
                (r.session f.sessionId).pending = ∅ ∧
                f.baseRoot = r.store.sessionRoot f.sessionId) := fun h => hbase h.2.2
            rw [if_neg (by simpa using hpend), if_pos hbase, if_neg hbrings]
            split_ifs <;> exact hnone rfl
        · rw [if_pos hpend, if_neg fun h => hpend h.2.1]
          exact hnone rfl
      · rw [if_neg havail, if_neg fun h => havail h.1]
        exact hnone rfl

theorem handleBulk_logs (r : Receiver) (f : BulkFrame) :
    ∃ ops, (r.handleBulk f).2.store = r.store.performAll ops ∧
      ((∀ rec ∈ r.store.loggedRecords ops, rec.Fits) ↔
        ContentStore.NewFit r.store.blocks (r.brings (.bulk f))) := by
  have hnone : ∃ ops, r.store = r.store.performAll ops ∧
      ((∀ rec ∈ r.store.loggedRecords ops, rec.Fits) ↔
        ContentStore.NewFit r.store.blocks []) :=
    ⟨[], rfl, by simp [ContentStore.loggedRecords, ContentStore.NewFit]⟩
  simp only [handleBulk, handleBulkWith, recoverRecords_zero, brings, decodeGeneration]
  rw [← decoderOf]
  rcases (r.decoderOf f).addAll f.symbols with ⟨e | u, d⟩
  · exact hnone
  · simp only
    rcases d.decode with ⟨e | symbols, d⟩
    · cases e <;> exact hnone
    · simp only
      cases hrec : (parseRecords symbols.flatten).mapM (recoverBlock r.compressor) with
      | error e => exact hnone
      | ok recovered =>
          have haddr : ∀ b ∈ recovered, b.2 = b.1.blockId := recovered_addressed hrec
          refine ⟨contentOps f.sessionId recovered, ?_,
            ContentStore.loggedRecords_content_fit _ _ _⟩
          simp only
          rw [finishGeneration_eq r _ _ _ haddr]
          rfl

/-- A frame performs operations whose records all fit exactly when the frame fits. -/
theorem handleFrame_logs (r : Receiver) (f : Frame) :
    ∃ ops, (r.handleFrame f).2.store = r.store.performAll ops ∧
      ((∀ rec ∈ r.store.loggedRecords ops, rec.Fits) ↔ r.FitsLog f) := by
  cases f with
  | append a =>
      obtain ⟨ops, hstore, hfit⟩ := r.handleAppend_logs a
      exact ⟨ops, by simpa using hstore, by simpa [FitsLog] using hfit⟩
  | bulk b =>
      obtain ⟨ops, hstore, hfit⟩ := r.handleBulk_logs b
      exact ⟨ops, by simpa using hstore, by simpa [FitsLog] using hfit⟩
  | resync m =>
      refine ⟨[.seedSession m.sessionId m.manifest m.clientRoot], ?_, ?_⟩
      · rw [handleFrame_resync_snd]
        rfl
      · simp [FitsLog, brings, ContentStore.NewFit, ContentStore.loggedRecords,
          ContentStore.loggedRecord, Wal.Record.Fits, Wal.length_seed_payload]
  | ack a =>
      exact ⟨[], rfl, by simp [FitsLog, brings, ContentStore.NewFit, ContentStore.loggedRecords]⟩
  | missing m =>
      exact ⟨[], rfl, by simp [FitsLog, brings, ContentStore.NewFit, ContentStore.loggedRecords]⟩

/-- What happens at a receiver between two flush results. -/
inductive LogEvent
  | frame (f : Frame)
  | flush (sync : Bool)

def event (r : Receiver) : LogEvent → Receiver
  | .frame f => (r.handleFrame f).2
  | .flush sync => { r with store := (r.store.flushWal sync).2 }

def events (r : Receiver) (es : List LogEvent) : Receiver := es.foldl event r

/-- Every frame of the run fits the log when it is handled. -/
def AllFit (r : Receiver) : List LogEvent → Prop
  | [] => True
  | .frame f :: rest => r.FitsLog f ∧ (r.event (.frame f)).AllFit rest
  | .flush sync :: rest => (r.event (.flush sync)).AllFit rest

/-- A run on a healthy device latches an error exactly when one of its frames does not
fit. -/
theorem events_walError (r : Receiver) (h : r.store.Healthy) (es : List LogEvent) :
    ((r.events es).store.walError = none ↔ r.store.walError = none ∧ r.AllFit es) ∧
      (r.events es).store.Healthy := by
  induction es generalizing r with
  | nil => exact ⟨by simp [events, AllFit], h⟩
  | cons e rest ih =>
      cases e with
      | frame f =>
          obtain ⟨ops, hstore, hfit⟩ := r.handleFrame_logs f
          obtain ⟨hiff, hhealthy⟩ := h.performAll ops
          rw [← hstore] at hiff hhealthy
          obtain ⟨hrest, hafter⟩ := ih (r.event (.frame f)) hhealthy
          refine ⟨?_, hafter⟩
          have hevents : r.events (.frame f :: rest) = (r.event (.frame f)).events rest := rfl
          rw [hevents, hrest, AllFit, ← and_assoc]
          exact and_congr_left fun _ => by rw [← hfit]; exact hiff
      | flush sync =>
          obtain ⟨-, hhealthy, herr⟩ := h.flushWal sync
          obtain ⟨hrest, hafter⟩ := ih (r.event (.flush sync)) hhealthy
          refine ⟨?_, hafter⟩
          have hevents : r.events (.flush sync :: rest) = (r.event (.flush sync)).events rest := rfl
          rw [hevents, hrest, AllFit]
          exact and_congr_left fun _ => by
            rw [event]
            exact iff_of_eq (congrArg (· = none) herr)

/-- For every run on a device that never fails, from a log file with any content: a
later flush succeeds exactly when every frame of the run fits the log. -/
theorem flush_ok_iff_frames_fit {file : List UInt8} {writes : List (Option (Nat × IoError))}
    {flushes : List (Option IoError)} {store : ContentStore}
    (hopen : ContentStore.withWal file writes flushes = .ok store)
    (hwrites : ∀ o ∈ writes, o = none) (hflushes : ∀ o ∈ flushes, o = none) (c : Compressor)
    (es : List LogEvent) (sync : Bool) :
    (((Receiver.new store c).events es).store.flushWal sync).1 = .ok () ↔
      (Receiver.new store c).AllFit es := by
  obtain ⟨hhealthy, hnone⟩ := ContentStore.withWal_healthy hopen hwrites hflushes
  obtain ⟨hiff, hafter⟩ := events_walError (Receiver.new store c) hhealthy es
  rw [(hafter.flushWal sync).1, hiff]
  exact and_iff_right hnone

omit [Blake3] [Zstd] in
/-- A RESYNC of one id and a flush on a fresh log. -/
theorem flush_ok_iff_frames_fit_resync :
    letI := prefixHash
    letI := storedZstd
    let opened : ContentStore := { ContentStore.new with wal := some ⟨[], 0, [], []⟩ }
    let es : List LogEvent := [.frame (.resync ⟨5, rootZero, [rootZero]⟩), .flush true]
    (((Receiver.new opened Compressor.default).events es).store.flushWal true).1 = .ok () ↔
      (Receiver.new opened Compressor.default).AllFit es := by
  let _ := prefixHash
  let _ := storedZstd
  intro opened es
  have hopen : ContentStore.withWal [] [] [] = .ok opened := by
    rw [ContentStore.withWal, Wal.replay, Wal.replayFrom_nil]
    rfl
  exact flush_ok_iff_frames_fit hopen (by simp) (by simp) Compressor.default es true

omit [Blake3] [Zstd] in
/-- A RESYNC whose manifest has as many ids as the codec admits is refused by the log, and
from then on every flush fails. -/
theorem largest_manifest_disables_flush :
    letI := prefixHash
    letI := storedZstd
    ¬ ∀ (store : ContentStore) (c : Compressor) (es : List LogEvent) (sync : Bool),
      ContentStore.withWal [] [] [] = .ok store →
      (∀ f, .frame f ∈ es → f.WithinLimits) →
      (((Receiver.new store c).events es).store.flushWal sync).1 = .ok () := by
  let _ := prefixHash
  let _ := storedZstd
  intro hall
  let opened : ContentStore := { ContentStore.new with wal := some ⟨[], 0, [], []⟩ }
  let manifest : List BlockId := List.replicate (2 ^ 24) rootZero
  have hopen : ContentStore.withWal [] [] [] = .ok opened := by
    rw [ContentStore.withWal, Wal.replay, Wal.replayFrom_nil]
    rfl
  have hlimits : ∀ f, LogEvent.frame f ∈ [LogEvent.frame (.resync ⟨5, rootZero, manifest⟩)] →
      f.WithinLimits := by
    intro f hf
    cases List.mem_singleton.mp hf
    exact (List.length_replicate).le
  have hok := hall opened Compressor.default [.frame (.resync ⟨5, rootZero, manifest⟩)] true hopen
    hlimits
  obtain ⟨hhealthy, -⟩ := ContentStore.withWal_healthy hopen (by simp) (by simp)
  obtain ⟨hiff, hafter⟩ := events_walError (Receiver.new opened Compressor.default) hhealthy
    [.frame (.resync ⟨5, rootZero, manifest⟩)]
  have hfits := (hiff.mp ((hafter.flushWal true).1.mp hok)).2.1.1 _ rfl
  have hlen : manifest.length = 2 ^ 24 := List.length_replicate
  simp only [hlen, Wal.maxRecordBytes] at hfits
  omega

end Receiver

end Dlr
