import Dlr.Core.CrashConsistency

/-!
# What a log file is replayed to

A file recovers the maps that replay rebuilds from it, provided replay consumes
all of it. Appending a valid record to such a file applies its meaning, and
opening any file cuts it down to such a part. A store is recoverable while its
log recovers exactly its maps; every operation keeps it so until a write fails.

## Implementation notes

`Recovers` does not ask the records of a file to be valid. A file that was
reopened after a failed write may hold records that replay skips.
-/

namespace Dlr.Core

open Lib Lib.Bytes

namespace Wal

/-- Reading a record takes a fixed first part of the file, whatever follows it. -/
theorem readRecord_split {file payload rest : List UInt8} {sid : SessionId} {variant : UInt8}
    (h : readRecord file = .ok (some (sid, variant, payload, rest))) :
    ∃ first, file = first ++ rest ∧ first.length = header + payload.length ∧
      ∀ more, readRecord (first ++ more) = .ok (some (sid, variant, payload, more)) := by
  unfold readRecord at h
  cases hhdr : takeExact header file with
  | none => simp [hhdr] at h
  | some split =>
      obtain ⟨hdr, rest₁⟩ := split
      simp only [hhdr] at h
      split_ifs at h with hlen
      cases hpay : takeExact (ofLe (slice hdr 17 21)) rest₁ with
      | none => simp [hpay] at h
      | some split =>
          obtain ⟨payload', rest₂⟩ := split
          simp only [hpay] at h
          cases h
          obtain ⟨rfl, hh⟩ := takeExact_eq_some_iff.mp hhdr
          obtain ⟨rfl, hp⟩ := takeExact_eq_some_iff.mp hpay
          refine ⟨hdr ++ payload, (List.append_assoc _ _ _).symm, by simp [hh], fun more => ?_⟩
          unfold readRecord
          rw [List.append_assoc, takeExact_append _ hh]
          simp only
          rw [if_neg hlen, takeExact_append _ hp]

variable [Blake3]

/-- Replay stops inside the file, and what it has consumed replays to the same store. -/
theorem replayFrom_consumed {start stop : Nat} {file : List UInt8} {st st' : ContentStore}
    (h : replayFrom start file st = .ok (st', stop)) :
    ∃ used, used <+: file ∧ stop = start + used.length ∧
      ∀ more, replayFrom start (used ++ more) st = replayFrom stop more st' := by
  apply replayFrom_rule (motive := fun start file st => ∃ used, used <+: file ∧
    stop = start + used.length ∧
      ∀ more, replayFrom start (used ++ more) st = replayFrom stop more st') ?_ ?_ h
  · exact fun file _ => ⟨[], List.nil_prefix, rfl, fun more => rfl⟩
  · intro start file st sid variant payload rest hread hrest
    obtain ⟨first, rfl, hfirst, hread'⟩ := readRecord_split hread
    obtain ⟨used, hpre, hstop, hrun⟩ := hrest
    refine ⟨first ++ used, (List.prefix_append_right_inj first).mpr hpre, ?_, ?_⟩
    · rw [hstop, List.length_append, hfirst]
      omega
    · intro more
      rw [List.append_assoc, replayFrom_of_read (hread' (used ++ more))]
      exact hrun more

/-- The file is consumed by replay, which rebuilds these maps from it. -/
def Recovers (file : List UInt8) (m : Maps) : Prop :=
  ∃ st, replay file ContentStore.new = .ok (st, file.length) ∧ st.maps = m

theorem recovers_nil : Recovers [] Maps.empty := ⟨_, replayFrom_nil 0 _, rfl⟩

/-- What follows a recovered file is replayed on what the file recovers. -/
theorem Recovers.replay_append {file : List UInt8} {m : Maps} (h : Recovers file m) :
    ∃ st, st.maps = m ∧ ∀ more, replay (file ++ more) ContentStore.new =
      replayFrom file.length more st := by
  obtain ⟨st, hrun, hm⟩ := h
  obtain ⟨used, ⟨unused, hfile⟩, hstop, hmore⟩ := replayFrom_consumed hrun
  obtain rfl : unused = [] := by
    have hlen := congrArg List.length hfile
    rw [List.length_append] at hlen
    exact List.eq_nil_of_length_eq_zero (by omega)
  rw [List.append_nil] at hfile
  subst hfile
  exact ⟨st, hm, hmore⟩

/-- Valid records appended to a recovered file have their meanings applied, and a cut
inside them leaves those before it. -/
theorem Recovers.cut {file : List UInt8} {m : Maps} (h : Recovers file m) {rs : List Record}
    (hrs : ∀ r ∈ rs, r.Valid) {tail : List UInt8} (htail : tail <+: rs.flatMap Record.encode) :
    ∃ whole later st, rs = whole ++ later ∧
      whole.flatMap Record.encode <+: tail ∧
      replay (file ++ tail) ContentStore.new =
        .ok (st, (file ++ whole.flatMap Record.encode).length) ∧
      st.maps = whole.foldl applyRecord m := by
  obtain ⟨st, hm, hmore⟩ := h.replay_append
  obtain ⟨whole, later, rest, hsplit, htail', -, -, hrun⟩ :=
    replayFrom_cut file.length rs hrs tail htail st
  have hwhole : ∀ r ∈ whole, r.Valid := fun r hr => hrs r (by simp [hsplit, hr])
  refine ⟨whole, later, replayRecords st whole, hsplit, ?_, ?_, ?_⟩
  · rw [htail']
    exact List.prefix_append _ _
  · rw [hmore, hrun, List.length_append]
  · rw [replayRecords_maps st hwhole, hm]

theorem Recovers.append {file : List UInt8} {m : Maps} (h : Recovers file m) {r : Record}
    (hr : r.Valid) : Recovers (file ++ r.encode) (applyRecord m r) := by
  obtain ⟨st, rfl, hmore⟩ := h.replay_append
  refine ⟨replayRecord st r.sid r.variant r.payload, ?_, ?_⟩
  · have hrun := replayFrom_record file.length r [] st hr.size
    rw [List.append_nil, replayFrom_nil] at hrun
    rw [hmore, hrun, List.length_append]
  · rw [replayRecord_maps, hr.decode]
    rfl

end Wal

namespace ContentStore

open Wal

variable [Blake3]

/-- Opening a file, whatever it holds, gives a store that its log recovers. -/
theorem withWal_recovers {file : List UInt8} {writes : List (Option (Nat × IoError))}
    {flushes : List (Option IoError)} {st : ContentStore}
    (h : withWal file writes flushes = .ok st) :
    ∃ w, st.wal = some w ∧ w.flushed = w.bytes.length ∧ Recovers w.bytes st.maps := by
  unfold withWal at h
  cases hrun : replay file new with
  | error e => simp [hrun] at h
  | ok result =>
      obtain ⟨st₀, stop⟩ := result
      simp only [hrun] at h
      cases h
      obtain ⟨used, hpre, hstop, hmore⟩ := replayFrom_consumed hrun
      rw [Nat.zero_add] at hstop
      have htake : file.take stop = used := by rw [hstop, ← List.prefix_iff_eq_take.mp hpre]
      refine ⟨_, rfl, ?_, ⟨st₀, ?_, rfl⟩⟩
      · simp only [htake]
        exact hstop
      · have hnil := hmore []
        rw [List.append_nil, replayFrom_nil] at hnil
        simp only [htake, ← hstop]
        exact hnil

/-- The log of a store recovers its maps while no write of it has failed, and no flush
reaches past its end. -/
def Recoverable (st : ContentStore) : Prop :=
  ∀ w, st.wal = some w →
    w.flushed ≤ w.bytes.length ∧ (st.walError = none → Recovers w.bytes st.maps)

/-- Logging a record whose meaning the maps already carry keeps a store recoverable. -/
theorem Recoverable.logWal {st st₁ : ContentStore} (h : st.Recoverable) (hwal : st₁.wal = st.wal)
    (herr : st₁.walError = st.walError) {r : Record}
    (hmaps : r.Valid → st₁.maps = applyRecord st.maps r) :
    (st₁.logWal (·.append r)).Recoverable := by
  intro w' hw'
  rw [logWal_wal, hwal] at hw'
  obtain ⟨w, hw, rfl⟩ := Option.map_eq_some_iff.mp hw'
  obtain ⟨hflushed, hrec⟩ := h w hw
  obtain ⟨added, hbytes, -, hflushed'⟩ := append_bytes w r
  refine ⟨by rw [hbytes, hflushed', List.length_append]; omega, fun hok => ?_⟩
  obtain ⟨hnone, hres⟩ := logWal_walError st₁ (·.append r) hok
  obtain ⟨hbytes', hsize⟩ := append_ok (Prod.ext (hres w (hwal.trans hw)) rfl)
  have hvalid := Record.valid_of_size hsize
  have hkeep : (st₁.logWal (·.append r)).maps = st₁.maps := by ext1 <;> simp
  rw [hbytes', hkeep, hmaps hvalid]
  exact (hrec (herr ▸ hnone)).append hvalid

theorem Recoverable.perform {st : ContentStore} (h : st.Recoverable) (op : StoreOp) :
    (st.perform op).Recoverable := by
  obtain ⟨st₁, hwal, herr, heq, hmaps⟩ := st.perform_logs op
  rw [heq]
  cases hr : st.loggedRecord op with
  | none =>
      rw [hr] at hmaps
      intro w hw
      obtain ⟨hflushed, hrec⟩ := h w (hwal ▸ hw)
      refine ⟨hflushed, fun hok => ?_⟩
      have hm : (st₁.logRecord none).maps = st.maps := hmaps (by simp)
      rw [hm]
      exact hrec (herr ▸ hok)
  | some r =>
      rw [hr] at hmaps
      exact h.logWal hwal herr fun hvalid => hmaps (by simpa using hvalid)

theorem Recoverable.performAll {st : ContentStore} (h : st.Recoverable) (ops : List StoreOp) :
    (st.performAll ops).Recoverable := by
  induction ops generalizing st with
  | nil => exact h
  | cons op rest ih => exact ih (h.perform op)

omit [Blake3] in
theorem flushWal_isSome (st : ContentStore) (sync : Bool) :
    (st.flushWal sync).2.wal.isSome = st.wal.isSome := by
  unfold flushWal
  cases st.walError with
  | some e => rfl
  | none =>
      cases hw : st.wal with
      | none => simp [hw]
      | some w =>
          simp only
          split <;> rfl

omit [Blake3] in
/-- A flush keeps the bytes of the log. It reports success exactly when no error is
latched afterwards, and then every byte is durable. -/
theorem flushWal_wal {st : ContentStore} {w : Wal} (hw : st.wal = some w) (sync : Bool) :
    ∃ w', (st.flushWal sync).2.wal = some w' ∧ w'.bytes = w.bytes ∧
      ((st.flushWal sync).1 = .ok () ∧ st.walError = none ∧
          (st.flushWal sync).2.walError = none ∧ w'.flushed = w.bytes.length ∨
        (∃ e, (st.flushWal sync).1 = .error e) ∧ (st.flushWal sync).2.walError ≠ none ∧
          w'.flushed = w.flushed) := by
  unfold flushWal
  cases herr : st.walError with
  | some e => exact ⟨w, hw, rfl, Or.inr ⟨⟨e, rfl⟩, by simp [herr], rfl⟩⟩
  | none =>
      simp only [hw, Wal.flush]
      split <;> rename_i heq <;> split at heq <;> cases heq
      · exact ⟨_, rfl, rfl, Or.inl ⟨rfl, trivial, rfl, rfl⟩⟩
      · exact ⟨_, rfl, rfl, Or.inl ⟨rfl, trivial, rfl, rfl⟩⟩
      · exact ⟨_, rfl, rfl, Or.inr ⟨⟨_, rfl⟩, by simp [latchWalError], rfl⟩⟩

theorem Recoverable.flushWal {st : ContentStore} (h : st.Recoverable) (sync : Bool) :
    (st.flushWal sync).2.Recoverable := by
  have hmaps : (st.flushWal sync).2.maps = st.maps := by ext1 <;> simp
  intro w' hw'
  obtain ⟨w, hw⟩ : ∃ w, st.wal = some w := by
    rw [← Option.isSome_iff_exists, ← st.flushWal_isSome sync, hw']
    rfl
  obtain ⟨w₁, hw₁, hbytes, hcases⟩ := flushWal_wal hw sync
  cases hw₁.symm.trans hw'
  obtain ⟨hle, hrec⟩ := h w hw
  rcases hcases with ⟨-, herr, -, hflushed⟩ | ⟨-, herr, hflushed⟩
  · refine ⟨by rw [hbytes, hflushed], fun _ => ?_⟩
    rw [hbytes, hmaps]
    exact hrec herr
  · exact ⟨by rw [hbytes, hflushed]; exact hle, fun hnone => absurd hnone herr⟩

theorem withWal_recoverable {file : List UInt8} {writes : List (Option (Nat × IoError))}
    {flushes : List (Option IoError)} {st : ContentStore}
    (h : withWal file writes flushes = .ok st) : st.Recoverable := by
  obtain ⟨w, hw, hflushed, hrec⟩ := withWal_recovers h
  intro w' hw'
  cases hw.symm.trans hw'
  exact ⟨hflushed.le, fun _ => hrec⟩

theorem new_recoverable : new.Recoverable := by
  intro w hw
  cases hw

end ContentStore

end Dlr.Core
