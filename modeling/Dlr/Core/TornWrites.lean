import Dlr.Core.Recovery

/-!
# Write failures and what is recovered after them

A failed append leaves a first part of its record in the file and an error in the
latch. Every later flush reports the error. What is recovered from the file is a state
the store really had, not earlier than its last successful flush, as long as nothing is
written behind the failed record.

## Implementation notes

The point that is recovered is counted in events of the run: before the failed append,
or right after it when the failure came after its last byte.
-/

namespace Dlr.Core

open Lib Wal

/-- What happens to a store with a log. -/
inductive StoreEvent
  | op (o : StoreOp)
  | flush (sync : Bool)

namespace ContentStore

variable [Blake3]

/-- The result of the append that an operation makes, if it makes one. -/
def appendResult (st : ContentStore) (o : StoreOp) : Except IoError Unit :=
  match st.wal, st.loggedRecord o with
  | some w, some r => (w.append r).1
  | _, _ => .ok ()

/-- The result of the write or flush that an event makes. -/
def result (st : ContentStore) : StoreEvent → Except IoError Unit
  | .op o => st.appendResult o
  | .flush sync => (st.flushWal sync).1

def event (st : ContentStore) : StoreEvent → ContentStore
  | .op o => st.perform o
  | .flush sync => (st.flushWal sync).2

def events (st : ContentStore) (es : List StoreEvent) : ContentStore := es.foldl event st

/-- How many events there are up to the last successful flush. -/
def lastFlush (st : ContentStore) : List StoreEvent → Nat
  | [] => 0
  | e :: rest =>
      let later := (st.event e).lastFlush rest
      if later ≠ 0 then later + 1
      else
        match e with
        | .op _ => 0
        | .flush sync => if (st.flushWal sync).1.isOk then 1 else 0

/-- Nothing is written behind an append that failed. -/
def Unbroken (st : ContentStore) (failed : Bool) : List StoreEvent → Prop
  | [] => True
  | e :: rest =>
      (failed = true → (st.event e).walBytes = st.walBytes) ∧
        match e with
        | .op o => (st.perform o).Unbroken (failed || !(st.appendResult o).isOk) rest
        | .flush sync => (st.flushWal sync).2.Unbroken failed rest

/-- What an operation does to the log, whether or not its append succeeds. -/
theorem perform_wal {st : ContentStore} {w : Wal} (hw : st.wal = some w) (o : StoreOp) :
    (st.loggedRecord o = none ∧ (st.perform o).wal = some w ∧
        (st.perform o).walError = st.walError ∧ (st.perform o).maps = st.maps) ∨
      ∃ r, st.loggedRecord o = some r ∧ (st.perform o).wal = some (w.append r).2 ∧
        ((st.perform o).walError = none → (w.append r).1 = .ok ()) ∧
        (st.walError ≠ none → (st.perform o).walError ≠ none) ∧
        (r.Valid → (st.perform o).maps = applyRecord st.maps r) := by
  obtain ⟨st₁, hwal, herr, heq, hmaps⟩ := st.perform_logs o
  rw [heq]
  cases hr : st.loggedRecord o with
  | none =>
      rw [hr] at hmaps
      exact Or.inl ⟨rfl, hwal.trans hw, herr, hmaps (by simp)⟩
  | some r =>
      rw [hr] at hmaps
      refine Or.inr ⟨r, rfl, by simp [logRecord, logWal_wal, hwal, hw], ?_, ?_, ?_⟩
      · intro hnone
        exact (logWal_walError st₁ _ hnone).2 w (hwal.trans hw)
      · intro hlatched hnone
        exact hlatched (herr ▸ (logWal_walError st₁ _ hnone).1)
      · intro hvalid
        have hkeep : (st₁.logRecord (some r)).maps = st₁.maps := by ext1 <;> simp [logRecord]
        rw [hkeep]
        exact hmaps (by simpa using hvalid)

/-- A latched error stays latched. -/
theorem event_latched {st : ContentStore} (h : st.walError ≠ none) (e : StoreEvent) :
    (st.event e).walError ≠ none := by
  cases e with
  | op o =>
      obtain ⟨st₁, -, herr, heq, -⟩ := st.perform_logs o
      simp only [event, heq]
      cases st.loggedRecord o with
      | none => exact herr ▸ h
      | some r =>
          intro hnone
          exact h (herr ▸ (logWal_walError st₁ _ hnone).1)
  | flush sync =>
      obtain ⟨err, herr⟩ := Option.ne_none_iff_exists'.mp h
      simp only [event, flushWal, herr]
      simp

theorem events_latched {st : ContentStore} (h : st.walError ≠ none) (es : List StoreEvent) :
    (st.events es).walError ≠ none := by
  induction es generalizing st with
  | nil => exact h
  | cons e rest ih => exact ih (event_latched h e)

/-- A failed write or flush latches its error. -/
theorem event_latches {st : ContentStore} {e : StoreEvent} {err : IoError}
    (h : st.result e = .error err) : (st.event e).walError ≠ none := by
  cases e with
  | op o =>
      simp only [result, appendResult] at h
      cases hw : st.wal with
      | none => simp [hw] at h
      | some w =>
          rcases perform_wal hw o with ⟨hr, -⟩ | ⟨r, hr, -, hok, -⟩
          · simp [hw, hr] at h
          · intro hnone
            rw [hw, hr] at h
            simp only [hok hnone] at h
            cases h
  | flush sync =>
      simp only [result] at h
      cases hw : st.wal with
      | none =>
          cases herr : st.walError with
          | none => simp [flushWal, herr, hw] at h
          | some e' => simp [event, flushWal, herr]
      | some w =>
          obtain ⟨w', -, -, hcases⟩ := flushWal_wal hw sync
          rcases hcases with ⟨hok, -⟩ | ⟨-, herr, -⟩
          · rw [hok] at h
            cases h
          · exact herr

omit [Blake3] in
/-- While an error is latched every flush reports it. -/
theorem flushWal_of_latched {st : ContentStore} (h : st.walError ≠ none) (sync : Bool) :
    ∃ err, (st.flushWal sync).1 = .error err := by
  obtain ⟨err, herr⟩ := Option.ne_none_iff_exists'.mp h
  exact ⟨err, by simp [flushWal, herr]⟩

/-- Behind a failed append the file stays as it is, and no flush succeeds. -/
theorem events_failed {st : ContentStore} (h : st.walError ≠ none) {es : List StoreEvent}
    (hes : st.Unbroken true es) :
    (st.events es).walBytes = st.walBytes ∧ st.lastFlush es = 0 := by
  induction es generalizing st with
  | nil => exact ⟨rfl, rfl⟩
  | cons e rest ih =>
      obtain ⟨hkeep, hrest⟩ := hes
      have hrest' : (st.event e).Unbroken true rest := by
        cases e with
        | op o =>
            simp only [Bool.true_or] at hrest
            exact hrest
        | flush sync => exact hrest
      obtain ⟨hbytes, hlast⟩ := ih (event_latched h e) hrest'
      refine ⟨hbytes.trans (hkeep rfl), ?_⟩
      simp only [lastFlush, hlast]
      cases e with
      | op o => simp
      | flush sync =>
          obtain ⟨err, herr⟩ := flushWal_of_latched h sync
          simp [herr, Except.isOk, Except.toBool]

omit [Blake3] in
theorem walBytes_of_wal {st : ContentStore} {w : Wal} (hw : st.wal = some w) :
    st.walBytes = w.bytes := by
  simp [walBytes, hw]

/-- The file is read without an error to these maps, perhaps not to its end. -/
def Reopens (file : List UInt8) (m : Maps) : Prop :=
  ∃ st stop, replay file new = .ok (st, stop) ∧ st.maps = m

/-- An append that failed leaves a file that is read to the maps before the append, or
to those after it. -/
theorem reopens_failed {st : ContentStore} {w : Wal} (hrec : Recovers w.bytes st.maps)
    (r : Record) :
    Reopens (w.append r).2.bytes st.maps ∨
      r.Valid ∧ Reopens (w.append r).2.bytes (applyRecord st.maps r) := by
  by_cases hsize : r.payload.length ≤ maxRecordBytes
  · have hvalid := Record.valid_of_size hsize
    obtain ⟨added, hbytes, hpre, -⟩ := append_bytes w r
    have hrs : ∀ r' ∈ [r], r'.Valid := by simpa using hvalid
    obtain ⟨whole, later, st', hsplit, -, hrun, hmaps⟩ := hrec.cut hrs (by simpa using hpre)
    rw [hbytes]
    rcases List.cons_eq_append_iff.mp hsplit with ⟨rfl, -⟩ | ⟨whole', rfl, hnil⟩
    · exact Or.inl ⟨st', _, hrun, hmaps⟩
    · obtain ⟨rfl, -⟩ := List.append_eq_nil_iff.mp hnil.symm
      exact Or.inr ⟨hvalid, st', _, hrun, hmaps⟩
  · obtain ⟨message, hrefused⟩ := append_of_oversized w (Nat.lt_of_not_le hsize)
    obtain ⟨st', hrun, hmaps⟩ := hrec
    rw [hrefused]
    exact Or.inl ⟨st', _, hrun, hmaps⟩

/-- From a file that recovers the store on, the file is always read to the maps the
store had at some point not before its last successful flush. -/
theorem events_reopen {st : ContentStore} {w : Wal} (hw : st.wal = some w)
    (hrec : Recovers w.bytes st.maps) {es : List StoreEvent} (hes : st.Unbroken false es) :
    ∃ n, st.lastFlush es ≤ n ∧ n ≤ es.length ∧
      Reopens (st.events es).walBytes (st.events (es.take n)).maps := by
  induction es generalizing st w with
  | nil =>
      obtain ⟨st', hrun, hmaps⟩ := hrec
      exact ⟨0, le_rfl, le_rfl, st', _, by rw [events, List.foldl_nil, walBytes_of_wal hw, hrun],
        hmaps⟩
  | cons e rest ih =>
      obtain ⟨-, hrest⟩ := hes
      -- as long as the log still recovers the store, the rest of the run decides
      have hgo : ∀ w', (st.event e).wal = some w' → Recovers w'.bytes (st.event e).maps →
          (st.event e).Unbroken false rest →
          ∃ n, st.lastFlush (e :: rest) ≤ n ∧ n ≤ (e :: rest).length ∧
            Reopens (st.events (e :: rest)).walBytes (st.events ((e :: rest).take n)).maps := by
        intro w' hw' hrec' hrest'
        obtain ⟨n, hlast, hle, hopen⟩ := ih hw' hrec' hrest'
        refine ⟨n + 1, ?_, by simpa using hle, hopen⟩
        simp only [lastFlush]
        split
        · omega
        · cases e with
          | op o => exact Nat.zero_le _
          | flush sync =>
              simp only
              split <;> omega
      cases e with
      | flush sync =>
          obtain ⟨w', hw', hbytes, -⟩ := flushWal_wal hw sync
          have hmaps : (st.flushWal sync).2.maps = st.maps := by ext1 <;> simp
          exact hgo w' hw' (by rw [hbytes]; exact hmaps ▸ hrec) hrest
      | op o =>
          simp only [appendResult, hw] at hrest
          rcases perform_wal hw o with ⟨hr, hw', -, hmaps⟩ | ⟨r, hr, hw', hok, -, hmaps⟩
          · rw [hr] at hrest
            exact hgo w hw' (by simp only [event]; rw [hmaps]; exact hrec) hrest
          · rw [hr] at hrest
            cases hres : (w.append r).1 with
            | ok u =>
                obtain ⟨hbytes, hsize⟩ := append_ok (Prod.ext hres rfl)
                have hvalid := Record.valid_of_size hsize
                simp only [hres] at hrest
                refine hgo _ hw' ?_ hrest
                simp only [event]
                rw [hbytes, hmaps hvalid]
                exact hrec.append hvalid
            | error err =>
                have hlatched : (st.perform o).walError ≠ none := by
                  intro hnone
                  rw [hok hnone] at hres
                  cases hres
                simp only [hres] at hrest
                obtain ⟨hbytes, hlast⟩ := events_failed hlatched hrest
                have hzero : st.lastFlush (.op o :: rest) = 0 := by simp [lastFlush, event, hlast]
                have hfile : (st.events (.op o :: rest)).walBytes = (w.append r).2.bytes := by
                  rw [← walBytes_of_wal hw']
                  exact hbytes
                rw [hzero, hfile]
                rcases reopens_failed hrec r with hopen | ⟨hvalid, hopen⟩
                · exact ⟨0, le_rfl, Nat.zero_le _, hopen⟩
                · refine ⟨1, Nat.zero_le _, by simp, ?_⟩
                  simp only [List.take_succ_cons, List.take_zero, events, List.foldl_cons,
                    List.foldl_nil, event]
                  rw [hmaps hvalid]
                  exact hopen

/-- Only a seed replaces the log of a session; everything else extends it. -/
theorem event_extends (st : ContentStore) {e : StoreEvent} {sid : SessionId}
    (h : ∀ ids root, e ≠ .op (.seedSession sid ids root)) :
    st.sessionIds sid <+: (st.event e).sessionIds sid := by
  have hpush : ∀ s id,
      (logOf st.sessions sid).ids <+: (logOf (pushLog st.sessions s id) sid).ids := by
    intro s id
    rw [logOf_pushLog]
    split_ifs with hs
    · rw [hs]
      exact List.prefix_append _ _
    · exact List.prefix_rfl
  cases e with
  | flush sync => simp [event, sessionIds]
  | op o =>
      cases o with
      | insertWithCanonical s block given =>
          simp only [event, perform, sessionIds, insertWithCanonical_sessions]
          exact hpush s _
      | reference s id =>
          simp only [event, perform, sessionIds]
          cases hg : st.blocks.get? id with
          | none => rw [reference_of_absent _ _ _ hg]
          | some b =>
              rw [(reference_of_contains st s id hg).1]
              exact hpush s _
      | seedSession s ids root =>
          have hne : s ≠ sid := by
            rintro rfl
            exact h ids root rfl
          simp [event, perform, sessionIds, logOf_set, hne.symm]
      | storeContentWithId s block => simp [event, perform, sessionIds]

theorem events_extend (st : ContentStore) {es : List StoreEvent} {sid : SessionId}
    (h : ∀ ids root, StoreEvent.op (.seedSession sid ids root) ∉ es) :
    st.sessionIds sid <+: (st.events es).sessionIds sid := by
  induction es generalizing st with
  | nil => exact List.prefix_rfl
  | cons e rest ih =>
      refine (event_extends st fun ids root heq => ?_).trans
        (ih (st.event e) fun ids root hmem => ?_)
      · exact h ids root (by simp [heq])
      · exact h ids root (List.mem_cons_of_mem e hmem)

theorem events_append (st : ContentStore) (xs ys : List StoreEvent) :
    st.events (xs ++ ys) = (st.events xs).events ys := by
  simp [events, List.foldl_append]

/-- From the first failure on no flush succeeds. As long as nothing is written behind a
failed append, opening the file again gives the blocks, logs and roots that the store had
at one point of its run, not before its last successful flush; the log of a session that
was not seeded since then extends its flushed log. -/
theorem recovered_after_failures {file : List UInt8} {writes : List (Option (Nat × IoError))}
    {flushes : List (Option IoError)} {st : ContentStore}
    (hopen : withWal file writes flushes = .ok st) (es : List StoreEvent) :
    (∀ before e after err, es = before ++ e :: after →
        (st.events before).result e = .error err →
        ∀ sync, ∃ err', ((st.events es).flushWal sync).1 = .error err') ∧
      (st.Unbroken false es → ∃ n, st.lastFlush es ≤ n ∧ n ≤ es.length ∧
        ∀ writes' flushes', ∃ recovered,
          withWal (st.events es).walBytes writes' flushes' = .ok recovered ∧
          recovered.SameContent (st.events (es.take n)) ∧
          ∀ sid, (∀ ids root, StoreEvent.op (.seedSession sid ids root) ∉
              (es.take n).drop (st.lastFlush es)) →
            (st.events (es.take (st.lastFlush es))).sessionIds sid <+:
              recovered.sessionIds sid) := by
  constructor
  · rintro before e after err rfl hfail sync
    rw [events_append]
    exact flushWal_of_latched (events_latched (event_latches hfail) after) sync
  · intro hes
    obtain ⟨w, hw, -, hrec⟩ := withWal_recovers hopen
    obtain ⟨n, hlast, hle, st', stop, hrun, hmaps⟩ := events_reopen hw hrec hes
    refine ⟨n, hlast, hle, fun writes' flushes' => ?_⟩
    have hsame : ContentStore.SameContent
        { st' with wal := some ⟨(st.events es).walBytes.take stop, stop, writes', flushes'⟩ }
        (st.events (es.take n)) := sameContent_of_maps hmaps
    refine ⟨_, by rw [withWal, hrun], hsame, fun sid hseed => ?_⟩
    rw [(hsame.2 sid).1]
    have hsplit : es.take n =
        es.take (st.lastFlush es) ++ (es.take n).drop (st.lastFlush es) := by
      conv_lhs => rw [← List.take_append_drop (st.lastFlush es) (es.take n)]
      rw [List.take_take, Nat.min_eq_left hlast]
    rw [hsplit, events_append]
    exact events_extend _ hseed

omit [Blake3] in
private theorem exists_ok_of_any {ε α : Type} {x : Except ε α} {p : α → Bool}
    (h : x.toOption.any p = true) : ∃ a, x = .ok a ∧ p a = true := by
  cases x with
  | error e => cases h
  | ok a => exact ⟨a, rfl, h⟩

private theorem withWal_fresh (writes : List (Option (Nat × IoError))) :
    withWal [] writes [] = .ok { new with wal := some ⟨[], 0, writes, []⟩ } := by
  rw [withWal, replay, replayFrom_nil]
  rfl

omit [Blake3] in
/-- A block is flushed, and the record of a second one is torn after six bytes. -/
theorem recovered_after_failures_torn :
    letI := prefixHash
    let block : Nat → Block := fun n => ⟨.message, 1, [UInt8.ofNat n]⟩
    let writes := [none, none, none, none, some (6, IoError.mk .device "no space")]
    let st : ContentStore := { new with wal := some ⟨[], 0, writes, []⟩ }
    let es : List StoreEvent := [.op (.insertWithCanonical 5 (block 1) true), .flush true,
      .op (.insertWithCanonical 5 (block 2) true), .op (.reference 5 (block 3).blockId)]
    st.lastFlush es = 2 ∧ st.Unbroken false es ∧
      ((st.events es).flushWal true).1 = .error ⟨.device, "no space"⟩ ∧
      ∃ n, 2 ≤ n ∧ n ≤ 4 ∧ ∃ recovered,
        withWal (st.events es).walBytes [] [] = .ok recovered ∧
        recovered.SameContent (st.events (es.take n)) := by
  let _ := prefixHash
  intro block writes st es
  have hopen : withWal [] writes [] = .ok st := withWal_fresh writes
  have hes : st.Unbroken false es := by
    refine ⟨by decide, by decide, by decide, ?_, trivial⟩
    decide +kernel
  have hlast : st.lastFlush es = 2 := by decide +kernel
  refine ⟨hlast, hes, by decide +kernel, ?_⟩
  obtain ⟨n, hle, hlen, hrun⟩ := (recovered_after_failures hopen es).2 hes
  obtain ⟨recovered, hreopen, hsame, -⟩ := hrun [] []
  exact ⟨n, hlast ▸ hle, hlen, recovered, hreopen, hsame⟩

omit [Blake3] in
/-- A session is seeded with an empty log after a flush: nothing fails, and the flushed log
is not recovered. Behind a record that was not written at all a reference is appended:
the recovered log is one the session never had. -/
theorem recovered_log_is_no_extension :
    letI := prefixHash
    let block : Nat → Block := fun n => ⟨.message, 1, [UInt8.ofNat n]⟩
    (let st : ContentStore := { new with wal := some ⟨[], 0, [], []⟩ }
      let es : List StoreEvent := [.op (.insertWithCanonical 5 (block 1) true), .flush true,
        .op (.seedSession 5 [] rootZero)]
      withWal [] [] [] = .ok st ∧ st.lastFlush es = 2 ∧
        ∃ recovered, withWal (st.events es).walBytes [] [] = .ok recovered ∧
          ¬ (st.events (es.take 2)).sessionIds 5 <+: recovered.sessionIds 5) ∧
      let writes := [none, none, none, none, some (0, IoError.mk .device "no space")]
      let st : ContentStore := { new with wal := some ⟨[], 0, writes, []⟩ }
      let es : List StoreEvent := [.op (.insertWithCanonical 5 (block 1) true),
        .op (.insertWithCanonical 5 (block 2) true), .op (.reference 5 (block 1).blockId)]
      withWal [] writes [] = .ok st ∧
        ∃ recovered, withWal (st.events es).walBytes [] [] = .ok recovered ∧
          ∀ n, (st.events (es.take n)).sessionIds 5 ≠ recovered.sessionIds 5 := by
  let _ := prefixHash
  intro block
  constructor
  · intro st es
    have hrun : (withWal (st.events es).walBytes [] []).toOption.any (fun recovered =>
        decide (¬ (st.events (es.take 2)).sessionIds 5 <+: recovered.sessionIds 5)) = true := by
      decide +kernel
    obtain ⟨recovered, hreopen, hno⟩ := exists_ok_of_any hrun
    exact ⟨withWal_fresh [], by decide +kernel, recovered, hreopen, of_decide_eq_true hno⟩
  · intro writes st es
    have hrun : (withWal (st.events es).walBytes [] []).toOption.any (fun recovered =>
        decide (∀ n ≤ 3, (st.events (es.take n)).sessionIds 5 ≠ recovered.sessionIds 5)) =
          true := by
      decide +kernel
    obtain ⟨recovered, hreopen, hno⟩ := exists_ok_of_any hrun
    refine ⟨withWal_fresh writes, recovered, hreopen, fun n => ?_⟩
    have hsteps := of_decide_eq_true hno
    rcases Nat.le_total n 3 with hle | hge
    · exact hsteps n hle
    · have htake : es.take n = es.take 3 := List.take_of_length_le hge
      rw [htake]
      exact hsteps 3 le_rfl

end ContentStore

end Dlr.Core
