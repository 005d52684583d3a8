import Dlr.Receiver.Effects

/-!
# What a completion answer of a BULK means

A BULK is answered with a root when its session has nothing pending and the completion was
not acknowledged yet. RESYNC and restart set the two values to mean a cold start. First
contact sets them to an empty pending set that was never acknowledged, so that a BULK which
finishes a generation on such a session is answered without any cold start.

## Implementation notes

The history of a session is read off the list of handled frames. A receiver opened on a
replayed store continues the cold start that the log recorded, as if the RESYNC had just
been handled.
-/

namespace Dlr

open Dlr.Core Coding Compress Lib

namespace Receiver

variable [Blake3] [Zstd]

/-- No RESYNC of the session is among the frames. -/
def NoResync (sid : SessionId) (frames : List Frame) : Prop :=
  ∀ m, Frame.resync m ∈ frames → m.sessionId ≠ sid

/-- No BULK of the session among the frames is answered with a root. -/
def NoAnswer (sid : SessionId) (r : Receiver) (frames : List Frame) : Prop :=
  ∀ before b after, frames = before ++ .bulk b :: after → b.sessionId = sid →
    ∀ root, ((r.handleAll before).handleBulk b).1 ≠ .ok (some root)

/-- The cold start of a session that is under way after some frames: the most recent RESYNC
left blocks pending and carried this root, and no BULK was answered since. Without a RESYNC
among the frames it is the one the receiver was opened with. -/
def ColdStart (start : Receiver) (frames : List Frame) (sid : SessionId) (root : MerkleRoot) :
    Prop :=
  (∃ past m since, frames = past ++ .resync m :: since ∧ m.sessionId = sid ∧
    NoResync sid since ∧ ((start.handleAll past).handleResync m).1 ≠ [] ∧
    NoAnswer sid ((start.handleAll past).handleResync m).2 since ∧ root = m.clientRoot) ∨
  NoResync sid frames ∧ NoAnswer sid start frames ∧ (start.session sid).pending ≠ ∅ ∧
    root = start.store.sessionRoot sid

/-- The answer to a BULK reports the end of a cold start: one was under way with this root,
and this frame retired its last pending block. -/
def CompletesColdStart (start : Receiver) (before : List Frame) (b : BulkFrame)
    (root : MerkleRoot) : Prop :=
  ColdStart start before b.sessionId root ∧
    ((start.handleAll before).session b.sessionId).pending ≠ ∅ ∧
    (((start.handleAll before).handleBulk b).2.session b.sessionId).pending = ∅

/-- Every BULK of the run that is answered with a root completes a cold start. -/
def AnswersMeanColdStart (start : Receiver) (frames : List Frame) : Prop :=
  ∀ before b after root, frames = before ++ .bulk b :: after →
    ((start.handleAll before).handleBulk b).1 = .ok (some root) →
    CompletesColdStart start before b root

/-- A BULK that completes its generation for a session that was never resynchronised and
that the receiver was not opened with. -/
def Uninvited (start : Receiver) (before : List Frame) (b : BulkFrame) : Prop :=
  start.sessions.get? b.sessionId = none ∧ NoResync b.sessionId before ∧
    (start.handleAll before).Finishes b

/-! ## Histories -/

omit [Blake3] [Zstd] in
/-- Where an element of an extended list stands: at the end, or inside the old list. -/
private theorem snoc_eq_append_cons {α : Type} {l before after : List α} {x y : α}
    (h : l ++ [x] = before ++ y :: after) :
    before = l ∧ y = x ∨ ∃ after', after = after' ++ [x] ∧ l = before ++ y :: after' := by
  rcases List.eq_nil_or_concat after with rfl | ⟨after', z, rfl⟩
  · obtain ⟨hl, hx⟩ := List.append_inj' h rfl
    exact Or.inl ⟨hl.symm, (List.cons.inj hx).1.symm⟩
  · rw [List.concat_eq_append] at h ⊢
    rw [← List.cons_append, ← List.append_assoc] at h
    obtain ⟨hl, hx⟩ := List.append_inj' h rfl
    exact Or.inr ⟨after', by rw [(List.cons.inj hx).1], hl⟩

theorem handleAll_snoc (r : Receiver) (frames : List Frame) (f : Frame) :
    r.handleAll (frames ++ [f]) = ((r.handleAll frames).handleFrame f).2 := by
  simp [handleAll]

omit [Blake3] [Zstd] in
theorem NoResync.snoc {sid : SessionId} {frames : List Frame} {f : Frame}
    (h : NoResync sid frames) (hf : ∀ m, f = .resync m → m.sessionId ≠ sid) :
    NoResync sid (frames ++ [f]) := by
  intro m hm
  rcases List.mem_append.mp hm with hold | hnew
  · exact h m hold
  · exact hf m (List.mem_singleton.mp hnew).symm

theorem NoAnswer.snoc {sid : SessionId} {r : Receiver} {frames : List Frame} {f : Frame}
    (h : NoAnswer sid r frames)
    (hf : ∀ b, f = .bulk b → b.sessionId = sid →
      ∀ root, ((r.handleAll frames).handleBulk b).1 ≠ .ok (some root)) :
    NoAnswer sid r (frames ++ [f]) := by
  intro before b after hsplit hb
  rcases snoc_eq_append_cons hsplit with ⟨rfl, heq⟩ | ⟨after', -, hold⟩
  · exact hf b heq.symm hb
  · exact h before b after' hold hb

/-- A cold start stays under way over a frame that neither restarts nor answers it. -/
theorem ColdStart.snoc {start : Receiver} {frames : List Frame} {sid : SessionId}
    {root : MerkleRoot} {f : Frame} (h : ColdStart start frames sid root)
    (hf : ∀ m, f = .resync m → m.sessionId ≠ sid)
    (hb : ∀ b, f = .bulk b → b.sessionId = sid →
      ∀ root, ((start.handleAll frames).handleBulk b).1 ≠ .ok (some root)) :
    ColdStart start (frames ++ [f]) sid root := by
  rcases h with ⟨past, m, since, rfl, hm, hresync, hleft, hans, hroot⟩ |
    ⟨hresync, hans, hleft, hroot⟩
  · refine Or.inl ⟨past, m, since ++ [f], by simp, hm, hresync.snoc hf, hleft, hans.snoc ?_, hroot⟩
    intro b hfb hsid
    have hrun : ((start.handleAll past).handleResync m).2.handleAll since =
        start.handleAll (past ++ .resync m :: since) := by
      simp [handleAll]
    rw [hrun]
    exact hb b hfb hsid
  · exact Or.inr ⟨hresync.snoc hf, hans.snoc hb, hleft, hroot⟩

/-! ## One frame -/

/-- An APPEND leaves the bookkeeping of its session as it was, and its log too while blocks
are pending. -/
theorem handleAppend_session (r : Receiver) (a : AppendFrame) :
    (r.handleAppend a).2.session a.sessionId = r.session a.sessionId ∧
      ((r.session a.sessionId).pending ≠ ∅ → (r.handleAppend a).2.store = r.store) := by
  rcases r.handleAppend_cases a with ⟨e, r', h, rfl | rfl⟩ | ⟨resolved, -, -, hpend, h | h⟩
  · rw [h]
    exact ⟨rfl, fun _ => rfl⟩
  · rw [h]
    exact ⟨touch_session _ _ _, fun _ => rfl⟩
  · rw [h.2.2]
    exact ⟨touch_session _ _ _, fun _ => rfl⟩
  · rw [h.2]
    exact ⟨touch_session _ _ _, fun hne => absurd hpend hne⟩

/-- What a BULK does to its session: blocks are retired, and the completion is answered the
first time that none is left. -/
theorem handleBulk_session (r : Receiver) (b : BulkFrame) :
    (r.handleBulk b).2.store.sessionRoot b.sessionId = r.store.sessionRoot b.sessionId ∧
      ((r.handleBulk b).2.session b.sessionId).pending ⊆ (r.session b.sessionId).pending ∧
      ((r.handleBulk b).1 = .ok (some (r.store.sessionRoot b.sessionId)) ∧
          r.Finishes b ∧ (r.session b.sessionId).acked = false ∧
          ((r.handleBulk b).2.session b.sessionId).acked = true ∧
          ((r.handleBulk b).2.session b.sessionId).pending = ∅ ∨
        (∀ root, (r.handleBulk b).1 ≠ .ok (some root)) ∧
          ((r.handleBulk b).2.session b.sessionId).acked = (r.session b.sessionId).acked ∧
          ((r.session b.sessionId).acked = false →
            ((r.handleBulk b).2.session b.sessionId).pending = ∅ →
            (r.session b.sessionId).pending = ∅ ∧ ¬ r.Finishes b)) := by
  by_cases hfin : r.Finishes b
  · obtain ⟨d, syms, recovered, hadd, hdec, hrec⟩ := id hfin
    rw [handleBulk_of_decoded r b hadd hdec hrec]
    have hsess := performAll_contentOps_sessions b.sessionId recovered r.store
    refine ⟨by simp [finished, ContentStore.sessionRoot, hsess], by simp [finished], ?_⟩
    by_cases hdone : (r.session b.sessionId).pending \ (recovered.map Prod.snd).toFinset = ∅
    · by_cases hack : (r.session b.sessionId).acked = false
      · refine Or.inl ?_
        simp [finished, hdone, hack, hfin]
      · refine Or.inr ?_
        simp_all [finished]
    · refine Or.inr ?_
      simp [finished, hdone]
  · obtain ⟨⟨d, hr⟩, hnone⟩ := r.handleBulk_unfinished hfin
    refine ⟨by rw [hr, setSession_store], by rw [hr, session_setSession_self], Or.inr ?_⟩
    refine ⟨hnone, by rw [hr, session_setSession_self], fun _ hdone => ⟨?_, hfin⟩⟩
    rwa [hr, session_setSession_self] at hdone

/-- A frame that is neither a RESYNC nor a BULK of a session leaves its bookkeeping as it
was, and its root too while blocks are pending. -/
theorem handleFrame_keeps (r : Receiver) (f : Frame) (sid : SessionId)
    (hresync : ∀ m, f = .resync m → m.sessionId ≠ sid)
    (hbulk : ∀ b, f = .bulk b → b.sessionId ≠ sid) :
    (r.handleFrame f).2.session sid = r.session sid ∧
      ((r.session sid).pending ≠ ∅ →
        (r.handleFrame f).2.store.sessionRoot sid = r.store.sessionRoot sid) := by
  by_cases hs : sid = f.sessionId
  · subst hs
    cases f with
    | append a =>
        obtain ⟨hsession, hstore⟩ := r.handleAppend_session a
        rw [handleFrame_append_snd]
        exact ⟨hsession, fun hne => by rw [hstore hne]⟩
    | resync m => exact absurd rfl (hresync m rfl)
    | bulk b => exact absurd rfl (hbulk b rfl)
    | ack a => exact ⟨rfl, fun _ => rfl⟩
    | missing m => exact ⟨rfl, fun _ => rfl⟩
  · obtain ⟨ops, haff, -⟩ := r.handleFrame_affects f
    refine ⟨haff.session hs, fun _ => ?_⟩
    rw [ContentStore.sessionRoot, haff.logOf hs, ContentStore.sessionRoot]

/-! ## Runs -/

/-- The bookkeeping of a session after some frames: its cold start is over, it was never
told of one, or one is under way and leads to the session's root. -/
def Tracks (start : Receiver) (frames : List Frame) (sid : SessionId) : Prop :=
  let r := start.handleAll frames
  (r.session sid).pending = ∅ ∧
      ((r.session sid).acked = true ∨
        start.sessions.get? sid = none ∧ NoResync sid frames) ∨
    (r.session sid).pending ≠ ∅ ∧ (r.session sid).acked = false ∧
      ColdStart start frames sid (r.store.sessionRoot sid)

theorem tracks_new (store : ContentStore) (c : Compressor) (sid : SessionId) :
    Tracks (Receiver.new store c) [] sid := by
  have hresync : NoResync sid [] := fun m hm => by cases hm
  have hans : ∀ r, NoAnswer sid r [] := fun r before b after h => by simp at h
  cases hlog : store.sessions.get? sid with
  | none =>
      have hget : (Receiver.new store c).sessions.get? sid = none := by simp [Receiver.new, hlog]
      refine Or.inl ⟨?_, Or.inr ⟨hget, hresync⟩⟩
      simp [handleAll, session, hget]
  | some log =>
      by_cases hpend : ((Receiver.new store c).session sid).pending = ∅
      · refine Or.inl ⟨hpend, Or.inl ?_⟩
        simpa [handleAll, session, Receiver.new, hlog] using hpend
      · refine Or.inr ⟨hpend, ?_, Or.inr ⟨hresync, hans _, hpend, rfl⟩⟩
        simpa [handleAll, session, Receiver.new, hlog] using hpend

/-- Every frame keeps the meaning of a session's bookkeeping. -/
theorem Tracks.snoc {start : Receiver} {frames : List Frame} {sid : SessionId}
    (h : Tracks start frames sid) (f : Frame) : Tracks start (frames ++ [f]) sid := by
  simp only [Tracks, handleAll_snoc]
  simp only [Tracks] at h
  by_cases hresync : ∃ m, f = .resync m ∧ m.sessionId = sid
  · obtain ⟨m, rfl, rfl⟩ := hresync
    rw [handleFrame_resync_snd]
    cases hmissing : ((start.handleAll frames).handleResync m).1 with
    | nil =>
        refine Or.inl ?_
        have hnil := hmissing
        simp only [handleResync] at hnil ⊢
        simp [hnil]
    | cons id rest =>
        refine Or.inr ⟨?_, ?_, Or.inl ⟨frames, m, [], rfl, rfl, ?_, ?_, ?_, ?_⟩⟩
        · have hcons := hmissing
          simp only [handleResync] at hcons ⊢
          simp [hcons]
        · have hcons := hmissing
          simp only [handleResync] at hcons ⊢
          simp [hcons]
        · intro m' hm'
          cases hm'
        · rw [hmissing]
          simp
        · intro before b after hnil
          simp at hnil
        · simp [handleResync, ContentStore.sessionRoot, logOf_set]
  · have hno : ∀ m, f = .resync m → m.sessionId ≠ sid := fun m hf hm => hresync ⟨m, hf, hm⟩
    by_cases hbulk : ∃ b, f = .bulk b ∧ b.sessionId = sid
    · obtain ⟨b, rfl, rfl⟩ := hbulk
      rw [handleFrame_bulk_snd]
      obtain ⟨hroot, hsub, hcases⟩ := (start.handleAll frames).handleBulk_session b
      rcases hcases with ⟨-, -, -, hacked, hdone⟩ | ⟨hnone, hacked, hleft⟩
      · exact Or.inl ⟨hdone, Or.inl hacked⟩
      · rcases h with ⟨hpend, hack | ⟨hget, hnever⟩⟩ | ⟨hpend, hack, hcold⟩
        · refine Or.inl ⟨?_, Or.inl (hacked.trans hack)⟩
          exact Finset.subset_empty.mp (hpend ▸ hsub)
        · refine Or.inl ⟨?_, Or.inr ⟨hget, hnever.snoc hno⟩⟩
          exact Finset.subset_empty.mp (hpend ▸ hsub)
        · refine Or.inr ⟨fun hdone => hpend (hleft hack hdone).1, hacked.trans hack, ?_⟩
          rw [hroot]
          refine hcold.snoc hno ?_
          rintro b' hb' - root
          cases hb'
          exact hnone root
    · have hnob : ∀ b, f = .bulk b → b.sessionId ≠ sid := fun b hf hb => hbulk ⟨b, hf, hb⟩
      obtain ⟨hsession, hroot⟩ := (start.handleAll frames).handleFrame_keeps f sid hno hnob
      rw [hsession]
      rcases h with ⟨hpend, hack | ⟨hget, hnever⟩⟩ | ⟨hpend, hack, hcold⟩
      · exact Or.inl ⟨hpend, Or.inl hack⟩
      · exact Or.inl ⟨hpend, Or.inr ⟨hget, hnever.snoc hno⟩⟩
      · refine Or.inr ⟨hpend, hack, ?_⟩
        rw [hroot hpend]
        exact hcold.snoc hno fun b hf hb => absurd hb (hnob b hf)

theorem tracks_handleAll (store : ContentStore) (c : Compressor) (frames : List Frame)
    (sid : SessionId) : Tracks (Receiver.new store c) frames sid := by
  induction frames using List.reverseRecOn with
  | nil => exact tracks_new store c sid
  | append_singleton frames f ih => exact ih.snoc f

/-- A session that was never resynchronised and never answered is as first contact left
it. -/
theorem untouched_of_noAnswer {start : Receiver} {frames : List Frame} {sid : SessionId}
    (hget : start.sessions.get? sid = none) (hresync : NoResync sid frames)
    (hans : NoAnswer sid start frames) :
    ((start.handleAll frames).session sid).pending = ∅ ∧
      ((start.handleAll frames).session sid).acked = false := by
  induction frames using List.reverseRecOn with
  | nil => simp [handleAll, session, hget]
  | append_singleton frames f ih =>
      obtain ⟨hpend, hack⟩ := ih (fun m hm => hresync m (List.mem_append_left _ hm))
        fun before b after hsplit =>
          hans before b (after ++ [f]) (by rw [hsplit, List.append_assoc, List.cons_append])
      have hno : ∀ m, f = .resync m → m.sessionId ≠ sid := by
        rintro m rfl
        exact hresync m (by simp)
      rw [handleAll_snoc]
      by_cases hbulk : ∃ b, f = .bulk b ∧ b.sessionId = sid
      · obtain ⟨b, rfl, rfl⟩ := hbulk
        obtain ⟨-, hsub, ⟨hsome, -⟩ | ⟨-, hacked, -⟩⟩ :=
          (start.handleAll frames).handleBulk_session b
        · exact absurd hsome (hans frames b [] rfl rfl _)
        · rw [handleFrame_bulk_snd]
          exact ⟨Finset.subset_empty.mp (hpend ▸ hsub), hacked.trans hack⟩
      · have hnob : ∀ b, f = .bulk b → b.sessionId ≠ sid := fun b hf hb => hbulk ⟨b, hf, hb⟩
        obtain ⟨hsession, -⟩ := (start.handleAll frames).handleFrame_keeps f sid hno hnob
        rw [hsession]
        exact ⟨hpend, hack⟩

/-- Over every sequence of frames, on a fresh or replayed store, the answers of BULK frames
mean completed cold starts if and only if no BULK completes a generation for a session that
was never resynchronised. -/
theorem answers_mean_cold_start_iff (store : ContentStore) (c : Compressor)
    (frames : List Frame) :
    AnswersMeanColdStart (Receiver.new store c) frames ↔
      ∀ before b after, frames = before ++ .bulk b :: after →
        ¬ Uninvited (Receiver.new store c) before b := by
  constructor
  · rintro hall before b after hsplit ⟨hget, hresync, hfin⟩
    -- no answer of this session can name a cold start
    have hnone : ∀ pre root, NoResync b.sessionId pre →
        ¬ ColdStart (Receiver.new store c) pre b.sessionId root := by
      rintro pre root hpre (⟨past, m, since, rfl, hm, -⟩ | ⟨-, -, hpend, -⟩)
      · exact hpre m (by simp) hm
      · exact hpend (by simp [session, hget])
    have hans : NoAnswer b.sessionId (Receiver.new store c) before := by
      intro pre b' post hpre hb' root hroot
      have hcold := hall pre b' (post ++ .bulk b :: after) root (by simp [hsplit, hpre]) hroot
      refine hnone pre root (fun m hm => hresync m ?_) (hb' ▸ hcold.1)
      exact hpre ▸ List.mem_append_left _ hm
    obtain ⟨hpend, hack⟩ := untouched_of_noAnswer hget hresync hans
    obtain ⟨-, hsub, ⟨hsome, -⟩ | ⟨-, -, hleft⟩⟩ :=
      ((Receiver.new store c).handleAll before).handleBulk_session b
    · exact hnone before _ hresync (hall before b after _ hsplit hsome).1
    · exact (hleft hack (Finset.subset_empty.mp (hpend ▸ hsub))).2 hfin
  · intro hinvited before b after root hsplit hroot
    obtain ⟨-, -, ⟨hsome, hfin, hack, -, hdone⟩ | ⟨hnone, -⟩⟩ :=
      ((Receiver.new store c).handleAll before).handleBulk_session b
    · cases hsome.symm.trans hroot
      rcases tracks_handleAll store c before b.sessionId with
        ⟨-, hacked | ⟨hget, hresync⟩⟩ | ⟨hpend, -, hcold⟩
      · rw [hack] at hacked
        cases hacked
      · exact absurd ⟨hget, hresync, hfin⟩ (hinvited before b after hsplit)
      · exact ⟨hcold, hpend, hdone⟩
    · exact absurd hroot (hnone root)

omit [Blake3] [Zstd] in
/-- The first frame of a session is a BULK of one block: it is answered with the empty root
although the session was never resynchronised. -/
theorem first_bulk_answered :
    letI := prefixHash
    letI := storedZstd
    let stored := 0 :: canonicalBytes ⟨.message, 1, [7]⟩
    let flat := Lib.Bytes.toLe 4 stored.length ++ stored
    let b : BulkFrame := ⟨7, 0, 1, UInt32.ofNat flat.length, [[1, 0, 0, 0, 1] ++ flat]⟩
    let start := Receiver.new ContentStore.new Compressor.default
    (start.handleBulk b).1 = .ok (some rootZero) ∧
      ¬ AnswersMeanColdStart start [.bulk b] := by
  let _ := prefixHash
  let _ := storedZstd
  intro stored flat b start
  have hroot : (start.handleBulk b).1 = .ok (some rootZero) := by decide +kernel
  refine ⟨hroot, fun hall => ?_⟩
  obtain ⟨-, hpend, -⟩ := hall [] b [] rootZero rfl hroot
  exact hpend (by decide)

end Receiver

end Dlr
