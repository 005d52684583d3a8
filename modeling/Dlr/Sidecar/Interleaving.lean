import Dlr.Receiver.Commitment
import Dlr.Sidecar.Transparency

/-!
# Interleaved requests

Any number of requests run at once. Each handler is cut at its atomic steps on the shared
receiver and cache, and a schedule picks which request takes its next step. What a chat
request sends upstream is the log it acknowledged, as long as no other request changes that
log between the append and the moment the log is read back.

## Implementation notes

A projection carries the log it stands for only through its root. That two logs with the
same root are equal is collision freedom of the hash, stated on what the receiver hashes
along the schedule, together with honest roots in RESYNC frames.
-/

namespace Dlr.Sidecar

open Dlr.Core Compress Lib Lib.Machine

/-- A chat request after its checks. -/
structure Chat where
  request : Request
  metadata : Value
  frame : AppendFrame

/-- Where a request stands between two of its steps. -/
inductive Task
  | arrived (call : Call)
  | looking (chat : Chat)
  | appending (chat : Chat) (cached : Option CachedChatProjection)
  | flushing (chat : Chat) (cached : Option CachedChatProjection) (ack : AckFrame)
  | measuring (chat : Chat) (cached : Option CachedChatProjection) (ack : AckFrame)
  | reading (chat : Chat) (opening : List UInt8) (cached : Option CachedChatProjection)
      (ack : AckFrame) (sessionLen : Nat)
  | inserting (chat : Chat) (opening : List UInt8) (ack : AckFrame)
      (projection : CachedChatProjection)
  | removing (request : Request) (frame : Frame)
  | receiving (request : Request) (frame : Frame)
  | answering (request : Request) (answer : Option Frame)
  | done (call : Call) (response : Response)

/-- Whether the task has answered the request with an upstream request. -/
def Task.forwards (request : Request) : Task → Bool
  | .done (.chat served) (.forwarded _ _) => decide (served = request)
  | _ => false

theorem Task.eq_done_of_forwards {request : Request} {task : Task}
    (h : task.forwards request = true) :
    ∃ root upstream, task = .done (.chat request) (.forwarded root upstream) := by
  unfold Task.forwards at h
  split at h
  · obtain rfl := of_decide_eq_true h
    exact ⟨_, _, rfl⟩
  · cases h

section Steps

variable [Blake3] [Zstd] [SerdeJson]

/-- The next step of a request. -/
def SidecarState.advance (s : SidecarState) : Task → SidecarState × Task
  | .arrived (.chat request) =>
      match s.checkChat request with
      | .error response => (s, .done (.chat request) response)
      | .ok (metadata, frame) => (s, .looking ⟨request, metadata, frame⟩)
  | .looking chat =>
      let (cached, s) := s.lookupProjection chat.frame
      (s, .appending chat cached)
  | .appending chat cached =>
      match s.appendChat chat.frame with
      | (.error response, s) => (s, .done (.chat chat.request) response)
      | (.ok ack, s) => (s, .flushing chat cached ack)
  | .flushing chat cached ack =>
      match s.flush with
      | (.error response, s) => (s, .done (.chat chat.request) response)
      | (.ok (), s) => (s, .measuring chat cached ack)
  | .measuring chat cached ack =>
      match requestPrefix chat.metadata with
      | .error e => (s, .done (.chat chat.request) (.error 400 e.toText none))
      | .ok opening =>
          (s, .reading chat opening cached ack (s.receiver.store.sessionLen chat.frame.sessionId))
  | .reading chat opening cached ack sessionLen =>
      match s.buildProjection chat.frame.sessionId ack.root sessionLen cached with
      | .error response => (s, .done (.chat chat.request) response)
      | .ok projection => (s, .inserting chat opening ack projection)
  | .inserting chat opening ack projection =>
      let (response, s) := s.forward chat.request opening ack chat.frame.sessionId projection
      (s, .done (.chat chat.request) response)
  | .arrived (.frame request) =>
      match s.checkFrame request with
      | .error response => (s, .done (.frame request) response)
      | .ok frame => (s, .removing request frame)
  | .removing request frame => (s.removeProjection frame, .receiving request frame)
  | .receiving request frame =>
      match s.receiveFrame frame with
      | (.error response, s) => (s, .done (.frame request) response)
      | (.ok answer, s) => (s, .answering request answer)
  | .answering request answer =>
      match s.flush with
      | (.error response, s) => (s, .done (.frame request) response)
      | (.ok (), s) => (s, .done (.frame request) (SidecarState.respondFrame answer))
  | .done call response => (s, .done call response)

/-- The next step of a request that runs alone. -/
def SidecarState.alone (p : SidecarState × Task) : SidecarState × Task := p.1.advance p.2

theorem SidecarState.alone_done (n : Nat) (s : SidecarState) (call : Call) (response : Response) :
    alone^[n] (s, .done call response) = (s, .done call response) := by
  induction n with
  | zero => rfl
  | succ n ih =>
      rw [Function.iterate_succ_apply]
      exact ih

/-- A request that runs alone is served as by the sequential handlers. -/
theorem SidecarState.alone_serves (s : SidecarState) (call : Call) :
    alone^[7] (s, .arrived call) = ((s.serve call).2, .done call (s.serve call).1) := by
  cases call with
  | chat request =>
      rw [Function.iterate_succ_apply, alone]
      simp only [serve, chatCompletions, advance]
      cases s.checkChat request with
      | error response => exact alone_done 6 s _ response
      | ok checked =>
          rw [Function.iterate_succ_apply, Function.iterate_succ_apply, alone, alone]
          simp only [advance]
          rcases (s.lookupProjection checked.2).2.appendChat checked.2 with ⟨response | ack, s⟩
          · exact alone_done 4 s _ response
          · rw [Function.iterate_succ_apply, alone]
            simp only [advance]
            rcases s.flush with ⟨response | _, s⟩
            · exact alone_done 3 s _ response
            · rw [Function.iterate_succ_apply, alone]
              simp only [advance, respondChat]
              cases requestPrefix checked.1 with
              | error e => exact alone_done 2 s _ _
              | ok opening =>
                  rw [Function.iterate_succ_apply, alone]
                  simp only [advance]
                  cases s.buildProjection checked.2.sessionId ack.root
                      (s.receiver.store.sessionLen checked.2.sessionId)
                      (SidecarState.lookupProjection _ checked.2).1 with
                  | error response => exact alone_done 1 s _ response
                  | ok projection => rfl
  | frame request =>
      rw [Function.iterate_succ_apply, alone]
      simp only [serve, handleFrame, advance]
      cases s.checkFrame request with
      | error response => exact alone_done 6 s _ response
      | ok frame =>
          rw [Function.iterate_succ_apply, Function.iterate_succ_apply, alone, alone]
          simp only [advance]
          rcases (s.removeProjection frame).receiveFrame frame with ⟨response | answer, s⟩
          · exact alone_done 4 s _ response
          · rw [Function.iterate_succ_apply, alone]
            simp only [advance]
            rcases s.flush with ⟨response | _, s⟩
            · exact alone_done 3 s _ response
            · exact alone_done 3 s _ _

end Steps

/-! ## Schedules -/

/-- The shared state and every request so far. -/
structure World where
  state : SidecarState
  tasks : List Task

/-- A choice of the schedule: a new request, or the next step of one that is there. -/
inductive Choice
  | arrive (call : Call)
  | advance (index : Nat)

/-- The session whose log a request has appended to and not read back yet. -/
def Task.awaits : Task → Option SessionId
  | .flushing chat _ _ => some chat.frame.sessionId
  | .measuring chat _ _ => some chat.frame.sessionId
  | .reading chat _ _ _ _ => some chat.frame.sessionId
  | _ => none

/-- A frame that can change the log of its session: an APPEND on the current root, or a
RESYNC. -/
def changesLog (r : Receiver) : Frame → Bool
  | .append frame => frame.baseRoot = r.store.sessionRoot frame.sessionId
  | .resync _ => true
  | _ => false

/-- The frame that the next step of a request hands to the receiver. -/
def Task.handles : Task → Option Frame
  | .appending chat _ => some (.append chat.frame)
  | .receiving _ frame => some frame
  | _ => none

namespace World

section Run

variable [Blake3] [Zstd] [SerdeJson]

def act (w : World) : Choice → World
  | .arrive call => { w with tasks := w.tasks ++ [.arrived call] }
  | .advance index =>
      match w.tasks[index]? with
      | none => w
      | some task => ⟨(w.state.advance task).1, w.tasks.set index (w.state.advance task).2⟩

def run (w : World) (schedule : List Choice) : World := schedule.foldl act w

/-- A property of the world and the choice at every step of a schedule. -/
def Along (P : World → Choice → Prop) : World → List Choice → Prop
  | _, [] => True
  | w, choice :: rest => P w choice ∧ Along P (w.act choice) rest

/-- The step changes no log that another request has appended to and not read back, and a
RESYNC that it handles states the root over its manifest. -/
def Undisturbed (w : World) : Choice → Prop
  | .arrive _ => True
  | .advance index => ∀ frame ∈ (w.tasks[index]?).bind Task.handles,
      (changesLog w.state.receiver frame = true →
        ∀ other ∈ w.tasks.eraseIdx index, other.awaits ≠ some frame.sessionId) ∧
      w.state.receiver.StepCommits (.frame frame)

/-- What the next step of a request hashes into the target root of an APPEND. -/
def targetInputs (w : World) : Choice → List (List UInt8)
  | .arrive _ => []
  | .advance index =>
      match w.tasks[index]? with
      | some (.appending chat _) =>
          match chat.frame.blocks.mapM (Receiver.resolveBlock w.state.receiver.compressor) with
          | .ok resolved => rootInputs chat.frame.baseRoot (resolved.map Resolved.id)
          | .error _ => []
      | _ => []

def HashesIn (S : Set (List UInt8)) (w : World) (choice : Choice) : Prop :=
  ∀ x ∈ w.targetInputs choice, x ∈ S

/-! On a concrete schedule the conditions can be evaluated. -/

omit [SerdeJson] in
instance (r : Receiver) : ∀ f, Decidable (r.StepCommits (.frame f))
  | .append _ => .isTrue trivial
  | .resync m => inferInstanceAs (Decidable (m.clientRoot = rootOver rootZero m.manifest))
  | .bulk _ => .isTrue trivial
  | .ack _ => .isTrue trivial
  | .missing _ => .isTrue trivial

omit [SerdeJson] in
instance (w : World) : DecidablePred w.Undisturbed
  | .arrive _ => .isTrue trivial
  | .advance index => inferInstanceAs (Decidable (∀ frame ∈ (w.tasks[index]?).bind Task.handles,
      (changesLog w.state.receiver frame = true →
        ∀ other ∈ w.tasks.eraseIdx index, other.awaits ≠ some frame.sessionId) ∧
      w.state.receiver.StepCommits (.frame frame)))

omit [SerdeJson] in
instance (S : Set (List UInt8)) [DecidablePred (· ∈ S)] (w : World) :
    DecidablePred (HashesIn S w) :=
  fun choice => inferInstanceAs (Decidable (∀ x ∈ w.targetInputs choice, x ∈ S))

instance decidableAlong (P : World → Choice → Prop) [∀ w, DecidablePred (P w)] :
    ∀ (w : World) (schedule : List Choice), Decidable (Along P w schedule)
  | _, [] => .isTrue trivial
  | w, choice :: rest =>
      have := decidableAlong P (w.act choice) rest
      inferInstanceAs (Decidable (P w choice ∧ Along P (w.act choice) rest))

/-- Every world of an execution. -/
def worlds (w : World) : List Choice → List World
  | [] => [w]
  | choice :: rest => w :: (w.act choice).worlds rest

theorem mem_worlds_self (w : World) (schedule : List Choice) : w ∈ w.worlds schedule := by
  cases schedule <;> exact List.mem_cons_self

/-- The logs that a session has during an execution. -/
def logs (w : World) (schedule : List Choice) (sid : SessionId) : Set (List BlockId) :=
  {ids | ∃ v ∈ w.worlds schedule, v.state.receiver.store.sessionIds sid = ids}

/-- The logs of an execution are the ones its worlds have entries for, and the empty one. -/
theorem forall_logs {w : World} {schedule : List Choice} {P : List BlockId → Prop} (hnil : P [])
    (h : ∀ v ∈ w.worlds schedule, ∀ e ∈ v.state.receiver.store.sessions.entries, P e.2.ids)
    (sid : SessionId) : ∀ ids ∈ w.logs schedule sid, P ids := by
  rintro ids ⟨v, hv, rfl⟩
  cases hlog : v.state.receiver.store.sessions.get? sid with
  | none =>
      rw [ContentStore.sessionIds, logOf, hlog]
      exact hnil
  | some log =>
      rw [ContentStore.sessionIds, logOf, hlog]
      exact h v hv _ (FinMap.mem_entries hlog)

/-- The one log among `logs` with this root. -/
structure TheLog (logs : Set (List BlockId)) (root : MerkleRoot) (ids : List BlockId) : Prop where
  mem : ids ∈ logs
  commits : rootOver rootZero ids = root
  unique : ∀ ids' ∈ logs, rootOver rootZero ids' = root → ids' = ids

end Run

end World

/-! ## The invariant -/

section Invariant

variable [Blake3] [SerdeJson]

/-- The projection stands for the log of the session with its root. -/
def Stands (H : SessionId → Set (List BlockId)) (r : Receiver) (sid : SessionId)
    (p : CachedChatProjection) : Prop :=
  ∃ ids ∈ H sid, ∃ blocks, rootOver rootZero ids = p.root ∧ Holds r ids blocks ∧
    p.Represents (blocks.map Block.payload)

/-- The request carries this metadata and this frame. -/
def Chat.Carried (chat : Chat) : Prop :=
  ∃ env, ChatEnvelope.decode chat.request.body = .ok env ∧ env.request = chat.metadata ∧
    decodeFrame env.frame = .ok (.append chat.frame)

/-- The session's log is the acknowledged one, its blocks are stored, and the projection
that was looked up stands for its beginning. -/
def Acked (r : Receiver) (sid : SessionId) (cached : Option CachedChatProjection)
    (root : MerkleRoot) : Prop :=
  (r.sessions.get? sid).isSome = true ∧ r.store.sessionRoot sid = root ∧
    ∃ blocks, Holds r (r.store.sessionIds sid) blocks ∧
      ∀ p, cached = some p →
        ∃ n, n ≤ blocks.length ∧ p.Represents ((blocks.take n).map Block.payload)

/-- What a request upstream is made of: the log of the session with the reported root. -/
def Forwards (H : SessionId → Set (List BlockId)) (r : Receiver) (request : Request)
    (root : MerkleRoot) (upstream : Upstream) : Prop :=
  ∃ chat : Chat, chat.request = request ∧ chat.Carried ∧
    ∃ opening, requestPrefix chat.metadata = .ok opening ∧
      ∃ ids ∈ H chat.frame.sessionId, ∃ blocks, rootOver rootZero ids = root ∧
        Holds r ids blocks ∧
        upstream.body = opening ++ messagesJson (blocks.map Block.payload) ++ [0x5D, 0x7D]

/-- What is known about a request at each of its steps. -/
def Task.Sound (H : SessionId → Set (List BlockId)) (r : Receiver) : Task → Prop
  | .looking chat => chat.Carried
  | .appending chat cached =>
      chat.Carried ∧ ∀ p, cached = some p → p.root = chat.frame.baseRoot ∧ Stands H r chat.frame.sessionId p
  | .flushing chat cached ack =>
      chat.Carried ∧ Acked r chat.frame.sessionId cached ack.root
  | .measuring chat cached ack =>
      chat.Carried ∧ Acked r chat.frame.sessionId cached ack.root
  | .reading chat opening cached ack sessionLen =>
      chat.Carried ∧ requestPrefix chat.metadata = .ok opening ∧
        Acked r chat.frame.sessionId cached ack.root ∧
        sessionLen = r.store.sessionLen chat.frame.sessionId
  | .inserting chat opening ack projection =>
      chat.Carried ∧ requestPrefix chat.metadata = .ok opening ∧
        projection.root = ack.root ∧ Stands H r chat.frame.sessionId projection
  | .done (.chat request) (.forwarded root upstream) => Forwards H r request root upstream
  | _ => True

/-- What holds in every world of an undisturbed schedule, in which a session has logs of
`H` only. -/
structure World.Sound (H : SessionId → Set (List BlockId)) (w : World) : Prop where
  wellFormed : w.state.receiver.WellFormed
  committed : w.state.receiver.store.maps.Committed
  logged : ∀ sid, w.state.receiver.store.sessionIds sid ∈ H sid
  cache : ∀ sid p, w.state.chatProjections.entries.get? sid = some p →
    Stands H w.state.receiver sid p
  tasks : ∀ task ∈ w.tasks, task.Sound H w.state.receiver

end Invariant

/-! ## What one step does to the receiver -/

/-- Nothing that was stored or known is forgotten. -/
structure Grows (r r' : Receiver) : Prop where
  blocks : ∀ id b, r.store.blocks.get? id = some b → r'.store.blocks.get? id = some b
  known : ∀ sid, (r.sessions.get? sid).isSome = true → (r'.sessions.get? sid).isSome = true

theorem Grows.refl (r : Receiver) : Grows r r := ⟨fun _ _ h => h, fun _ h => h⟩

theorem grows_flush (r : Receiver) (sync : Bool) :
    Grows r { r with store := (r.store.flushWal sync).2 } :=
  ⟨fun _ _ h => by simpa using h, fun _ h => h⟩

theorem grows_setSession (r : Receiver) (sid : SessionId) (st : SessionState) :
    Grows r (r.setSession sid st) := by
  refine ⟨fun _ _ h => h, ?_⟩
  intro s hs
  simp only [Receiver.setSession, FinMap.get?_set]
  split_ifs
  · rfl
  · exact hs

section Grows

variable [Blake3] [Zstd]

theorem grows_handleFrame (r : Receiver) (f : Frame) : Grows r (r.handleFrame f).2 := by
  obtain ⟨ops, haff, -⟩ := r.handleFrame_affects f
  refine ⟨fun _ _ h => haff.preserves h, ?_⟩
  intro sid hsid
  by_cases hs : sid = f.sessionId
  · subst hs
    cases f with
    | append a =>
        rw [Receiver.handleFrame_append_snd]
        rcases r.handleAppend_cases a with ⟨e, r', hr, rfl | rfl⟩ | ⟨resolved, -, -, -, hr | hr⟩
        · rw [hr]
          exact hsid
        · rw [hr]
          exact (grows_setSession r _ _).known _ hsid
        · rw [hr.2.2]
          exact (grows_setSession r _ _).known _ hsid
        · rw [hr.2]
          exact (grows_setSession r _ _).known _ hsid
    | resync m =>
        rw [Receiver.handleFrame_resync_snd]
        simp [Receiver.handleResync, Receiver.setSession, Frame.sessionId]
    | bulk b =>
        rw [Receiver.handleFrame_bulk_snd]
        rcases r.handleBulk_cases b with ⟨d, hr, -⟩ | ⟨recovered, -, hr⟩
        · rw [hr]
          exact (grows_setSession r _ _).known _ hsid
        · rw [hr]
          simp [Receiver.finished, Receiver.setSession, Frame.sessionId]
    | ack a => exact hsid
    | missing m => exact hsid
  · rw [haff.others sid hs]
    exact hsid

/-- Only an APPEND on the current root or a RESYNC changes a log, and only its own. -/
theorem handleFrame_log (r : Receiver) (f : Frame) {sid : SessionId}
    (h : changesLog r f = true → sid ≠ f.sessionId) :
    logOf (r.handleFrame f).2.store.sessions sid = logOf r.store.sessions sid := by
  obtain ⟨ops, haff, -⟩ := r.handleFrame_affects f
  by_cases hs : sid = f.sessionId
  · subst hs
    have hsame : changesLog r f = false := by
      cases hc : changesLog r f with
      | false => rfl
      | true => exact absurd rfl (h hc)
    cases f with
    | append a =>
        rw [Receiver.handleFrame_append_snd]
        rcases r.handleAppend_cases a with ⟨e, r', hr, rfl | rfl⟩ | ⟨resolved, -, -, -, hr | hr⟩
        · rw [hr]
        · rw [hr]
          rfl
        · rw [hr.2.2]
          rfl
        · simp [changesLog, hr.1] at hsame
    | resync m => cases hsame
    | bulk b =>
        rw [Receiver.handleFrame_bulk_snd]
        rcases r.handleBulk_cases b with ⟨d, hr, -⟩ | ⟨recovered, -, hr⟩
        · rw [hr]
          rfl
        · rw [hr]
          exact congrArg (logOf · _) (Receiver.performAll_contentOps_sessions _ recovered r.store)
    | ack a => rfl
    | missing m => rfl
  · exact haff.logOf hs

end Grows

section Mono

variable [Blake3] [SerdeJson] {H : SessionId → Set (List BlockId)} {r r' : Receiver}

omit [SerdeJson] in
theorem Stands.mono {sid : SessionId} {p : CachedChatProjection} (h : Stands H r sid p)
    (hg : Grows r r') : Stands H r' sid p := by
  obtain ⟨ids, hids, blocks, hroot, hblocks, hp⟩ := h
  exact ⟨ids, hids, blocks, hroot, hblocks.mono hg.blocks, hp⟩

omit [Blake3] [SerdeJson] in
theorem Acked.mono {sid : SessionId} {cached : Option CachedChatProjection} {root : MerkleRoot}
    (h : Acked r sid cached root) (hg : Grows r r')
    (hlog : logOf r'.store.sessions sid = logOf r.store.sessions sid) :
    Acked r' sid cached root := by
  obtain ⟨hknown, hroot, blocks, hblocks, hcached⟩ := h
  refine ⟨hg.known sid hknown, ?_, blocks, ?_, hcached⟩
  · rwa [ContentStore.sessionRoot, hlog]
  · rw [ContentStore.sessionIds, hlog]
    exact hblocks.mono hg.blocks

theorem Forwards.mono {request : Request} {root : MerkleRoot} {upstream : Upstream}
    (h : Forwards H r request root upstream) (hg : Grows r r') :
    Forwards H r' request root upstream := by
  obtain ⟨chat, hrequest, hcarried, opening, hopening, ids, hids, blocks, hroot, hblocks, hbody⟩ := h
  exact ⟨chat, hrequest, hcarried, opening, hopening, ids, hids, blocks, hroot,
    hblocks.mono hg.blocks, hbody⟩

/-- A request stays sound while the log it awaits stays as it is. -/
theorem Task.Sound.mono {task : Task} (h : task.Sound H r) (hg : Grows r r')
    (hlog : ∀ sid, task.awaits = some sid →
      logOf r'.store.sessions sid = logOf r.store.sessions sid) : task.Sound H r' := by
  cases task with
  | arrived call => exact h
  | looking chat => exact h
  | appending chat cached =>
      exact ⟨h.1, fun p hp => ⟨(h.2 p hp).1, (h.2 p hp).2.mono hg⟩⟩
  | flushing chat cached ack => exact ⟨h.1, h.2.mono hg (hlog _ rfl)⟩
  | measuring chat cached ack => exact ⟨h.1, h.2.mono hg (hlog _ rfl)⟩
  | reading chat opening cached ack sessionLen =>
      obtain ⟨hcarried, hopening, hacked, hlen⟩ := h
      refine ⟨hcarried, hopening, hacked.mono hg (hlog _ rfl), ?_⟩
      rw [hlen, ContentStore.sessionLen, ContentStore.sessionLen, ContentStore.sessionIds,
        ContentStore.sessionIds, hlog _ rfl]
  | inserting chat opening ack projection => exact ⟨h.1, h.2.1, h.2.2.1, h.2.2.2.mono hg⟩
  | removing request frame => exact h
  | receiving request frame => exact h
  | answering request answer => exact h
  | done call response =>
      cases call with
      | frame request => exact h
      | chat request =>
          cases response with
          | forwarded root upstream => exact Forwards.mono h hg
          | error status message current => exact h
          | panic => exact h
          | frame body => exact h
          | noContent => exact h

end Mono

/-! ## Every step keeps the invariant -/

section Append

variable [Blake3] [Zstd] {S : Set (List UInt8)} {r r' : Receiver}

/-- An acknowledged APPEND leads to the log of its base root and its own ids, whether it
was applied now or before. -/
theorem handleAppend_from_base (hcommitted : r.store.maps.Committed)
    (hashed : ∀ sid, ∀ x ∈ rootInputs rootZero (r.store.sessionIds sid), x ∈ S)
    (hS : CollisionFree S) {frame : AppendFrame} {ack : AckFrame}
    (happend : r.handleAppend frame = (.ok ack, r'))
    (htarget : ∀ resolved, frame.blocks.mapM (Receiver.resolveBlock r.compressor) = .ok resolved →
      ∀ x ∈ rootInputs frame.baseRoot (resolved.map Resolved.id), x ∈ S) :
    r'.store.sessionRoot frame.sessionId = ack.root ∧
      ∃ new, ∀ ids, rootOver rootZero ids = frame.baseRoot →
        (∀ x ∈ rootInputs rootZero ids, x ∈ S) →
        r'.store.sessionIds frame.sessionId = ids ++ new := by
  have hroot : r.store.sessionRoot frame.sessionId =
      rootOver rootZero (r.store.sessionIds frame.sessionId) := hcommitted frame.sessionId
  rcases r.handleAppend_cases frame with
    ⟨e, r₁, hr, -⟩ | ⟨resolved, hres, havail, -, ⟨-, hsame, hr⟩ | ⟨hbase, hr⟩⟩
  · rw [hr] at happend
    cases happend
  · -- the frame was applied before
    rw [hr] at happend
    cases happend
    refine ⟨rfl, resolved.map Resolved.id, ?_⟩
    intro ids hids hin
    apply rootOver_injective hS (hashed _)
    · intro x hx
      rw [rootInputs_append, hids] at hx
      rcases List.mem_append.mp hx with hold | hnew
      · exact hin x hold
      · exact htarget resolved hres x hnew
    · rw [rootOver_append, hids, hsame, hroot]
  · rw [hr] at happend
    cases happend
    obtain ⟨-, -, hlog, -⟩ := Receiver.applyResolved_spec frame.sessionId r.store
      (Receiver.resolve_addressed hres) (fun id hid => by simpa using hid) havail
    have hnext := hlog frame.sessionId
    rw [if_pos rfl] at hnext
    refine ⟨?_, resolved.map Resolved.id, ?_⟩
    · rw [ContentStore.sessionRoot, hnext, hbase]
      rfl
    · intro ids hids hin
      have hsame : ids = r.store.sessionIds frame.sessionId := by
        apply rootOver_injective hS hin (hashed _)
        rw [hids, hbase, hroot]
      rw [ContentStore.sessionIds, hnext, hsame]
      rfl

/-- After the append the log is the acknowledged one, and the projection stands for its
beginning. -/
theorem acked_of_append {H : SessionId → Set (List BlockId)}
    (hH : ∀ sid, ∀ ids ∈ H sid, ∀ x ∈ rootInputs rootZero ids, x ∈ S) (hwf : r.WellFormed)
    (hcommitted : r.store.maps.Committed) (hlogged : ∀ sid, r.store.sessionIds sid ∈ H sid)
    (hS : CollisionFree S) {frame : AppendFrame} {ack : AckFrame}
    (happend : r.handleAppend frame = (.ok ack, r'))
    (htarget : ∀ resolved, frame.blocks.mapM (Receiver.resolveBlock r.compressor) = .ok resolved →
      ∀ x ∈ rootInputs frame.baseRoot (resolved.map Resolved.id), x ∈ S)
    {cached : Option CachedChatProjection}
    (hcached : ∀ p, cached = some p → p.root = frame.baseRoot ∧ Stands H r frame.sessionId p) :
    Acked r' frame.sessionId cached ack.root := by
  obtain ⟨hknown, hpend⟩ := Receiver.handleAppend_ok happend
  obtain ⟨hroot, new, hids⟩ := handleAppend_from_base hcommitted
    (fun sid => hH sid _ (hlogged sid)) hS happend htarget
  have hr' : r' = (r.handleFrame (.append frame)).2 := by
    rw [Receiver.handleFrame_append_snd, happend]
  have hwf' : r'.WellFormed := by
    rw [hr']
    exact hwf.handleFrame _
  have hgrows : Grows r r' := by
    rw [hr']
    exact grows_handleFrame r _
  obtain ⟨-, hblocks⟩ := hwf'.reconstruct hpend
  refine ⟨hknown, hroot, r'.reconstruct frame.sessionId, hblocks, ?_⟩
  intro p hp
  obtain ⟨hbase, ids, hmem, blocks, hrootOf, hheld, hrep⟩ := hcached p hp
  have hlog := hids ids (hrootOf.trans hbase) (hH _ ids hmem)
  have hbegin : (r'.reconstruct frame.sessionId).take ids.length = blocks := by
    have htake : Holds r' ((r'.store.sessionIds frame.sessionId).take ids.length)
        ((r'.reconstruct frame.sessionId).take ids.length) := List.forall₂_take ids.length hblocks
    rw [hlog, List.take_left] at htake
    exact htake.unique (hheld.mono hgrows.blocks)
  refine ⟨ids.length, ?_, hbegin ▸ hrep⟩
  rw [← hblocks.length_eq, hlog, List.length_append]
  exact Nat.le_add_right _ _

end Append

section Read

variable [Blake3] [SerdeJson] {H : SessionId → Set (List BlockId)} {s : SidecarState}

/-- The projection that is built from the acknowledged log stands for it. -/
theorem stands_of_build (hcommitted : s.receiver.store.maps.Committed)
    (hlogged : ∀ sid, s.receiver.store.sessionIds sid ∈ H sid) {sid : SessionId} {cached : Option CachedChatProjection} {root : MerkleRoot}
    (hacked : Acked s.receiver sid cached root) {q : CachedChatProjection}
    (hbuild : s.buildProjection sid root (s.receiver.store.sessionLen sid) cached = .ok q) :
    q.root = root ∧ Stands H s.receiver sid q := by
  obtain ⟨hknown, hroot, blocks, hblocks, hcached⟩ := hacked
  obtain ⟨hq, hrep⟩ : q.root = root ∧ q.Represents (blocks.map Block.payload) := by
    unfold SidecarState.buildProjection at hbuild
    split at hbuild
    · cases hbuild
    · rename_i built hok
      cases hbuild
      cases cached with
      | none =>
          obtain ⟨q', hq', hrep', hrebuild⟩ := reconstructProjection hblocks hknown root
            (s.receiver.store.sessionLen sid)
          rw [hrebuild] at hok
          cases hvalid : validateMessages 0 blocks with
          | error e =>
              rw [hvalid] at hok
              cases hok
          | ok u =>
              rw [hvalid] at hok
              cases hok
              exact ⟨hq', hrep'⟩
      | some p =>
          obtain ⟨n, hn, hp⟩ := hcached p rfl
          obtain ⟨q', hextend, hq', hrep'⟩ := extendProjection hblocks hknown root hn hp
          cases hextend.symm.trans hok
          exact ⟨hq', hrep'⟩
  refine ⟨hq, s.receiver.store.sessionIds sid, hlogged sid, blocks, ?_, hblocks, hrep⟩
  rw [hq, ← hroot]
  exact (hcommitted sid).symm

end Read

section Advance

variable [Blake3] [Zstd] [SerdeJson] (s : SidecarState)

/-- The state after the next step of a request. -/
def afterStep (s : SidecarState) : Task → SidecarState
  | .looking chat => (s.lookupProjection chat.frame).2
  | .appending chat _ => s.withReceiver (s.receiver.handleAppend chat.frame).2
  | .flushing _ _ _ | .answering _ _ =>
      s.withReceiver { s.receiver with store := (s.receiver.store.flushWal s.syncWal).2 }
  | .inserting chat _ _ projection =>
      s.withProjections (s.chatProjections.insert chat.frame.sessionId projection)
  | .removing _ frame => s.removeProjection frame
  | .receiving _ frame => s.withReceiver (s.receiver.handleFrame frame).2
  | .arrived _ | .measuring _ _ _ | .reading _ _ _ _ _ | .done _ _ => s

/-- Whether a step succeeds decides about the task that is left, not about the state. -/
theorem advance_fst (task : Task) : (s.advance task).1 = afterStep s task := by
  cases task with
  | arrived call =>
      cases call with
      | chat request =>
          simp only [SidecarState.advance]
          split <;> rfl
      | frame request =>
          simp only [SidecarState.advance]
          split <;> rfl
  | looking chat => rfl
  | appending chat cached =>
      rw [afterStep, ← s.appendChat_state chat.frame]
      simp only [SidecarState.advance]
      split <;> simp_all only
  | flushing chat cached ack =>
      rw [afterStep, ← s.flush_state]
      simp only [SidecarState.advance]
      split <;> simp_all only
  | measuring chat cached ack =>
      simp only [SidecarState.advance]
      split <;> rfl
  | reading chat opening cached ack sessionLen =>
      simp only [SidecarState.advance]
      split <;> rfl
  | inserting chat opening ack projection => rfl
  | removing request frame => rfl
  | receiving request frame =>
      rw [afterStep, ← s.receiveFrame_state frame]
      simp only [SidecarState.advance]
      split <;> simp_all only
  | answering request answer =>
      rw [afterStep, ← s.flush_state]
      simp only [SidecarState.advance]
      split <;> simp_all only
  | done call response => rfl

/-- A step leaves the receiver alone, flushes its log, or hands it one frame. -/
theorem advance_receiver (task : Task) :
    (s.advance task).1.receiver = s.receiver ∨
    (s.advance task).1.receiver =
      { s.receiver with store := (s.receiver.store.flushWal s.syncWal).2 } ∨
    ∃ frame, task.handles = some frame ∧
      (s.advance task).1.receiver = (s.receiver.handleFrame frame).2 := by
  rw [advance_fst]
  cases task with
  | appending chat cached =>
      refine Or.inr (Or.inr ⟨.append chat.frame, rfl, ?_⟩)
      rw [Receiver.handleFrame_append_snd]
      rfl
  | receiving request frame => exact Or.inr (Or.inr ⟨frame, rfl, rfl⟩)
  | flushing chat cached ack => exact Or.inr (Or.inl rfl)
  | answering request answer => exact Or.inr (Or.inl rfl)
  | arrived call => exact Or.inl rfl
  | looking chat => exact Or.inl rfl
  | measuring chat cached ack => exact Or.inl rfl
  | reading chat opening cached ack sessionLen => exact Or.inl rfl
  | inserting chat opening ack projection => exact Or.inl rfl
  | removing request frame => exact Or.inl rfl
  | done call response => exact Or.inl rfl

/-- A step keeps some of the cached projections, and adds at most its own. -/
theorem advance_entries {task : Task} {sid : SessionId} {p : CachedChatProjection}
    (h : (s.advance task).1.chatProjections.entries.get? sid = some p) :
    s.chatProjections.entries.get? sid = some p ∨
      ∃ chat opening ack, task = .inserting chat opening ack p ∧ sid = chat.frame.sessionId := by
  rw [advance_fst] at h
  cases task with
  | looking chat =>
      left
      simpa only [afterStep, SidecarState.lookupProjection, SidecarState.withProjections,
        ChatProjectionCache.get_entries] using h
  | inserting chat opening ack projection =>
      rcases ChatProjectionCache.get?_of_insert h with ⟨hsid, rfl⟩ | ⟨-, hentry⟩
      · exact Or.inr ⟨chat, opening, ack, rfl, hsid⟩
      · exact Or.inl hentry
  | removing request frame => exact Or.inl (ChatProjectionCache.get?_of_remove h).2
  | arrived call => exact Or.inl h
  | appending chat cached => exact Or.inl h
  | flushing chat cached ack => exact Or.inl h
  | measuring chat cached ack => exact Or.inl h
  | reading chat opening cached ack sessionLen => exact Or.inl h
  | receiving request frame => exact Or.inl h
  | answering request answer => exact Or.inl h
  | done call response => exact Or.inl h

/-- What the checks of a chat request establish. -/
theorem carried_of_checkChat {request : Request} {metadata : Value} {frame : AppendFrame}
    (h : s.checkChat request = .ok (metadata, frame)) :
    Chat.Carried ⟨request, metadata, frame⟩ := by
  unfold SidecarState.checkChat at h
  split_ifs at h
  split at h
  · cases h
  · rename_i env hdecode
    split at h
    · cases h
    · split at h
      · cases h
      · cases h
      · rename_i hframe
        split at h
        · cases h
        · cases h
          exact ⟨env, hdecode, rfl, hframe⟩
      · cases h

/-! Only the last step of a chat request answers with an upstream request. -/

/-- A response that sends nothing upstream. -/
def Response.Refuses (response : Response) : Prop :=
  ∀ root upstream, response ≠ .forwarded root upstream

omit [Zstd] in
theorem sound_of_refuses {H : SessionId → Set (List BlockId)} {r : Receiver}
    {response : Response} (h : response.Refuses) (call : Call) :
    (Task.done call response).Sound H r := by
  cases call with
  | frame request => trivial
  | chat request =>
      cases response with
      | forwarded root upstream => exact absurd rfl (h root upstream)
      | error status message current => trivial
      | panic => trivial
      | frame body => trivial
      | noContent => trivial

theorem checkChat_refuses {request : Request} {response : Response}
    (h : s.checkChat request = .error response) : response.Refuses := by
  intro root upstream hforwarded
  subst hforwarded
  unfold SidecarState.checkChat at h
  split_ifs at h
  · split at h
    · cases h
    · split at h
      · cases h
      · split at h
        · cases h
        · cases h
        · split at h <;> cases h
        · cases h
  · cases h

omit [Blake3] [Zstd] [SerdeJson] in
theorem receiverErrorResponse_refuses (e : ReceiverError) : (receiverErrorResponse e).Refuses := by
  intro root upstream hforwarded
  cases e <;> exact nomatch hforwarded

omit [Blake3] [Zstd] [SerdeJson] in
theorem flush_refuses {flushed : SidecarState} {response : Response}
    (h : s.flush = (.error response, flushed)) : response.Refuses := by
  intro root upstream hforwarded
  subst hforwarded
  unfold SidecarState.flush at h
  split at h <;> cases h

omit [Blake3] [Zstd] in
theorem buildProjection_refuses {sid : SessionId} {root : MerkleRoot} {sessionLen : Nat}
    {cached : Option CachedChatProjection} {response : Response}
    (h : s.buildProjection sid root sessionLen cached = .error response) : response.Refuses := by
  intro root upstream hforwarded
  subst hforwarded
  unfold SidecarState.buildProjection at h
  split at h <;> cases h

end Advance

namespace World

variable [Blake3] [Zstd] [SerdeJson] {H : SessionId → Set (List BlockId)} {w : World}

/-- What a step of a request does to the shared state. -/
theorem Sound.state (h : w.Sound H) {task : Task}
    (hcommits : ∀ frame, task.handles = some frame →
      w.state.receiver.StepCommits (.frame frame)) :
    (w.state.advance task).1.receiver.WellFormed ∧
      (w.state.advance task).1.receiver.store.maps.Committed ∧
      Grows w.state.receiver (w.state.advance task).1.receiver ∧
      ∀ sid, (∀ frame, task.handles = some frame → changesLog w.state.receiver frame = true →
          sid ≠ frame.sessionId) →
        logOf (w.state.advance task).1.receiver.store.sessions sid =
          logOf w.state.receiver.store.sessions sid := by
  rcases advance_receiver w.state task with hsame | hflush | ⟨frame, hframe, hhandle⟩
  · rw [hsame]
    exact ⟨h.wellFormed, h.committed, .refl _, fun _ _ => rfl⟩
  · rw [hflush]
    refine ⟨h.wellFormed.flush _, ?_, grows_flush _ _, fun _ _ => by simp⟩
    intro sid
    simpa using h.committed sid
  · rw [hhandle]
    obtain ⟨ops, haff, hops⟩ := w.state.receiver.handleFrame_commits (hcommits frame hframe)
    refine ⟨h.wellFormed.handleFrame frame, ?_, grows_handleFrame _ frame, ?_⟩
    · rw [haff.store]
      exact performAll_committed hops h.committed
    · intro sid hsid
      exact handleFrame_log _ frame (hsid frame hframe)

/-- A request is sound after its own step. -/
theorem Sound.own (h : w.Sound H) {S : Set (List UInt8)} (hS : CollisionFree S)
    (hH : ∀ sid, ∀ ids ∈ H sid, ∀ x ∈ rootInputs rootZero ids, x ∈ S) {task : Task}
    (htask : task.Sound H w.state.receiver)
    (htarget : ∀ chat cached resolved, task = .appending chat cached →
      chat.frame.blocks.mapM (Receiver.resolveBlock w.state.receiver.compressor) = .ok resolved →
      ∀ x ∈ rootInputs chat.frame.baseRoot (resolved.map Resolved.id), x ∈ S) :
    (w.state.advance task).2.Sound H (w.state.advance task).1.receiver := by
  cases task with
  | arrived call =>
      cases call with
      | chat request =>
          simp only [SidecarState.advance]
          cases hcheck : w.state.checkChat request with
          | error response => exact sound_of_refuses (checkChat_refuses w.state hcheck) _
          | ok checked => exact carried_of_checkChat w.state hcheck
      | frame request =>
          simp only [SidecarState.advance]
          split <;> trivial
  | looking chat =>
      refine ⟨htask, ?_⟩
      intro p hp
      obtain ⟨hentry, hroot⟩ := ChatProjectionCache.get_eq_some hp
      exact ⟨hroot, h.cache _ p hentry⟩
  | appending chat cached =>
      simp only [SidecarState.advance, SidecarState.appendChat]
      cases happend : w.state.receiver.handleAppend chat.frame with
      | mk result receiver =>
          cases result with
          | error e => exact sound_of_refuses (receiverErrorResponse_refuses e) _
          | ok ack =>
              exact ⟨htask.1, acked_of_append hH h.wellFormed h.committed h.logged hS happend
                (fun resolved => htarget chat cached resolved rfl) htask.2⟩
  | flushing chat cached ack =>
      simp only [SidecarState.advance]
      cases hflush : w.state.flush with
      | mk result flushed =>
          cases result with
          | error response => exact sound_of_refuses (flush_refuses w.state hflush) _
          | ok u =>
              refine ⟨htask.1, ?_⟩
              rw [SidecarState.flush_eq hflush]
              apply htask.2.mono (grows_flush _ w.state.syncWal)
              simp
  | measuring chat cached ack =>
      simp only [SidecarState.advance]
      cases hopening : requestPrefix chat.metadata with
      | error e => trivial
      | ok opening => exact ⟨htask.1, hopening, htask.2, rfl⟩
  | reading chat opening cached ack sessionLen =>
      obtain ⟨hcarried, hopening, hacked, rfl⟩ := htask
      simp only [SidecarState.advance]
      cases hbuild : w.state.buildProjection chat.frame.sessionId ack.root
          (w.state.receiver.store.sessionLen chat.frame.sessionId) cached with
      | error response => exact sound_of_refuses (buildProjection_refuses w.state hbuild) _
      | ok q => exact ⟨hcarried, hopening, stands_of_build h.committed h.logged hacked hbuild⟩
  | inserting chat opening ack projection =>
      obtain ⟨hcarried, hopening, hroot, ids, hmem, blocks, hids, hblocks, hrep⟩ := htask
      refine ⟨chat, rfl, hcarried, opening, hopening, ids, hmem, blocks, hids.trans hroot,
        hblocks, ?_⟩
      rw [← hrep.chunks]
      rfl
  | removing request frame => trivial
  | receiving request frame =>
      simp only [SidecarState.advance]
      split <;> trivial
  | answering request answer =>
      simp only [SidecarState.advance]
      split <;> trivial
  | done call response => exact htask

/-- One step of an undisturbed schedule keeps the invariant. -/
theorem Sound.act (h : w.Sound H) {S : Set (List UInt8)} (hS : CollisionFree S)
    (hH : ∀ sid, ∀ ids ∈ H sid, ∀ x ∈ rootInputs rootZero ids, x ∈ S) {choice : Choice}
    (hcond : w.Undisturbed choice) (hin : HashesIn S w choice)
    (hnext : ∀ sid, (w.act choice).state.receiver.store.sessionIds sid ∈ H sid) :
    (w.act choice).Sound H := by
  cases choice with
  | arrive call =>
      refine ⟨h.wellFormed, h.committed, hnext, h.cache, ?_⟩
      intro task htask
      rcases List.mem_append.mp htask with hold | hnew
      · exact h.tasks task hold
      · rw [List.mem_singleton.mp hnew]
        trivial
  | advance index =>
      simp only [World.act] at hnext ⊢
      cases hget : w.tasks[index]? with
      | none => exact h
      | some task =>
          rw [hget] at hnext
          have htask := h.tasks task (List.mem_of_getElem? hget)
          simp only [Undisturbed, hget, Option.bind_some] at hcond
          obtain ⟨hwf, hcommitted, hgrows, hlog⟩ := h.state fun frame hframe =>
            (hcond frame hframe).2
          have hown := h.own hS hH htask fun chat cached resolved happending hres => by
            subst happending
            simpa only [HashesIn, targetInputs, hget, hres] using hin
          refine ⟨hwf, hcommitted, hnext, ?_, ?_⟩
          · intro sid p hp
            rcases advance_entries w.state hp with hentry | ⟨chat, opening, ack, rfl, rfl⟩
            · exact (h.cache sid p hentry).mono hgrows
            · exact htask.2.2.2.mono hgrows
          · intro other hother
            obtain ⟨k, hk⟩ := List.mem_iff_getElem?.mp hother
            rw [List.getElem?_set] at hk
            split_ifs at hk with hindex
            · cases hk
              exact hown
            · -- another request, whose log this step leaves alone
              apply (h.tasks other (List.mem_of_getElem? hk)).mono hgrows
              intro sid hawaits
              apply hlog sid
              rintro frame hframe hchanges rfl
              apply (hcond frame hframe).1 hchanges other ?_ hawaits
              rw [List.mem_eraseIdx_iff_getElem?]
              exact ⟨k, Ne.symm hindex, hk⟩

/-- A whole undisturbed schedule keeps the invariant. -/
theorem Sound.run (h : w.Sound H) {S : Set (List UInt8)} (hS : CollisionFree S)
    (hH : ∀ sid, ∀ ids ∈ H sid, ∀ x ∈ rootInputs rootZero ids, x ∈ S) {schedule : List Choice}
    (hcond : Along Undisturbed w schedule) (hin : Along (HashesIn S) w schedule)
    (hlogs : ∀ v ∈ w.worlds schedule, ∀ sid, v.state.receiver.store.sessionIds sid ∈ H sid) :
    (w.run schedule).Sound H := by
  induction schedule generalizing w with
  | nil => exact h
  | cons choice rest ih =>
      have hnext := hlogs (w.act choice) (List.mem_cons_of_mem _ (mem_worlds_self _ rest))
      refine ih (h.act hS hH hcond.1 hin.1 hnext) hcond.2 hin.2 ?_
      exact fun v hv => hlogs v (List.mem_cons_of_mem _ hv)

/-- The world at the start of an execution over a receiver that honest frames reached. -/
theorem sound_new {r : Receiver} (hr : Receiver.Reaches Receiver.StepCommits r) (url : String)
    (token : Option (List UInt8)) (sync : Bool) (hlogs : ∀ sid, r.store.sessionIds sid ∈ H sid) :
    (⟨SidecarState.new r url token sync, []⟩ : World).Sound H where
  wellFormed := hr.wellFormed
  committed := hr.committedWithLog.maps
  logged := hlogs
  cache := by
    intro sid p hp
    simp [SidecarState.new] at hp
  tasks := by simp

/-- In every schedule of any number of chat and frame requests in which no other request
changes a session's log between the append of a chat request and its reading the log back,
and RESYNC frames state the root over their manifest: a chat request that reports an ACK
root sends upstream the payloads of the one log of its session with this root, and every
cached projection stands for the one log of its session with its root. -/
theorem forwarded_is_acked_log {r : Receiver} (hr : Receiver.Reaches Receiver.StepCommits r)
    (url : String) (token : Option (List UInt8)) (sync : Bool) (schedule : List Choice)
    {S : Set (List UInt8)} (hS : CollisionFree S) :
    let start : World := ⟨SidecarState.new r url token sync, []⟩
    let w := start.run schedule
    Along Undisturbed start schedule → Along (HashesIn S) start schedule →
    (∀ sid, ∀ ids ∈ start.logs schedule sid, ∀ x ∈ rootInputs rootZero ids, x ∈ S) →
    (∀ request root upstream, .done (.chat request) (.forwarded root upstream) ∈ w.tasks →
      ∃ chat : Chat, chat.request = request ∧ chat.Carried ∧
        ∃ opening, requestPrefix chat.metadata = .ok opening ∧
        ∃ ids blocks, TheLog (start.logs schedule chat.frame.sessionId) root ids ∧
          Holds w.state.receiver ids blocks ∧
          upstream.body = opening ++ messagesJson (blocks.map Block.payload) ++ [0x5D, 0x7D]) ∧
    ∀ sid p, w.state.chatProjections.entries.get? sid = some p →
      ∃ ids blocks, TheLog (start.logs schedule sid) p.root ids ∧
        Holds w.state.receiver ids blocks ∧ p.Represents (blocks.map Block.payload) := by
  intro start w hcond hin hH
  have hsound : w.Sound (start.logs schedule) := by
    apply (sound_new hr url token sync fun sid => ?_).run hS hH hcond hin
    · exact fun v hv sid => ⟨v, hv, rfl⟩
    · exact ⟨start, mem_worlds_self start schedule, rfl⟩
  have hunique : ∀ sid root, ∀ ids ∈ start.logs schedule sid, rootOver rootZero ids = root →
      TheLog (start.logs schedule sid) root ids := by
    intro sid root ids hids hroot
    refine ⟨hids, hroot, ?_⟩
    intro ids' hids' hroot'
    exact rootOver_injective hS (hH sid ids' hids') (hH sid ids hids) (hroot'.trans hroot.symm)
  constructor
  · intro request root upstream hdone
    obtain ⟨chat, hrequest, hcarried, opening, hopening, ids, hids, blocks, hroot, hblocks, hbody⟩ :=
      hsound.tasks _ hdone
    exact ⟨chat, hrequest, hcarried, opening, hopening, ids, blocks,
      hunique _ root ids hids hroot, hblocks, hbody⟩
  · intro sid p hp
    obtain ⟨ids, hids, blocks, hroot, hblocks, hrep⟩ := hsound.cache sid p hp
    exact ⟨ids, blocks, hunique sid p.root ids hids hroot, hblocks, hrep⟩

omit [Blake3] [Zstd] [SerdeJson] in
/-- A chat request between whose append and reading the log of another session is
replaced. -/
theorem forwarded_is_acked_log_beside_resync :
    letI := prefixHash
    letI := storedZstd
    let message : Value := .object [("role", .string "user")]
    letI := sampleJson [.object [], message]
    let block : Block := ⟨.message, 1, message.print⟩
    let request : Request := ⟨[], (ChatEnvelope.encodeParts (requestMetadata (.object []))
      (encodeFrame (.append ⟨5, rootZero,
        [.inline ⟨.message, 1, 0 :: canonicalBytes block⟩]⟩))).toOption.getD []⟩
    let other : Request := ⟨[], encodeFrame (.resync ⟨7, rootZero, []⟩)⟩
    let start : World :=
      ⟨SidecarState.new (Receiver.new ContentStore.new Compressor.default) "" none true, []⟩
    let schedule : List Choice := [.arrive (.chat request), .arrive (.frame other), .advance 0,
      .advance 0, .advance 0, .advance 1, .advance 1, .advance 1, .advance 1, .advance 0,
      .advance 0, .advance 0, .advance 0]
    let w := start.run schedule
    ∃ root upstream, .done (.chat request) (.forwarded root upstream) ∈ w.tasks ∧
      ∃ chat : Chat, chat.request = request ∧
        ∃ ids, TheLog (start.logs schedule chat.frame.sessionId) root ids := by
  let _ := prefixHash
  let _ := storedZstd
  intro message
  let _ := sampleJson [.object [], message]
  intro block request other start schedule w
  let hashed : List (List UInt8) := [rootZero.bytes ++ block.blockId.bytes]
  have hS : CollisionFree {x | x ∈ hashed} := by
    refine ⟨?_, fun x _ => prefixHash_ne_rootZero x⟩
    intro x hx y hy _
    exact (List.mem_singleton.mp hx).trans (List.mem_singleton.mp hy).symm
  have hcond : decide (Along Undisturbed start schedule) = true := by decide +kernel
  have hin : decide (Along (HashesIn {x | x ∈ hashed}) start schedule) = true := by decide +kernel
  have hlogs : ∀ v ∈ start.worlds schedule, ∀ e ∈ v.state.receiver.store.sessions.entries,
      ∀ x ∈ rootInputs rootZero e.2.ids, x ∈ hashed := by decide +kernel
  have hserved : w.tasks.any (Task.forwards request) = true := by decide +kernel
  have hsound := forwarded_is_acked_log (.volatile Compressor.default) "" none true schedule hS
    (of_decide_eq_true hcond) (of_decide_eq_true hin)
    (fun sid => forall_logs (by simp [rootInputs, HashChain.links]) hlogs sid)
  -- from here on nothing evaluates the schedule again
  change (∀ request root upstream, .done (.chat request) (.forwarded root upstream) ∈ w.tasks →
    _) ∧ _ at hsound
  obtain ⟨root, upstream, hdone⟩ : ∃ root upstream,
      .done (.chat request) (.forwarded root upstream) ∈ w.tasks := by
    clear hsound hlogs hin hcond
    clear_value w request
    obtain ⟨task, htask, hforwards⟩ := List.any_eq_true.mp hserved
    obtain ⟨root, upstream, rfl⟩ := Task.eq_done_of_forwards hforwards
    exact ⟨root, upstream, htask⟩
  obtain ⟨chat, hchat, -, opening, -, ids, blocks, hlog, -⟩ := hsound.1 request root upstream hdone
  exact ⟨root, upstream, hdone, chat, hchat, ids, hlog⟩

omit [Blake3] [Zstd] [SerdeJson] in
/-- Two chat requests on one session. The second appends before the first reads the log
back, so the first reports the root of its own turn and sends both messages upstream, and
leaves a projection of both under that root. -/
theorem overtaken_request_forwards_later_turn :
    letI := prefixHash
    letI := storedZstd
    let message : Value := .object [("role", .string "user")]
    letI := sampleJson [.object [], message]
    let block := fun (seq : UInt64) => (⟨.message, seq, message.print⟩ : Block)
    let chat := fun (base : MerkleRoot) (seq : UInt64) =>
      Call.chat ⟨[], (ChatEnvelope.encodeParts (requestMetadata (.object [])) (encodeFrame (.append
        ⟨5, base, [.inline ⟨.message, seq, 0 :: canonicalBytes (block seq)⟩]⟩))).toOption.getD []⟩
    let first := chat rootZero 1
    let root := rootOver rootZero [(block 1).blockId]
    let second := chat root 2
    let start : World :=
      ⟨SidecarState.new (Receiver.new ContentStore.new Compressor.default) "" none true, []⟩
    let appended := start.run [.arrive first, .advance 0, .advance 0, .advance 0]
    let w := appended.run [.arrive second, .advance 1, .advance 1, .advance 1,
      .advance 0, .advance 0, .advance 0, .advance 0]
    let body := fun (payloads : List (List UInt8)) =>
      ((requestPrefix (.object [])).toOption.getD []) ++ messagesJson payloads ++ [0x5D, 0x7D]
    -- the log that was acknowledged
    appended.state.receiver.store.sessionIds 5 = [(block 1).blockId] ∧
      appended.state.receiver.store.sessionRoot 5 = root ∧
      -- what was sent upstream under its root
      (w.tasks[0]?.bind fun task => match task with
        | .done _ (.forwarded ack upstream) => some (ack, upstream.body)
        | _ => none) = some (root, body [(block 1).payload, (block 2).payload]) ∧
      body [(block 1).payload, (block 2).payload] ≠ body [(block 1).payload] ∧
      (w.state.chatProjections.entries.get? 5).map (fun p => (p.root, p.messageCount)) =
        some (root, 2) := by
  decide +kernel

end World

end Dlr.Sidecar
