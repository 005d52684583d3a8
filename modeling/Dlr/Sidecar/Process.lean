import Dlr.Sidecar.AckDurability

/-!
# The sidecar process

The process checks its listen address and token, opens its log, serves requests and readiness
probes, and flushes the log when it is told to stop. Requests without the token leave no trace, and
what is in the receiver when the process stops is there when it is started again.

## Implementation notes

The address is the one the process is configured with; binding it and creating the directory of the
log are left out. The text of the address is a parameter.
-/

namespace Dlr.Sidecar

open Dlr.Core Coding Compress Lib.Machine

/-! ## Start -/

inductive IpAddr
  | v4 (a b c d : UInt8)
  | v6 (bits : BitVec 128)
  deriving DecidableEq

def IpAddr.isLoopback : IpAddr → Bool
  | .v4 a _ _ _ => a = 127
  | .v6 bits => bits = 1

structure Args where
  listen : IpAddr
  /-- How the address with its port is printed. -/
  listenText : String
  upstreamUrl : String
  ingressTokenEnv : String
  syncWal : Bool
  deriving DecidableEq

section Start

variable [Blake3]

/-- The process up to its listener: the environment, the log file and the outcomes of the writes and
flushes to come. -/
def start (args : Args) (env : String → Option (List UInt8)) (file : List UInt8)
    (writes : List (Option (Nat × IoError))) (flushes : List (Option IoError)) :
    Except String SidecarState :=
  let ingressToken := (env args.ingressTokenEnv).filter fun token => token ≠ []
  if ¬args.listen.isLoopback ∧ ingressToken.isNone then
    .error ("refusing to bind " ++ args.listenText ++ " without a token in " ++ args.ingressTokenEnv)
  else
    match ContentStore.withWal file writes flushes with
    | .error e => .error e.message
    | .ok store =>
        .ok (SidecarState.new (Receiver.new store Compressor.default) args.upstreamUrl ingressToken
          args.syncWal)

variable {args : Args} {env : String → Option (List UInt8)} {file : List UInt8}
  {writes : List (Option (Nat × IoError))} {flushes : List (Option IoError)} {s : SidecarState}

/-- A started process has opened its log, and has a token unless it listens on the loopback. -/
theorem start_spec (h : start args env file writes flushes = .ok s) :
    ∃ store, ContentStore.withWal file writes flushes = .ok store ∧
      s = SidecarState.new (Receiver.new store Compressor.default) args.upstreamUrl
        ((env args.ingressTokenEnv).filter fun token => token ≠ []) args.syncWal ∧
      (args.listen.isLoopback = false →
        ∃ token, token ≠ [] ∧ env args.ingressTokenEnv = some token ∧
          s.ingressToken = some token) := by
  unfold start at h
  simp only at h
  split_ifs at h with hrefused
  split at h
  · cases h
  · rename_i store hopen
    cases h
    refine ⟨store, hopen, rfl, fun hremote => ?_⟩
    cases htoken : (env args.ingressTokenEnv).filter fun token => token ≠ [] with
    | none => exact absurd ⟨by simp [hremote], by rw [htoken]; rfl⟩ hrefused
    | some token =>
        obtain ⟨henv, hne⟩ := Option.filter_eq_some_iff.mp htoken
        exact ⟨token, by simpa using hne, henv, rfl⟩

/-- Whether a process starts on another file depends on the file alone. -/
theorem start_of_open (h : start args env file writes flushes = .ok s) {file' : List UInt8}
    {writes' : List (Option (Nat × IoError))} {flushes' : List (Option IoError)}
    {store : ContentStore} (hopen : ContentStore.withWal file' writes' flushes' = .ok store) :
    start args env file' writes' flushes' =
      .ok (SidecarState.new (Receiver.new store Compressor.default) args.upstreamUrl
        ((env args.ingressTokenEnv).filter fun token => token ≠ []) args.syncWal) := by
  unfold start at h ⊢
  simp only at h ⊢
  split_ifs at h ⊢ with hrefused
  rw [hopen]

end Start

/-! ## What a request leaves as it is -/

namespace SidecarState

variable [Blake3] [Zstd] [SerdeJson]

/-- What the process was configured with. -/
def config (s : SidecarState) : String × Option (List UInt8) × Bool :=
  (s.upstreamUrl, s.ingressToken, s.syncWal)

omit [SerdeJson] in
theorem appendChat_config (s : SidecarState) (frame : AppendFrame) :
    (s.appendChat frame).2.config = s.config := by
  unfold appendChat
  split <;> rfl

omit [Blake3] [Zstd] [SerdeJson] in
theorem flush_config (s : SidecarState) : s.flush.2.config = s.config := by
  unfold flush
  split <;> rfl

omit [Blake3] [Zstd] in
theorem respondChat_config (s : SidecarState) (request : Request) (metadata : Value)
    (frame : AppendFrame) (ack : AckFrame) (cached : Option CachedChatProjection) :
    (s.respondChat request metadata frame ack cached).2.config = s.config := by
  unfold respondChat
  split
  · rfl
  · split <;> rfl

theorem chatCompletions_config (s : SidecarState) (request : Request) :
    (s.chatCompletions request).2.config = s.config := by
  unfold chatCompletions
  split
  · rfl
  · rename_i metadata frame _
    have hlooked : (s.lookupProjection frame).2.config = s.config := rfl
    generalize s.lookupProjection frame = looked at hlooked
    obtain ⟨cached, looked⟩ := looked
    have happend := (appendChat_config looked frame).trans hlooked
    simp only
    split
    · rename_i heq
      rw [heq] at happend
      exact happend
    · rename_i ack t heq
      rw [heq] at happend
      have hflush := flush_config t
      split
      · rename_i heq
        rw [heq] at hflush
        exact hflush.trans happend
      · rename_i heq
        rw [heq] at hflush
        exact (respondChat_config _ request metadata frame ack _).trans (hflush.trans happend)

omit [SerdeJson] in
theorem handleFrame_config (s : SidecarState) (request : Request) :
    (s.handleFrame request).2.config = s.config := by
  unfold handleFrame
  split
  · rfl
  · rename_i frame _
    have hreceive : ((s.removeProjection frame).receiveFrame frame).2.config = s.config := by
      unfold receiveFrame
      split <;> rfl
    split
    · rename_i heq
      rw [heq] at hreceive
      exact hreceive
    · rename_i answer t heq
      rw [heq] at hreceive
      have hflush := flush_config t
      split
      · rename_i heq
        rw [heq] at hflush
        exact hflush.trans hreceive
      · rename_i heq
        rw [heq] at hflush
        exact hflush.trans hreceive

theorem serve_config (s : SidecarState) (call : Call) : (s.serve call).2.config = s.config := by
  cases call with
  | chat request => exact chatCompletions_config s request
  | frame request => exact handleFrame_config s request

end SidecarState

/-! ## Requests without the token -/

section Requests

variable [Blake3] [Zstd] [SerdeJson]

/-- What comes in at the listener and reaches the state: a call of a protocol endpoint, or the
readiness probe, which asks for no token. -/
inductive Incoming
  | call (c : Call)
  | probe

def Call.request : Call → Request
  | .chat request => request
  | .frame request => request

/-- The call carries the token, or there is none to carry. -/
def Incoming.Presents (token : List UInt8) : Incoming → Prop
  | .call c => c.request.header sidecarTokenHeader = some token
  | .probe => True

instance (token : List UInt8) : DecidablePred (Incoming.Presents token)
  | .call c => inferInstanceAs (Decidable (c.request.header sidecarTokenHeader = some token))
  | .probe => inferInstanceAs (Decidable True)

namespace SidecarState

def handle (s : SidecarState) : Incoming → SidecarState
  | .call c => (s.serve c).2
  | .probe => s.readyz.2

def handleAll (s : SidecarState) (es : List Incoming) : SidecarState := es.foldl handle s

theorem handle_config (s : SidecarState) (e : Incoming) : (s.handle e).config = s.config := by
  cases e with
  | call c => exact serve_config s c
  | probe =>
      rw [handle]
      unfold readyz
      split <;> rfl

/-- A call without the token is answered with 401 and changes nothing. -/
theorem serve_unauthorized {s : SidecarState} {token : List UInt8}
    (htoken : s.ingressToken = some token) {c : Call} (h : ¬(Incoming.call c).Presents token) :
    s.serve c = (.error 401 "invalid sidecar token" none, s) := by
  have hrefused : ¬authorized s c.request = true := by
    intro hauthorized
    refine h ?_
    unfold authorized at hauthorized
    rw [htoken] at hauthorized
    cases hheader : c.request.header "x-dlr-sidecar-token" with
    | none => simp [hheader] at hauthorized
    | some value =>
        simp only [hheader, Option.bind_some, headerText] at hauthorized
        split_ifs at hauthorized
        rw [Incoming.Presents, sidecarTokenHeader, hheader,
          (constantTimeEq_iff value token).mp hauthorized]
  cases c with
  | chat request =>
      have hcheck : s.checkChat request = .error (.error 401 "invalid sidecar token" none) := by
        rw [checkChat, if_pos (show ¬authorized s request = true from hrefused)]
      rw [serve, chatCompletions, hcheck]
  | frame request =>
      have hcheck : s.checkFrame request = .error (.error 401 "invalid sidecar token" none) := by
        rw [checkFrame, if_pos (show ¬authorized s request = true from hrefused)]
      rw [serve, handleFrame, hcheck]

/-- A request without the token that the router passes on is answered with 401, one with too large
a body with 413, and neither changes anything. -/
theorem post_unauthorized {s : SidecarState} {token : List UInt8}
    (htoken : s.ingressToken = some token) {base : String} {endpoint : Request → Call}
    {request : HttpRequest} (hroute : route base request.url = some endpoint)
    (h : request.request.header sidecarTokenHeader ≠ some token)
    (gateway : Except String HttpResponse) :
    s.post base gateway request =
      (if maxRequestBytes < request.request.body.length then .ok ⟨413, [], []⟩
        else (Response.error 401 "invalid sidecar token" none).arrives gateway, s) := by
  have hcall : ¬(Incoming.call (endpoint request.request)).Presents token := by
    unfold route at hroute
    split_ifs at hroute <;> cases hroute <;> exact h
  simp only [post, hroute, serve_unauthorized htoken hcall]
  split_ifs <;> rfl

theorem handleAll_keeps {P : SidecarState → Prop} (hserve : ∀ s c, P s → P (s.serve c).2)
    (hprobe : ∀ s, P s → P s.readyz.2) {s : SidecarState} (h : P s) (es : List Incoming) :
    P (s.handleAll es) := by
  induction es generalizing s with
  | nil => exact h
  | cons e rest ih =>
      refine ih ?_
      cases e with
      | call c => exact hserve s c h
      | probe => exact hprobe s h

theorem handleAll_config (s : SidecarState) (es : List Incoming) :
    (s.handleAll es).config = s.config :=
  handleAll_keeps (P := fun t => t.config = s.config)
    (fun t c h => (serve_config t c).trans h) (fun t h => (handle_config t .probe).trans h) rfl es

/-- For the receiver a run is a sequence of frames and flushes. -/
theorem handleAll_events (s : SidecarState) (es : List Incoming) :
    ∃ log, (s.handleAll es).receiver = s.receiver.events log := by
  refine handleAll_keeps (P := fun t => ∃ log, t.receiver = s.receiver.events log) ?_ ?_ ⟨[], rfl⟩ es
  · rintro t c ⟨log, hlog⟩
    obtain ⟨added, hadded, -⟩ := serve_events t c
    exact ⟨log ++ added, by rw [hadded, hlog, events_append]⟩
  · rintro t ⟨log, hlog⟩
    exact ⟨log ++ [.flush false], by rw [readyz_events, hlog, events_append]⟩

/-- The calls without the token can be left out of a run. -/
theorem handleAll_filter {s : SidecarState} {token : List UInt8}
    (htoken : s.ingressToken = some token) (es : List Incoming) :
    s.handleAll es = s.handleAll (es.filter fun e => e.Presents token) := by
  induction es generalizing s with
  | nil => rfl
  | cons e rest ih =>
      have hkept : (s.handle e).ingressToken = some token :=
        (congrArg (fun c => c.2.1) (handle_config s e)).trans htoken
      by_cases he : e.Presents token
      · rw [List.filter_cons_of_pos (by simpa using he)]
        exact ih hkept
      · rw [List.filter_cons_of_neg (by simpa using he)]
        cases e with
        | call c =>
            refine Eq.trans ?_ (ih htoken)
            change ((s.serve c).2).handleAll rest = s.handleAll rest
            rw [serve_unauthorized htoken he]
        | probe => exact absurd trivial he

end SidecarState

section Process

variable {args : Args} {env : String → Option (List UInt8)} {file : List UInt8}
  {writes : List (Option (Nat × IoError))} {flushes : List (Option IoError)} {s : SidecarState}

/-- A process that listens beyond the loopback has a token. Over every run, a call without it is
answered with 401, by the router with 413 if its body is too large, and the state is the one that
the other calls and the probes alone lead to. -/
theorem unauthorized_calls_leave_no_trace (h : start args env file writes flushes = .ok s)
    (hremote : args.listen.isLoopback = false) :
    ∃ token, token ≠ [] ∧ env args.ingressTokenEnv = some token ∧ ∀ es,
      s.handleAll es = s.handleAll (es.filter fun e => e.Presents token) ∧
        (∀ c, ¬(Incoming.call c).Presents token → (s.handleAll es).serve c =
          (.error 401 "invalid sidecar token" none, s.handleAll es)) ∧
        ∀ base endpoint request gateway, route base request.url = some endpoint →
          request.request.header sidecarTokenHeader ≠ some token →
          (s.handleAll es).post base gateway request =
            (if maxRequestBytes < request.request.body.length then .ok ⟨413, [], []⟩
              else (Response.error 401 "invalid sidecar token" none).arrives gateway,
              s.handleAll es) := by
  obtain ⟨-, -, -, htoken⟩ := start_spec h
  obtain ⟨token, hne, henv, htoken⟩ := htoken hremote
  refine ⟨token, hne, henv, fun es => ?_⟩
  have hkept : (s.handleAll es).ingressToken = some token :=
    (congrArg (fun c => c.2.1) (s.handleAll_config es)).trans htoken
  exact ⟨SidecarState.handleAll_filter htoken es,
    fun c hc => SidecarState.serve_unauthorized hkept hc,
    fun base endpoint request gateway hroute h =>
      SidecarState.post_unauthorized hkept hroute h gateway⟩

omit [Blake3] [Zstd] [SerdeJson] in
/-- The frame of a caller without the token, on a process that is there for everyone. -/
theorem unauthorized_calls_leave_no_trace_one_frame :
    letI := prefixHash
    letI := storedZstd
    letI := sampleJson []
    let args : Args := ⟨.v4 10 0 0 1, "10.0.0.1:32180", "http://gateway", "DLR_INGRESS_TOKEN", true⟩
    let call : Call := .frame ⟨[], encodeFrame (.resync ⟨5, rootZero, []⟩)⟩
    ∃ s, start args (fun _ => some [107]) [] [] [] = .ok s ∧
      s.handleAll [.call call, .probe] = s.handleAll [.probe] ∧
      (s.handleAll [.probe]).serve call =
        (.error 401 "invalid sidecar token" none, s.handleAll [.probe]) := by
  let _ := prefixHash
  let _ := storedZstd
  let _ := sampleJson []
  intro args call
  have hopen : ContentStore.withWal [] [] [] =
      .ok { ContentStore.new with wal := some ⟨[], 0, [], []⟩ } := by
    rw [ContentStore.withWal, Wal.replay, Wal.replayFrom_nil]
    rfl
  obtain ⟨s, hs⟩ : ∃ s, start args (fun _ => some [107]) [] [] [] = .ok s := by
    simp only [start, hopen]
    exact ⟨_, if_neg (by decide)⟩
  obtain ⟨token, hne, henv, hrun⟩ := unauthorized_calls_leave_no_trace hs (by decide)
  obtain rfl : [107] = token := Option.some.inj henv
  have hcall : ¬(Incoming.call call).Presents [107] := by
    intro hpresents
    simp [Incoming.Presents, Call.request, Request.header, call] at hpresents
  have hfilter : [Incoming.call call, .probe].filter (fun e => e.Presents [107]) = [.probe] := by
    rw [List.filter_cons_of_neg (by simpa using hcall)]
    rfl
  exact ⟨s, hs, by rw [(hrun _).1, hfilter], (hrun [.probe]).2.1 call hcall⟩

/-- After any calls and probes, a stop whose flush succeeds leaves a file from which the process
starts again with the same configuration and with every session as it was, also what was accepted
but not acknowledged. -/
theorem shutdown_restart_restores (h : start args env file writes flushes = .ok s)
    (es : List Incoming) (hstop : ((s.handleAll es).receiver.store.flushWal true).1 = .ok ()) :
    ∃ w, ((s.handleAll es).receiver.store.flushWal true).2.wal = some w ∧
      w.flushed = w.bytes.length ∧ ∀ writes' flushes', ∃ s',
        start args env w.bytes writes' flushes' = .ok s' ∧ s'.config = (s.handleAll es).config ∧
          s'.receiver.store.maps = (s.handleAll es).receiver.store.maps ∧
          ∀ sid, s'.receiver.reconstruct sid = (s.handleAll es).receiver.reconstruct sid := by
  obtain ⟨store, hopen, hs, -⟩ := start_spec h
  have hconfig := s.handleAll_config es
  obtain ⟨log, hlog⟩ := SidecarState.handleAll_events s es
  obtain ⟨w₀, hw₀, -, -⟩ := ContentStore.withWal_recovers hopen
  have hstore : s.receiver.store = store := by rw [hs]; rfl
  have hwf : (s.handleAll es).receiver.WellFormed := by
    rw [hlog]
    refine wellFormed_events ?_ log
    rw [hs]
    exact Receiver.wellFormed_new (.replayed hopen) _
  obtain ⟨hrec, hsome⟩ := Receiver.events_recoverable (r := s.receiver)
    (by rw [hstore]; exact ContentStore.withWal_recoverable hopen)
    (by rw [hstore, hw₀]; rfl) log
  rw [← hlog] at hrec hsome
  generalize s.handleAll es = t at *
  obtain ⟨w₁, hw₁⟩ := Option.isSome_iff_exists.mp hsome
  obtain ⟨w, hw, hbytes, ⟨-, hnone, -, hflushed⟩ | ⟨⟨e, he⟩, -, -⟩⟩ :=
    ContentStore.flushWal_wal hw₁ true
  swap
  · cases hstop.symm.trans he
  refine ⟨w, hw, by rw [hflushed, hbytes], fun writes' flushes' => ?_⟩
  obtain ⟨st, hreplay, hmaps⟩ := (hrec w₁ hw₁).2 hnone
  have hreopen : ContentStore.withWal w.bytes writes' flushes' =
      .ok { st with wal := some ⟨w.bytes, w.bytes.length, writes', flushes'⟩ } := by
    rw [ContentStore.withWal, hbytes, hreplay]
    simp only [List.take_length]
  refine ⟨_, start_of_open h hreopen, ?_, hmaps, fun sid => ?_⟩
  · rw [hconfig, hs]
    rfl
  · have hwf' := Receiver.wellFormed_new (.replayed hreopen) Compressor.default
    refine (hwf'.reconstruct_eq sid).trans (Eq.trans ?_ (hwf.reconstruct_eq sid).symm)
    exact ContentStore.reconstruct_congr hmaps sid

omit [Blake3] [Zstd] [SerdeJson] in
/-- One block that was accepted without a flush to the disk. -/
theorem shutdown_restart_restores_one_block :
    letI := prefixHash
    letI := storedZstd
    let b : Block := ⟨.message, 1, [7]⟩
    letI := sampleJson []
    let args : Args := ⟨.v4 127 0 0 1, "127.0.0.1:32180", "http://gateway", "DLR_INGRESS_TOKEN",
      false⟩
    let call : Call :=
      .frame ⟨[], encodeFrame (.append ⟨5, rootZero, [.inline ⟨.message, 1, 0 :: canonicalBytes b⟩]⟩)⟩
    ∃ s s' w, start args (fun _ => none) [] [] [] = .ok s ∧
      ((s.handleAll [.call call]).receiver.store.flushWal true).2.wal = some w ∧
      start args (fun _ => none) w.bytes [] [] = .ok s' ∧ s'.receiver.reconstruct 5 = [b] := by
  let _ := prefixHash
  let _ := storedZstd
  intro b
  let _ := sampleJson []
  intro args call
  have hopen : ContentStore.withWal [] [] [] =
      .ok { ContentStore.new with wal := some ⟨[], 0, [], []⟩ } := by
    rw [ContentStore.withWal, Wal.replay, Wal.replayFrom_nil]
    rfl
  have hs : start args (fun _ => none) [] [] [] =
      .ok (SidecarState.new (Receiver.new { ContentStore.new with wal := some ⟨[], 0, [], []⟩ }
        Compressor.default) "http://gateway" none false) := by
    simp only [start, hopen]
    exact if_neg (by decide)
  have hrun : ∀ s, start args (fun _ => none) [] [] [] = .ok s →
      (((s.handleAll [.call call]).receiver.store.flushWal true).1 = .ok () ∧
        (s.handleAll [.call call]).receiver.reconstruct 5 = [b]) := by
    intro s hstart
    cases hs.symm.trans hstart
    decide +kernel
  obtain ⟨hstop, hblocks⟩ := hrun _ hs
  clear_value call
  obtain ⟨w, hw, -, hrestart⟩ := shutdown_restart_restores hs [.call call] hstop
  obtain ⟨s', hs', -, -, hsame⟩ := hrestart [] []
  exact ⟨_, s', w, hs, hw, hs', (hsame 5).trans hblocks⟩

end Process

end Requests

end Dlr.Sidecar
