import Dlr.Prune.Importance
import Dlr.Receiver.Restart

/-!
# Prune jobs beside a receiver

A job names a session and a budget; its log is read when it runs. Threads schedule jobs, workers
take all of them at once and prune them in parallel, while frames come in. Every job that is
scheduled is taken once, the jobs that are taken together are listed from the newest on, and each
runs on a log that is at least as long as when it was scheduled.

## Implementation notes

A thread draws its number and stores its job under two locks, one after the other, so another thread
may come in between. The heap is the list of its jobs; what it gives out is the one with the largest
number.
-/

namespace Dlr.Prune

open Dlr.Core Lib
open scoped List

/-- A retention policy, as a function of the session, its log and the budget. -/
abbrev PrunePolicy := SessionId → List Block → Nat → PruneWindow

structure PruneJob where
  sessionId : SessionId
  budgetTokens : Nat
  deriving DecidableEq

def PruneJob.run (policy : PrunePolicy) (receiver : Receiver) (j : PruneJob) : PruneWindow :=
  policy j.sessionId (receiver.reconstruct j.sessionId) j.budgetTokens

/-! ## Jobs in a vector -/

structure PruneScheduler where
  pending : List PruneJob := []
  deriving DecidableEq

namespace PruneScheduler

def schedule (s : PruneScheduler) (sid : SessionId) (budgetTokens : Nat) : PruneScheduler :=
  ⟨s.pending ++ [⟨sid, budgetTokens⟩]⟩

/-- Take the job that was scheduled last, if there is one. -/
def runOne (s : PruneScheduler) (policy : PrunePolicy) (receiver : Receiver) :
    Option PruneWindow × PruneScheduler :=
  match s.pending.getLast? with
  | none => (none, s)
  | some j => (some (j.run policy receiver), ⟨s.pending.dropLast⟩)

def runAll (s : PruneScheduler) (policy : PrunePolicy) (receiver : Receiver) :
    List PruneWindow × PruneScheduler :=
  (s.pending.map (PruneJob.run policy receiver), ⟨[]⟩)

def pendingCount (s : PruneScheduler) : Nat := s.pending.length

end PruneScheduler

/-! ## Jobs in a heap -/

structure PriorityJob extends PruneJob where
  seq : UInt64
  deriving DecidableEq

/-- The job with the largest number and the others. -/
def popMax : List PriorityJob → Option (PriorityJob × List PriorityJob)
  | [] => none
  | j :: rest =>
      match popMax rest with
      | none => some (j, [])
      | some (m, others) => if m.seq ≤ j.seq then some (j, rest) else some (m, j :: others)

/-- Take jobs until the heap is empty. -/
def drain : Nat → List PriorityJob → List PriorityJob
  | 0, _ => []
  | fuel + 1, heap =>
      match popMax heap with
      | none => []
      | some (m, others) => m :: drain fuel others

structure PriorityPruneScheduler where
  pending : List PriorityJob := []
  seq : UInt64 := 0
  deriving DecidableEq

namespace PriorityPruneScheduler

/-- The first lock of `schedule`: draw a number. The counter wraps around. -/
def drawSeq (s : PriorityPruneScheduler) (sid : SessionId) (budgetTokens : Nat) :
    PriorityJob × PriorityPruneScheduler :=
  (⟨⟨sid, budgetTokens⟩, s.seq + 1⟩, { s with seq := s.seq + 1 })

/-- The second lock of `schedule`: store the job. -/
def push (s : PriorityPruneScheduler) (j : PriorityJob) : PriorityPruneScheduler :=
  { s with pending := j :: s.pending }

/-- The jobs that `run_all` takes; it runs them afterwards, in any order, and returns the windows
in this one. -/
def takeAll (s : PriorityPruneScheduler) : List PriorityJob × PriorityPruneScheduler :=
  (drain s.pending.length s.pending, { s with pending := [] })

def pendingCount (s : PriorityPruneScheduler) : Nat := s.pending.length

end PriorityPruneScheduler

theorem popMax_eq_none {heap : List PriorityJob} (h : popMax heap = none) : heap = [] := by
  cases heap with
  | nil => rfl
  | cons j rest =>
      rw [popMax] at h
      split at h
      · cases h
      · split_ifs at h

theorem popMax_spec {heap others : List PriorityJob} {m : PriorityJob}
    (h : popMax heap = some (m, others)) : heap ~ m :: others ∧ ∀ j ∈ others, j.seq ≤ m.seq := by
  induction heap generalizing m others with
  | nil => cases h
  | cons j rest ih =>
      rw [popMax] at h
      split at h
      · rename_i hnone
        cases h
        rw [popMax_eq_none hnone]
        exact ⟨.refl _, nofun⟩
      · rename_i m' others' hsome
        obtain ⟨hperm, hmax⟩ := ih hsome
        split_ifs at h with hle
        · cases h
          refine ⟨.refl _, fun i hi => ?_⟩
          rcases List.mem_cons.mp (hperm.mem_iff.mp hi) with rfl | hi
          · exact hle
          · exact UInt64.le_trans (hmax i hi) hle
        · cases h
          refine ⟨(hperm.cons j).trans (.swap _ _ _), fun i hi => ?_⟩
          rcases List.mem_cons.mp hi with rfl | hi
          · exact UInt64.le_of_lt (UInt64.not_le.mp hle)
          · exact hmax i hi

/-- Draining gives every job of the heap, the one with the largest number first. -/
theorem drain_spec {fuel : Nat} {heap : List PriorityJob} (h : heap.length ≤ fuel) :
    drain fuel heap ~ heap ∧ (drain fuel heap).Pairwise fun a b => b.seq ≤ a.seq := by
  induction fuel generalizing heap with
  | zero =>
      rw [List.length_eq_zero_iff.mp (Nat.le_zero.mp h)]
      exact ⟨.refl _, .nil⟩
  | succ fuel ih =>
      rw [drain]
      split
      · rename_i hnone
        rw [popMax_eq_none hnone]
        exact ⟨.refl _, .nil⟩
      · rename_i m others hsome
        obtain ⟨hperm, hmax⟩ := popMax_spec hsome
        have hlen := hperm.length_eq
        rw [List.length_cons] at hlen
        obtain ⟨hrest, hsorted⟩ := ih (show others.length ≤ fuel by omega)
        exact ⟨(hrest.cons m).trans hperm.symm,
          .cons (fun j hj => hmax j (hrest.mem_iff.mp hj)) hsorted⟩

/-! ## The two schedulers on one thread -/

/-- Run the jobs of a vector one by one until none is left. -/
def PruneScheduler.runEach (policy : PrunePolicy) (receiver : Receiver) :
    Nat → PruneScheduler → List PruneWindow
  | 0, _ => []
  | fuel + 1, s =>
      match s.runOne policy receiver with
      | (none, _) => []
      | (some w, s) => w :: runEach policy receiver fuel s

theorem PruneScheduler.runEach_eq (policy : PrunePolicy) (receiver : Receiver)
    (jobs : List PruneJob) :
    runEach policy receiver jobs.length ⟨jobs⟩ = jobs.reverse.map (PruneJob.run policy receiver) := by
  induction jobs using List.reverseRecOn with
  | nil => rfl
  | append_singleton rest j ih =>
      rw [List.length_append, List.length_singleton, runEach, runOne, List.getLast?_concat]
      simp only [List.dropLast_concat, List.reverse_append, List.reverse_singleton,
        List.singleton_append, List.map_cons, ih]

/-- The vector with its jobs taken from the end and the heap run the same jobs in the same order. -/
theorem drain_eq_runEach (policy : PrunePolicy) (receiver : Receiver) {heap : List PriorityJob}
    {jobs : List PriorityJob} (hperm : heap ~ jobs)
    (hseq : jobs.Pairwise fun a b => a.seq < b.seq) :
    (drain heap.length heap).map (fun j => j.toPruneJob.run policy receiver) =
      (PruneScheduler.mk (jobs.map PriorityJob.toPruneJob)).runEach policy receiver jobs.length := by
  obtain ⟨hdrained, hsorted⟩ := drain_spec (le_refl heap.length)
  have hreverse : drain heap.length heap = jobs.reverse := by
    refine List.Perm.eq_of_pairwise ?_ hsorted ((List.pairwise_reverse.mpr hseq).imp UInt64.le_of_lt)
      (hdrained.trans (hperm.trans jobs.reverse_perm.symm))
    intro a b ha hb hab hba
    have hnodup : (jobs.map PriorityJob.seq).Nodup :=
      List.pairwise_map.mpr (hseq.imp UInt64.ne_of_lt)
    exact List.inj_on_of_nodup_map hnodup ((hdrained.trans hperm).mem_iff.mp ha)
      (List.mem_reverse.mp hb) (UInt64.le_antisymm hba hab)
  have heach := PruneScheduler.runEach_eq policy receiver (jobs.map PriorityJob.toPruneJob)
  rw [List.length_map] at heach
  rw [hreverse, heach, ← List.map_reverse, List.map_map]
  rfl

/-! ## Threads, workers and frames -/

namespace PriorityPruneScheduler

/-- A call of `schedule` and the log of its session at that time. -/
structure Request where
  job : PruneJob
  log : List Block

/-- A job that a worker has taken, with its window once it has run. -/
abbrev Slot := PriorityJob × Option PruneWindow

structure Runtime where
  receiver : Receiver
  scheduler : PriorityPruneScheduler := {}
  /-- Jobs whose threads are between the two locks. -/
  drawn : List PriorityJob := []
  /-- What every call of `run_all` has taken, in its order. -/
  batches : List (List Slot) := []
  /-- All calls of `schedule`, in the order of their numbers. -/
  requests : List Request := []
  /-- All frames that have come in. -/
  frames : List Frame := []

def slots (taken : List PriorityJob) : List Slot := taken.map fun j => (j, none)

/-- The jobs of some calls, numbered from one. -/
def jobsOf (requests : List Request) : List PriorityJob :=
  requests.zipIdx.map fun r => ⟨r.1.job, UInt64.ofNat (r.2 + 1)⟩

/-- The window of the policy for a log of the session that continues the one at the request. -/
def Current (policy : PrunePolicy) (requests : List Request) (j : PriorityJob) (w : PruneWindow) :
    Prop :=
  ∃ request log, requests[j.seq.toNat - 1]? = some request ∧ request.log <+: log ∧
    w = policy j.sessionId log j.budgetTokens

theorem jobsOf_concat (requests : List Request) (r : Request) :
    jobsOf (requests ++ [r]) = jobsOf requests ++ [⟨r.job, UInt64.ofNat (requests.length + 1)⟩] := by
  simp [jobsOf, List.zipIdx_append]

/-- The numbers are different as long as the counter has not wrapped around. -/
theorem nodup_jobsOf {requests : List Request} (h : requests.length < 2 ^ 64) :
    ((jobsOf requests).map PriorityJob.seq).Nodup := by
  have hseq : (jobsOf requests).map PriorityJob.seq =
      (requests.zipIdx.map Prod.snd).map fun i => UInt64.ofNat (i + 1) := by
    rw [jobsOf, List.map_map, List.map_map]
    rfl
  rw [hseq, List.zipIdx_map_snd]
  refine (List.nodup_range' ..).map_on fun i hi k hk heq => ?_
  rw [List.mem_range'_1] at hi hk
  have hnat := congrArg UInt64.toNat heq
  rw [UInt64.toNat_ofNat', UInt64.toNat_ofNat', Nat.mod_eq_of_lt (by omega),
    Nat.mod_eq_of_lt (by omega)] at hnat
  omega

theorem mem_jobsOf {requests : List Request} (hlen : requests.length < 2 ^ 64) {j : PriorityJob}
    (h : j ∈ jobsOf requests) :
    ∃ request, requests[j.seq.toNat - 1]? = some request ∧ request.job = j.toPruneJob := by
  obtain ⟨⟨request, i⟩, hmem, rfl⟩ := List.mem_map.mp h
  have hget := List.mem_zipIdx_iff_getElem?.mp hmem
  have hi := (List.getElem?_eq_some_iff.mp hget).1
  refine ⟨request, ?_, rfl⟩
  rw [UInt64.toNat_ofNat', Nat.mod_eq_of_lt (by simp only at hi; omega)]
  exact hget

theorem Current.concat {policy : PrunePolicy} {requests : List Request} {j : PriorityJob}
    {w : PruneWindow} (h : Current policy requests j w) (r : Request) :
    Current policy (requests ++ [r]) j w := by
  obtain ⟨request, log, hrequest, hlog, hw⟩ := h
  refine ⟨request, log, ?_, hlog, hw⟩
  rw [List.getElem?_append_left (List.getElem?_eq_some_iff.mp hrequest).1]
  exact hrequest

/-! ## The steps -/

variable [Blake3] [Compress.Zstd]

/-- What a thread, a worker or the receiver does next. -/
inductive Step (policy : PrunePolicy) : Runtime → Runtime → Prop
  | frame (s : Runtime) (f : Frame) :
      Step policy s { s with
        receiver := (s.receiver.handleFrame f).2
        frames := s.frames ++ [f] }
  | draw (s : Runtime) (job : PruneJob) :
      Step policy s { s with
        scheduler := (s.scheduler.drawSeq job.sessionId job.budgetTokens).2
        drawn := (s.scheduler.drawSeq job.sessionId job.budgetTokens).1 :: s.drawn
        requests := s.requests ++ [⟨job, s.receiver.reconstruct job.sessionId⟩] }
  | push (s : Runtime) (before after : List PriorityJob) (j : PriorityJob)
      (hdrawn : s.drawn = before ++ j :: after) :
      Step policy s { s with
        scheduler := s.scheduler.push j
        drawn := before ++ after }
  | takeAll (s : Runtime) :
      Step policy s { s with
        scheduler := s.scheduler.takeAll.2
        batches := s.batches ++ [slots s.scheduler.takeAll.1] }
  | run (s : Runtime) (earlier later : List (List Slot)) (front back : List Slot) (j : PriorityJob)
      (hbatches : s.batches = earlier ++ (front ++ (j, none) :: back) :: later) :
      Step policy s { s with
        batches := earlier ++
          (front ++ (j, some (j.run policy s.receiver)) :: back) :: later }

/-- A session that had all of its blocks at the start and that no frame has resynced. -/
structure Followed (start : ContentStore) (frames : List Frame) (sid : SessionId) : Prop where
  complete : start.Complete sid
  kept : ∀ m, .resync m ∈ frames → m.sessionId ≠ sid

/-- Every job is in one place, what was taken is sorted, and the windows of the followed sessions
are current. -/
structure Inv (policy : PrunePolicy) (start : ContentStore) (s : Runtime) : Prop where
  wellFormed : s.receiver.WellFormed
  complete : ∀ sid, Followed start s.frames sid → s.receiver.store.Complete sid
  seq : s.scheduler.seq = UInt64.ofNat s.requests.length
  once : s.drawn ++ s.scheduler.pending ++ s.batches.flatten.map Prod.fst ~ jobsOf s.requests
  sorted : ∀ batch ∈ s.batches, (batch.map Prod.fst).Pairwise fun a b => b.seq < a.seq
  log : ∀ request ∈ s.requests, Followed start s.frames request.job.sessionId →
    request.log <+: s.receiver.reconstruct request.job.sessionId
  current : ∀ batch ∈ s.batches, ∀ j w, (j, some w) ∈ batch →
    Followed start s.frames j.sessionId → Current policy s.requests j w

/-! ## Every step keeps the invariant -/

theorem reconstruct_extends {r : Receiver} (hwf : r.WellFormed) {sid : SessionId}
    (hcomplete : r.store.Complete sid) {f : Frame} (hf : ∀ m, f = .resync m → m.sessionId ≠ sid) :
    r.reconstruct sid <+: (r.handleFrame f).2.reconstruct sid := by
  obtain ⟨ops, haff, -⟩ := r.handleFrame_affects f
  obtain ⟨⟨more, hmore⟩, -⟩ := Receiver.frame_extends hf hcomplete
  have hids : (r.handleFrame f).2.store.sessionIds sid = r.store.sessionIds sid ++ more :=
    congrArg SessionLog.ids hmore
  have hsame : (r.store.sessionIds sid).filterMap (r.handleFrame f).2.store.get =
      (r.store.sessionIds sid).filterMap r.store.get := by
    refine List.filterMap_congr fun id hid => ?_
    obtain ⟨b, hb⟩ := ContentStore.contains_iff.mp (hcomplete id hid)
    exact (haff.preserves hb).trans hb.symm
  rw [hwf.reconstruct_eq, (hwf.handleFrame f).reconstruct_eq, ContentStore.reconstruct,
    ContentStore.reconstruct, hids, List.filterMap_append, hsame]
  exact List.prefix_append _ _

omit [Blake3] [Compress.Zstd] in
/-- Without its last frame the session was followed too, and that frame is no RESYNC of it. -/
theorem Followed.of_concat {start : ContentStore} {frames : List Frame} {f : Frame} {sid : SessionId}
    (h : Followed start (frames ++ [f]) sid) :
    Followed start frames sid ∧ ∀ m, f = .resync m → m.sessionId ≠ sid := by
  refine ⟨⟨h.complete, fun m hm => h.kept m (List.mem_append_left _ hm)⟩, fun m hm => ?_⟩
  exact h.kept m (List.mem_append_right _ (List.mem_singleton.mpr hm.symm))

variable {policy : PrunePolicy} {start : ContentStore} {s s' : Runtime}

/-- Calls of `schedule` are only added. -/
theorem Step.requests_le (hstep : Step policy s s') :
    s.requests.length ≤ s'.requests.length := by
  cases hstep with
  | draw job =>
      rw [List.length_append]
      exact Nat.le_add_right _ _
  | _ => exact le_rfl

theorem Inv.frame (h : Inv policy start s) (f : Frame) :
    Inv policy start { s with
      receiver := (s.receiver.handleFrame f).2
      frames := s.frames ++ [f] } := by
  refine { h with wellFormed := h.wellFormed.handleFrame f, complete := ?_, log := ?_, current := ?_ }
  · intro sid hsid
    obtain ⟨hold, hf⟩ := hsid.of_concat
    exact (Receiver.frame_extends hf (h.complete sid hold)).2
  · intro request hr hsid
    obtain ⟨hold, hf⟩ := hsid.of_concat
    exact (h.log request hr hold).trans (reconstruct_extends h.wellFormed (h.complete _ hold) hf)
  · intro batch hb j w hw hsid
    exact h.current batch hb j w hw hsid.of_concat.1

omit [Compress.Zstd] in
theorem Inv.draw (h : Inv policy start s) (job : PruneJob) :
    Inv policy start { s with
      scheduler := (s.scheduler.drawSeq job.sessionId job.budgetTokens).2
      drawn := (s.scheduler.drawSeq job.sessionId job.budgetTokens).1 :: s.drawn
      requests := s.requests ++ [⟨job, s.receiver.reconstruct job.sessionId⟩] } := by
  refine { h with
    seq := ?_, once := ?_, log := ?_
    current := fun batch hb j w hw hsid => (h.current batch hb j w hw hsid).concat _ }
  · rw [List.length_append, List.length_singleton, UInt64.ofNat_add, ← h.seq]
    rfl
  · rw [jobsOf_concat, UInt64.ofNat_add, ← h.seq, List.cons_append, List.cons_append]
    exact (h.once.cons _).trans (List.perm_append_singleton _ _).symm
  · intro request hr hsid
    rcases List.mem_append.mp hr with hold | hnew
    · exact h.log request hold hsid
    · obtain rfl := List.mem_singleton.mp hnew
      exact List.prefix_rfl

omit [Blake3] [Compress.Zstd] in
theorem map_fst_slots (taken : List PriorityJob) : (slots taken).map Prod.fst = taken := by
  rw [slots, List.map_map]
  exact List.map_id _

omit [Compress.Zstd] in
theorem Inv.takeAll (h : Inv policy start s) (hlen : s.requests.length < 2 ^ 64) :
    Inv policy start { s with
      scheduler := s.scheduler.takeAll.2
      batches := s.batches ++ [slots s.scheduler.takeAll.1] } := by
  obtain ⟨hperm, hsorted⟩ := drain_spec (le_refl s.scheduler.pending.length)
  set taken := drain s.scheduler.pending.length s.scheduler.pending with htaken
  have honce : s.drawn ++ [] ++ (s.batches ++ [slots taken]).flatten.map Prod.fst ~
      jobsOf s.requests := by
    refine List.Perm.trans ?_ h.once
    rw [List.flatten_append, List.flatten_singleton, List.map_append, map_fst_slots, List.append_nil,
      List.append_assoc]
    exact (List.perm_append_comm.trans (hperm.append_right _)).append_left _
  refine { h with once := honce, sorted := ?_, current := ?_ }
  · intro batch hb
    rcases List.mem_append.mp hb with hold | hnew
    · exact h.sorted batch hold
    · rw [List.mem_singleton.mp hnew]
      change ((slots taken).map Prod.fst).Pairwise _
      rw [map_fst_slots]
      have hpending : s.scheduler.pending <+
          s.drawn ++ s.scheduler.pending ++ s.batches.flatten.map Prod.fst :=
        (List.sublist_append_right _ _).trans (List.sublist_append_left _ _)
      have hnodup : (taken.map PriorityJob.seq).Nodup :=
        (hperm.map PriorityJob.seq).nodup_iff.mpr ((hpending.map PriorityJob.seq).nodup
          ((h.once.map PriorityJob.seq).nodup_iff.mpr (nodup_jobsOf hlen)))
      exact (hsorted.and (List.pairwise_map.mp hnodup)).imp
        fun hab => UInt64.lt_of_le_of_ne hab.1 hab.2.symm
  · intro batch hb j w hw hsid
    rcases List.mem_append.mp hb with hold | hnew
    · exact h.current batch hold j w hw hsid
    · rw [List.mem_singleton.mp hnew] at hw
      obtain ⟨i, -, hi⟩ := List.mem_map.mp hw
      cases hi

omit [Compress.Zstd] in
/-- A job that is run keeps its place, and its log has only grown since it was scheduled. -/
theorem Inv.run (h : Inv policy start s) (hlen : s.requests.length < 2 ^ 64)
    {earlier later : List (List Slot)} {front back : List Slot} {j : PriorityJob}
    (hbatches : s.batches = earlier ++ (front ++ (j, none) :: back) :: later) :
    Inv policy start { s with
      batches := earlier ++ (front ++ (j, some (j.run policy s.receiver)) :: back) :: later } := by
  have hfst : ∀ w, (front ++ (j, w) :: back).map Prod.fst =
      front.map Prod.fst ++ j :: back.map Prod.fst := by
    intro w
    rw [List.map_append, List.map_cons]
  have hflatten : ∀ w, (earlier ++ (front ++ (j, w) :: back) :: later).flatten.map Prod.fst =
      earlier.flatten.map Prod.fst ++ ((front.map Prod.fst ++ j :: back.map Prod.fst) ++
        later.flatten.map Prod.fst) := by
    intro w
    rw [List.flatten_append, List.flatten_cons, List.map_append, List.map_append, hfst]
  have hthis : front ++ (j, none) :: back ∈ s.batches := by
    rw [hbatches]
    exact List.mem_append_right _ List.mem_cons_self
  have hcases : ∀ {batch : List Slot} {slot : Slot},
      batch ∈ earlier ++ (front ++ slot :: back) :: later →
        batch = front ++ slot :: back ∨ batch ∈ s.batches := by
    intro batch slot hb
    rw [hbatches, List.mem_append, List.mem_cons]
    rw [List.mem_append, List.mem_cons] at hb
    tauto
  refine { h with once := ?_, sorted := ?_, current := ?_ }
  · have honce := h.once
    rw [hbatches, hflatten] at honce
    rwa [hflatten]
  · intro batch hb
    rcases hcases hb with rfl | hb
    · rw [hfst, ← hfst none]
      exact h.sorted _ hthis
    · exact h.sorted batch hb
  · intro batch hb i w hw hsid
    rcases hcases hb with rfl | hb
    · rcases List.mem_append.mp hw with hfront | hrest
      · exact h.current _ hthis i w (List.mem_append_left _ hfront) hsid
      · rcases List.mem_cons.mp hrest with heq | hback
        · cases heq
          have hmem : j ∈ jobsOf s.requests := by
            refine h.once.mem_iff.mp (List.mem_append_right _ ?_)
            rw [hbatches, hflatten]
            simp
          obtain ⟨request, hrequest, hjob⟩ := mem_jobsOf hlen hmem
          have hsame : request.job.sessionId = j.sessionId := congrArg PruneJob.sessionId hjob
          have hlog := h.log request (List.mem_of_getElem? hrequest) (hsame ▸ hsid)
          rw [hsame] at hlog
          exact ⟨request, _, hrequest, hlog, rfl⟩
        · exact h.current _ hthis i w
            (List.mem_append_right _ (List.mem_cons_of_mem _ hback)) hsid
    · exact h.current batch hb i w hw hsid

theorem Step.inv (hstep : Step policy s s') (h : Inv policy start s)
    (hlen : s'.requests.length < 2 ^ 64) : Inv policy start s' := by
  cases hstep with
  | frame f => exact h.frame f
  | draw job => exact h.draw job
  | push before after j hdrawn =>
      refine { h with once := List.Perm.trans ?_ h.once }
      rw [hdrawn]
      refine List.Perm.append_right _ ?_
      simp only [PriorityPruneScheduler.push, List.append_assoc, List.cons_append]
      exact List.perm_middle.append_left before
  | takeAll => exact h.takeAll hlen
  | run earlier later front back j hbatches => exact h.run hlen hbatches

/-- Every job of every run with fewer than 2^64 calls of `schedule`. Threads schedule jobs in two
steps, workers take and run them, frames come in, in any order. Each call of `schedule` has its job
in exactly one place: with its thread, in the heap or in one batch. What is taken together is listed
from the newest call on. And the window of a session that had all of its blocks at the start, and
was not resynced, is what the policy makes of a log that is at least as long as when the job was
scheduled. -/
theorem scheduled_jobs_run_once {receiver : Receiver} (hwf : receiver.WellFormed)
    (hrun : Relation.ReflTransGen (Step policy) { receiver } s)
    (hlen : s.requests.length < 2 ^ 64) :
    (s.drawn ++ s.scheduler.pending ++ s.batches.flatten.map Prod.fst ~ jobsOf s.requests) ∧
      ∀ batch ∈ s.batches, (batch.map Prod.fst).Pairwise (fun a b => b.seq < a.seq) ∧
        ∀ j w, (j, some w) ∈ batch → Followed receiver.store s.frames j.sessionId →
          Current policy s.requests j w := by
  have h : Inv policy receiver.store s := by
    induction hrun with
    | refl => exact ⟨hwf, fun _ hsid => hsid.complete, rfl, .refl _, nofun, nofun, nofun⟩
    | tail _ hstep ih => exact hstep.inv (ih (hstep.requests_le.trans_lt hlen)) hlen
  exact ⟨h.once, fun batch hb => ⟨h.sorted batch hb, h.current batch hb⟩⟩

omit [Blake3] [Compress.Zstd] in
/-- Two threads schedule jobs of a session with an empty log, the second one stores its job first.
The first block of the session and a RESYNC of another one come in, then a worker takes both jobs
and runs the newer one. -/
theorem scheduled_jobs_run_once_two :
    letI := prefixHash
    letI := Compress.storedZstd
    let policy : PrunePolicy := fun sid log _ => ⟨sid, log, 0⟩
    let receiver := Receiver.new ContentStore.new Compress.Compressor.default
    let b : Block := ⟨.message, 1, [7]⟩
    let append : Frame := .append ⟨5, rootZero, [.inline ⟨.message, 1, 0 :: canonicalBytes b⟩]⟩
    let resync : Frame := .resync ⟨9, rootZero, []⟩
    ∃ s, Relation.ReflTransGen (Step policy) { receiver } s ∧ s.frames = [append, resync] ∧
      s.batches = [[(⟨⟨5, 20⟩, 2⟩, some ⟨5, [b], 0⟩), (⟨⟨5, 10⟩, 1⟩, none)]] ∧
      Current policy s.requests ⟨⟨5, 20⟩, 2⟩ ⟨5, [b], 0⟩ := by
  let _ := prefixHash
  let _ := Compress.storedZstd
  intro policy receiver b append resync
  have hwf : receiver.WellFormed := Receiver.wellFormed_new .fresh _
  have hlog : ((receiver.handleFrame append).2.handleFrame resync).2.reconstruct 5 = [b] := by
    decide +kernel
  have hfollowed : Followed receiver.store [append, resync] 5 := by
    constructor
    · intro id hid
      cases hid
    · intro m hm
      rcases List.mem_pair.mp hm with heq | heq
      · injection heq
      · injection heq with heq
        subst heq
        decide
  -- from here on the frames are opaque, so that nothing evaluates what they lead to
  clear_value append resync receiver
  have hdrawn : Relation.ReflTransGen (Step policy) { receiver } _ :=
    (Relation.ReflTransGen.single (.draw _ ⟨5, 10⟩)).tail (.draw _ ⟨5, 20⟩)
  have hpushed := (hdrawn.tail (.push _ [] [⟨⟨5, 10⟩, 1⟩] ⟨⟨5, 20⟩, 2⟩ rfl)).tail
    (.push _ [] [] ⟨⟨5, 10⟩, 1⟩ rfl)
  have htaken := ((hpushed.tail (.frame _ append)).tail (.frame _ resync)).tail (.takeAll _)
  have hrun := htaken.tail (.run _ [] [] [] [(⟨⟨5, 10⟩, 1⟩, none)] ⟨⟨5, 20⟩, 2⟩ rfl)
  have hwindow : PruneJob.run policy ((receiver.handleFrame append).2.handleFrame resync).2 ⟨5, 20⟩ =
      ⟨5, [b], 0⟩ := by
    simp only [PruneJob.run, policy, hlog]
  obtain ⟨-, hbatches⟩ := scheduled_jobs_run_once hwf hrun (by simp)
  have hcurrent := (hbatches _ List.mem_cons_self).2 _ _ List.mem_cons_self hfollowed
  rw [← hwindow]
  exact ⟨_, hrun, rfl, rfl, hcurrent⟩

end PriorityPruneScheduler

end Dlr.Prune
