import Dlr.Lib.WorkerLine

/-!
# The staged pipeline

Every stage runs on a thread of its own between two bounded channels, and the threads stay when a
batch is through. A call of `run` starts a feeder for its batch, collects as many items as it has
fed from the last channel and joins the feeder.

## Implementation notes

The system is the caller, who makes one call of `run` after another, and the threads behind it. A
schedule says which of them moves next; one that has to wait does not move. The channels stay open
as long as the pipeline lives, so no send and no receive fails. A pipeline is not shared between
threads: the receiver it holds is not.
-/

namespace Dlr.Transport

open Lib

/-- A byte buffer. -/
abbrev Item := List UInt8

structure BytePipeline where
  /-- The stages that are not running yet. -/
  stages : List (Item → Item) := []
  cap : Nat
  /-- The channels and threads, once they are spawned. -/
  workers : Option (Line Item) := none

namespace BytePipeline

def new (cap : Nat) : BytePipeline := { cap }

def stage (p : BytePipeline) (f : Item → Item) : BytePipeline :=
  { p with stages := p.stages ++ [f] }

/-- The workers, spawned from the stages where there are none, with a feeder for the batch. -/
def feed (p : BytePipeline) (input : List Item) : BytePipeline :=
  match p.workers with
  | some line => { p with workers := some (line.refill input) }
  | none =>
      { p with stages := [], workers := some ((Line.ofStages p.stages).refill input) }

end BytePipeline

/-- Where the caller is in its calls of `run`. -/
inductive Caller
  | ready
  | collecting (n : Nat) (out : List Item)
  | joining (out : List Item)

/-- The caller with the batches it has to run and the results of the runs that returned. -/
structure System where
  pipeline : BytePipeline
  caller : Caller := .ready
  batches : List (List Item)
  results : List (List Item) := []

/-- Who moves: the caller, or a thread of the pipeline. -/
inductive Party
  | caller
  | thread (i : Nat)

namespace System

/-- The next move of a party, which is none where it has to wait. -/
def step (s : System) : Party → Option System
  | .thread i => do
      let line ← (← s.pipeline.workers).step s.pipeline.cap i
      return { s with pipeline := { s.pipeline with workers := some line } }
  | .caller =>
      match s.caller with
      | .ready =>
          match s.batches with
          | [] => none
          | input :: batches =>
              if input.length = 0 then some { s with batches, results := s.results ++ [[]] }
              else some { s with pipeline := s.pipeline.feed input,
                                 caller := .collecting input.length [], batches }
      | .collecting n out => do
          let (item, line) ← (← s.pipeline.workers).recv s.pipeline.cap
          let out := out ++ [item]
          return { s with pipeline := { s.pipeline with workers := some line },
                          caller := if out.length = n then .joining out else .collecting n out }
      | .joining out => do
          let line ← s.pipeline.workers
          if line.feed = [] then some { s with caller := .ready, results := s.results ++ [out] }
          else none

/-- The system after the moves of a schedule. -/
def run (s : System) : List Party → Option System
  | [] => some s
  | party :: schedule => do (← s.step party).run schedule

/-- A caller of a new pipeline with these stages. -/
def start (cap : Nat) (stages : List (Item → Item)) (batches : List (List Item)) : System where
  pipeline := stages.foldl BytePipeline.stage (BytePipeline.new cap)
  batches

end System

/-- All stages, applied in the order in which they were added. -/
def applyStages (stages : List (Item → Item)) (item : Item) : Item :=
  stages.foldl (fun item f => f item) item

theorem foldl_stage (stages : List (Item → Item)) (p : BytePipeline) :
    stages.foldl BytePipeline.stage p = { p with stages := p.stages ++ stages } := by
  induction stages generalizing p with
  | nil => rw [List.foldl_nil, List.append_nil]
  | cons f rest ih => rw [List.foldl_cons, ih, BytePipeline.stage, List.append_assoc]; rfl

/-! ## The invariant -/

section Invariant

variable (cap : Nat) (stages : List (Item → Item)) (batches : List (List Item))

/-- A line that runs these stages. -/
structure Runs (line : Line Item) : Prop where
  through : line.through = applyStages stages
  depth : line.depth = stages.length

/-- The pipeline is not spawned yet or has these workers. -/
def Holds (p : BytePipeline) (line : Line Item) : Prop :=
  p.cap = cap ∧ (p.workers = some line ∨ p.workers = none ∧ p.stages = stages ∧
    line = Line.ofStages stages)

/-- What holds between two moves: the results are those of the batches that were run, and the
batch at hand is in the results so far and in the line. -/
inductive Sound : System → Prop
  | ready {p : BytePipeline} {line : Line Item} {done rest : List (List Item)}
      (split : batches = done ++ rest) (holds : Holds cap stages p line)
      (runs : Runs stages line) (empty : line.yield = []) :
      Sound ⟨p, .ready, rest, done.map (List.map (applyStages stages))⟩
  | collecting {p : BytePipeline} {line : Line Item} {done rest : List (List Item)}
      {batch out : List Item} (split : batches = done ++ batch :: rest) (cap_eq : p.cap = cap)
      (workers : p.workers = some line) (runs : Runs stages line)
      (conserved : out ++ line.yield = batch.map (applyStages stages))
      (missing : line.yield ≠ []) :
      Sound ⟨p, .collecting batch.length out, rest, done.map (List.map (applyStages stages))⟩
  | joining {p : BytePipeline} {line : Line Item} {done rest : List (List Item)}
      {batch : List Item} (split : batches = done ++ batch :: rest) (cap_eq : p.cap = cap)
      (workers : p.workers = some line) (runs : Runs stages line) (empty : line.yield = []) :
      Sound ⟨p, .joining (batch.map (applyStages stages)), rest,
        done.map (List.map (applyStages stages))⟩

end Invariant

/-- The moves for one batch: every item passes all channels and stages, and `run` is called and
returns. -/
def batchMoves (stages : List (Item → Item)) (batch : List Item) : Nat :=
  batch.length * (3 * stages.length + 2) + 2

/-- How often the system can still move. -/
def System.moves (stages : List (Item → Item)) (s : System) : Nat :=
  (match s.caller with
    | .ready => 0
    | .collecting _ _ => s.pipeline.workers.elim 0 Line.moves + 1
    | .joining _ => 1) + (s.batches.map (batchMoves stages)).sum

section Steps

variable {cap : Nat} {stages : List (Item → Item)} {batches : List (List Item)}

theorem runs_ofStages : Runs stages (Line.ofStages stages) :=
  ⟨funext (Line.through_ofStages stages), Line.depth_ofStages stages⟩

theorem sound_start : Sound cap stages batches (System.start cap stages batches) := by
  unfold System.start
  rw [foldl_stage]
  exact @Sound.ready cap stages batches _ _ [] batches rfl ⟨rfl, Or.inr ⟨rfl, rfl, rfl⟩⟩
    runs_ofStages (Line.yield_ofStages stages)

/-- The workers of a pipeline that is fed. -/
theorem Holds.feed {p : BytePipeline} {line : Line Item} (h : Holds cap stages p line)
    (input : List Item) :
    (p.feed input).cap = cap ∧ (p.feed input).workers = some (line.refill input) := by
  obtain ⟨hcap, hworkers | ⟨hnone, rfl, rfl⟩⟩ := h
  · simp only [BytePipeline.feed, hworkers]
    exact ⟨hcap, trivial⟩
  · simp only [BytePipeline.feed, hnone]
    exact ⟨hcap, trivial⟩

theorem Runs.refill {line : Line Item} (h : Runs stages line) (input : List Item) :
    Runs stages (line.refill input) :=
  ⟨(funext (Line.through_refill input line)).trans h.through,
    (Line.depth_refill input line).trans h.depth⟩

/-- A call of `run`. -/
theorem sound_call {p : BytePipeline} {line : Line Item} {done rest : List (List Item)}
    {input : List Item} (split : batches = done ++ input :: rest)
    (holds : Holds cap stages p line) (runs : Runs stages line) (empty : line.yield = [])
    (hne : input ≠ []) :
    Sound cap stages batches ⟨p.feed input, .collecting input.length [], rest,
      done.map (List.map (applyStages stages))⟩ := by
  obtain ⟨hcap, hworkers⟩ := holds.feed input
  have hyield : (line.refill input).yield = input.map (applyStages stages) := by
    rw [Line.yield_refill (Line.feed_eq_nil empty), empty, List.nil_append, runs.through]
  refine .collecting split hcap hworkers (runs.refill input) ?_ ?_
  · rw [List.nil_append, hyield]
  · rw [hyield]
    exact mt List.map_eq_nil_iff.mp hne

/-- The caller receives an item. -/
theorem sound_collect {p : BytePipeline} {line line' : Line Item} {done rest : List (List Item)}
    {batch out : List Item} {item : Item} (split : batches = done ++ batch :: rest)
    (cap_eq : p.cap = cap) (runs : Runs stages line)
    (conserved : out ++ line.yield = batch.map (applyStages stages))
    (received : line.Received item line') :
    Sound cap stages batches ⟨{ p with workers := some line' },
      if (out ++ [item]).length = batch.length then .joining (out ++ [item])
      else .collecting batch.length (out ++ [item]), rest,
      done.map (List.map (applyStages stages))⟩ := by
  have hruns : Runs stages line' :=
    ⟨received.through.trans runs.through, received.depth.trans runs.depth⟩
  have hnext : out ++ [item] ++ line'.yield = batch.map (applyStages stages) := by
    rw [← conserved, received.yield, List.append_assoc, List.singleton_append]
  have hlen : (out ++ [item]).length + line'.yield.length = batch.length := by
    rw [← List.length_append, hnext, List.length_map]
  split_ifs with hall
  · have hempty : line'.yield = [] := List.eq_nil_of_length_eq_zero (by omega)
    rw [hempty, List.append_nil] at hnext
    rw [hnext]
    exact .joining split cap_eq rfl hruns hempty
  · refine .collecting split cap_eq rfl hruns hnext ?_
    intro hempty
    rw [hempty, List.length_nil] at hlen
    exact hall hlen

/-- A call of `run` returns. -/
theorem sound_return {p : BytePipeline} {line : Line Item} {done rest : List (List Item)}
    {batch : List Item} (split : batches = done ++ batch :: rest)
    (holds : Holds cap stages p line) (runs : Runs stages line) (empty : line.yield = []) :
    Sound cap stages batches ⟨p, .ready, rest,
      done.map (List.map (applyStages stages)) ++ [batch.map (applyStages stages)]⟩ := by
  have hready : Sound cap stages batches
      ⟨p, .ready, rest, (done ++ [batch]).map (List.map (applyStages stages))⟩ :=
    .ready (by rw [split, List.append_assoc, List.singleton_append]) holds runs empty
  rwa [List.map_append] at hready

/-- Every move keeps the invariant and brings the end nearer. -/
theorem Sound.step {s s' : System} {party : Party} (h : Sound cap stages batches s)
    (hstep : s.step party = some s') :
    Sound cap stages batches s' ∧ s'.moves stages < s.moves stages := by
  cases h with
  | @ready p line done rest split holds runs empty =>
      cases party with
      | thread i =>
          obtain ⟨hcap, hworkers | ⟨hnone, -⟩⟩ := holds
          · simp [System.step, hworkers, Line.step_eq_none _ empty] at hstep
          · simp [System.step, hnone] at hstep
      | caller =>
          cases rest with
          | nil => cases hstep
          | cons input rest =>
              simp only [System.step] at hstep
              split_ifs at hstep with hzero
              · obtain rfl := List.eq_nil_of_length_eq_zero hzero
                cases hstep
                refine ⟨sound_return split holds runs empty, ?_⟩
                simp [System.moves, batchMoves]
              · cases hstep
                have hne : input ≠ [] := fun hnil => hzero (by rw [hnil]; rfl)
                refine ⟨sound_call split holds runs empty hne, ?_⟩
                simp only [System.moves, (holds.feed input).2, Option.elim_some,
                  Line.moves_refill empty, runs.depth, List.map_cons, List.sum_cons, batchMoves]
                omega
  | @collecting p line done rest batch out split cap_eq workers runs conserved missing =>
      cases party with
      | thread i =>
          simp only [System.step, workers, Option.bind_eq_bind, Option.bind_some] at hstep
          obtain ⟨line', hline, hs⟩ := Option.bind_eq_some_iff.mp hstep
          cases hs
          have hmoved := Line.moved_of_step hline
          have hmoves := hmoved.moves
          refine ⟨.collecting split cap_eq rfl ⟨hmoved.through.trans runs.through,
            hmoved.depth.trans runs.depth⟩ (hmoved.yield ▸ conserved) (hmoved.yield ▸ missing), ?_⟩
          simp only [System.moves, workers, Option.elim_some]
          omega
      | caller =>
          simp only [System.step, workers, Option.bind_eq_bind, Option.bind_some] at hstep
          obtain ⟨⟨item, line'⟩, hrecv, hs⟩ := Option.bind_eq_some_iff.mp hstep
          cases hs
          have hreceived := Line.received_of_recv hrecv
          have hmoves := hreceived.moves
          refine ⟨sound_collect split cap_eq runs conserved hreceived, ?_⟩
          simp only [System.moves, workers, Option.elim_some]
          split_ifs <;> simp only <;> omega
  | @joining p line done rest batch split cap_eq workers runs empty =>
      cases party with
      | thread i => simp [System.step, workers, Line.step_eq_none _ empty] at hstep
      | caller =>
          simp only [System.step, workers, Option.bind_eq_bind, Option.bind_some,
            if_pos (Line.feed_eq_nil empty)] at hstep
          cases hstep
          refine ⟨sound_return split ⟨cap_eq, Or.inl workers⟩ runs empty, ?_⟩
          simp [System.moves]

/-- As long as a call of `run` is to return, some party can move. -/
theorem Sound.can_move {s : System} (h : Sound cap stages batches s)
    (hleft : s.results.length < batches.length) : ∃ party, (s.step party).isSome := by
  cases h with
  | @ready p line done rest split holds runs empty =>
      refine ⟨.caller, ?_⟩
      cases rest with
      | nil => simp [split] at hleft
      | cons input rest =>
          simp only [System.step]
          split_ifs <;> rfl
  | @collecting p line done rest batch out split cap_eq workers runs conserved missing =>
      rcases Line.can_move p.cap missing with hrecv | ⟨i, hstep⟩
      · refine ⟨.caller, ?_⟩
        obtain ⟨r, hr⟩ := Option.isSome_iff_exists.mp hrecv
        simp [System.step, workers, hr]
      · refine ⟨.thread i, ?_⟩
        obtain ⟨line', hline⟩ := Option.isSome_iff_exists.mp hstep
        simp [System.step, workers, hline]
  | @joining p line done rest batch split cap_eq workers runs empty =>
      refine ⟨.caller, ?_⟩
      simp [System.step, workers, Line.feed_eq_nil empty]

/-- The results are those of the first batches. -/
theorem Sound.results {s : System} (h : Sound cap stages batches s) :
    s.results = (batches.take s.results.length).map (List.map (applyStages stages)) := by
  cases h with
  | ready split => simp [split]
  | collecting split => simp [split]
  | joining split => simp [split]

end Steps

/-! ## Runs -/

section Runs

variable {cap : Nat} {stages : List (Item → Item)} {batches : List (List Item)} {s s' : System}

theorem Sound.run (h : Sound cap stages batches s) {schedule : List Party}
    (hrun : s.run schedule = some s') :
    Sound cap stages batches s' ∧ schedule.length + s'.moves stages ≤ s.moves stages := by
  induction schedule generalizing s with
  | nil =>
      cases hrun
      exact ⟨h, by rw [List.length_nil, Nat.zero_add]⟩
  | cons party rest ih =>
      obtain ⟨next, hstep, hrest⟩ := Option.bind_eq_some_iff.mp hrun
      obtain ⟨hnext, hlt⟩ := h.step hstep
      obtain ⟨hs', hle⟩ := ih hnext hrest
      refine ⟨hs', ?_⟩
      rw [List.length_cons]
      omega

/-- From every state the calls that are left can return. -/
theorem Sound.completes (h : Sound cap stages batches s) :
    ∃ schedule s', s.run schedule = some s' ∧
      s'.results = batches.map (List.map (applyStages stages)) := by
  induction hm : s.moves stages using Nat.strong_induction_on generalizing s with
  | _ m ih =>
      rcases Nat.lt_or_ge s.results.length batches.length with hleft | hall
      · obtain ⟨party, hparty⟩ := h.can_move hleft
        obtain ⟨next, hstep⟩ := Option.isSome_iff_exists.mp hparty
        obtain ⟨hnext, hlt⟩ := h.step hstep
        obtain ⟨schedule, last, hrun, hresults⟩ := ih _ (hm ▸ hlt) hnext rfl
        refine ⟨party :: schedule, last, ?_, hresults⟩
        rw [System.run, hstep]
        exact hrun
      · refine ⟨[], s, rfl, ?_⟩
        rw [h.results, List.take_of_length_le hall]

end Runs

/-- For all stages, bounds, calls of `run` and schedules: the calls that have returned gave their
own batches with all stages applied, in order, no state before the last return is stuck, and the
schedule is bounded, so that every call returns. -/
theorem pipeline_is_map (stages : List (Item → Item)) (cap : Nat) (batches : List (List Item))
    (schedule : List Party) {s : System}
    (hrun : (System.start cap stages batches).run schedule = some s) :
    s.results = (batches.take s.results.length).map (List.map (applyStages stages)) ∧
      (s.results.length < batches.length → ∃ party, (s.step party).isSome) ∧
      (∃ more s', s.run more = some s' ∧
        s'.results = batches.map (List.map (applyStages stages))) ∧
      schedule.length ≤ (batches.map (batchMoves stages)).sum := by
  obtain ⟨hs, hle⟩ := sound_start.run hrun
  refine ⟨hs.results, hs.can_move, hs.completes, ?_⟩
  have hstart : (System.start cap stages batches).moves stages =
      (batches.map (batchMoves stages)).sum := Nat.zero_add _
  omega

/-- Two runs of one stage over unbuffered channels. -/
theorem pipeline_is_map_unbuffered :
    ∃ s, (System.start 0 [List.reverse] [[[1, 2], [3]], [[4, 5]]]).run
        [.caller, .thread 0, .thread 0, .caller, .thread 0, .thread 0, .caller, .caller,
          .caller, .thread 0, .thread 0, .caller, .caller] = some s ∧
      s.results = [[[2, 1], [3]], [[5, 4]]] := by
  refine ⟨_, rfl, ?_⟩
  exact (pipeline_is_map [List.reverse] 0 [[[1, 2], [3]], [[4, 5]]]
    [.caller, .thread 0, .thread 0, .caller, .thread 0, .thread 0, .caller, .caller,
      .caller, .thread 0, .thread 0, .caller, .caller] rfl).1

end Dlr.Transport
