import Mathlib.Data.List.Induction
import Mathlib.Tactic.Ring

/-!
# Lines of workers over bounded queues

A feeder sends items into the first of a line of queues. Between every two queues a worker
receives an item, maps it and sends the result on, one item at a time. A queue with a bound of
zero holds nothing: there an item goes from the sender to the receiver in one move.

Whatever the threads do in whatever order, the items that the line will still yield are the same
in the same order, a line that has items left can move, and it cannot move forever.
-/

namespace Dlr.Lib

/-- What a worker is doing. -/
inductive Worker (α : Type*)
  | receiving
  | working (item : α)
  | sending (out : α)

namespace Worker

variable {α : Type*}

/-- What the worker will send. -/
def yield (f : α → α) : Worker α → List α
  | receiving => []
  | working x => [f x]
  | sending y => [y]

/-- The moves until the item in hand is received behind the next queue. -/
def moves : Worker α → Nat
  | receiving => 0
  | working _ => 3
  | sending _ => 2

end Worker

/-- The threads and queues up to one queue, which comes last. -/
inductive Line (α : Type*)
  | head (feed queue : List α)
  | stage (up : Line α) (f : α → α) (worker : Worker α) (queue : List α)

namespace Line

variable {α : Type*}

/-- What the receiver at the last queue gets. An unbuffered queue takes the item from the sender
that waits with it. -/
def recv (cap : Nat) : Line α → Option (α × Line α)
  | head feed (x :: queue) => some (x, head feed queue)
  | head (x :: feed) [] => if cap = 0 then some (x, head feed []) else none
  | head [] [] => none
  | stage up f worker (x :: queue) => some (x, stage up f worker queue)
  | stage up f (.sending y) [] => if cap = 0 then some (y, stage up f .receiving []) else none
  | stage _ _ .receiving [] => none
  | stage _ _ (.working _) [] => none

/-- The next move of one thread, which is none where it has to wait. Threads are numbered from the
last worker up to the feeder. -/
def step (cap : Nat) : Line α → Nat → Option (Line α)
  | head (x :: feed) queue, 0 =>
      if queue.length < cap then some (head feed (queue ++ [x])) else none
  | head [] _, 0 => none
  | head _ _, _ + 1 => none
  | stage up f .receiving queue, 0 =>
      (up.recv cap).map fun r => stage r.2 f (.working r.1) queue
  | stage up f (.working x) queue, 0 => some (stage up f (.sending (f x)) queue)
  | stage up f (.sending y) queue, 0 =>
      if queue.length < cap then some (stage up f .receiving (queue ++ [y])) else none
  | stage up f worker queue, i + 1 => (up.step cap i).map fun up => stage up f worker queue

/-- What the feeder has not sent. -/
def feed : Line α → List α
  | head feed _ => feed
  | stage up _ _ _ => up.feed

/-- A new feeder at the first queue. -/
def refill (items : List α) : Line α → Line α
  | head _ queue => head items queue
  | stage up f worker queue => stage (up.refill items) f worker queue

/-- A line with empty queues and waiting workers. -/
def ofStages (stages : List (α → α)) : Line α :=
  stages.foldl (fun up f => stage up f .receiving []) (head [] [])

/-! ## What a line yields -/

/-- What becomes of an item at the head of the line. -/
def through : Line α → α → α
  | head _ _, x => x
  | stage up f _ _, x => f (up.through x)

/-- The items that will be received from the last queue, in their order. -/
def yield : Line α → List α
  | head feed queue => queue ++ feed
  | stage up f worker queue => queue ++ worker.yield f ++ up.yield.map f

theorem through_ofStages (stages : List (α → α)) (x : α) :
    (ofStages stages).through x = stages.foldl (fun x f => f x) x := by
  induction stages using List.reverseRecOn with
  | nil => rfl
  | append_singleton stages f ih =>
      rw [ofStages, List.foldl_append, List.foldl_append, ← ih]
      rfl

theorem yield_ofStages (stages : List (α → α)) : (ofStages stages).yield = [] := by
  induction stages using List.reverseRecOn with
  | nil => rfl
  | append_singleton stages f ih =>
      rw [ofStages, List.foldl_append]
      change [] ++ [] ++ (ofStages stages).yield.map f = []
      rw [ih]
      rfl

theorem feed_eq_nil {line : Line α} (h : line.yield = []) : line.feed = [] := by
  induction line with
  | head feed queue => exact (List.append_eq_nil_iff.mp h).2
  | stage up f worker queue ih => exact ih (List.map_eq_nil_iff.mp (List.append_eq_nil_iff.mp h).2)

theorem through_refill (items : List α) (line : Line α) (x : α) :
    (line.refill items).through x = line.through x := by
  induction line with
  | head feed queue => rfl
  | stage up f worker queue ih => exact congrArg f ih

/-- What a new feeder sends comes out last. -/
theorem yield_refill {line : Line α} (h : line.feed = []) (items : List α) :
    (line.refill items).yield = line.yield ++ items.map line.through := by
  induction line with
  | head feed queue =>
      obtain rfl : feed = [] := h
      have hid : items.map (head [] queue).through = items := List.map_id items
      rw [hid]
      simp [refill, yield]
  | stage up f worker queue ih =>
      have hmap : items.map (stage up f worker queue).through = (items.map up.through).map f := by
        rw [List.map_map]
        rfl
      rw [refill, yield, ih h, List.map_append, yield, hmap, List.append_assoc, List.append_assoc,
        List.append_assoc]

/-! ## One move -/

/-- The number of workers. -/
def depth : Line α → Nat
  | head _ _ => 0
  | stage up _ _ _ => up.depth + 1

/-- The moves until every item is received. -/
def moves : Line α → Nat
  | head feed queue => queue.length + 2 * feed.length
  | stage up _ worker queue => queue.length + worker.moves + up.moves + 3 * up.yield.length

/-- What receiving an item from the last queue does. -/
structure Received (line : Line α) (x : α) (line' : Line α) : Prop where
  yield : line.yield = x :: line'.yield
  through : line'.through = line.through
  depth : line'.depth = line.depth
  moves : line'.moves < line.moves

/-- What a move inside the line does. -/
structure Moved (line line' : Line α) : Prop where
  yield : line'.yield = line.yield
  through : line'.through = line.through
  depth : line'.depth = line.depth
  moves : line'.moves < line.moves

theorem received_of_recv {cap : Nat} {line line' : Line α} {x : α}
    (h : line.recv cap = some (x, line')) : line.Received x line' := by
  cases line with
  | head feed queue =>
      cases queue with
      | cons y queue =>
          cases h
          refine ⟨rfl, rfl, rfl, ?_⟩
          simp only [Line.moves, List.length_cons]
          omega
      | nil =>
          cases feed with
          | nil => cases h
          | cons y feed =>
              rw [recv] at h
              split_ifs at h
              cases h
              refine ⟨rfl, rfl, rfl, ?_⟩
              simp only [Line.moves, List.length_cons]
              omega
  | stage up f worker queue =>
      cases queue with
      | cons y queue =>
          cases h
          refine ⟨rfl, rfl, rfl, ?_⟩
          simp only [Line.moves, List.length_cons]
          omega
      | nil =>
          cases worker with
          | receiving => cases h
          | working y => cases h
          | sending y =>
              rw [recv] at h
              split_ifs at h
              cases h
              refine ⟨rfl, rfl, rfl, ?_⟩
              simp only [Line.moves, Worker.moves]
              omega

/-- A worker behind a line that moved. -/
theorem Moved.stage {up up' : Line α} (h : up.Moved up') (f : α → α) (worker : Worker α)
    (queue : List α) : (Line.stage up f worker queue).Moved (Line.stage up' f worker queue) := by
  have hmoves := h.moves
  refine ⟨?_, ?_, ?_, ?_⟩
  · rw [Line.yield, Line.yield, h.yield]
  · funext x
    exact congrArg f (congrFun h.through x)
  · rw [Line.depth, Line.depth, h.depth]
  · rw [Line.moves, Line.moves, h.yield]
    omega

/-- A worker that takes its next item. -/
theorem Received.stage {up up' : Line α} {x : α} (h : up.Received x up') (f : α → α)
    (queue : List α) :
    (Line.stage up f .receiving queue).Moved (Line.stage up' f (.working x) queue) := by
  have hmoves := h.moves
  refine ⟨?_, ?_, ?_, ?_⟩
  · simp [Line.yield, Worker.yield, h.yield]
  · funext x
    exact congrArg f (congrFun h.through x)
  · rw [Line.depth, Line.depth, h.depth]
  · rw [Line.moves, Line.moves, h.yield, Worker.moves, Worker.moves, List.length_cons]
    omega

theorem moved_of_step {cap i : Nat} {line line' : Line α} (h : line.step cap i = some line') :
    line.Moved line' := by
  induction line generalizing i line' with
  | head feed queue =>
      cases i with
      | succ i => cases feed <;> cases h
      | zero =>
          cases feed with
          | nil => cases h
          | cons x feed =>
              rw [step] at h
              split_ifs at h
              cases h
              refine ⟨by simp [Line.yield], rfl, rfl, ?_⟩
              simp only [Line.moves, List.length_append, List.length_cons, List.length_nil]
              omega
  | stage up f worker queue ih =>
      cases i with
      | succ i =>
          have hup : (up.step cap i).map (fun up => stage up f worker queue) = some line' := by
            cases worker <;> exact h
          obtain ⟨up', hstep, rfl⟩ := Option.map_eq_some_iff.mp hup
          exact (ih hstep).stage f worker queue
      | zero =>
          cases worker with
          | receiving =>
              obtain ⟨⟨x, up'⟩, hrecv, rfl⟩ := Option.map_eq_some_iff.mp h
              exact (received_of_recv hrecv).stage f queue
          | working x =>
              cases h
              refine ⟨rfl, rfl, rfl, ?_⟩
              simp only [Line.moves, Worker.moves]
              omega
          | sending y =>
              rw [step] at h
              split_ifs at h
              cases h
              refine ⟨by simp [Line.yield, Worker.yield], rfl, rfl, ?_⟩
              simp only [Line.moves, Worker.moves, List.length_append, List.length_cons,
                List.length_nil]
              omega

/-- As long as items are left, one can be received or some thread can move. -/
theorem can_move (cap : Nat) {line : Line α} (h : line.yield ≠ []) :
    (line.recv cap).isSome ∨ ∃ i, (line.step cap i).isSome := by
  induction line with
  | head feed queue =>
      cases queue with
      | cons x queue => exact Or.inl rfl
      | nil =>
          cases feed with
          | nil => exact absurd rfl h
          | cons x feed =>
              by_cases hcap : cap = 0
              · left
                rw [recv, if_pos hcap]
                rfl
              · refine Or.inr ⟨0, ?_⟩
                rw [step, List.length_nil, if_pos (Nat.pos_of_ne_zero hcap)]
                rfl
  | stage up f worker queue ih =>
      cases queue with
      | cons x queue => exact Or.inl rfl
      | nil =>
          cases worker with
          | working x => exact Or.inr ⟨0, rfl⟩
          | sending y =>
              by_cases hcap : cap = 0
              · left
                rw [recv, if_pos hcap]
                rfl
              · refine Or.inr ⟨0, ?_⟩
                rw [step, List.length_nil, if_pos (Nat.pos_of_ne_zero hcap)]
                rfl
          | receiving =>
              -- the worker waits, so the items are further up
              have hup : up.yield ≠ [] := by
                intro hnil
                exact h (by rw [yield, hnil]; rfl)
              rcases ih hup with hrecv | ⟨i, hstep⟩
              · refine Or.inr ⟨0, ?_⟩
                rw [step, Option.isSome_map]
                exact hrecv
              · refine Or.inr ⟨i + 1, ?_⟩
                rw [step, Option.isSome_map]
                exact hstep

/-- A line that is fed anew moves a fixed number of times for every item. -/
theorem moves_refill {line : Line α} (h : line.yield = []) (items : List α) :
    (line.refill items).moves = items.length * (3 * line.depth + 2) := by
  induction line with
  | head feed queue =>
      obtain ⟨rfl, rfl⟩ := List.append_eq_nil_iff.mp h
      simp only [refill, moves, depth, List.length_nil]
      omega
  | stage up f worker queue ih =>
      obtain ⟨hfront, hmap⟩ := List.append_eq_nil_iff.mp h
      obtain ⟨rfl, hworker⟩ := List.append_eq_nil_iff.mp hfront
      have hup := List.map_eq_nil_iff.mp hmap
      obtain rfl : worker = .receiving := by
        cases worker with
        | receiving => rfl
        | working x => cases hworker
        | sending y => cases hworker
      have hlen : (up.refill items).yield.length = items.length := by
        rw [yield_refill (feed_eq_nil hup), hup, List.nil_append, List.length_map]
      simp only [refill, moves, depth, Worker.moves, List.length_nil, ih hup, hlen]
      ring

theorem refill_nil {line : Line α} (h : line.feed = []) : line.refill [] = line := by
  induction line with
  | head feed queue => exact congrArg (head · queue) h.symm
  | stage up f worker queue ih => exact congrArg (stage · f worker queue) (ih h)

/-- A line without items does not move. -/
theorem step_eq_none (cap : Nat) {line : Line α} (h : line.yield = []) (i : Nat) :
    line.step cap i = none := by
  have hzero : line.moves = 0 := by
    have hmoves := moves_refill h []
    rwa [refill_nil (feed_eq_nil h), List.length_nil, Nat.zero_mul] at hmoves
  rw [Option.eq_none_iff_forall_ne_some]
  intro line' hstep
  have hlt := (moved_of_step hstep).moves
  omega

theorem depth_refill (items : List α) (line : Line α) :
    (line.refill items).depth = line.depth := by
  induction line with
  | head feed queue => rfl
  | stage up f worker queue ih => exact congrArg (· + 1) ih

theorem depth_ofStages (stages : List (α → α)) : (ofStages stages).depth = stages.length := by
  induction stages using List.reverseRecOn with
  | nil => rfl
  | append_singleton stages f ih =>
      rw [ofStages, List.foldl_append, List.length_append, ← ih]
      rfl

end Line

end Dlr.Lib
