import Mathlib.Data.List.Basic
import Mathlib.Logic.Relation

/-!
# Bounded channels

A sender that finds the buffer full waits with its item. Whoever waits may go next, so items enter
the channel in any order, but they leave it in the order in which they entered. A channel without
a buffer hands an item from a waiting sender to the receiver in one move.
-/

namespace Dlr.Lib

/-- A channel, with what was ever offered to it, what it accepted and what was taken from it. -/
structure Channel (α : Type*) where
  cap : Nat
  waiting : List α := []
  queue : List α := []
  offered : List α := []
  accepted : List α := []
  taken : List α := []

namespace Channel

variable {α : Type*}

/-- A sender comes with an item. -/
def offer (c : Channel α) (x : α) : Channel α :=
  { c with waiting := c.waiting ++ [x], offered := c.offered ++ [x] }

inductive Step : Channel α → Channel α → Prop
  /-- One of the waiting senders puts its item into the buffer. -/
  | push (c : Channel α) (before after : List α) (x : α)
      (hwaiting : c.waiting = before ++ x :: after) (hroom : c.queue.length < c.cap) :
      Step c { c with
        waiting := before ++ after, queue := c.queue ++ [x], accepted := c.accepted ++ [x] }
  /-- The receiver takes the item of a waiting sender, as there is no buffer. -/
  | handOver (c : Channel α) (before after : List α) (x : α)
      (hwaiting : c.waiting = before ++ x :: after) (hcap : c.cap = 0) :
      Step c { c with
        waiting := before ++ after, accepted := c.accepted ++ [x], taken := c.taken ++ [x] }
  /-- The receiver takes the oldest item of the buffer. -/
  | take (c : Channel α) (x : α) (rest : List α) (hqueue : c.queue = x :: rest) :
      Step c { c with queue := rest, taken := c.taken ++ [x] }

/-- What holds of a channel at all times: items leave in the order in which they entered, every
offered item either waits or entered, and the buffer keeps its bound. -/
structure Sound (c : Channel α) : Prop where
  fifo : c.taken ++ c.queue = c.accepted
  conserved : c.offered.Perm (c.accepted ++ c.waiting)
  bounded : c.queue.length ≤ c.cap

theorem sound_empty (cap : Nat) : ({ cap } : Channel α).Sound :=
  ⟨rfl, List.Perm.refl _, Nat.zero_le cap⟩

theorem Sound.offer {c : Channel α} (h : c.Sound) (x : α) : (c.offer x).Sound := by
  refine ⟨h.fifo, ?_, h.bounded⟩
  rw [Channel.offer, ← List.append_assoc]
  exact h.conserved.append_right [x]

/-- Moving one item from the waiting ones to the accepted ones keeps all of them. -/
theorem perm_accept {offered accepted waiting before after : List α} {x : α}
    (h : offered.Perm (accepted ++ waiting)) (hwaiting : waiting = before ++ x :: after) :
    offered.Perm (accepted ++ [x] ++ (before ++ after)) := by
  subst hwaiting
  refine h.trans ?_
  rw [List.append_assoc]
  exact List.perm_middle.append_left accepted

theorem Sound.step {c c' : Channel α} (h : c.Sound) (hstep : Step c c') : c'.Sound := by
  cases hstep with
  | push before after x hwaiting hroom =>
      refine ⟨?_, perm_accept h.conserved hwaiting, ?_⟩
      · rw [← List.append_assoc, h.fifo]
      · rw [List.length_append, List.length_singleton]
        exact hroom
  | handOver before after x hwaiting hcap =>
      have hempty : c.queue = [] := by
        rw [← List.length_eq_zero_iff]
        have hbounded := h.bounded
        omega
      refine ⟨?_, perm_accept h.conserved hwaiting, h.bounded⟩
      have hfifo := h.fifo
      rw [hempty, List.append_nil] at hfifo ⊢
      rw [hfifo]
  | take x rest hqueue =>
      have hfifo := h.fifo
      have hbounded := h.bounded
      rw [hqueue] at hfifo hbounded
      refine ⟨?_, h.conserved, Nat.le_of_succ_le hbounded⟩
      rw [List.append_assoc]
      exact hfifo

theorem Step.offered_eq {c c' : Channel α} (h : Step c c') : c'.offered = c.offered := by
  cases h <;> rfl

theorem Step.cap_eq {c c' : Channel α} (h : Step c c') : c'.cap = c.cap := by
  cases h <;> rfl

/-- Nothing waits and nothing is buffered. -/
def Drained (c : Channel α) : Prop := c.waiting = [] ∧ c.queue = []

/-- A channel can always be drained. -/
theorem drains (c : Channel α) : ∃ c', Relation.ReflTransGen Step c c' ∧ c'.Drained := by
  -- take what is buffered, then one waiting item after the other
  have htake : ∀ (queue : List α) (c : Channel α), c.queue = queue →
      ∃ c', Relation.ReflTransGen Step c c' ∧ c'.queue = [] ∧ c'.waiting = c.waiting := by
    intro queue
    induction queue with
    | nil => exact fun c hc => ⟨c, .refl, hc, rfl⟩
    | cons x rest ih =>
        intro c hc
        obtain ⟨c', hrun, hqueue, hwaiting⟩ :=
          ih { c with queue := rest, taken := c.taken ++ [x] } rfl
        exact ⟨c', .head (.take c x rest hc) hrun, hqueue, hwaiting⟩
  have hpush : ∀ (waiting : List α) (c : Channel α), c.queue = [] → c.waiting = waiting →
      ∃ c', Relation.ReflTransGen Step c c' ∧ c'.Drained := by
    intro waiting
    induction waiting with
    | nil => exact fun c hq hw => ⟨c, .refl, hw, hq⟩
    | cons x rest ih =>
        intro c hq hw
        by_cases hcap : c.cap = 0
        · obtain ⟨c', hrun, hd⟩ := ih { c with
            waiting := [] ++ rest, accepted := c.accepted ++ [x], taken := c.taken ++ [x] } hq rfl
          exact ⟨c', .head (.handOver c [] rest x hw hcap) hrun, hd⟩
        · have hroom : c.queue.length < c.cap := by
            rw [hq]
            exact Nat.pos_of_ne_zero hcap
          obtain ⟨c₁, hrun₁, hq₁, hw₁⟩ := htake [x] { c with
            waiting := [] ++ rest, queue := c.queue ++ [x], accepted := c.accepted ++ [x] }
            (by rw [hq]; rfl)
          obtain ⟨c', hrun, hd⟩ := ih c₁ hq₁ hw₁
          exact ⟨c', .head (.push c [] rest x hw hroom) (hrun₁.trans hrun), hd⟩
  obtain ⟨c₁, hrun₁, hq₁, -⟩ := htake c.queue c rfl
  obtain ⟨c', hrun, hd⟩ := hpush c₁.waiting c₁ hq₁ rfl
  exact ⟨c', hrun₁.trans hrun, hd⟩

end Channel

end Dlr.Lib
