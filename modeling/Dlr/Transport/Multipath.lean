import Dlr.Core.FrameCodec
import Dlr.Lib.Channel
import Dlr.Shim.ColdStart
import Mathlib.Algebra.BigOperators.Group.Finset.Basic
import Mathlib.Data.Int.CardIntervalMod

/-!
# Loopbacks and multipath

A loopback is a bounded channel in each direction. All streams of an endpoint share it: the sink
of a stream puts the stream's id in front of a frame, and a source takes whatever comes next and
cuts the id off. A multipath sink hands its frames to several sinks in turn.

No frame is lost, repeated or changed on the way, and the frames of one path arrive in order. The
frames of a transfer complete the cold start of the receiver in whatever order the paths are read.

## Implementation notes

Both endpoints of every path stay open, so no send and no receive fails. A send takes its turn
first and then waits for room: between the two moves other threads may send.
-/

namespace Dlr.Transport

open Dlr.Core Dlr.Compress Dlr.Coding Lib Lib.Bytes

/-! ## The streams of a loopback -/

/-- The sink of a stream over one of several paths. -/
structure LoopbackSink (n : Nat) where
  streamId : UInt64
  path : Fin n

/-- A frame as the sink of a stream puts it into the channel. -/
def LoopbackSink.tagged {n : Nat} (sink : LoopbackSink n) (frame : List UInt8) : List UInt8 :=
  toLe 8 sink.streamId.toNat ++ frame

/-- The frame that a source gives out. -/
def strip (b : List UInt8) : List UInt8 := if 8 ≤ b.length then b.drop 8 else b

@[simp] theorem strip_tagged {n : Nat} (sink : LoopbackSink n) (frame : List UInt8) :
    strip (sink.tagged frame) = frame := by
  have hlen : (toLe 8 sink.streamId.toNat).length = 8 := length_toLe _ _
  rw [strip, if_pos (by rw [LoopbackSink.tagged, List.length_append, hlen]; omega),
    LoopbackSink.tagged, List.drop_left' hlen]

/-! ## The sink over several paths -/

/-- A multipath sink, the channels of its paths, and the frames that were given to it. -/
structure MultipathSink (n : Nat) where
  sinks : List (LoopbackSink n)
  next : UInt64 := 0
  channels : Fin n → Channel (List UInt8)
  sent : List (List UInt8) := []

namespace MultipathSink

variable {n : Nat}

/-- The sink whose turn it is; with no sinks the remainder panics. -/
def pick (sinks : List (LoopbackSink n)) (next : UInt64) : Option (LoopbackSink n) :=
  sinks[next.toNat % sinks.length]?

def send (s : MultipathSink n) (frame : List UInt8) : Option (MultipathSink n) := do
  let sink ← pick s.sinks s.next
  return { s with
    next := s.next + 1
    channels := Function.update s.channels sink.path
      ((s.channels sink.path).offer (sink.tagged frame))
    sent := s.sent ++ [frame] }

/-- The state with another channel on one path. -/
def setChannel (s : MultipathSink n) (i : Fin n) (c : Channel (List UInt8)) : MultipathSink n :=
  { s with channels := Function.update s.channels i c }

@[simp] theorem setChannel_self (s : MultipathSink n) (i : Fin n) (c : Channel (List UInt8)) :
    (s.setChannel i c).channels i = c := by
  simp [setChannel]

theorem setChannel_of_ne (s : MultipathSink n) {i j : Fin n} (h : j ≠ i)
    (c : Channel (List UInt8)) : (s.setChannel i c).channels j = s.channels j := by
  simp [setChannel, h]

/-- One move: a thread sends a frame, or something happens on one of the paths. -/
inductive Step : MultipathSink n → MultipathSink n → Prop
  | send (s s' : MultipathSink n) (frame : List UInt8) (h : s.send frame = some s') : Step s s'
  | path (s : MultipathSink n) (i : Fin n) (c : Channel (List UInt8))
      (h : Channel.Step (s.channels i) c) :
      Step s (s.setChannel i c)

/-- The frames that were received on a path, in order. -/
def received (s : MultipathSink n) (i : Fin n) : List (List UInt8) := (s.channels i).taken.map strip

/-- The frames that are on a path: those in its buffer, then those of the senders that wait. -/
def inFlight (s : MultipathSink n) (i : Fin n) : List (List UInt8) :=
  ((s.channels i).queue ++ (s.channels i).waiting).map strip

/-- The start: nothing sent, and nothing in the channels. -/
structure Initial (s : MultipathSink n) : Prop where
  channels : ∀ i, s.channels i = { cap := (s.channels i).cap }
  sent : s.sent = []

/-- The turn of the `k`-th frame falls on a sink of this path. -/
def TurnOf (s : MultipathSink n) (i : Fin n) (k : Nat) : Prop :=
  ∃ sink, pick s.sinks (s.next + UInt64.ofNat k) = some sink ∧ sink.path = i

open Classical in
/-- What holds at all times after a start. -/
structure Sound (s₀ s : MultipathSink n) : Prop where
  sinks : s.sinks = s₀.sinks
  next : s.next = s₀.next + UInt64.ofNat s.sent.length
  channels : ∀ i, (s.channels i).Sound
  caps : ∀ i, (s.channels i).cap = (s₀.channels i).cap
  conserved : (s.sent : Multiset (List UInt8)) =
    ∑ i, ((s.channels i).offered.map strip : Multiset (List UInt8))
  load : ∀ i, (s.channels i).offered.length = Nat.count (s₀.TurnOf i) s.sent.length

theorem Initial.sound {s : MultipathSink n} (h : s.Initial) : s.Sound s := by
  have hempty : ∀ i, (s.channels i).offered = [] := by
    intro i
    rw [h.channels i]
  refine ⟨rfl, ?_, ?_, fun _ => rfl, ?_, ?_⟩
  · rw [h.sent]
    simp
  · intro i
    rw [h.channels i]
    exact Channel.sound_empty _
  · simp [h.sent, hempty]
  · intro i
    rw [hempty, h.sent]
    simp

/-- A frame for one path is one more frame in all. -/
theorem sum_offered_offer (channels : Fin n → Channel (List UInt8)) (sink : LoopbackSink n)
    (frame : List UInt8) :
    ∑ i, ((Function.update channels sink.path ((channels sink.path).offer (sink.tagged frame))
        i).offered.map strip : Multiset (List UInt8)) =
      ∑ i, ((channels i).offered.map strip : Multiset (List UInt8)) + {frame} := by
  rw [← Finset.add_sum_erase _ _ (Finset.mem_univ sink.path),
    ← Finset.add_sum_erase Finset.univ (fun i => ((channels i).offered.map strip :
      Multiset (List UInt8))) (Finset.mem_univ sink.path), Function.update_self]
  have hothers : ∀ i ∈ Finset.univ.erase sink.path,
      ((Function.update channels sink.path ((channels sink.path).offer (sink.tagged frame))
        i).offered.map strip : Multiset (List UInt8)) =
          ((channels i).offered.map strip : Multiset (List UInt8)) := by
    intro i hi
    rw [Function.update_of_ne (Finset.ne_of_mem_erase hi)]
  rw [Finset.sum_congr rfl hothers, add_right_comm]
  congr 1
  rw [Channel.offer, List.map_append, List.map_singleton, strip_tagged, ← Multiset.coe_add]
  rfl

theorem Sound.send {s₀ s s' : MultipathSink n} (h : s₀.Sound s) {frame : List UInt8}
    (hsend : s.send frame = some s') : s₀.Sound s' := by
  obtain ⟨sink, hpick, hs'⟩ := Option.bind_eq_some_iff.mp hsend
  obtain rfl := Option.some.inj hs'
  refine ⟨h.sinks, ?_, ?_, ?_, ?_, fun i => ?_⟩
  · simp only [h.next, List.length_append, List.length_singleton]
    rw [UInt64.ofNat_add, UInt64.add_assoc]
    rfl
  · exact (Function.forall_update_iff _ (p := fun _ (c : Channel (List UInt8)) => c.Sound)).mpr
      ⟨(h.channels sink.path).offer _, fun i _ => h.channels i⟩
  · exact (Function.forall_update_iff _ (p := fun i (c : Channel (List UInt8)) =>
      c.cap = (s₀.channels i).cap)).mpr ⟨h.caps sink.path, fun i _ => h.caps i⟩
  · rw [sum_offered_offer, ← h.conserved, ← Multiset.coe_add]
    rfl
  · have hturn : s₀.TurnOf i s.sent.length ↔ i = sink.path := by
      unfold TurnOf
      rw [← h.next, ← h.sinks]
      constructor
      · rintro ⟨sink', hpick', rfl⟩
        rw [Option.some.inj (hpick'.symm.trans hpick)]
      · rintro rfl
        exact ⟨sink, hpick, rfl⟩
    simp only [List.length_append, List.length_singleton]
    rw [Nat.count_succ, ← h.load i]
    by_cases hi : i = sink.path
    · rw [if_pos (hturn.mpr hi)]
      subst hi
      rw [Function.update_self, Channel.offer, List.length_append, List.length_singleton]
    · rw [if_neg fun ht => hi (hturn.mp ht), Function.update_of_ne hi, add_zero]

theorem Sound.step {s₀ s s' : MultipathSink n} (h : s₀.Sound s) (hstep : Step s s') :
    s₀.Sound s' := by
  cases hstep with
  | send s' frame hsend => exact h.send hsend
  | path i c hc =>
      have hoffered : ∀ j, ((s.setChannel i c).channels j).offered = (s.channels j).offered :=
        (Function.forall_update_iff _ (p := fun j (c : Channel (List UInt8)) =>
          c.offered = (s.channels j).offered)).mpr
          ⟨hc.offered_eq, fun _ _ => rfl⟩
      refine ⟨h.sinks, h.next, ?_, ?_, ?_, fun j => ?_⟩
      · exact (Function.forall_update_iff _ (p := fun _ (c : Channel (List UInt8)) => c.Sound)).mpr
          ⟨(h.channels i).step hc, fun j _ => h.channels j⟩
      · exact (Function.forall_update_iff _ (p := fun j (c : Channel (List UInt8)) =>
          c.cap = (s₀.channels j).cap)).mpr ⟨hc.cap_eq.trans (h.caps i), fun j _ => h.caps j⟩
      · simp only [hoffered]
        exact h.conserved
      · rw [hoffered]
        exact h.load j

theorem Sound.run {s₀ s s' : MultipathSink n} (h : s₀.Sound s)
    (hrun : Relation.ReflTransGen Step s s') : s₀.Sound s' := by
  induction hrun with
  | refl => exact h
  | tail _ hstep ih => exact ih.step hstep

/-- What happens on one path is a run of the whole. -/
theorem run_path (s : MultipathSink n) (i : Fin n) {c c' : Channel (List UInt8)}
    (h : Relation.ReflTransGen Channel.Step c c') (hc : s.channels i = c) :
    Relation.ReflTransGen Step s (s.setChannel i c') := by
  induction h with
  | refl =>
      rw [← hc, setChannel, Function.update_eq_self]
  | @tail b c' _ hstep ih =>
      have hmove := Step.path (s.setChannel i b) i c' (by rw [setChannel_self]; exact hstep)
      rw [setChannel, setChannel, Function.update_idem] at hmove
      exact ih.tail hmove

/-- Whatever is in flight can be received. -/
theorem drains (s : MultipathSink n) (paths : List (Fin n)) :
    ∃ s', Relation.ReflTransGen Step s s' ∧ s'.sent = s.sent ∧
      ∀ i ∈ paths, (s'.channels i).Drained := by
  induction paths with
  | nil => exact ⟨s, .refl, rfl, nofun⟩
  | cons i rest ih =>
      obtain ⟨s₁, hrun, hsent, hrest⟩ := ih
      obtain ⟨c, hc, hdrained⟩ := (s₁.channels i).drains
      refine ⟨s₁.setChannel i c, hrun.trans (s₁.run_path i hc rfl), hsent, fun j hj => ?_⟩
      by_cases hji : j = i
      · subst hji
        rw [setChannel_self]
        exact hdrained
      · rw [setChannel_of_ne s₁ hji]
        exact hrest j ((List.mem_cons.mp hj).resolve_left hji)

theorem Sound.path_conserved {s₀ s : MultipathSink n} (h : s₀.Sound s) (i : Fin n) :
    ((s.channels i).offered.map strip : Multiset (List UInt8)) =
      (s.received i : Multiset (List UInt8)) + s.inFlight i := by
  have hperm := (h.channels i).conserved
  rw [← (h.channels i).fifo, List.append_assoc] at hperm
  rw [received, inFlight, Multiset.coe_add, ← List.map_append]
  exact Multiset.coe_eq_coe.mpr (hperm.map strip)

/-- Where nothing is in flight, everything that was sent was received. -/
theorem Sound.sent_of_drained {s₀ s : MultipathSink n} (h : s₀.Sound s)
    (hdrained : ∀ i, (s.channels i).Drained) :
    (s.sent : Multiset (List UInt8)) = ∑ i, (s.received i : Multiset (List UInt8)) := by
  rw [h.conserved]
  refine Finset.sum_congr rfl fun i _ => ?_
  have hempty : s.inFlight i = [] := by
    rw [inFlight, (hdrained i).1, (hdrained i).2]
    rfl
  rw [h.path_conserved i, hempty]
  exact add_zero _

/-- In every run, whatever the sending threads and the receivers of the paths do in whatever order:
what was received on a path, and then its buffer, are the frames that it accepted in their order;
its buffer keeps its bound; every frame that was sent is received exactly once or still on exactly
one path; and from there everything can be received. -/
theorem multipath_delivers {s₀ s : MultipathSink n} (hinit : s₀.Initial)
    (hrun : Relation.ReflTransGen Step s₀ s) :
    (∀ i, s.received i ++ (s.channels i).queue.map strip = (s.channels i).accepted.map strip) ∧
      (∀ i, (s.channels i).queue.length ≤ (s₀.channels i).cap) ∧
      (s.sent : Multiset (List UInt8)) =
        ∑ i, ((s.received i : Multiset (List UInt8)) + s.inFlight i) ∧
      ∃ s', Relation.ReflTransGen Step s s' ∧
        (s.sent : Multiset (List UInt8)) = ∑ i, (s'.received i : Multiset (List UInt8)) := by
  have h := hinit.sound.run hrun
  refine ⟨fun i => ?_, fun i => ?_, ?_, ?_⟩
  · rw [received, ← List.map_append, (h.channels i).fifo]
  · rw [← h.caps i]
    exact (h.channels i).bounded
  · rw [h.conserved]
    exact Finset.sum_congr rfl fun i _ => h.path_conserved i
  · obtain ⟨s', hrun', hsent, hdrained⟩ := s.drains (List.finRange n)
    have h' := h.run hrun'
    refine ⟨s', hrun', ?_⟩
    rw [← hsent]
    exact h'.sent_of_drained fun i => hdrained i (List.mem_finRange i)

/-- Two frames over two paths: the first was received, the second waits for its path. -/
theorem multipath_delivers_two_paths :
    let channel : Channel (List UInt8) := { cap := 1 }
    let s₀ : MultipathSink 2 := { sinks := [⟨1, 0⟩, ⟨1, 1⟩], channels := fun _ => channel }
    ∃ s, Relation.ReflTransGen Step s₀ s ∧ s.received 0 = [[7]] ∧ s.inFlight 1 = [[8]] ∧
      (s.sent : Multiset (List UInt8)) =
        ∑ i, ((s.received i : Multiset (List UInt8)) + s.inFlight i) := by
  intro channel s₀
  let tag : List UInt8 := [1, 0, 0, 0, 0, 0, 0, 0]
  let s₁ : MultipathSink 2 := { s₀ with
    next := 1, channels := Function.update s₀.channels 0 (channel.offer (tag ++ [7])), sent := [[7]] }
  let c₁ : Channel (List UInt8) := { channel with
    queue := [tag ++ [7]], offered := [tag ++ [7]], accepted := [tag ++ [7]] }
  let c₂ : Channel (List UInt8) := { c₁ with queue := [], taken := [tag ++ [7]] }
  let s₂ := (s₁.setChannel 0 c₁).setChannel 0 c₂
  let s₃ : MultipathSink 2 := { s₂ with
    next := 2, channels := Function.update s₂.channels 1 ((s₂.channels 1).offer (tag ++ [8])),
    sent := [[7], [8]] }
  have hsend₁ : Step s₀ s₁ := .send s₀ s₁ [7] rfl
  have hpush : Step s₁ (s₁.setChannel 0 c₁) :=
    .path s₁ 0 c₁ (.push (channel.offer (tag ++ [7])) [] [] (tag ++ [7]) rfl (by decide))
  have htake : Step (s₁.setChannel 0 c₁) s₂ :=
    .path (s₁.setChannel 0 c₁) 0 c₂ (.take c₁ (tag ++ [7]) [] rfl)
  have hsend₂ : Step s₂ s₃ := .send s₂ s₃ [8] rfl
  have hrun : Relation.ReflTransGen Step s₀ s₃ :=
    (((Relation.ReflTransGen.single hsend₁).tail hpush).tail htake).tail hsend₂
  have hinit : s₀.Initial := ⟨fun _ => rfl, rfl⟩
  exact ⟨s₃, hrun, by decide, by decide, (multipath_delivers hinit hrun).2.2.1⟩

/-- Where every path has one sink, the turns go round the paths. -/
theorem turnOf_iff {s₀ : MultipathSink n}
    (hsinks : s₀.sinks.map LoopbackSink.path = List.finRange n) (i : Fin n) {k : Nat}
    (hk : s₀.next.toNat + k < 2 ^ 64) : s₀.TurnOf i k ↔ (s₀.next.toNat + k) % n = i := by
  have hlen : s₀.sinks.length = n := by
    have hmap := congrArg List.length hsinks
    rwa [List.length_map, List.length_finRange] at hmap
  have hnext : (s₀.next + UInt64.ofNat k).toNat = s₀.next.toNat + k := by
    rw [UInt64.toNat_add, UInt64.toNat_ofNat', Nat.add_mod_mod, Nat.mod_eq_of_lt hk]
  have hpath : (pick s₀.sinks (s₀.next + UInt64.ofNat k)).map LoopbackSink.path =
      (List.finRange n)[(s₀.next.toNat + k) % n]? := by
    rw [pick, hnext, hlen, ← List.getElem?_map, hsinks]
  have hturn : s₀.TurnOf i k ↔
      (pick s₀.sinks (s₀.next + UInt64.ofNat k)).map LoopbackSink.path = some i := by
    rw [TurnOf, Option.map_eq_some_iff]
  rw [hturn, hpath, List.getElem?_eq_some_iff]
  constructor
  · rintro ⟨hlt, hget⟩
    rw [← hget, List.getElem_finRange]
    rfl
  · intro hi
    refine ⟨?_, ?_⟩
    · rw [List.length_finRange, hi]
      exact i.isLt
    · rw [List.getElem_finRange]
      exact Fin.ext hi

/-- Where every path has one sink, the paths are loaded evenly, up to one frame, until the counter
of turns wraps around. -/
theorem multipath_balanced {s₀ s : MultipathSink n} (hinit : s₀.Initial)
    (hrun : Relation.ReflTransGen Step s₀ s)
    (hsinks : s₀.sinks.map LoopbackSink.path = List.finRange n)
    (hturns : s₀.next.toNat + s.sent.length ≤ 2 ^ 64) (i j : Fin n) :
    (s.received i ++ s.inFlight i).length ≤ (s.received j ++ s.inFlight j).length + 1 := by
  classical
  have h := hinit.sound.run hrun
  have hn : 0 < n := i.pos
  have hload : ∀ i, (s.received i ++ s.inFlight i).length =
      s.sent.length / n + 1 ∨ (s.received i ++ s.inFlight i).length = s.sent.length / n := by
    intro i
    -- the turns of a path are a residue class
    set v := i + (n - 1) * s₀.next.toNat with hv
    have hshift : s₀.next.toNat + v ≡ i [MOD n] := by
      have hsum : s₀.next.toNat + v = i + n * s₀.next.toNat := by
        obtain ⟨m, rfl⟩ : ∃ m, n = m + 1 := ⟨n - 1, by omega⟩
        rw [hv, Nat.add_sub_cancel]
        ring
      rw [hsum]
      exact Nat.modEq_iff_dvd.mpr ⟨-s₀.next.toNat, by push_cast; ring⟩
    have hclass : ∀ k < s.sent.length, s₀.TurnOf i k ↔ k ≡ v [MOD n] := by
      intro k hk
      rw [turnOf_iff hsinks i (by omega)]
      have hmod : (s₀.next.toNat + k) % n = i ↔ s₀.next.toNat + k ≡ i [MOD n] := by
        rw [Nat.ModEq, Nat.mod_eq_of_lt i.isLt]
      rw [hmod]
      constructor
      · intro hk
        exact Nat.ModEq.add_left_cancel' _ (hk.trans hshift.symm)
      · intro hk
        exact (hk.add_left _).trans hshift
    have hcount : (s.received i ++ s.inFlight i).length =
        s.sent.length / n + if v % n < s.sent.length % n then 1 else 0 := by
      have hcongr : Nat.count (s₀.TurnOf i) s.sent.length =
          Nat.count (· ≡ v [MOD n]) s.sent.length := by
        rw [Nat.count_eq_card_filter_range, Nat.count_eq_card_filter_range]
        exact congrArg Finset.card
          (Finset.filter_congr fun k hk => hclass k (Finset.mem_range.mp hk))
      have hcard := congrArg Multiset.card (h.path_conserved i)
      rw [← Nat.count_modEq_card _ hn v, ← hcongr, ← h.load i]
      simpa using hcard.symm
    rw [hcount]
    split_ifs
    · exact Or.inl rfl
    · exact Or.inr rfl
  have hi := hload i
  have hj := hload j
  omega

/-- Two paths and two frames: each path gets one. -/
theorem multipath_balanced_two_paths :
    let channel : Channel (List UInt8) := { cap := 0 }
    let s₀ : MultipathSink 2 := { sinks := [⟨1, 0⟩, ⟨1, 1⟩], channels := fun _ => channel }
    ∃ s, Relation.ReflTransGen Step s₀ s ∧ s.sent = [[7], [8]] ∧
      (s.received 0 ++ s.inFlight 0).length ≤ (s.received 1 ++ s.inFlight 1).length + 1 := by
  intro channel s₀
  let s₁ : MultipathSink 2 := { s₀ with
    next := 1
    channels := Function.update s₀.channels 0 (channel.offer [1, 0, 0, 0, 0, 0, 0, 0, 7])
    sent := [[7]] }
  let s₂ : MultipathSink 2 := { s₁ with
    next := 2
    channels := Function.update s₁.channels 1
      ((s₁.channels 1).offer [1, 0, 0, 0, 0, 0, 0, 0, 8])
    sent := [[7], [8]] }
  have hrun : Relation.ReflTransGen Step s₀ s₂ :=
    (Relation.ReflTransGen.single (.send s₀ s₁ [7] rfl)).tail (.send s₁ s₂ [8] rfl)
  have hinit : s₀.Initial := ⟨fun _ => rfl, rfl⟩
  exact ⟨s₂, hrun, rfl, multipath_balanced hinit hrun (by decide) (by decide) 0 1⟩

/-! ## A transfer over several paths -/

section Transfer

variable {F : Type} [DedupFilter F] [Blake3] [Zstd] [FloatChoices]

/-- A cold start over several paths: the frames of the transfer are sent through the sink, by any
threads and in any order of moves, until nothing is in flight. In whatever order the receiver then
reads the paths, every frame decodes, exactly one of them is answered with an ACK, namely for the
client's root, and the receiver has caught up with the client. -/
theorem multipath_cold_start {shim : SessionShim F} {c : Compressor} {blocks : List Block}
    {S : Set (List UInt8)} (h : shim.Transferable c blocks S)
    (hrt : Compressor.RoundTrips shim.appendCompressor c) {r : Receiver} (hwf : r.WellFormed)
    (hc : r.compressor = c) (hdec : (r.session shim.sessionId).decoders = ∅)
    (hmissing : (r.handleResync shim.resyncFrame).1 ≠ []) (margin : UInt32) :
    ∃ frames, shim.bulkFramesFor (r.handleResync shim.resyncFrame).1 margin = .ok frames ∧
      ∀ (s₀ s : MultipathSink n) (arrived : List (List UInt8)), s₀.Initial →
        Relation.ReflTransGen Step s₀ s →
        s.sent.Perm (frames.map fun b => encodeFrame (.bulk b)) →
        (∀ b ∈ frames, (Frame.bulk b).WithinLimits) →
        (∀ i, (s.channels i).Drained) →
        (arrived : Multiset (List UInt8)) = ∑ i, (s.received i : Multiset (List UInt8)) →
        ∃ run, arrived.map decodeFrame = run.map .ok ∧
          Receiver.acks shim.sessionId (r.handleResync shim.resyncFrame).2 run =
            [⟨shim.sessionId, shim.root⟩] ∧
          ((∀ id b, ((r.handleResync shim.resyncFrame).2.handleAll run).store.get id = some b →
              canonicalBytes b ∈ S) →
            shim.CaughtUp blocks ((r.handleResync shim.resyncFrame).2.handleAll run)) := by
  obtain ⟨frames, hframes, htransfer⟩ := h.transfer hc hdec margin
  refine ⟨frames, hframes, ?_⟩
  intro s₀ s arrived hinit hrun hsent hlimits hdrained harrived
  have hperm : arrived.Perm ((frames.map Frame.bulk).map encodeFrame) := by
    rw [List.map_map]
    have hall := (hinit.sound.run hrun).sent_of_drained hdrained
    exact (Multiset.coe_eq_coe.mp (harrived.trans hall.symm)).trans hsent
  -- the frames in the order in which they arrived
  obtain ⟨run, hencoded, hrunPerm⟩ : ∃ run : List Frame, arrived = run.map encodeFrame ∧
      run.Perm (frames.map Frame.bulk) := by
    have hcomp : (fun a b => a.Perm (b.map encodeFrame)) arrived (frames.map Frame.bulk) := hperm
    rwa [← List.eq_map_comp_perm encodeFrame] at hcomp
  have hdecode : arrived.map decodeFrame = run.map .ok := by
    rw [hencoded, List.map_map]
    refine List.map_congr_left fun f hf => ?_
    obtain ⟨b, hb, rfl⟩ := List.mem_map.mp (hrunPerm.mem_iff.mp hf)
    rw [Function.comp_apply, decodeFrame_encodeFrame (hlimits b hb)]
  obtain ⟨hacks, hdone, hempty⟩ := htransfer run
    (fun b hb => hrunPerm.mem_iff.mpr (List.mem_map_of_mem hb))
    (fun f hf _ => by
      obtain ⟨b, hb, hbf⟩ := List.mem_map.mp (hrunPerm.mem_iff.mp hf)
      exact ⟨b, hb, hbf.symm⟩)
  rw [if_neg hmissing] at hacks
  have hwf' : ((r.handleResync shim.resyncFrame).2.handleAll run).WellFormed := by
    rw [← Receiver.handleFrame_resync_snd]
    exact (hwf.handleFrame _).handleAll run
  exact ⟨run, hdecode, hacks, fun hhashed => h.caughtUp hrt hwf' hdone hempty hhashed⟩

omit [DedupFilter F] [Blake3] [Zstd] [FloatChoices] in
/-- Two frames through a sink over two paths: each path carries one of them. -/
theorem run_two_frames (first last : List UInt8) :
    let s₀ : MultipathSink 2 :=
      { sinks := [⟨1, 0⟩, ⟨2, 1⟩], channels := fun _ => { cap := 1 } }
    ∃ s, Relation.ReflTransGen Step s₀ s ∧ s.sent = [first, last] ∧
      (∀ i, (s.channels i).Drained) ∧ (∀ i, (s.received i).length = 1) ∧
      (([last, first] : List (List UInt8)) : Multiset (List UInt8)) =
        ∑ i, (s.received i : Multiset (List UInt8)) := by
  intro s₀
  let s₁ : MultipathSink 2 := { s₀ with
    next := 1
    channels := Function.update s₀.channels 0
      ((s₀.channels 0).offer ((⟨1, 0⟩ : LoopbackSink 2).tagged first))
    sent := [first] }
  obtain ⟨s, hrun, hsent, hdrained⟩ := drains { s₁ with
    next := 2
    channels := Function.update s₁.channels 1
      ((s₁.channels 1).offer ((⟨2, 1⟩ : LoopbackSink 2).tagged last))
    sent := [first, last] } (List.finRange 2)
  have hfull : Relation.ReflTransGen Step s₀ s :=
    .head (.send s₀ s₁ first rfl) (.head (.send s₁ _ last rfl) hrun)
  have hinit : s₀.Initial := ⟨fun _ => rfl, rfl⟩
  have hd : ∀ i, (s.channels i).Drained := fun i => hdrained i (List.mem_finRange i)
  have hall := (hinit.sound.run hfull).sent_of_drained hd
  rw [hsent] at hall
  refine ⟨s, hfull, hsent, hd, ?_, ?_⟩
  · have hcard : (s.received 0).length + (s.received 1).length = 2 := by
      simpa using (congrArg Multiset.card hall).symm
    have hturns : s₀.next.toNat + s.sent.length ≤ 2 ^ 64 := by
      rw [hsent]
      exact (by decide : (0 : UInt64).toNat + 2 ≤ 2 ^ 64)
    have hbalanced : ∀ i j, (s.received i).length ≤ (s.received j).length + 1 := by
      intro i j
      have hle := multipath_balanced hinit hfull (by decide) hturns i j
      have hnone : ∀ i, s.inFlight i = [] := fun i => by
        simp [inFlight, (hd i).1, (hd i).2]
      simpa [hnone] using hle
    intro i
    have h₀ := hbalanced 0 1
    have h₁ := hbalanced 1 0
    fin_cases i <;> simp <;> omega
  · rw [← hall]
    exact Multiset.coe_eq_coe.mpr (List.Perm.swap _ _ _)

omit [DedupFilter F] [Blake3] [Zstd] [FloatChoices] in
/-- Two large messages go over two paths, one frame on each, and arrive in reverse. -/
theorem multipath_cold_start_two_frames :
    letI := prefixHash
    letI := storedZstd
    letI := DedupFilter.exact
    letI := percentChoices
    let blocks := [SessionShim.largeMessage 1, SessionShim.largeMessage 2]
    let shim := (SessionShim.withFilter 5 ContentStore.new Compressor.default
      ([] : List BlockId)).callAll [.ingestTurn blocks]
    let r := Receiver.new ContentStore.new Compressor.default
    ∃ (first last : BulkFrame) (s : MultipathSink 2) (run : List Frame),
      shim.bulkFramesFor (blocks.map Block.blockId) 0 = .ok [first, last] ∧
      s.sent = [encodeFrame (.bulk first), encodeFrame (.bulk last)] ∧
      (∀ i, (s.received i).length = 1) ∧
      [encodeFrame (.bulk last), encodeFrame (.bulk first)].map decodeFrame = run.map .ok ∧
      Receiver.acks 5 (r.handleResync shim.resyncFrame).2 run = [⟨5, shim.root⟩] := by
  let _ := prefixHash
  let _ := storedZstd
  let _ := DedupFilter.exact
  let _ := percentChoices
  intro blocks shim r
  obtain ⟨htransferable, hmissing⟩ : shim.Transferable Compressor.default blocks
      {x | x ∈ blocks.map canonicalBytes} ∧
      (r.handleResync shim.resyncFrame).1 = blocks.map Block.blockId :=
    SessionShim.largeMessages_transferable
  have hget := htransferable.holds.lookup htransferable.injOn htransferable.hashed
    htransferable.stored
  obtain ⟨frames, hframes, hcold⟩ := multipath_cold_start (n := 2) htransferable
    (Compressor.roundTrips_storedZstd _ _)
    (Receiver.wellFormed_new ContentStore.Opened.fresh Compressor.default) rfl rfl
    (by rw [hmissing]; simp [blocks]) 0
  rw [hmissing] at hframes
  obtain ⟨hlen, hsymbols⟩ := SessionShim.largeMessages_frames htransferable.fountainK
    htransferable.fountainSymbolSize (hget _ List.mem_cons_self)
    (hget _ (List.mem_cons_of_mem _ List.mem_cons_self)) hframes
  obtain ⟨first, last, rfl⟩ := List.length_eq_two.mp hlen
  have hlimits : ∀ b ∈ [first, last], (Frame.bulk b).WithinLimits := by
    intro b hb
    obtain ⟨hcount, hsize⟩ := hsymbols b hb
    refine ⟨by rw [hcount]; decide, fun s hs => ?_⟩
    rw [hsize s hs]
    decide
  obtain ⟨s, hrun, hsent, hdrained, hone, harrived⟩ :=
    run_two_frames (encodeFrame (.bulk first)) (encodeFrame (.bulk last))
  obtain ⟨run, hdecoded, hacks, -⟩ := hcold _ s _ ⟨fun _ => rfl, rfl⟩ hrun
    (by rw [hsent]; exact List.Perm.refl _) hlimits hdrained harrived
  exact ⟨first, last, s, run, hframes, hsent, hone, hdecoded, hacks⟩

end Transfer

end MultipathSink

end Dlr.Transport
