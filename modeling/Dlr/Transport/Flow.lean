import Mathlib.Data.UInt
import Mathlib.Order.Lattice
import Mathlib.Tactic.SplitIfs

/-!
# Credit flow control

The receiver grants the sender a window of credit in bytes, the sender takes credit for what it
ships, and the window is re-aimed when the bandwidth estimate moves. The bytes in flight are what
has been taken and not been granted back.

## Implementation notes

`take`, `grant` and `reaim` are the operations as they run alone. `Traffic` is the same flow with
any number of operations in progress, cut at the atomic accesses: a `grant` first reads the
capacity and later exchanges the available credit, and a `reaim` that grows the window exchanges
the capacity and then runs a `grant`. A retried exchange has no effect until it succeeds, so only
the successful one is a step. A `grant` counts as given back when its exchange succeeds.
-/

namespace Dlr.Transport

def u64Max : UInt64 := 0xFFFFFFFFFFFFFFFF

def saturatingAdd (a b : UInt64) : UInt64 :=
  if a.toNat + b.toNat < 2 ^ 64 then a + b else u64Max

/-- The credit left to the sender and the size of the window. -/
structure CreditFlow where
  available : UInt64
  capacity : UInt64
  deriving DecidableEq, Repr

namespace CreditFlow

def new (windowBytes : UInt64) : CreditFlow := ⟨windowBytes, windowBytes⟩

/-- Credit `n` more bytes, up to the capacity `cap`. -/
def credit (f : CreditFlow) (n cap : UInt64) : CreditFlow :=
  { f with available := min (saturatingAdd f.available n) cap }

def grant (f : CreditFlow) (n : UInt64) : CreditFlow := f.credit n f.capacity

/-- Consume up to `n` bytes of credit; the number of bytes consumed comes first. -/
def take (f : CreditFlow) (n : UInt64) : UInt64 × CreditFlow :=
  if f.available = 0 then (0, f)
  else (min n f.available, { f with available := f.available - min n f.available })

/-- Aim the window at a new estimate. Growth is credited at once, shrinking only caps what is
granted later. -/
def reaim (f : CreditFlow) (newBdp : UInt64) : CreditFlow :=
  if newBdp > f.capacity then
    ({ f with capacity := newBdp } : CreditFlow).grant (newBdp - f.capacity)
  else { f with capacity := newBdp }

/-! ## Credit as a number -/

theorem toNat_min (a b : UInt64) : (min a b).toNat = min a.toNat b.toNat := by
  rw [show min a b = if a ≤ b then a else b from rfl]
  split_ifs with hle
  · exact (min_eq_left (UInt64.le_iff_toNat_le.mp hle)).symm
  · rw [UInt64.le_iff_toNat_le] at hle
    exact (min_eq_right (by omega)).symm

/-- The capacity is a 64-bit number, so the saturation of the sum does not show. -/
theorem toNat_credit (f : CreditFlow) (n cap : UInt64) :
    (f.credit n cap).available.toNat = min (f.available.toNat + n.toNat) cap.toNat := by
  have hcap := cap.toNat_lt
  simp only [credit, toNat_min, saturatingAdd]
  split_ifs with hfits
  · rw [UInt64.toNat_add, Nat.mod_eq_of_lt hfits]
  · have hmax : u64Max.toNat = 2 ^ 64 - 1 := rfl
    rw [hmax]
    omega

theorem toNat_take (f : CreditFlow) (n : UInt64) :
    (f.take n).1.toNat = min n.toNat f.available.toNat ∧
      (f.take n).2.available.toNat = f.available.toNat - min n.toNat f.available.toNat := by
  unfold take
  split_ifs with hzero
  · simp [hzero]
  · have hle : min n f.available ≤ f.available := by
      rw [UInt64.le_iff_toNat_le, toNat_min]
      exact min_le_right _ _
    simp only [UInt64.toNat_sub_of_le _ _ hle, toNat_min, and_self]

end CreditFlow

/-! ## Operations in progress -/

/-- A `grant` between its call and its exchange. -/
structure Granting where
  amount : UInt64
  /-- The capacity it has read. -/
  cap : Option UInt64
  /-- It credits the growth of the window, not bytes the receiver has drained. -/
  growth : Bool
  deriving DecidableEq, Repr

/-- The atomic accesses of the operations. -/
inductive Update
  /-- The exchange of a `take`. -/
  | take (n : UInt64)
  /-- The receiver calls `grant`. -/
  | grant (n : UInt64)
  /-- The exchange of the capacity in a `reaim`. -/
  | swap (newBdp : UInt64)
  /-- A `grant` in progress reads the capacity. -/
  | load (i : Nat)
  /-- A `grant` in progress exchanges the available credit. -/
  | exchange (i : Nat)
  deriving DecidableEq, Repr

/-- A flow with its operations in progress, and the totals of its history. -/
structure Traffic where
  flow : CreditFlow
  granting : List Granting := []
  /-- All that `take` has returned. -/
  taken : Nat := 0
  /-- All that the receiver has granted. -/
  granted : Nat := 0
  /-- The largest window ever set. -/
  largest : Nat
  deriving DecidableEq, Repr

namespace Traffic

def start (windowBytes : UInt64) : Traffic :=
  { flow := .new windowBytes, largest := windowBytes.toNat }

/-- The bytes in flight. -/
def outstanding (t : Traffic) : Nat := t.taken - t.granted

def step (t : Traffic) : Update → Traffic
  | .take n => { t with flow := (t.flow.take n).2, taken := t.taken + (t.flow.take n).1.toNat }
  | .grant n => { t with granting := t.granting ++ [⟨n, none, false⟩] }
  | .swap newBdp =>
      { t with
        flow := { t.flow with capacity := newBdp }
        granting :=
          if newBdp > t.flow.capacity then
            t.granting ++ [⟨newBdp - t.flow.capacity, none, true⟩]
          else t.granting
        largest := max t.largest newBdp.toNat }
  | .load i =>
      { t with granting := t.granting.modify i fun g =>
          { g with cap := some (g.cap.getD t.flow.capacity) } }
  | .exchange i =>
      match t.granting[i]? with
      | some ⟨n, some cap, growth⟩ =>
          { t with
            flow := t.flow.credit n cap
            granting := t.granting.eraseIdx i
            granted := if growth then t.granted else t.granted + n.toNat }
      | _ => t

def run (t : Traffic) (us : List Update) : Traffic := us.foldl step t

/-- Every update of a run satisfies `P` in the state it is made in. -/
def Along (P : Traffic → Update → Prop) : Traffic → List Update → Prop
  | _, [] => True
  | t, u :: us => P t u ∧ Along P (t.step u) us

/-- Every state of a run satisfies `Q`. -/
def Throughout (Q : Traffic → Prop) : Traffic → List Update → Prop
  | t, [] => Q t
  | t, u :: us => Q t ∧ Throughout Q (t.step u) us

/-- What the receiver gives back is in flight. -/
def Covered (t : Traffic) : Update → Prop
  | .exchange i => ∀ g ∈ t.granting[i]?, ∀ _ ∈ g.cap, g.growth = false →
      g.amount.toNat ≤ t.outstanding
  | _ => True

/-- The growth of the window is credited only where there is room for it below the largest
window: beside the credit already extended, or for the whole capacity beside the bytes in
flight. -/
def Room (t : Traffic) : Update → Prop
  | .exchange i => ∀ g ∈ t.granting[i]?, ∀ cap ∈ g.cap, g.growth = true →
      t.flow.available.toNat + t.outstanding + g.amount.toNat ≤ t.largest ∨
        cap.toNat + t.outstanding ≤ t.largest
  | _ => True

-- The instance for options is named: machine words are also a finite type, and over those a
-- quantifier would be decided by enumeration.
instance (t : Traffic) : DecidablePred t.Covered
  | .exchange i =>
      have (g : Granting) : Decidable (∀ _ ∈ g.cap, g.growth = false →
          g.amount.toNat ≤ t.outstanding) := Option.decidableForallMem g.cap
      Option.decidableForallMem t.granting[i]?
  | .take _ | .grant _ | .swap _ | .load _ => inferInstanceAs (Decidable True)

instance (t : Traffic) : DecidablePred t.Room
  | .exchange i =>
      have (g : Granting) : Decidable (∀ cap ∈ g.cap, g.growth = true →
          t.flow.available.toNat + t.outstanding + g.amount.toNat ≤ t.largest ∨
            cap.toNat + t.outstanding ≤ t.largest) := Option.decidableForallMem g.cap
      Option.decidableForallMem t.granting[i]?
  | .take _ | .grant _ | .swap _ | .load _ => inferInstanceAs (Decidable True)

instance decidableAlong {P : Traffic → Update → Prop} [∀ t, DecidablePred (P t)] :
    (t : Traffic) → (us : List Update) → Decidable (t.Along P us)
  | _, [] => inferInstanceAs (Decidable True)
  | t, u :: us =>
      have := decidableAlong (P := P) (t.step u) us
      inferInstanceAs (Decidable (P t u ∧ Along P (t.step u) us))

/-! ## Whole operations -/

/-- An operation that runs without interruption. -/
inductive Call
  | take (n : UInt64)
  | grant (n : UInt64)
  | reaim (newBdp : UInt64)

/-- The atomic accesses of an operation when no other is in progress. -/
def Call.updates (f : CreditFlow) : Call → List Update
  | .take n => [.take n]
  | .grant n => [.grant n, .load 0, .exchange 0]
  | .reaim newBdp =>
      if newBdp > f.capacity then [.swap newBdp, .load 0, .exchange 0] else [.swap newBdp]

def Call.apply (f : CreditFlow) : Call → CreditFlow
  | .take n => (f.take n).2
  | .grant n => f.grant n
  | .reaim newBdp => f.reaim newBdp

/-- The accesses of an operation that is not interrupted do what the operation does. -/
theorem run_updates (t : Traffic) (h : t.granting = []) (c : Call) :
    (t.run (c.updates t.flow)).flow = c.apply t.flow ∧
      (t.run (c.updates t.flow)).granting = [] := by
  cases c with
  | take n => exact ⟨rfl, h⟩
  | grant n => simp [Call.updates, Call.apply, run, step, h, CreditFlow.grant]
  | reaim newBdp =>
      simp only [Call.updates, Call.apply, CreditFlow.reaim]
      split_ifs with hgrow
      · simp [run, step, h, hgrow, CreditFlow.grant, CreditFlow.credit]
      · simp [run, step, h, hgrow]

/-! ## The credit extended -/

/-- The credit left and the bytes in flight. -/
def extended (t : Traffic) : Nat := t.flow.available.toNat + t.outstanding

/-- What an exchange does to the credit left and to the totals. -/
theorem step_exchange {t : Traffic} {i : Nat} {n cap : UInt64} {growth : Bool}
    (hi : t.granting[i]? = some ⟨n, some cap, growth⟩) :
    (t.step (.exchange i)).flow.available.toNat =
        min (t.flow.available.toNat + n.toNat) cap.toNat ∧
      (t.step (.exchange i)).granted = (if growth then t.granted else t.granted + n.toNat) ∧
      (t.step (.exchange i)).taken = t.taken ∧ (t.step (.exchange i)).largest = t.largest := by
  simp only [step, hi, CreditFlow.toNat_credit, and_self]

/-- An exchange that has not read the capacity, or that is not there, is none. -/
theorem step_exchange_of_ne {t : Traffic} {i : Nat}
    (hi : ∀ n cap growth, t.granting[i]? ≠ some ⟨n, some cap, growth⟩) :
    t.step (.exchange i) = t := by
  simp only [step]

/-- The receiver never gives back more than was taken. -/
theorem granted_le_step {t : Traffic} {u : Update} (h : t.granted ≤ t.taken)
    (hcovered : t.Covered u) : (t.step u).granted ≤ (t.step u).taken := by
  cases u with
  | take n => exact h.trans (Nat.le_add_right _ _)
  | grant n => exact h
  | swap newBdp => exact h
  | load i => exact h
  | exchange i =>
      by_cases hnone : ∀ n cap growth, t.granting[i]? ≠ some ⟨n, some cap, growth⟩
      · rwa [step_exchange_of_ne hnone]
      · push Not at hnone
        obtain ⟨n, cap, growth, hi⟩ := hnone
        obtain ⟨-, hgranted, htaken, -⟩ := step_exchange hi
        rw [hgranted, htaken]
        split_ifs with hgrowth
        · exact h
        · rw [Bool.not_eq_true] at hgrowth
          have hn : n.toNat ≤ t.outstanding := hcovered _ hi cap rfl hgrowth
          unfold outstanding at hn
          omega

/-- Every update keeps the credit extended within the largest window, other than the exchange
for a growth, which does so exactly when there is room. -/
theorem extended_step_iff {t : Traffic} {u : Update} (hle : t.granted ≤ t.taken)
    (hext : t.extended ≤ t.largest) (hcovered : t.Covered u) :
    (t.step u).extended ≤ (t.step u).largest ↔ t.Room u := by
  cases u with
  | take n =>
      obtain ⟨hgive, hleft⟩ := t.flow.toNat_take n
      refine ⟨fun _ => trivial, fun _ => ?_⟩
      simp only [extended, outstanding, step, hgive, hleft] at hext ⊢
      omega
  | grant n => exact ⟨fun _ => trivial, fun _ => hext⟩
  | swap newBdp => exact ⟨fun _ => trivial, fun _ => hext.trans (le_max_left _ _)⟩
  | load i => exact ⟨fun _ => trivial, fun _ => hext⟩
  | exchange i =>
      by_cases hnone : ∀ n cap growth, t.granting[i]? ≠ some ⟨n, some cap, growth⟩
      · rw [step_exchange_of_ne hnone]
        refine ⟨fun _ => ?_, fun _ => hext⟩
        rintro ⟨n, _, _⟩ hi cap rfl rfl
        exact absurd hi (hnone n cap true)
      · push Not at hnone
        obtain ⟨n, cap, growth, hi⟩ := hnone
        obtain ⟨havail, hgranted, htaken, hlargest⟩ := step_exchange hi
        simp only [extended, outstanding] at hext
        simp only [extended, outstanding, havail, hgranted, htaken, hlargest, Room, hi]
        cases growth with
        | false =>
            -- what is credited was in flight
            have hn : n.toNat ≤ t.outstanding := hcovered _ hi cap rfl rfl
            unfold outstanding at hn
            simp only [Option.mem_some_iff, forall_eq', Bool.false_eq_true, if_false,
              IsEmpty.forall_iff, iff_true]
            omega
        | true =>
            simp only [Option.mem_some_iff, forall_eq', if_true, forall_const]
            omega

/-- The sender may take all the credit that is left. -/
theorem extended_le_iff {t : Traffic} (h : t.granted ≤ t.taken) :
    t.extended ≤ t.largest ↔ ∀ n, (t.step (.take n)).outstanding ≤ t.largest := by
  constructor
  · intro hext n
    simp only [outstanding, extended, step, (t.flow.toNat_take n).1] at hext ⊢
    omega
  · intro hall
    have hmost := hall t.flow.available
    simp only [outstanding, extended, step, (t.flow.toNat_take _).1, min_self] at hmost ⊢
    omega

section Runs

variable {Q R : Traffic → Prop} {t : Traffic} {us : List Update}

theorem Throughout.head (h : t.Throughout Q us) : Q t := by
  cases us with
  | nil => exact h
  | cons u rest => exact h.1

theorem Throughout.mono (hQR : ∀ t, Q t → R t) (h : t.Throughout Q us) : t.Throughout R us := by
  induction us generalizing t with
  | nil => exact hQR t h
  | cons u rest ih => exact ⟨hQR t h.1, ih h.2⟩

/-- From a state within the bound, a run stays within it exactly as long as every growth finds
room. -/
theorem throughout_iff_room (hle : t.granted ≤ t.taken) (hext : t.extended ≤ t.largest)
    (hcovered : t.Along Covered us) :
    t.Throughout (fun t => ∀ n, (t.step (.take n)).outstanding ≤ t.largest) us ↔
      t.Along Room us := by
  induction us generalizing t with
  | nil => exact ⟨fun _ => trivial, fun _ => (extended_le_iff hle).mp hext⟩
  | cons u rest ih =>
      have hle' := granted_le_step hle hcovered.1
      have hstep := extended_step_iff hle hext hcovered.1
      constructor
      · rintro ⟨-, hrest⟩
        have hext' := (extended_le_iff hle').mpr hrest.head
        exact ⟨hstep.mp hext', (ih hle' hext' hcovered.2).mp hrest⟩
      · rintro ⟨hroom, hrest⟩
        exact ⟨(extended_le_iff hle).mp hext,
          (ih hle' (hstep.mpr hroom) hcovered.2).mpr hrest⟩

end Runs

/-- In a run that credits a growth of the window only where there is room for it, the bytes in
flight never exceed the largest window ever set. A growth without room lets the next `take`
exceed it. -/
theorem in_flight_within_window_iff (windowBytes : UInt64) (us : List Update)
    (hcovered : (start windowBytes).Along Covered us) :
    ((start windowBytes).Along Room us →
        (start windowBytes).Throughout (fun t => t.outstanding ≤ t.largest) us) ∧
      ((start windowBytes).Along Room us ↔
        (start windowBytes).Throughout
          (fun t => ∀ n, (t.step (.take n)).outstanding ≤ t.largest) us) := by
  have hiff := throughout_iff_room (t := start windowBytes) le_rfl le_rfl hcovered
  refine ⟨fun hroom => ?_, hiff.symm⟩
  apply (hiff.mpr hroom).mono
  intro t hall
  -- taking nothing is a `take`
  have hzero := hall 0
  simpa only [outstanding, step, (t.flow.toNat_take 0).1, UInt64.toNat_zero, Nat.zero_min,
    Nat.add_zero] using hzero

/-- A window that grows twice while its credit is taken and given back. -/
theorem in_flight_within_window_growing :
    (start 1000).Throughout (fun t => t.outstanding ≤ t.largest)
      [.take 400, .grant 300, .load 0, .exchange 0, .swap 2000, .take 900, .load 0, .exchange 0,
        .take 5000] := by
  apply (in_flight_within_window_iff 1000 _ _).1
  · decide +kernel
  · decide +kernel

/-- A window that shrinks while all of it is in flight and then grows back has 1500 bytes in
flight, although no window was larger than 1000. -/
theorem shrunk_window_oversold :
    ∃ us : List Update, us =
        Call.updates (.new 1000) (.take 1000) ++ Call.updates ⟨0, 1000⟩ (.reaim 500) ++
          Call.updates ⟨0, 500⟩ (.reaim 1000) ++ Call.updates ⟨500, 1000⟩ (.take 500) ∧
      (start 1000).Along Covered us ∧ ((start 1000).run us).largest = 1000 ∧
      ((start 1000).run us).outstanding = 1500 := by
  refine ⟨_, rfl, ?_, ?_, ?_⟩
  · decide +kernel
  · decide +kernel
  · decide +kernel

/-! ## Credit that is taken back -/

/-- The flow after some operations, one after the other. -/
def Call.applyAll (f : CreditFlow) (calls : List Call) : CreditFlow := calls.foldl Call.apply f

/-- A `reaim` does not aim below the credit that is available. -/
def Call.Covers (f : CreditFlow) : Call → Prop
  | .reaim newBdp => f.available ≤ newBdp
  | _ => True

/-- Every call of a run satisfies the condition on the flow it finds. -/
def Call.CoversAll : CreditFlow → List Call → Prop
  | _, [] => True
  | f, c :: rest => c.Covers f ∧ CoversAll (c.apply f) rest

end Traffic

namespace CreditFlow

theorem available_le_grant_iff (f : CreditFlow) (n : UInt64) :
    f.available ≤ (f.grant n).available ↔ f.available ≤ f.capacity := by
  simp only [grant, UInt64.le_iff_toNat_le, toNat_credit]
  omega

theorem available_le_reaim_iff (f : CreditFlow) (newBdp : UInt64) :
    f.available ≤ (f.reaim newBdp).available ↔
      newBdp ≤ f.capacity ∨ f.available ≤ newBdp := by
  unfold reaim
  split_ifs with hgrow
  · have hlt : f.capacity.toNat < newBdp.toNat := UInt64.lt_iff_toNat_lt.mp hgrow
    simp only [grant, UInt64.le_iff_toNat_le, toNat_credit,
      UInt64.toNat_sub_of_le _ _ (UInt64.le_iff_toNat_le.mpr hlt.le)]
    omega
  · simp only [UInt64.le_refl, true_iff]
    exact Or.inl (UInt64.not_lt.mp hgrow)

end CreditFlow

namespace Traffic

/-- An operation that covers what is available keeps it within the window. -/
theorem Call.within_apply {f : CreditFlow} (h : f.available ≤ f.capacity) {c : Call}
    (hc : c.Covers f) : (c.apply f).available ≤ (c.apply f).capacity := by
  rw [UInt64.le_iff_toNat_le] at h
  cases c with
  | take n =>
      have hcap : (f.take n).2.capacity = f.capacity := by
        unfold CreditFlow.take
        split_ifs <;> rfl
      simp only [apply, UInt64.le_iff_toNat_le, (f.toNat_take n).2, hcap]
      omega
  | grant n =>
      simp only [apply, CreditFlow.grant, UInt64.le_iff_toNat_le, CreditFlow.toNat_credit]
      exact Nat.min_le_right _ _
  | reaim newBdp =>
      simp only [apply, CreditFlow.reaim]
      split_ifs with hgrow
      · simp only [CreditFlow.grant, UInt64.le_iff_toNat_le, CreditFlow.toNat_credit]
        exact Nat.min_le_right _ _
      · exact hc

theorem Call.within_applyAll {f : CreditFlow} (h : f.available ≤ f.capacity) {calls : List Call}
    (hcalls : CoversAll f calls) :
    (applyAll f calls).available ≤ (applyAll f calls).capacity := by
  induction calls generalizing f with
  | nil => exact h
  | cons c rest ih => exact ih (within_apply h hcalls.1) hcalls.2

/-- After any operations, a `grant` takes no credit back exactly when the credit available is
within the window, and a `reaim` exactly when it does not grow the window or covers the credit
available. So none does after a run in which every `reaim` covered it. -/
theorem credit_kept_iff (windowBytes : UInt64) (calls : List Call) :
    let f := Call.applyAll (.new windowBytes) calls
    ((∀ n w, f.available ≤ (f.grant n).available ∧ f.available ≤ (f.reaim w).available) ↔
        f.available ≤ f.capacity) ∧
      (∀ n, f.available ≤ (f.grant n).available ↔ f.available ≤ f.capacity) ∧
      (∀ w, f.available ≤ (f.reaim w).available ↔ w ≤ f.capacity ∨ f.available ≤ w) ∧
      (Call.CoversAll (.new windowBytes) calls →
        ∀ n w, f.available ≤ (f.grant n).available ∧ f.available ≤ (f.reaim w).available) := by
  intro f
  have hkeeps : f.available ≤ f.capacity →
      ∀ n w, f.available ≤ (f.grant n).available ∧ f.available ≤ (f.reaim w).available := by
    intro hwithin n w
    refine ⟨(f.available_le_grant_iff n).mpr hwithin, (f.available_le_reaim_iff w).mpr ?_⟩
    rcases UInt64.le_total w f.capacity with hle | hle
    · exact Or.inl hle
    · exact Or.inr (UInt64.le_trans hwithin hle)
  refine ⟨⟨fun h => ?_, hkeeps⟩, f.available_le_grant_iff, f.available_le_reaim_iff, ?_⟩
  · exact (f.available_le_grant_iff 0).mp (h 0 0).1
  · intro hcovers
    apply hkeeps
    exact Call.within_applyAll (UInt64.le_refl windowBytes) hcovers

/-- A window that is shrunk below the credit available: the next `grant` takes half of the
credit back. -/
theorem grant_recalls_credit :
    let f := Call.applyAll (.new 1000) [.reaim 500]
    f.available = 1000 ∧ (f.grant 1).available = 500 := by
  decide +kernel

end Traffic

end Dlr.Transport
