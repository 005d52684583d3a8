import Dlr.Coding.Mds
import Dlr.Coding.Rlnc

/-!
# Fan-out in two layers

The outer code turns the data into `n` outer symbols, which are dealt out to groups; every group
codes its own symbols once more. The decoder collects the outer symbols that the groups
contribute and decodes the first `k` of them. It counts contributions: a group that contributes
twice is counted twice.
-/

namespace Dlr.Coding

open Lib.Machine

inductive HierError
  | rs (message : String)
  | rlnc (message : String)
  | empty
  deriving DecidableEq, Repr

def HierError.toText : HierError → String
  | rs message => "rs: " ++ message
  | rlnc message => "rlnc: " ++ message
  | empty => "empty context"

/-! ## Encoder -/

structure HierEncoder where
  /-- The data symbols, then the parity symbols. -/
  outer : List (List UInt8)
  k : Nat
  n : Nat
  symbolSize : Nat
  deriving DecidableEq

namespace HierEncoder

def new (data : List (List UInt8)) (k mOuter symbolSize : Nat) : Except HierError HierEncoder :=
  if data = [] then
    .error .empty
  else
    match RsEncoder.new k mOuter symbolSize with
    | .error e => .error (.rs e.toText)
    | .ok enc =>
        match enc.encode data with
        | .error e => .error (.rs e.toText)
        | .ok outer => .ok ⟨outer, k, k + mOuter, symbolSize⟩

/-- The outer indices that group `gi` of `g` owns. -/
def owned (enc : HierEncoder) (g gi : Nat) : List Nat :=
  (List.range enc.n).filter fun i => i % g = gi

/-- The encoder of group `gi` over the symbols it owns. -/
def group (enc : HierEncoder) (g : Nat) (seed : UInt64) (gi : Nat) : RlncEncoder :=
  RlncEncoder.newShared ((enc.owned g gi).map fun i => enc.outer.getD i []) enc.symbolSize
    (seed + UInt64.ofNat gi)

/-- Deal the outer symbols out to `g` groups. -/
def intoGroups (enc : HierEncoder) (g : Nat) (seed : UInt64) : List (List Nat × RlncEncoder) :=
  (List.range g).map fun gi => (enc.owned g gi, enc.group g seed gi)

end HierEncoder

/-! ## Decoder -/

structure HierDecoder where
  k : Nat
  mOuter : Nat
  symbolSize : Nat
  /-- The outer symbols recovered so far, with their indices. -/
  outer : List (Nat × List UInt8) := []
  deriving DecidableEq

namespace HierDecoder

def new (k mOuter symbolSize : Nat) : HierDecoder := { k, mOuter, symbolSize }

/-- A group decodes the outer symbols it owns and contributes them. -/
def addGroup (dec : HierDecoder) (owned : List Nat) (packets : List CodedPacket) :
    Except HierError (Nat × HierDecoder) :=
  match (RlncDecoder.new owned.length dec.symbolSize).addAll packets with
  | .error e => .error (.rlnc e.toText)
  | .ok inner =>
      match inner.decode with
      | .error e => .error (.rlnc e.toText)
      | .ok syms =>
          let outer := dec.outer ++ owned.zip syms
          .ok (outer.length, { dec with outer })

def ready (dec : HierDecoder) : Bool := decide (dec.outer.length ≥ dec.k)

def decode (dec : HierDecoder) : Except (Fault HierError) (List (List UInt8)) :=
  if dec.ready = false then
    .error (.error (.rs ("only " ++ toString dec.outer.length ++ " outer symbols, need " ++
      toString dec.k)))
  else
    match Rs.decode dec.k dec.mOuter dec.symbolSize dec.outer with
    | .error (.error e) => .error (.error (.rs e.toText))
    | .error .panic => .error .panic
    | .ok data => .ok data

/-- Successive contributions, each the indices of a group and its packets. -/
def addGroups (dec : HierDecoder) :
    List (List Nat × List CodedPacket) → Except HierError HierDecoder
  | [] => .ok dec
  | (owned, packets) :: rest =>
      match dec.addGroup owned packets with
      | .error e => .error e
      | .ok (_, dec) => dec.addGroups rest

end HierDecoder

/-! ## Contributions are codeword symbols -/

theorem RlncDecoder.Inv.addAll {d d' : RlncDecoder} {x : List (List UInt8)} (h : d.Inv x)
    {packets : List CodedPacket}
    (heq : ∀ p ∈ packets, vec (p.coeffs ++ p.payload) ∈ equations d.k x)
    (hadd : d.addAll packets = .ok d') :
    d'.Inv x ∧ d'.k = d.k ∧ d'.symbolSize = d.symbolSize := by
  induction packets generalizing d with
  | nil =>
      cases hadd
      exact ⟨h, rfl, rfl⟩
  | cons p rest ih =>
      rw [RlncDecoder.addAll] at hadd
      split at hadd
      · cases hadd
      · rename_i grew d₁ hp
        obtain ⟨h₁, hk, hsize⟩ := h.add (heq p List.mem_cons_self) hp
        obtain ⟨h', hk', hsize'⟩ := ih h₁
          (fun q hq => hk ▸ heq q (List.mem_cons_of_mem _ hq)) hadd
        exact ⟨h', hk'.trans hk, hsize'.trans hsize⟩

namespace HierEncoder

variable {data : List (List UInt8)} {k mOuter symbolSize : Nat} {enc : HierEncoder}

/-- What the encoder accepts becomes an outer codeword. -/
theorem new_ok (h : HierEncoder.new data k mOuter symbolSize = .ok enc) :
    (enc.n = k + mOuter ∧ enc.symbolSize = symbolSize) ∧ data.length = k ∧
      (∀ d ∈ data, d.length = symbolSize) ∧
      ∀ i < k + mOuter, Rs.Codeword k mOuter symbolSize data i (enc.outer.getD i []) := by
  unfold HierEncoder.new at h
  split_ifs at h
  split at h
  · cases h
  · rename_i rs hrs
    split at h
    · cases h
    · rename_i outer houter
      cases h
      obtain ⟨hcount, hsize, -, hcw⟩ := Rs.encode_codeword hrs houter
      exact ⟨⟨rfl, rfl⟩, hcount, hsize, hcw⟩

/-- A contribution of one of the groups, with packets that its encoder could have made. -/
def Contributes (enc : HierEncoder) (g : Nat) (seed : UInt64)
    (call : List Nat × List CodedPacket) : Prop :=
  ∃ group ∈ enc.intoGroups g seed, call.1 = group.1 ∧ ∀ p ∈ call.2, group.2.Honest p

theorem length_group_source (hnew : HierEncoder.new data k mOuter symbolSize = .ok enc)
    (g : Nat) (seed : UInt64) (gi : Nat) :
    ∀ j < (enc.group g seed gi).k,
      ((enc.group g seed gi).source.getD j []).length ≤ (enc.group g seed gi).symbolSize := by
  obtain ⟨⟨hn, hsym⟩, -, -, hcw⟩ := new_ok hnew
  intro j hj
  have hj' : j < (enc.owned g gi).length := by
    simpa [group, RlncEncoder.newShared] using hj
  have hidx : (enc.owned g gi)[j] < k + mOuter := by
    rw [← hn]
    exact List.mem_range.mp (List.mem_of_mem_filter (List.getElem_mem hj'))
  have hlen := (hcw _ hidx).2.1
  simp only [group, RlncEncoder.newShared]
  rw [List.getD_eq_getElem _ _ (by simpa using hj'), List.getElem_map, hlen, hsym]

/-- What the encoder of a group produces is a contribution of the group. -/
theorem contributes_code (hnew : HierEncoder.new data k mOuter symbolSize = .ok enc) {g gi : Nat}
    (hgi : gi < g) (seed : UInt64) (tries : Nat) :
    enc.Contributes g seed
      (enc.owned g gi, ((enc.group g seed gi).code tries).toList.map Prod.fst) := by
  refine ⟨(enc.owned g gi, enc.group g seed gi), List.mem_map.mpr ⟨gi, List.mem_range.mpr hgi, rfl⟩,
    rfl, ?_⟩
  intro p hp
  obtain ⟨⟨p', enc'⟩, hmem, rfl⟩ := List.mem_map.mp hp
  exact RlncEncoder.code_honest (length_group_source hnew g seed gi) (Option.mem_toList.mp hmem)

/-- A group contributes exactly the outer symbols it owns. -/
theorem addGroup_outer (hnew : HierEncoder.new data k mOuter symbolSize = .ok enc) {g : Nat}
    {seed : UInt64} {call : List Nat × List CodedPacket} (hcall : enc.Contributes g seed call)
    {dec dec' : HierDecoder} (hdec : dec.symbolSize = symbolSize) {count : Nat}
    (h : dec.addGroup call.1 call.2 = .ok (count, dec')) :
    (∀ i ∈ call.1, i < k + mOuter) ∧
      dec' = { dec with outer := dec.outer ++ call.1.map fun i => (i, enc.outer.getD i []) } := by
  obtain ⟨⟨hn, hsym⟩, -, -, hcw⟩ := new_ok hnew
  obtain ⟨group, hgroup, howned, hhonest⟩ := hcall
  obtain ⟨gi, -, rfl⟩ := List.mem_map.mp hgroup
  have hidx : ∀ i ∈ call.1, i < k + mOuter := by
    intro i hi
    rw [howned, owned] at hi
    rw [← hn]
    exact List.mem_range.mp (List.mem_of_mem_filter hi)
  refine ⟨hidx, ?_⟩
  set x := call.1.map fun i => enc.outer.getD i [] with hx
  have hsource : (enc.group g seed gi).source = x := by rw [hx, howned]; rfl
  have hcount : (enc.group g seed gi).k = call.1.length := by
    rw [howned]
    exact List.length_map _
  unfold HierDecoder.addGroup at h
  split at h
  · cases h
  · rename_i inner hadd
    split at h
    · cases h
    · rename_i syms hsyms
      cases h
      obtain ⟨hinv, hk, hsize⟩ := (RlncDecoder.Inv.new call.1.length dec.symbolSize x).addAll
        (fun p hp => by
          have hequation := (hhonest p hp).equation
          rwa [hcount, hsource] at hequation) hadd
      have hsolved : syms = x := by
        apply hinv.decode _ _ hsyms
        · rw [hk, hx, List.length_map]
          rfl
        · intro s hs
          obtain ⟨i, hi, rfl⟩ := List.mem_map.mp hs
          rw [hsize]
          exact (hcw i (hidx i hi)).2.1.trans hdec.symm
      rw [hsolved, hx]
      have hzip : (call.1.map id).zip (call.1.map fun i => enc.outer.getD i []) =
          call.1.map fun i => (i, enc.outer.getD i []) := List.zip_map'
      rw [List.map_id] at hzip
      rw [hzip]

/-- After any run of contributions the decoder holds the owned symbols in the order of the
contributions. -/
theorem addGroups_outer (hnew : HierEncoder.new data k mOuter symbolSize = .ok enc) {g : Nat}
    {seed : UInt64} {calls : List (List Nat × List CodedPacket)}
    (hcalls : ∀ call ∈ calls, enc.Contributes g seed call) {dec dec' : HierDecoder}
    (hdec : dec.symbolSize = symbolSize) (h : dec.addGroups calls = .ok dec') :
    (∀ i ∈ calls.flatMap Prod.fst, i < k + mOuter) ∧
      dec' = { dec with
        outer := dec.outer ++ (calls.flatMap Prod.fst).map fun i => (i, enc.outer.getD i []) } := by
  induction calls generalizing dec with
  | nil =>
      cases h
      simp
  | cons call rest ih =>
      obtain ⟨owned, packets⟩ := call
      rw [HierDecoder.addGroups] at h
      split at h
      · cases h
      · rename_i count dec₁ hadd
        obtain ⟨hidx, hdec₁⟩ := addGroup_outer hnew (hcalls _ List.mem_cons_self) hdec hadd
        obtain ⟨hidx', hrest⟩ := ih (fun call hcall => hcalls call (List.mem_cons_of_mem _ hcall))
          (hdec₁ ▸ hdec) h
        constructor
        · rw [List.flatMap_cons]
          intro i hi
          rcases List.mem_append.mp hi with hhead | htail
          · exact hidx i hhead
          · exact hidx' i htail
        · rw [hrest, hdec₁, List.flatMap_cons, List.map_append, List.append_assoc]

end HierEncoder

/-! ## When the contributions suffice -/

/-- Contributions of these outer indices reconstruct: too few are recognised as too few, and
the first `k` determine the data. Up to 256 data symbols, they do when no two of them have the
same index modulo 256. -/
def Reconstructs (k mOuter : Nat) (indices : List Nat) : Prop :=
  k ≤ indices.length →
    if k ≤ 256 then ((indices.take k).map (· % 256)).Nodup
    else Rs.Determined k mOuter (indices.take k)

theorem reconstructs_iff {k mOuter : Nat} {indices : List Nat}
    (hidx : ∀ i ∈ indices, i < k + mOuter) :
    Reconstructs k mOuter indices ↔
      (k ≤ indices.length → Rs.Determined k mOuter (indices.take k)) := by
  unfold Reconstructs
  apply imp_congr_right
  intro hlen
  split_ifs with hk
  · rw [Rs.determined_iff hk (by rw [List.length_take]; omega)
      fun i hi => hidx i (List.mem_of_mem_take hi)]
  · rfl

/-- Fewer than `k` distinct indices never determine the data. -/
theorem Rs.Determined.card_le {k m : Nat} {indices : List Nat} (h : Rs.Determined k m indices) :
    k ≤ indices.toFinset.card := by
  apply h.le_card indices.toFinset fun i => vec ((generator k m).getD i [])
  intro row hrow
  obtain ⟨i, hi, rfl⟩ := List.mem_map.mp hrow
  exact ⟨i, List.mem_toFinset.mpr hi, rfl⟩

namespace HierEncoder

variable {data : List (List UInt8)} {k mOuter symbolSize : Nat} {enc : HierEncoder}

/-- A decoder that is ready returns what the outer code returns. -/
theorem decode_eq_ok_iff {dec : HierDecoder} (hready : dec.ready = true)
    {out : List (List UInt8)} :
    dec.decode = .ok out ↔ Rs.decode dec.k dec.mOuter dec.symbolSize dec.outer = .ok out := by
  unfold HierDecoder.decode
  rw [if_neg (by simp [hready])]
  split <;> simp_all

/-- A run ends with a decoder that is ready from the `k`-th contributed symbol on, and then
decodes to the data exactly when the first `k` of them determine it. -/
theorem run_spec (hnew : HierEncoder.new data k mOuter symbolSize = .ok enc)
    (hsize : 1 ≤ symbolSize) {g : Nat} {seed : UInt64}
    {calls : List (List Nat × List CodedPacket)}
    (hcalls : ∀ call ∈ calls, enc.Contributes g seed call) {dec : HierDecoder}
    (hrun : (HierDecoder.new k mOuter symbolSize).addGroups calls = .ok dec) :
    (∀ i ∈ calls.flatMap Prod.fst, i < k + mOuter) ∧
      (dec.ready = true ↔ k ≤ (calls.flatMap Prod.fst).length) ∧
      (k ≤ (calls.flatMap Prod.fst).length →
        (dec.decode = .ok data ↔ Rs.Determined k mOuter ((calls.flatMap Prod.fst).take k))) := by
  obtain ⟨-, hdata, hsizes, hcw⟩ := new_ok hnew
  obtain ⟨hidx, rfl⟩ := addGroups_outer hnew hcalls rfl hrun
  set indices := calls.flatMap Prod.fst with hindices
  have houter : (HierDecoder.new k mOuter symbolSize).outer ++
      (indices.map fun i => (i, enc.outer.getD i [])) =
      indices.map fun i => (i, enc.outer.getD i []) := rfl
  rw [houter]
  have hready : (HierDecoder.mk k mOuter symbolSize
      (indices.map fun i => (i, enc.outer.getD i []))).ready = true ↔ k ≤ indices.length := by
    simp [HierDecoder.ready]
  refine ⟨hidx, hready, ?_⟩
  intro hlen
  have hfst : ((indices.map fun i => (i, enc.outer.getD i [])).take k).map Prod.fst =
      indices.take k := by
    rw [← List.map_take, List.map_map]
    exact List.map_id _
  rw [← hfst]
  refine (decode_eq_ok_iff (hready.mpr hlen)).trans
    (Rs.decode_codewords hsize hdata hsizes (by simpa using hlen) ?_)
  intro e he
  obtain ⟨i, hi, rfl⟩ := List.mem_map.mp (List.mem_of_mem_take he)
  exact hcw i (hidx i hi)

/-- In every run of contributions: with `k` distinct outer indices the decoder is ready and
returns the data, and with fewer it is not ready, exactly when the first `k` contributed
symbols determine the data. -/
theorem fan_out_reconstructs_iff
    (hnew : HierEncoder.new data k mOuter symbolSize = .ok enc) (hsize : 1 ≤ symbolSize) {g : Nat}
    {seed : UInt64} {calls : List (List Nat × List CodedPacket)}
    (hcalls : ∀ call ∈ calls, enc.Contributes g seed call) {dec : HierDecoder}
    (hrun : (HierDecoder.new k mOuter symbolSize).addGroups calls = .ok dec) :
    ((k ≤ (calls.flatMap Prod.fst).toFinset.card → dec.ready = true ∧ dec.decode = .ok data) ∧
      ((calls.flatMap Prod.fst).toFinset.card < k → dec.ready = false)) ↔
      Reconstructs k mOuter (calls.flatMap Prod.fst) := by
  obtain ⟨hidx, hready, hdecode⟩ := run_spec hnew hsize hcalls hrun
  rw [reconstructs_iff hidx]
  set indices := calls.flatMap Prod.fst with hindices
  constructor
  · rintro ⟨henough, hfew⟩ hlen
    rcases Nat.lt_or_ge indices.toFinset.card k with hlt | hge
    · have hnot := hfew hlt
      rw [hready.mpr hlen] at hnot
      cases hnot
    · exact (hdecode hlen).mp (henough hge).2
  · intro hdetermined
    constructor
    · intro henough
      have hlen : k ≤ indices.length := henough.trans (List.toFinset_card_le indices)
      exact ⟨hready.mpr hlen, (hdecode hlen).mpr (hdetermined hlen)⟩
    · intro hfew
      by_contra htrue
      have hlen := hready.mp (by simpa using htrue)
      have hcard := (hdetermined hlen).card_le
      have hsub : (indices.take k).toFinset.card ≤ indices.toFinset.card := by
        apply Finset.card_le_card
        intro i hi
        exact List.mem_toFinset.mpr (List.mem_of_mem_take (List.mem_toFinset.mp hi))
      omega

/-- The parity group and one data group. -/
theorem fan_out_reconstructs_from_parity :
    let enc : HierEncoder := ⟨[[5], [7], [240]], 2, 3, 1⟩
    let calls := [2, 0].map fun gi =>
      (enc.owned 3 gi, ((enc.group 3 0 gi).code 1).toList.map Prod.fst)
    HierEncoder.new [[5], [7]] 2 1 1 = .ok enc ∧
      ∃ dec, (HierDecoder.new 2 1 1).addGroups calls = .ok dec ∧ dec.ready = true ∧
        dec.decode = .ok [[5], [7]] := by
  intro enc calls
  have hnew : HierEncoder.new [[5], [7]] 2 1 1 = .ok enc := by decide +kernel
  have hcalls : ∀ call ∈ calls, enc.Contributes 3 0 call := by
    intro call hcall
    obtain ⟨gi, hgi, rfl⟩ := List.mem_map.mp hcall
    exact contributes_code hnew (by simp at hgi; omega) 0 1
  have hindices : calls.flatMap Prod.fst = [2, 0] := by decide +kernel
  have hrun : (HierDecoder.new 2 1 1).addGroups calls =
      .ok ⟨2, 1, 1, [(2, [240]), (0, [5])]⟩ := by decide +kernel
  have hiff := fan_out_reconstructs_iff hnew le_rfl hcalls hrun
  rw [hindices] at hiff
  have hdistinct : Reconstructs 2 1 [2, 0] := by
    intro _
    rw [if_pos (by decide)]
    decide
  exact ⟨hnew, _, hrun, (hiff.mpr hdistinct).1 (by decide)⟩

/-- A group that contributes twice before the second of two symbols is in: two distinct indices
are contributed, and the decoder is ready, but does not return the data. -/
theorem repeated_group_not_reconstructed :
    let enc : HierEncoder := ⟨[[5], [7], [240]], 2, 3, 1⟩
    let calls := [0, 0, 1].map fun gi =>
      (enc.owned 3 gi, ((enc.group 3 0 gi).code 1).toList.map Prod.fst)
    HierEncoder.new [[5], [7]] 2 1 1 = .ok enc ∧ (∀ call ∈ calls, enc.Contributes 3 0 call) ∧
      (calls.flatMap Prod.fst).toFinset.card = 2 ∧
      ∃ dec, (HierDecoder.new 2 1 1).addGroups calls = .ok dec ∧ dec.ready = true ∧
        dec.decode = .error (.error (.rs "need 2 symbols, have 1")) := by
  intro enc calls
  have hnew : HierEncoder.new [[5], [7]] 2 1 1 = .ok enc := by decide +kernel
  refine ⟨hnew, ?_, by decide +kernel, ⟨2, 1, 1, [(0, [5]), (0, [5]), (1, [7])]⟩,
    by decide +kernel, by decide +kernel, by decide +kernel⟩
  intro call hcall
  obtain ⟨gi, hgi, rfl⟩ := List.mem_map.mp hcall
  exact contributes_code hnew (by simp at hgi; omega) 0 1

end HierEncoder

end Dlr.Coding
