import Dlr.Coding.Bulk
import Dlr.Coding.Retry
import Dlr.Coding.WireEquations
import Dlr.Lib.Traverse
import Mathlib.Data.List.Sort

/-!
# Reassembling a sharded payload

The decoder groups the symbols by generation, sorts the generations that have arrived, decodes
each of them, and places the results one after another. Nothing tells it how many generations
there are. When all of them have arrived the places are right and the payload comes back. When one
is missing the others move up, and what comes back is too short.

## Implementation notes

The generations are decoded in parallel. Which error is returned when several of them fail is left
open by the program; here it is the one of the first generation.

The number of a generation is cut to 32 bits. In a payload of more generations than that some
share a number, and then fewer numbers arrive than there are generations.
-/

namespace Dlr.Coding

open Lib Lib.Bytes Lib.Machine Lib.Elimination

namespace FountainDecoder

/-- Ingest the symbols that can be read and skip the others. -/
def addEach (d : FountainDecoder) (wires : List (List UInt8)) : FountainDecoder :=
  wires.foldl (fun d wire =>
    match d.add wire with
    | .ok (_, d) => d
    | .error _ => d) d

theorem addEach_eq {d d' : FountainDecoder} {wires : List (List UInt8)}
    (h : d.addAll wires = (.ok (), d')) : d.addEach wires = d' := by
  induction wires generalizing d with
  | nil => exact (Prod.mk.inj h).2
  | cons wire rest ih =>
      rw [addAll] at h
      rw [addEach, List.foldl_cons]
      cases hadd : d.add wire with
      | error e => rw [hadd] at h; cases h
      | ok r =>
          rw [hadd] at h
          exact ih h

theorem addEach_adds {P : ParsedSym → Prop} {k s : Nat} {wires : List (List UInt8)}
    (h : ∀ w ∈ wires, AddsOnly P k s w) :
    ∃ syms, (∀ sym ∈ syms, P sym) ∧ (new k s).addEach wires = { k, symbolSize := s, syms } := by
  obtain ⟨syms, hsyms, hadd⟩ := addAll_adds wires h
  refine ⟨syms, hsyms, ?_⟩
  rw [addEach_eq (hadd (new k s) rfl rfl)]
  simp [extend, new]

end FountainDecoder

namespace Bulk

/-! ## The decoder -/

/-- Add a symbol to the group of its generation. -/
def groupInsert (gen : UInt32) (wire : List UInt8) :
    List (UInt32 × List (List UInt8)) → List (UInt32 × List (List UInt8))
  | [] => [(gen, [wire])]
  | group :: rest =>
      if group.1 = gen then (gen, group.2 ++ [wire]) :: rest
      else group :: groupInsert gen wire rest

/-- The symbols of every generation, in the order of arrival. -/
def groups (coded : List (UInt32 × List UInt8)) : List (UInt32 × List (List UInt8)) :=
  coded.foldl (fun groups e => groupInsert e.1 e.2 groups) []

/-- The generations that have arrived, sorted by their numbers. -/
def gens (coded : List (UInt32 × List UInt8)) : List (UInt32 × List (List UInt8)) :=
  (groups coded).insertionSort fun a b => a.1 ≤ b.1

/-- Copy symbols into a region from an offset on, until it is full. -/
def fill (region : List UInt8) : Nat → List (List UInt8) → List UInt8
  | _, [] => region
  | off, sym :: rest =>
      let n := min sym.length (region.length - off)
      let region' := region.take off ++ sym.take n ++ region.drop (off + n)
      if off + n = region.length then region' else fill region' (off + n) rest

section Decoder

variable [FloatChoices]

def decodeGeneration (cfg : BulkConfig) (group : UInt32 × List (List UInt8)) :
    Except (Fault BulkError) (List UInt8) :=
  match ((FountainDecoder.new cfg.genSize cfg.symbolSize).addEach group.2).decode.1 with
  | .ok syms => .ok (fill (List.replicate (cfg.genSize * cfg.symbolSize) 0) 0 syms)
  | .error e => .error (.error (.generation group.1.toNat e))

/-- Decode the generations that have arrived and cut the result to the original length. -/
def decode (coded : List (UInt32 × List UInt8)) (cfg : BulkConfig) (originalLen : Nat) :
    Except (Fault BulkError) (List UInt8) :=
  let fullGenBytes := cfg.genSize * cfg.symbolSize
  if gens coded = [] ∨ fullGenBytes = 0 then .ok []
  else
    match checkedMul (gens coded).length fullGenBytes with
    | none => .error .panic
    | some _ => do
        let out ← (gens coded).mapM (decodeGeneration cfg)
        return out.flatten.take originalLen

end Decoder

/-! ## Grouping -/

/-- The symbols of one generation. -/
def wiresOf (coded : List (UInt32 × List UInt8)) (gen : UInt32) : List (List UInt8) :=
  (coded.filter fun e => e.1 = gen).map Prod.snd

/-- Groups that hold exactly the symbols received, one for every number. -/
structure Grouped (coded : List (UInt32 × List UInt8))
    (groups : List (UInt32 × List (List UInt8))) : Prop where
  nodup : (groups.map Prod.fst).Nodup
  mem_iff : ∀ g, g ∈ groups.map Prod.fst ↔ g ∈ coded.map Prod.fst
  wires : ∀ group ∈ groups, group.2 = wiresOf coded group.1

theorem map_fst_groupInsert (gen : UInt32) (wire : List UInt8)
    (groups : List (UInt32 × List (List UInt8))) :
    (groupInsert gen wire groups).map Prod.fst =
      if gen ∈ groups.map Prod.fst then groups.map Prod.fst
      else groups.map Prod.fst ++ [gen] := by
  induction groups with
  | nil => rfl
  | cons group rest ih =>
      rw [groupInsert]
      by_cases hgen : group.1 = gen
      · rw [if_pos hgen, if_pos (by simp [hgen]), List.map_cons, List.map_cons, hgen]
      · rw [if_neg hgen, List.map_cons, ih]
        have hne : gen ≠ group.1 := Ne.symm hgen
        simp only [List.map_cons, List.mem_cons, hne, false_or]
        split_ifs
        all_goals rfl

theorem mem_groupInsert {gen : UInt32} {wire : List UInt8}
    {groups : List (UInt32 × List (List UInt8))} {group : UInt32 × List (List UInt8)}
    (hnodup : (groups.map Prod.fst).Nodup) (h : group ∈ groupInsert gen wire groups) :
    (group ∈ groups ∧ group.1 ≠ gen) ∨ (∃ ws, (gen, ws) ∈ groups ∧ group = (gen, ws ++ [wire])) ∨
      (gen ∉ groups.map Prod.fst ∧ group = (gen, [wire])) := by
  induction groups with
  | nil =>
      right
      right
      simpa [groupInsert] using h
  | cons first rest ih =>
      rw [List.map_cons, List.nodup_cons] at hnodup
      rw [groupInsert] at h
      by_cases hgen : first.1 = gen
      · rw [if_pos hgen] at h
        rcases List.mem_cons.mp h with rfl | hrest
        · exact Or.inr (Or.inl ⟨first.2, by simp [← hgen], rfl⟩)
        · refine Or.inl ⟨List.mem_cons_of_mem _ hrest, ?_⟩
          intro hsame
          exact hnodup.1 (hgen ▸ hsame ▸ List.mem_map_of_mem hrest)
      · rw [if_neg hgen] at h
        rcases List.mem_cons.mp h with rfl | hrest
        · exact Or.inl ⟨List.mem_cons_self, hgen⟩
        · rcases ih hnodup.2 hrest with ⟨hmem, hne⟩ | ⟨ws, hmem, rfl⟩ | ⟨hnot, rfl⟩
          · exact Or.inl ⟨List.mem_cons_of_mem _ hmem, hne⟩
          · exact Or.inr (Or.inl ⟨ws, List.mem_cons_of_mem _ hmem, rfl⟩)
          · refine Or.inr (Or.inr ⟨?_, rfl⟩)
            rw [List.map_cons, List.mem_cons, not_or]
            exact ⟨Ne.symm hgen, hnot⟩

theorem wiresOf_append (coded : List (UInt32 × List UInt8)) (e : UInt32 × List UInt8)
    (g : UInt32) :
    wiresOf (coded ++ [e]) g = if e.1 = g then wiresOf coded g ++ [e.2] else wiresOf coded g := by
  unfold wiresOf
  split_ifs with hg
  · simp [hg]
  · simp [hg]

theorem wiresOf_eq_nil {coded : List (UInt32 × List UInt8)} {g : UInt32}
    (h : g ∉ coded.map Prod.fst) : wiresOf coded g = [] := by
  unfold wiresOf
  rw [List.map_eq_nil_iff, List.filter_eq_nil_iff]
  intro e he
  rw [decide_eq_true_eq]
  rintro rfl
  exact h (List.mem_map_of_mem he)

theorem Grouped.insert {coded : List (UInt32 × List UInt8)}
    {groups : List (UInt32 × List (List UInt8))} (h : Grouped coded groups)
    (e : UInt32 × List UInt8) : Grouped (coded ++ [e]) (groupInsert e.1 e.2 groups) := by
  constructor
  · rw [map_fst_groupInsert]
    split_ifs with hmem
    · exact h.nodup
    · exact List.Nodup.append h.nodup (List.nodup_singleton _) (by simpa using hmem)
  · intro g
    rw [map_fst_groupInsert, List.map_append, List.mem_append, ← h.mem_iff]
    split_ifs with hmem
    · constructor
      · exact Or.inl
      · rintro (hold | hnew)
        · exact hold
        · rw [List.map_singleton, List.mem_singleton] at hnew
          exact hnew ▸ hmem
    · rw [List.mem_append, List.map_singleton]
  · intro group hgroup
    rw [wiresOf_append]
    obtain ⟨hold, hne⟩ | ⟨ws, hold, rfl⟩ | ⟨hnot, rfl⟩ := mem_groupInsert h.nodup hgroup
    · rw [if_neg (Ne.symm hne)]
      exact h.wires group hold
    · rw [if_pos rfl, ← h.wires (e.1, ws) hold]
    · rw [h.mem_iff] at hnot
      rw [if_pos rfl, wiresOf_eq_nil hnot, List.nil_append]

theorem grouped_groups (coded : List (UInt32 × List UInt8)) : Grouped coded (groups coded) := by
  induction coded using List.reverseRecOn with
  | nil => exact ⟨List.nodup_nil, fun _ => Iff.rfl, by simp [groups]⟩
  | append_singleton coded e ih =>
      rw [groups, List.foldl_append]
      exact ih.insert e

theorem perm_gens (coded : List (UInt32 × List UInt8)) : (gens coded).Perm (groups coded) :=
  List.perm_insertionSort _ _

theorem grouped_gens (coded : List (UInt32 × List UInt8)) : Grouped coded (gens coded) := by
  have h := grouped_groups coded
  have hperm := perm_gens coded
  refine ⟨(hperm.map Prod.fst).nodup_iff.mpr h.nodup, ?_, ?_⟩
  · intro g
    rw [(hperm.map Prod.fst).mem_iff]
    exact h.mem_iff g
  · intro group hgroup
    exact h.wires group (hperm.mem_iff.mp hgroup)

/-- The numbers ascend. -/
theorem sorted_gens (coded : List (UInt32 × List UInt8)) :
    ((gens coded).map Prod.fst).Pairwise (· < ·) := by
  have hle : (gens coded).Pairwise fun a b => a.1 ≤ b.1 := by
    have : Std.Total fun a b : UInt32 × List (List UInt8) => a.1 ≤ b.1 :=
      ⟨fun a b => UInt32.le_total a.1 b.1⟩
    have : IsTrans (UInt32 × List (List UInt8)) fun a b => a.1 ≤ b.1 :=
      ⟨fun a b c => UInt32.le_trans⟩
    exact List.pairwise_insertionSort _ _
  have hne := (grouped_gens coded).nodup
  rw [List.pairwise_map]
  rw [List.Nodup, List.pairwise_map] at hne
  exact (hle.and hne).imp fun h => UInt32.lt_of_le_of_ne h.1 h.2

/-! ## Placing the symbols -/

theorem fill_eq (syms : List (List UInt8)) (region : List UInt8) {off : Nat}
    (h : off ≤ region.length) :
    fill region off syms = region.take off ++ syms.flatten.take (region.length - off) ++
      region.drop (off + syms.flatten.length) := by
  induction syms generalizing region off with
  | nil => simp [fill]
  | cons sym rest ih =>
      rw [fill]
      by_cases hfull : off + min sym.length (region.length - off) = region.length
      · rw [if_pos hfull]
        have hlen : region.length - off ≤ sym.length := by omega
        rw [List.flatten_cons, List.take_append_of_le_length hlen, Nat.min_eq_right hlen,
          List.drop_eq_nil_of_le (by omega), List.drop_eq_nil_of_le (by simp; omega)]
      · rw [if_neg hfull]
        have hlen : sym.length < region.length - off := by omega
        rw [Nat.min_eq_left hlen.le, List.take_length]
        have hregion : (region.take off ++ sym ++ region.drop (off + sym.length)).length =
            region.length := by
          simp only [List.length_append, List.length_take, List.length_drop]
          omega
        have hfront : (region.take off ++ sym).length = off + sym.length := by
          simp only [List.length_append, List.length_take]
          omega
        rw [ih _ (by omega), hregion, List.take_left' hfront, ← List.drop_drop,
          List.drop_left' hfront, List.drop_drop, List.flatten_cons, List.take_append,
          List.take_of_length_le hlen.le, List.length_append]
        simp only [List.append_assoc, Nat.add_assoc, Nat.sub_sub]

theorem length_fill (syms : List (List UInt8)) (region : List UInt8) :
    (fill region 0 syms).length = region.length := by
  rw [fill_eq syms region (Nat.zero_le _)]
  simp only [List.length_append, List.length_take, List.length_drop]
  omega

/-- Symbols that fit a region exactly are placed one after another. -/
theorem fill_of_length {syms : List (List UInt8)} {region : List UInt8}
    (h : syms.flatten.length = region.length) : fill region 0 syms = syms.flatten := by
  rw [fill_eq syms region (Nat.zero_le _), Nat.sub_zero, ← h, Nat.zero_add,
    List.drop_eq_nil_of_le h.symm.le, List.take_length]
  simp

/-! ## The generations of a payload -/

section Encoded

variable [FloatChoices] {payload : List UInt8} {cfg : BulkConfig}

/-- The number of generations a payload is sharded into. -/
def totalFullGens (payload : List UInt8) (cfg : BulkConfig) : Nat :=
  max (divCeil (max (divCeil payload.length cfg.symbolSize) 1) cfg.genSize) 1

/-- The sources of a generation. -/
def sourceOf (payload : List UInt8) (cfg : BulkConfig) (gi : Nat) : Source :=
  .shared (padded payload cfg) (gi * (cfg.genSize * cfg.symbolSize)) cfg.symbolSize cfg.genSize

variable (payload) in
theorem le_totalFullGens (hgen : 0 < cfg.genSize) (hsym : 0 < cfg.symbolSize) :
    payload.length ≤ totalFullGens payload cfg * (cfg.genSize * cfg.symbolSize) := by
  calc payload.length
      ≤ divCeil payload.length cfg.symbolSize * cfg.symbolSize := le_divCeil_mul _ hsym
    _ ≤ max (divCeil payload.length cfg.symbolSize) 1 * cfg.symbolSize :=
        Nat.mul_le_mul_right _ (le_max_left _ _)
    _ ≤ totalFullGens payload cfg * cfg.genSize * cfg.symbolSize := by
        apply Nat.mul_le_mul_right
        exact (le_divCeil_mul _ hgen).trans (Nat.mul_le_mul_right _ (le_max_left _ _))
    _ = totalFullGens payload cfg * (cfg.genSize * cfg.symbolSize) := Nat.mul_assoc _ _ _

/-- Fewer generations are too short for the payload. -/
theorem lt_length_of_lt_totalFullGens (hne : payload ≠ []) (hgen : 0 < cfg.genSize) {n : Nat}
    (hn : n < totalFullGens payload cfg) : n * (cfg.genSize * cfg.symbolSize) < payload.length := by
  by_contra hge
  rw [Nat.not_lt, ← Nat.mul_assoc] at hge
  have hpos : 0 < payload.length := List.length_pos_iff.mpr hne
  have hn0 : 0 < n := by
    rcases Nat.eq_zero_or_pos n with rfl | hn0
    · simp at hge
      exact absurd hge hne
    · exact hn0
  have hsyms : max (divCeil payload.length cfg.symbolSize) 1 ≤ n * cfg.genSize :=
    max_le (divCeil_le hge) (Nat.mul_pos hn0 hgen)
  have htotal : totalFullGens payload cfg ≤ n := max_le (divCeil_le hsyms) hn0
  omega

variable (payload) in
theorem length_padded_all (hgen : 0 < cfg.genSize) (hsym : 0 < cfg.symbolSize) :
    (padded payload cfg).length =
      totalFullGens payload cfg * (cfg.genSize * cfg.symbolSize) := by
  have hle := le_totalFullGens payload hgen hsym
  have hlen : (padded payload cfg).length = payload.length +
      (totalFullGens payload cfg * (cfg.genSize * cfg.symbolSize) - payload.length) := by
    simp [padded, totalFullGens]
  omega

theorem take_padded : (padded payload cfg).take payload.length = payload := by
  simp [padded]

theorem length_src {gi i : Nat} (hgen : 0 < cfg.genSize) (hsym : 0 < cfg.symbolSize)
    (hgi : gi < totalFullGens payload cfg) (hi : i < cfg.genSize) :
    ((sourceOf payload cfg gi).src i).length = cfg.symbolSize := by
  have hlen := length_padded_all payload hgen hsym
  have hlast : gi * (cfg.genSize * cfg.symbolSize) + (i + 1) * cfg.symbolSize ≤
      totalFullGens payload cfg * (cfg.genSize * cfg.symbolSize) := by
    calc gi * (cfg.genSize * cfg.symbolSize) + (i + 1) * cfg.symbolSize
        ≤ gi * (cfg.genSize * cfg.symbolSize) + cfg.genSize * cfg.symbolSize :=
          Nat.add_le_add_left (Nat.mul_le_mul_right _ hi) _
      _ = (gi + 1) * (cfg.genSize * cfg.symbolSize) := by ring
      _ ≤ totalFullGens payload cfg * (cfg.genSize * cfg.symbolSize) :=
          Nat.mul_le_mul_right _ hgi
  rw [Nat.add_mul] at hlast
  simp only [sourceOf, Source.src, List.length_take, List.length_drop, hlen]
  omega

theorem encodeGeneration_eq_ok {buf : List UInt8} {gi : Nat} {part : List (UInt32 × List UInt8)}
    (h : encodeGeneration buf cfg gi = .ok part) :
    ∃ enc, FountainEncoder.newShared buf (gi * (cfg.genSize * cfg.symbolSize)) cfg.symbolSize
        cfg.genSize (UInt32.ofNat gi) = .ok enc ∧
      part = (enc.produce (cfg.genSize +
        FloatChoices.repairCount cfg.genSize cfg.repairFraction)).1.map
          fun wire => (UInt32.ofNat gi, wire) := by
  unfold encodeGeneration at h
  split at h
  · cases h
  · rename_i enc henc
    exact ⟨enc, henc, (Except.ok.inj h).symm⟩

/-- What the encoder has written: every symbol is a true equation about the sources of a
generation with its number. -/
theorem encode_spec {coded : List (UInt32 × List UInt8)} (h : encode payload cfg = .ok coded) :
    payload ≠ [] ∧
      totalFullGens payload cfg * (cfg.genSize * cfg.symbolSize) ≤ usizeMax ∧
      ∀ e ∈ coded, ∃ gi < totalFullGens payload cfg, e.1 = UInt32.ofNat gi ∧
        HonestWire (sourceOf payload cfg gi).src cfg.genSize cfg.symbolSize e.2 := by
  unfold encode at h
  split_ifs at h with hne
  change ((List.range (totalFullGens payload cfg)).mapM (encodeGeneration (padded payload cfg) cfg)
    >>= fun encoded => pure encoded.flatten) = Except.ok coded at h
  cases henc : (List.range (totalFullGens payload cfg)).mapM
      (encodeGeneration (padded payload cfg) cfg) with
  | error e => rw [henc] at h; cases h
  | ok encoded =>
      rw [henc] at h
      obtain rfl := Except.ok.inj h
      have hall := mapM_eq_ok henc
      have hlast : totalFullGens payload cfg - 1 ∈ List.range (totalFullGens payload cfg) := by
        rw [List.mem_range]
        exact Nat.sub_lt (Nat.lt_of_lt_of_le Nat.one_pos (le_max_right _ _)) Nat.one_pos
      refine ⟨hne, ?_, ?_⟩
      · obtain ⟨part, -, hpart⟩ := forall₂_exists hall hlast
        obtain ⟨enc, hnew, -⟩ := encodeGeneration_eq_ok hpart
        obtain ⟨-, -, -, hmax, -⟩ := FountainEncoder.newShared_eq_ok hnew
        have hone : 1 ≤ totalFullGens payload cfg := le_max_right _ _
        calc totalFullGens payload cfg * (cfg.genSize * cfg.symbolSize)
            = (totalFullGens payload cfg - 1 + 1) * (cfg.genSize * cfg.symbolSize) := by
              rw [Nat.sub_add_cancel hone]
          _ = (totalFullGens payload cfg - 1) * (cfg.genSize * cfg.symbolSize) +
              cfg.genSize * cfg.symbolSize := by ring
          _ ≤ usizeMax := hmax
      · intro e he
        obtain ⟨part, hpart, hmem⟩ := List.mem_flatten.mp he
        obtain ⟨gi, hgi, hgen⟩ := forall₂_exists hall.flip hpart
        obtain ⟨enc, hnew, rfl⟩ := encodeGeneration_eq_ok hgen
        obtain ⟨w, hw, rfl⟩ := List.mem_map.mp hmem
        obtain ⟨hpos, hsrc⟩ := (Accepted.newShared hnew).sources
        obtain ⟨-, -, -, -, rfl⟩ := FountainEncoder.newShared_eq_ok hnew
        exact ⟨gi, List.mem_range.mp hgi, rfl, produce_honest _ _ hpos hsrc w hw⟩

/-- The equations that a decoder stores for one generation. -/
def received (cfg : BulkConfig) (list : List (UInt32 × List UInt8)) (g : UInt32) :
    List ParsedSym :=
  ((FountainDecoder.new cfg.genSize cfg.symbolSize).addEach (wiresOf list g)).syms

section Received

variable {coded list : List (UInt32 × List UInt8)} (hgen : 0 < cfg.genSize)
  (hk : cfg.genSize ≤ 65536) (hsym : 0 < cfg.symbolSize) (h : encode payload cfg = .ok coded)
  (hlist : ∀ e ∈ list, e ∈ coded)

include hk h hlist in
theorem stored_received (g : UInt32) :
    Stored cfg.genSize cfg.symbolSize (received cfg list g) ∧
      (FountainDecoder.new cfg.genSize cfg.symbolSize).addEach (wiresOf list g) =
        { k := cfg.genSize, symbolSize := cfg.symbolSize, syms := received cfg list g } := by
  have hwires : ∀ w ∈ wiresOf list g, AddsOnly
      (fun sym => sym.WellFormed cfg.genSize ∧ sym.payload.length = cfg.symbolSize)
      cfg.genSize cfg.symbolSize w := by
    intro w hw
    obtain ⟨e, he, rfl⟩ := List.mem_map.mp hw
    obtain ⟨gi, -, -, hhonest⟩ := (encode_spec h).2.2 e (hlist e (List.mem_filter.mp he).1)
    exact (hhonest.trueWire hk).mono fun sym hholds => ⟨hholds.formed, hholds.size⟩
  obtain ⟨syms, hsyms, hadd⟩ := FountainDecoder.addEach_adds hwires
  have hreceived : received cfg list g = syms := by rw [received, hadd]
  rw [hreceived]
  exact ⟨⟨fun sym hmem => (hsyms sym hmem).1, fun sym hmem => Or.inl (hsyms sym hmem).2⟩, hadd⟩

include hk h hlist in
theorem decodeGeneration_eq (g : UInt32) :
    decodeGeneration cfg (g, wiresOf list g) =
      match answer cfg.genSize cfg.symbolSize (received cfg list g) with
      | .ok syms => .ok (fill (List.replicate (cfg.genSize * cfg.symbolSize) 0) 0 syms)
      | .error e => .error (.error (.generation g.toNat e)) := by
  unfold decodeGeneration
  simp only
  rw [(stored_received hk h hlist g).2, FountainDecoder.decode_eq]

include hk hsym h hlist in
theorem decodeGeneration_of_spans {g : UInt32} (hspan : Spans cfg.genSize
    ((received cfg list g).map fun sym => coverVec sym.cover)) :
    ∃ region, decodeGeneration cfg (g, wiresOf list g) = .ok region ∧
      region.length = cfg.genSize * cfg.symbolSize := by
  obtain ⟨xs, hxs⟩ := answer_of_spans_stored (stored_received hk h hlist g).1 hsym hspan
  refine ⟨_, by rw [decodeGeneration_eq hk h hlist, hxs], ?_⟩
  rw [length_fill, List.length_replicate]

include hk hsym h hlist in
theorem decodeGeneration_of_short {g : UInt32} (hspan : ¬ Spans cfg.genSize
    ((received cfg list g).map fun sym => coverVec sym.cover)) :
    ∃ e, decodeGeneration cfg (g, wiresOf list g) = .error e := by
  obtain ⟨got, need, hshort⟩ := answer_of_short (stored_received hk h hlist g).1 hsym hspan
  exact ⟨_, by rw [decodeGeneration_eq hk h hlist, hshort]⟩

include hgen hk hsym h hlist in
/-- While the numbers do not wrap, a generation gives its part of the padded payload back. -/
theorem decodeGeneration_of_total (htotal : totalFullGens payload cfg ≤ 2 ^ 32) {g : UInt32}
    (hg : g.toNat < totalFullGens payload cfg) (hspan : Spans cfg.genSize
      ((received cfg list g).map fun sym => coverVec sym.cover)) :
    decodeGeneration cfg (g, wiresOf list g) = .ok ((Source.shared (padded payload cfg) 0
      (cfg.genSize * cfg.symbolSize) (totalFullGens payload cfg)).src g.toNat) := by
  have hwires : ∀ w ∈ wiresOf list g,
      TrueWire (sourceOf payload cfg g.toNat).src cfg.genSize cfg.symbolSize w := by
    intro w hw
    obtain ⟨e, he, rfl⟩ := List.mem_map.mp hw
    obtain ⟨hmem, hnum⟩ := List.mem_filter.mp he
    obtain ⟨gi, hgi, hid, hhonest⟩ := (encode_spec h).2.2 e (hlist e hmem)
    obtain rfl : gi = g.toNat := by
      rw [decide_eq_true_eq] at hnum
      rw [← hnum, hid, UInt32.toNat_ofNat_of_lt' (hgi.trans_le htotal)]
    exact hhonest.trueWire hk
  obtain ⟨syms, hsyms, hadd⟩ := FountainDecoder.addEach_adds hwires
  have hreceived : received cfg list g = syms := by rw [received, hadd]
  have hX := fun i (hi : i < cfg.genSize) => length_src hgen hsym hg hi
  have hanswer := answer_of_spans hsym hX (hreceived ▸ hsyms) hspan
  have hflat : ((List.range cfg.genSize).map (sourceOf payload cfg g.toNat).src).flatten =
      (Source.shared (padded payload cfg) 0 (cfg.genSize * cfg.symbolSize)
        (totalFullGens payload cfg)).src g.toNat := by
    rw [sourceOf, flatten_src, Source.src, Nat.zero_add]
  have hlen := length_src_shared (length_padded_all payload hgen hsym) hg
  rw [decodeGeneration_eq hk h hlist, hanswer]
  simp only
  rw [fill_of_length, hflat]
  rw [hflat, hlen, List.length_replicate]

include h hlist in
/-- The numbers that have arrived are numbers of generations. -/
theorem mem_ids {g : UInt32} (hg : g ∈ list.map Prod.fst) :
    ∃ gi < totalFullGens payload cfg, g = UInt32.ofNat gi := by
  obtain ⟨e, he, rfl⟩ := List.mem_map.mp hg
  obtain ⟨gi, hgi, hid, -⟩ := (encode_spec h).2.2 e (hlist e he)
  exact ⟨gi, hgi, hid⟩

include h hlist in
theorem ids_subset : (gens list).map Prod.fst ⊆
    (List.range (totalFullGens payload cfg)).map UInt32.ofNat := by
  intro g hg
  obtain ⟨gi, hgi, rfl⟩ := mem_ids h hlist (((grouped_gens list).mem_iff g).mp hg)
  exact List.mem_map.mpr ⟨gi, List.mem_range.mpr hgi, rfl⟩

include h hlist in
theorem length_gens_le : (gens list).length ≤ totalFullGens payload cfg := by
  have hle := ((grouped_gens list).nodup.subperm (ids_subset h hlist)).length_le
  simpa using hle

include h hlist in
/-- Fewer groups than generations, unless every generation has arrived under a number of its
own. -/
theorem length_gens_lt (hmissing : ¬ (totalFullGens payload cfg ≤ 2 ^ 32 ∧
      ∀ gi < totalFullGens payload cfg, UInt32.ofNat gi ∈ list.map Prod.fst)) :
    (gens list).length < totalFullGens payload cfg := by
  have hnodup := (grouped_gens list).nodup
  rw [not_and_or] at hmissing
  rcases hmissing with hwrap | hmissing
  · have hnat : ((gens list).map fun group => group.1.toNat).Nodup := by
      have hmap := hnodup.map (f := UInt32.toNat) fun a b hab => UInt32.toNat_inj.mp hab
      rwa [List.map_map] at hmap
    have hsub : ((gens list).map fun group => group.1.toNat) ⊆ List.range (2 ^ 32) := by
      intro n hn
      obtain ⟨group, -, rfl⟩ := List.mem_map.mp hn
      exact List.mem_range.mpr group.1.toNat_lt
    have hle := (hnat.subperm hsub).length_le
    rw [List.length_map, List.length_range] at hle
    omega
  · push Not at hmissing
    obtain ⟨gi, hgi, hnot⟩ := hmissing
    rw [← (grouped_gens list).mem_iff] at hnot
    -- with the missing number there are still not more than the generations
    have hsub : UInt32.ofNat gi :: (gens list).map Prod.fst ⊆
        (List.range (totalFullGens payload cfg)).map UInt32.ofNat := by
      apply List.cons_subset.mpr
      exact ⟨List.mem_map.mpr ⟨gi, List.mem_range.mpr hgi, rfl⟩, ids_subset h hlist⟩
    have hle := ((List.nodup_cons.mpr ⟨hnot, hnodup⟩).subperm hsub).length_le
    simp only [List.length_cons, List.length_map, List.length_range] at hle
    omega

include h hlist in
/-- When every generation has arrived the groups are in the order of the generations. -/
theorem ids_eq (htotal : totalFullGens payload cfg ≤ 2 ^ 32)
    (hall : ∀ gi < totalFullGens payload cfg, UInt32.ofNat gi ∈ list.map Prod.fst) :
    (gens list).map Prod.fst = (List.range (totalFullGens payload cfg)).map UInt32.ofNat := by
  have hsorted : ((List.range (totalFullGens payload cfg)).map UInt32.ofNat).Pairwise
      (· < ·) := by
    rw [List.pairwise_map]
    apply List.pairwise_lt_range.imp_of_mem
    intro a b ha hb hab
    rw [List.mem_range] at ha hb
    rw [UInt32.lt_iff_toNat_lt, UInt32.toNat_ofNat_of_lt' (ha.trans_le htotal),
      UInt32.toNat_ofNat_of_lt' (hb.trans_le htotal)]
    exact hab
  apply (sorted_gens list).eq_of_mem_iff hsorted
  intro g
  constructor
  · exact fun hg => ids_subset h hlist hg
  · intro hg
    obtain ⟨gi, hgi, rfl⟩ := List.mem_map.mp hg
    exact ((grouped_gens list).mem_iff _).mpr (hall gi (List.mem_range.mp hgi))

/-! ## The result -/

omit [FloatChoices] in
theorem gens_ne_nil {g : UInt32} (hg : g ∈ list.map Prod.fst) : gens list ≠ [] := by
  intro hnil
  have hmem := ((grouped_gens list).mem_iff g).mpr hg
  rw [hnil] at hmem
  cases hmem

include hgen hsym h hlist in
/-- The length of the result does not overflow. -/
theorem decode_eq_mapM (hne : gens list ≠ []) (n : Nat) :
    decode list cfg n = ((gens list).mapM (decodeGeneration cfg) >>= fun out =>
      pure (out.flatten.take n)) := by
  have hfull : cfg.genSize * cfg.symbolSize ≠ 0 := (Nat.mul_pos hgen hsym).ne'
  have hfit : (gens list).length * (cfg.genSize * cfg.symbolSize) ≤ usizeMax :=
    (Nat.mul_le_mul_right _ (length_gens_le h hlist)).trans (encode_spec h).2.1
  unfold decode
  simp only
  rw [if_neg (by simp [hne, hfull]), checkedMul_of_le hfit]

omit [FloatChoices] in
theorem group_eq {group : UInt32 × List (List UInt8)} (hgroup : group ∈ gens list) :
    group = (group.1, wiresOf list group.1) :=
  Prod.ext rfl ((grouped_gens list).wires group hgroup)

include hgen hk hsym h hlist in
/-- A generation that cannot be solved fails the whole decode. -/
theorem decode_of_short (n : Nat) {g : UInt32} (hg : g ∈ list.map Prod.fst)
    (hspan : ¬ Spans cfg.genSize ((received cfg list g).map fun sym => coverVec sym.cover)) :
    ∃ e, decode list cfg n = .error e := by
  obtain ⟨group, hgroup, rfl⟩ := List.mem_map.mp (((grouped_gens list).mem_iff g).mpr hg)
  obtain ⟨e, he⟩ := decodeGeneration_of_short hk hsym h hlist hspan
  rw [← group_eq hgroup] at he
  rw [decode_eq_mapM hgen hsym h hlist (gens_ne_nil hg)]
  cases hout : (gens list).mapM (decodeGeneration cfg) with
  | error e' => exact ⟨e', rfl⟩
  | ok out =>
      obtain ⟨region, -, hregion⟩ := forall₂_exists (mapM_eq_ok hout) hgroup
      rw [he] at hregion
      cases hregion

include hgen hk hsym h hlist in
/-- Generations that can all be solved give one region each. -/
theorem decode_of_spans (hne : gens list ≠ []) (n : Nat)
    (hspan : ∀ g ∈ list.map Prod.fst, Spans cfg.genSize
      ((received cfg list g).map fun sym => coverVec sym.cover)) :
    ∃ p, decode list cfg n = .ok p ∧
      p.length = min n ((gens list).length * (cfg.genSize * cfg.symbolSize)) := by
  have hregions : ∀ group ∈ gens list, ∃ region, decodeGeneration cfg group = .ok region ∧
      region.length = cfg.genSize * cfg.symbolSize := by
    intro group hgroup
    have hmem := ((grouped_gens list).mem_iff _).mp (List.mem_map_of_mem hgroup)
    rw [group_eq hgroup]
    exact decodeGeneration_of_spans hk hsym h hlist (hspan _ hmem)
  choose! region hregion hlen using hregions
  have hout : (gens list).mapM (decodeGeneration cfg) = .ok ((gens list).map region) := by
    apply mapM_of_forall₂
    rw [List.forall₂_map_right_iff, List.forall₂_same]
    exact hregion
  refine ⟨_, by rw [decode_eq_mapM hgen hsym h hlist hne, hout]; rfl, ?_⟩
  have hsizes : (gens list).map (List.length ∘ region) =
      List.replicate (gens list).length (cfg.genSize * cfg.symbolSize) :=
    List.map_eq_replicate_iff.mpr hlen
  rw [List.length_take, List.length_flatten, List.map_map, hsizes, List.sum_replicate, smul_eq_mul]

include hgen hk hsym h hlist in
/-- When every generation has arrived and can be solved the payload comes back. -/
theorem decode_of_total (htotal : totalFullGens payload cfg ≤ 2 ^ 32)
    (hall : ∀ gi < totalFullGens payload cfg, UInt32.ofNat gi ∈ list.map Prod.fst)
    (hspan : ∀ g ∈ list.map Prod.fst, Spans cfg.genSize
      ((received cfg list g).map fun sym => coverVec sym.cover)) :
    decode list cfg payload.length = .ok payload := by
  set slice := (Source.shared (padded payload cfg) 0 (cfg.genSize * cfg.symbolSize)
    (totalFullGens payload cfg)).src with hslice
  have hids := ids_eq h hlist htotal hall
  have hpos : 0 < totalFullGens payload cfg := Nat.lt_of_lt_of_le Nat.one_pos (le_max_right _ _)
  have hout : (gens list).mapM (decodeGeneration cfg) =
      .ok ((gens list).map fun group => slice group.1.toNat) := by
    apply mapM_of_forall₂
    rw [List.forall₂_map_right_iff, List.forall₂_same]
    intro group hgroup
    have hmem := ((grouped_gens list).mem_iff _).mp (List.mem_map_of_mem hgroup)
    obtain ⟨gi, hgi, hid⟩ := mem_ids h hlist hmem
    have hlt : group.1.toNat < totalFullGens payload cfg := by
      rw [hid, UInt32.toNat_ofNat_of_lt' (hgi.trans_le htotal)]
      exact hgi
    rw [group_eq hgroup]
    exact decodeGeneration_of_total hgen hk hsym h hlist htotal hlt (hspan _ hmem)
  have hparts : (gens list).map (fun group => slice group.1.toNat) =
      (List.range (totalFullGens payload cfg)).map slice := by
    calc (gens list).map (fun group => slice group.1.toNat)
        = ((gens list).map Prod.fst).map fun g => slice g.toNat := by
          rw [List.map_map]
          rfl
      _ = (List.range (totalFullGens payload cfg)).map slice := by
          rw [hids, List.map_map]
          apply List.map_congr_left
          intro gi hgi
          rw [Function.comp_apply,
            UInt32.toNat_ofNat_of_lt' ((List.mem_range.mp hgi).trans_le htotal)]
  rw [decode_eq_mapM hgen hsym h hlist (gens_ne_nil (hall 0 hpos)), hout, hparts]
  change Except.ok (List.take payload.length _) = _
  rw [hslice, flatten_shared _ _ _ (length_padded_all payload hgen hsym), take_padded]

end Received

/-- Whatever has been dropped, repeated or reordered: the decoder returns nothing but the payload
exactly when every generation has arrived under a number of its own, or a generation that has
arrived cannot be solved. -/
theorem decode_exact_iff {payload : List UInt8} {cfg : BulkConfig} (hgen : 0 < cfg.genSize)
    (hk : cfg.genSize ≤ 65536) (hsym : 0 < cfg.symbolSize)
    {coded list : List (UInt32 × List UInt8)} (h : encode payload cfg = .ok coded)
    (hlist : ∀ e ∈ list, e ∈ coded) :
    (∀ p, decode list cfg payload.length = .ok p → p = payload) ↔
      (totalFullGens payload cfg ≤ 2 ^ 32 ∧
        ∀ gi < totalFullGens payload cfg, UInt32.ofNat gi ∈ list.map Prod.fst) ∨
      ∃ g ∈ list.map Prod.fst, ¬ Spans cfg.genSize
        ((received cfg list g).map fun sym => coverVec sym.cover) := by
  by_cases hspan : ∃ g ∈ list.map Prod.fst, ¬ Spans cfg.genSize
      ((received cfg list g).map fun sym => coverVec sym.cover)
  · refine iff_of_true ?_ (Or.inr hspan)
    obtain ⟨g, hg, hshort⟩ := hspan
    obtain ⟨e, he⟩ := decode_of_short hgen hk hsym h hlist payload.length hg hshort
    intro p hp
    rw [he] at hp
    cases hp
  · rw [or_iff_left hspan]
    push Not at hspan
    constructor
    · intro hexact
      by_contra hmissing
      have hlt := lt_length_of_lt_totalFullGens (encode_spec h).1 hgen
        (length_gens_lt h hlist hmissing)
      have hnot : ∃ p, decode list cfg payload.length = .ok p ∧ p.length < payload.length := by
        by_cases hnil : gens list = []
        · refine ⟨[], ?_, List.length_pos_iff.mpr (encode_spec h).1⟩
          unfold decode
          simp [hnil]
        · obtain ⟨p, hp, hlen⟩ := decode_of_spans hgen hk hsym h hlist hnil payload.length hspan
          exact ⟨p, hp, by omega⟩
      obtain ⟨p, hp, hshort⟩ := hnot
      rw [hexact p hp] at hshort
      exact absurd hshort (lt_irrefl _)
    · rintro ⟨htotal, hall⟩ p hp
      rw [decode_of_total hgen hk hsym h hlist htotal hall hspan] at hp
      exact (Except.ok.inj hp).symm

end Encoded

/-- Two generations of one byte each, received in reverse order. -/
theorem decode_exact_iff_reversed :
    letI := percentChoices
    let cfg : BulkConfig := ⟨1, 1, (0 : Nat), 2⟩
    let first := (0, FountainEncoder.wireSymbol [(0, 1)] [1])
    let second := (1, FountainEncoder.wireSymbol [(0, 1)] [2])
    encode [1, 2] cfg = .ok [first, second] ∧
      ∀ p, decode [second, first] cfg 2 = .ok p → p = [1, 2] := by
  let _ := percentChoices
  intro cfg first second
  have h : encode [1, 2] cfg = .ok [first, second] := by decide +kernel
  have hlist : ∀ e ∈ [second, first], e ∈ [first, second] := by
    intro e he
    simpa [or_comm] using he
  refine ⟨h, (decode_exact_iff Nat.one_pos (by decide) Nat.one_pos h hlist).mpr (Or.inl ?_)⟩
  have htotal : totalFullGens [1, 2] cfg = 2 := by decide +kernel
  rw [htotal]
  refine ⟨by norm_num, ?_⟩
  intro gi hgi
  obtain rfl | rfl : gi = 0 ∨ gi = 1 := by omega
  all_goals decide

/-- Without the first generation the second one takes its place. -/
theorem lost_generation_shifts_payload :
    letI := percentChoices
    let cfg : BulkConfig := ⟨1, 1, (0 : Nat), 2⟩
    let first := (0, FountainEncoder.wireSymbol [(0, 1)] [1])
    let second := (1, FountainEncoder.wireSymbol [(0, 1)] [2])
    encode [1, 2] cfg = .ok [first, second] ∧ decode [second] cfg 2 = .ok [2] ∧
      decode [] cfg 2 = .ok [] := by
  refine ⟨?_, ?_, ?_⟩
  all_goals decide +kernel

end Bulk

end Dlr.Coding
