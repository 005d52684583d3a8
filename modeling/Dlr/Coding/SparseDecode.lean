import Dlr.Coding.ExactPeeling
import Dlr.Coding.RlncRank

/-!
# Peeling network packets

Packets of low degree are decoded by peeling, as the equations of a fountain are, and dense ones by
the decoder that keeps its rows reduced. Whatever an encoder has sent, the two decoders agree: with
the same packets both return the sources, or both say that packets are missing.

## Implementation notes

A packet of the wrong size makes the copy into its row panic; `none` stands for that.
-/

namespace Dlr.Coding

open Lib.Elimination

/-! ## The peeling decoder on dense rows -/

/-- The nonzero entries of a row at some columns. -/
def coverAt (row : List UInt8) (columns : List Nat) : List (Nat × UInt8) :=
  columns.filterMap fun idx =>
    if row.getD idx 0 ≠ 0 then some (idx, row.getD idx 0) else none

/-- The equation of one dense row; a zero row carries none. -/
def parseRow (k s : Nat) (row : List UInt8) : Option (Option ParsedSym) :=
  let cover := coverAt row (List.range k)
  if row.length < k then none
  else if cover = [] then some none
  else if row.length < k + s then none
  else some (some ⟨cover, (row.drop k).take s⟩)

def peelDecode (rows : List (List UInt8)) (k s : Nat) :
    Option (Except FountainError (List (List UInt8))) := do
  let syms ← rows.mapM (parseRow k s)
  return (peelSymbols syms.reduceOption k s).1

/-- The dense row of a packet. -/
def packetRow (k s : Nat) (p : CodedPacket) : Option (List UInt8) :=
  if p.coeffs.length = k ∧ p.payload.length = s then some (p.coeffs ++ p.payload) else none

def sparseError (k : Nat) : FountainError → RlncError
  | .underdetermined got need => .insufficient got need
  | _ => .singular k

def sparseDecode (packets : List CodedPacket) (k s : Nat) :
    Option (Except RlncError (List (List UInt8))) := do
  let rows ← (packets.filter fun p => p.coeffs.any (· ≠ 0)).mapM (packetRow k s)
  return (← peelDecode rows k s).mapError (sparseError k)

/-! ## Equations of packets -/

section Cover

variable {row : List UInt8}

theorem coverAt_cons (row : List UInt8) (i : Nat) (columns : List Nat) :
    coverAt row (i :: columns) =
      (if row.getD i 0 ≠ 0 then [(i, row.getD i 0)] else []) ++ coverAt row columns := by
  unfold coverAt
  rw [List.filterMap_cons]
  split_ifs <;> rfl

theorem mem_coverAt {columns : List Nat} {e : Nat × UInt8} :
    e ∈ coverAt row columns ↔ e.1 ∈ columns ∧ e.2 = row.getD e.1 0 ∧ e.2 ≠ 0 := by
  obtain ⟨i, c⟩ := e
  simp only [coverAt, List.mem_filterMap, Option.ite_none_right_eq_some, Option.some.injEq,
    Prod.mk.injEq]
  constructor
  · rintro ⟨j, hj, hne, rfl, rfl⟩
    exact ⟨hj, rfl, hne⟩
  · rintro ⟨hi, rfl, hne⟩
    exact ⟨i, hi, hne, rfl, rfl⟩

theorem nodup_coverAt {columns : List Nat} (h : columns.Nodup) :
    ((coverAt row columns).map Prod.fst).Nodup := by
  have hsub : ((coverAt row columns).map Prod.fst).Sublist columns := by
    induction columns with
    | nil => exact List.Sublist.refl _
    | cons i rest ih =>
        rw [coverAt_cons]
        split_ifs
        · exact (ih h.of_cons).cons_cons i
        · exact (ih h.of_cons).cons i
  exact hsub.nodup h

theorem coverVec_coverAt {columns : List Nat} (h : columns.Nodup) (c : Nat) :
    coverVec (coverAt row columns) c = if c ∈ columns then vec row c else 0 := by
  induction columns with
  | nil => rfl
  | cons i rest ih =>
      obtain ⟨hi, hrest⟩ := List.nodup_cons.mp h
      rw [coverAt_cons]
      by_cases hc : c = i
      · subst hc
        rw [if_pos List.mem_cons_self, vec_apply]
        split_ifs with hne
        · rw [List.singleton_append, coverVec_cons, Pi.add_apply, Pi.single_eq_same, ih hrest,
            if_neg hi, add_zero]
        · rw [List.nil_append, ih hrest, if_neg hi, not_ne_iff.mp hne]
          rfl
      · have hmem : c ∈ i :: rest ↔ c ∈ rest := by simp [hc]
        simp only [hmem]
        by_cases hne : row.getD i 0 ≠ 0
        · rw [if_pos hne, List.singleton_append, coverVec_cons, Pi.add_apply,
            Pi.single_eq_of_ne hc, zero_add, ih hrest]
        · rw [if_neg hne, List.nil_append, ih hrest]

/-- The combination a row describes, column by column. -/
theorem comb_coverAt (X : Nat → List UInt8) (columns : List Nat) (p : Nat) :
    (⟨comb X (coverAt row columns) p⟩ : Gf256) =
      (columns.map fun j => vec row j * vec (X j) p).sum := by
  induction columns with
  | nil => rfl
  | cons i rest ih =>
      rw [coverAt_cons, List.map_cons, List.sum_cons, ← ih]
      split_ifs with hne
      · rfl
      · rw [vec_apply, not_ne_iff.mp hne]
        exact (zero_add _).symm.trans (congrArg (· + _) (zero_mul _).symm)

end Cover

/-- The equation of a packet. -/
def CodedPacket.sym (k : Nat) (p : CodedPacket) : ParsedSym :=
  ⟨coverAt (p.coeffs ++ p.payload) (List.range k), p.payload⟩

namespace CodedPacket.Combines

variable {k s : Nat} {x : List (List UInt8)} {p : CodedPacket}

theorem holds (h : p.Combines k s x) : (p.sym k).Holds (fun i => x.getD i []) k s where
  nodup := nodup_coverAt List.nodup_range
  lt := fun _ he => List.mem_range.mp (mem_coverAt.mp he).1
  coeff := fun _ he => (mem_coverAt.mp he).2.2
  size := h.payload
  value := by
    intro i
    have hvalue := congrFun h.value i
    suffices hfield : (⟨p.payload.getD i 0⟩ : Gf256) =
        ⟨comb (fun i => x.getD i []) (coverAt (p.coeffs ++ p.payload) (List.range k)) i⟩ from
      congrArg Gf256.byte hfield
    rw [comb_coverAt, ← vec_apply, hvalue, Finset.sum_apply]
    change ((List.range k).map _).sum = _
    refine congrArg List.sum (List.map_congr_left fun j hj => ?_)
    rw [Pi.smul_apply, smul_eq_mul, vec_append h.coeffs, if_pos (List.mem_range.mp hj)]

/-- The coefficients of the equation are those of the packet. -/
theorem coverVec_sym (h : p.Combines k s x) (c : Fin k) :
    coverVec (p.sym k).cover c = vec p.coeffs c := by
  rw [CodedPacket.sym, coverVec_coverAt List.nodup_range, if_pos (List.mem_range.mpr c.isLt),
    vec_append h.coeffs, if_pos c.isLt]

theorem cover_eq_nil_iff (h : p.Combines k s x) :
    (p.sym k).cover = [] ↔ p.coeffs.any (· ≠ 0) = false := by
  rw [List.eq_nil_iff_forall_not_mem, List.any_eq_false]
  have hhead : ∀ i < k, (p.coeffs ++ p.payload).getD i 0 = p.coeffs.getD i 0 := fun i hi =>
    List.getD_append _ _ _ _ (h.coeffs ▸ hi)
  constructor
  · intro hnil c hc
    obtain ⟨i, hi, rfl⟩ := List.getElem_of_mem hc
    have hget : p.coeffs.getD i 0 = p.coeffs[i] := List.getD_eq_getElem _ _ hi
    have hik : i < k := h.coeffs ▸ hi
    simp only [decide_eq_true_eq]
    intro hne
    exact hnil (i, p.coeffs[i]) (mem_coverAt.mpr
      ⟨List.mem_range.mpr hik, by rw [hhead i hik, hget], hne⟩)
  · intro hzero e he
    obtain ⟨hi, heq, hne⟩ := mem_coverAt.mp he
    have hik : e.1 < p.coeffs.length := h.coeffs.symm ▸ List.mem_range.mp hi
    rw [hhead _ (List.mem_range.mp hi), List.getD_eq_getElem _ _ hik] at heq
    exact hzero _ (List.getElem_mem hik) (by simpa [← heq] using hne)

theorem packetRow (h : p.Combines k s x) :
    packetRow k s p = some (p.coeffs ++ p.payload) := if_pos ⟨h.coeffs, h.payload⟩

theorem parseRow (h : p.Combines k s x) (hne : p.coeffs.any (· ≠ 0) = true) :
    parseRow k s (p.coeffs ++ p.payload) = some (some (p.sym k)) := by
  have hlen : (p.coeffs ++ p.payload).length = k + s := by
    rw [List.length_append, h.coeffs, h.payload]
  have hcover : coverAt (p.coeffs ++ p.payload) (List.range k) ≠ [] := by
    intro hnil
    rw [h.cover_eq_nil_iff.mp hnil] at hne
    cases hne
  have hpayload : ((p.coeffs ++ p.payload).drop k).take s = p.payload := by
    rw [← h.coeffs, List.drop_left, List.take_of_length_le h.payload.le]
  unfold Coding.parseRow
  simp only
  rw [if_neg (by omega), if_neg hcover, if_neg (by omega), hpayload]
  rfl

end CodedPacket.Combines

/-! ## The two decoders -/

section Decode

variable {k s : Nat} {x : List (List UInt8)} {ps : List CodedPacket}

/-- The equations of the packets that carry something. -/
def packetSyms (k : Nat) (ps : List CodedPacket) : List ParsedSym :=
  (ps.filter fun p => p.coeffs.any (· ≠ 0)).map (CodedPacket.sym k)

theorem mapM_eq_map {α β : Type*} {f : α → Option β} {g : α → β} {l : List α}
    (h : ∀ a ∈ l, f a = some (g a)) : l.mapM f = some (l.map g) := by
  induction l with
  | nil => rfl
  | cons a rest ih =>
      rw [List.mapM_cons, h a List.mem_cons_self, ih fun b hb => h b (List.mem_cons_of_mem a hb)]
      rfl

theorem sparseDecode_eq (hps : ∀ p ∈ ps, p.Combines k s x) :
    sparseDecode ps k s = some ((peelSymbols (packetSyms k ps) k s).1.mapError (sparseError k)) := by
  have hrows : (ps.filter fun p => p.coeffs.any (· ≠ 0)).mapM (packetRow k s) =
      some ((ps.filter fun p => p.coeffs.any (· ≠ 0)).map fun p => p.coeffs ++ p.payload) :=
    mapM_eq_map fun p hp => (hps p (List.mem_of_mem_filter hp)).packetRow
  have hsyms : ((ps.filter fun p => p.coeffs.any (· ≠ 0)).map
      fun p => p.coeffs ++ p.payload).mapM (parseRow k s) =
        some ((packetSyms k ps).map some) := by
    rw [packetSyms, List.map_map, ← mapM_eq_map (f := fun p => parseRow k s (p.coeffs ++ p.payload))
      (g := some ∘ CodedPacket.sym k)]
    · rw [List.mapM_map]
      rfl
    · intro p hp
      obtain ⟨hmem, hne⟩ := List.mem_filter.mp hp
      exact (hps p hmem).parseRow hne
  have hreduce : ((packetSyms k ps).map some).reduceOption = packetSyms k ps := by
    change List.filterMap id ((packetSyms k ps).map some) = packetSyms k ps
    rw [List.filterMap_map]
    exact List.filterMap_some
  rw [sparseDecode, hrows, Option.bind_eq_bind, Option.bind_some, peelDecode, hsyms]
  simp [hreduce]

/-- The equations span what the packets do. -/
theorem spans_packetSyms (hps : ∀ p ∈ ps, p.Combines k s x) :
    Spans k ((packetSyms k ps).map fun sym => coverVec sym.cover) ↔ coeffSpace k ps = ⊤ := by
  have hspace : (rowSpace ((packetSyms k ps).map fun sym => coverVec sym.cover)).map
      (LinearMap.funLeft Gf256 Gf256 (Fin.val : Fin k → Nat)) = coeffSpace k ps := by
    rw [map_rowSpace, coeffSpace]
    apply le_antisymm
    · rw [rowSpace_le]
      intro v hv
      simp only [packetSyms, List.map_map, List.mem_map, List.mem_filter] at hv
      obtain ⟨p, ⟨hp, -⟩, rfl⟩ := hv
      exact Submodule.subset_span ⟨p, hp, funext fun c => (hps p hp).coverVec_sym c⟩
    · rw [Submodule.span_le]
      rintro v ⟨p, hp, rfl⟩
      have hv : (fun c : Fin k => vec p.coeffs c) = coverVec (p.sym k).cover ∘ Fin.val :=
        funext fun c => ((hps p hp).coverVec_sym c).symm
      rw [hv]
      by_cases hne : p.coeffs.any (· ≠ 0) = true
      · apply mem_rowSpace
        simp only [packetSyms, List.map_map, List.mem_map, List.mem_filter]
        exact ⟨p, ⟨hp, hne⟩, rfl⟩
      · rw [(hps p hp).cover_eq_nil_iff.mpr (by simpa using hne)]
        exact Submodule.zero_mem _
  rw [Spans, hspace]

/-- On packets that combine the same sources the peeling decoder returns what the reducing decoder
does: the sources at full rank, and otherwise that packets are missing. -/
theorem sparseDecode_agrees (hs : 0 < s) (hx : x.length = k) (hsize : ∀ y ∈ x, y.length = s)
    (hps : ∀ p ∈ ps, p.Combines k s x) :
    ∃ d, (RlncDecoder.new k s).addAll ps = .ok d ∧
      (d.rank = k → sparseDecode ps k s = some (.ok x) ∧ d.decode = .ok x) ∧
      (d.rank ≠ k → ∃ got need, sparseDecode ps k s = some (.error (.insufficient got need)) ∧
        d.decode = .error (.insufficient d.rank k)) := by
  obtain ⟨d, hall, hd, rfl, rfl⟩ := (RlncDecoder.Received.new k s x).addAll ps hps
  rw [List.nil_append] at hd
  have hsyms : ∀ sym ∈ packetSyms d.k ps, sym.Holds (fun i => x.getD i []) d.k d.symbolSize := by
    intro sym hsym
    obtain ⟨p, hp, rfl⟩ := List.mem_map.mp hsym
    exact (hps p (List.mem_of_mem_filter hp)).holds
  have hspans : Spans d.k ((packetSyms d.k ps).map fun sym => coverVec sym.cover) ↔ d.rank = d.k := by
    rw [spans_packetSyms hps, hd.rank_eq]
    constructor
    · intro htop
      rw [htop, finrank_top, Module.finrank_fin_fun]
    · intro hrank
      apply Submodule.eq_top_of_finrank_eq
      rw [hrank, Module.finrank_fin_fun]
  obtain ⟨hfull, hshort⟩ := peeling_is_exact hs hx hsize hsyms
  refine ⟨d, hall, fun hrank => ⟨?_, ?_⟩, fun hrank => ?_⟩
  · rw [sparseDecode_eq hps, hfull (hspans.mpr hrank)]
    rfl
  · exact (hd.decode_eq_iff hx hsize).mpr hrank
  · obtain ⟨got, need, herror⟩ := hshort fun h => hrank (hspans.mp h)
    refine ⟨got, need, ?_, ?_⟩
    · rw [sparseDecode_eq hps, herror]
      rfl
    · have hle := hd.rank_le
      unfold RlncDecoder.decode
      rw [if_pos]
      · rfl
      · exact lt_of_le_of_ne hle hrank

end Decode

/-! ## Over a run of the encoder -/

namespace RlncEncoder

/-- What an encoder is asked for. -/
inductive Draw
  | dense (tries : Nat)
  | sparse (degree : Nat)
  deriving DecidableEq

def draw (enc : RlncEncoder) : Draw → Option (CodedPacket × RlncEncoder)
  | .dense tries => enc.code tries
  | .sparse degree => some (enc.codeSparse degree)

/-- The packets of a run of the encoder. -/
def drawAll (enc : RlncEncoder) : List Draw → Option (List CodedPacket × RlncEncoder)
  | [] => some ([], enc)
  | d :: rest => do
      let (p, enc) ← enc.draw d
      let (ps, enc) ← enc.drawAll rest
      return (p :: ps, enc)

/-- `n` dense packets. -/
def codeBatch (enc : RlncEncoder) (n tries : Nat) : Option (List CodedPacket × RlncEncoder) :=
  enc.drawAll (List.replicate n (.dense tries))

variable {enc enc' : RlncEncoder}

/-- A packet combines the sources, which it leaves as they are. -/
theorem draw_combines (hsource : ∀ j < enc.k, (enc.source.getD j []).length ≤ enc.symbolSize)
    {d : Draw} {p : CodedPacket} (h : enc.draw d = some (p, enc')) :
    p.Combines enc.k enc.symbolSize enc.source ∧ ∃ rng, enc' = { enc with rng } := by
  cases d with
  | dense tries =>
      obtain ⟨hcoeffs, hpayload, hvalue⟩ := code_honest hsource h
      obtain ⟨⟨coeffs, rng⟩, -, heq⟩ := Option.map_eq_some_iff.mp h
      cases heq
      exact ⟨⟨hcoeffs, hpayload, hvalue⟩, rng, rfl⟩
  | sparse degree =>
      cases h
      obtain ⟨hcoeffs, hpayload, hvalue⟩ := codeSparse_honest degree hsource
      exact ⟨⟨hcoeffs, hpayload, hvalue⟩, _, rfl⟩

theorem drawAll_combines (hsource : ∀ j < enc.k, (enc.source.getD j []).length ≤ enc.symbolSize)
    {draws : List Draw} {ps : List CodedPacket} (h : enc.drawAll draws = some (ps, enc')) :
    ∀ p ∈ ps, p.Combines enc.k enc.symbolSize enc.source := by
  induction draws generalizing enc ps with
  | nil =>
      cases h
      exact fun _ hp => nomatch hp
  | cons d rest ih =>
      obtain ⟨⟨p, enc₁⟩, hfirst, h⟩ := Option.bind_eq_some_iff.mp h
      obtain ⟨⟨ps', enc₂⟩, hrest, h⟩ := Option.bind_eq_some_iff.mp h
      cases h
      obtain ⟨hp, rng, rfl⟩ := draw_combines hsource hfirst
      intro q hq
      cases List.mem_cons.mp hq with
      | inl heq => exact heq ▸ hp
      | inr hmem => exact ih (by exact hsource) hrest q hmem

/-- The sources of an encoder, padded or cut to the symbol size. -/
theorem length_source_new (source : List (List UInt8)) (size : Nat) (seed : UInt64) :
    ∀ y ∈ (new source size seed).source, y.length = size := by
  intro y hy
  obtain ⟨z, -, rfl⟩ := List.mem_map.mp hy
  simp only [List.length_append, List.length_take, List.length_replicate]
  omega

/-- Whatever mix of dense and sparse packets an encoder sends, whichever of them are lost, repeated
or come in another order: the two decoders agree on what was received. At full rank both return the
sources, and below it both say that packets are missing. -/
theorem received_packets_decode (source : List (List UInt8)) {size : Nat} (hsize : 0 < size)
    (seed : UInt64) {draws : List Draw} {sent : List CodedPacket}
    (hsent : (new source size seed).drawAll draws = some (sent, enc')) {received : List CodedPacket}
    (hreceived : received ⊆ sent) :
    ∃ d, (RlncDecoder.new source.length size).addAll received = .ok d ∧
      (d.rank = source.length →
        sparseDecode received source.length size = some (.ok (new source size seed).source) ∧
          d.decode = .ok (new source size seed).source) ∧
      (d.rank ≠ source.length → ∃ got need,
        sparseDecode received source.length size = some (.error (.insufficient got need)) ∧
          d.decode = .error (.insufficient d.rank source.length)) := by
  have hlengths := length_source_new source size seed
  have hlen : (new source size seed).source.length = source.length := List.length_map _
  have hsource : ∀ j < source.length, ((new source size seed).source.getD j []).length ≤ size := by
    intro j hj
    rw [List.getD_eq_getElem _ _ (hlen ▸ hj)]
    exact (hlengths _ (List.getElem_mem _)).le
  exact sparseDecode_agrees hsize hlen hlengths fun p hp =>
    drawAll_combines hsource hsent p (hreceived hp)

/-- Of two sparse packets and a dense one the last two come in, in the other order. Neither of them
covers a single source. -/
theorem received_packets_decode_two :
    ∃ sent enc' d, (new [[7], [9, 1]] 1 3).drawAll [.sparse 1, .sparse 2, .dense 1] =
        some (sent, enc') ∧
      (RlncDecoder.new 2 1).addAll (sent.drop 1).reverse = .ok d ∧
      sparseDecode (sent.drop 1).reverse 2 1 = some (.ok [[7], [9]]) ∧
      d.decode = .ok [[7], [9]] := by
  let sent : List CodedPacket := [⟨[0, 107], [30]⟩, ⟨[207, 139], [228]⟩, ⟨[172, 29], [156]⟩]
  have hfirst : ((new [[7], [9, 1]] 1 3).drawAll [.sparse 1, .sparse 2, .dense 1]).map Prod.fst =
      some sent := by decide +kernel
  obtain ⟨⟨_, enc'⟩, hsent, rfl⟩ := Option.map_eq_some_iff.mp hfirst
  have hreceived : (sent.drop 1).reverse ⊆ sent := fun p hp =>
    List.mem_of_mem_drop (List.mem_reverse.mp hp)
  obtain ⟨d, hall, hfull, -⟩ := received_packets_decode [[7], [9, 1]] Nat.one_pos 3 hsent hreceived
  have hrank : ((RlncDecoder.new 2 1).addAll (sent.drop 1).reverse).map RlncDecoder.rank = .ok 2 := by
    decide +kernel
  have hd : d.rank = 2 := Except.ok.inj ((congrArg (Except.map RlncDecoder.rank) hall).symm.trans hrank)
  exact ⟨sent, enc', d, hsent, hall, hfull hd⟩

end RlncEncoder

end Dlr.Coding
