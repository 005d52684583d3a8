import Dlr.Coding.Rlnc

/-!
# The rank of a network decoder

The rows of the decoder span what the packets it has received span, so its rank is the dimension
of their coefficient vectors and does not depend on the order they came in.
-/

namespace Dlr.Coding

open Lib.Elimination

/-- A packet whose payload combines the symbols `x` as its coefficients say. -/
structure CodedPacket.Combines (k size : Nat) (x : List (List UInt8)) (p : CodedPacket) : Prop where
  coeffs : p.coeffs.length = k
  payload : p.payload.length = size
  value : vec p.payload = ∑ j ∈ Finset.range k, vec p.coeffs j • vec (x.getD j [])

theorem CodedPacket.Combines.equation {k size : Nat} {x : List (List UInt8)} {p : CodedPacket}
    (h : p.Combines k size x) : vec (p.coeffs ++ p.payload) ∈ equations k x :=
  append_mem_equations h.coeffs h.value

/-- The loop of the encoder makes such packets. -/
theorem CodedPacket.combines_of_eq {k size : Nat} {x : List (List UInt8)} {p : CodedPacket}
    (hcoeffs : p.coeffs.length = k) (hx : ∀ j < k, (x.getD j []).length ≤ size)
    (hpayload : p.payload = (List.range k).foldl
      (fun out j => if p.coeffs.getD j 0 = 0 then out
        else axpy out (p.coeffs.getD j 0) (x.getD j [])) (List.replicate size 0)) :
    p.Combines k size x := by
  refine ⟨hcoeffs, ?_, ?_⟩
  · rw [hpayload, length_foldl_axpy, List.length_replicate]
  · rw [hpayload]
    exact vec_combination _ hx

/-- The space that the coefficient vectors of packets span. -/
def coeffSpace (k : Nat) (ps : List CodedPacket) : Submodule Gf256 (Fin k → Gf256) :=
  Submodule.span Gf256 {v | ∃ p ∈ ps, v = fun c : Fin k => vec p.coeffs c}

theorem coeffSpace_eq {k : Nat} {ps : List CodedPacket} (h : ∀ p ∈ ps, p.coeffs.length = k) :
    coeffSpace k ps = (rowSpace (ps.map fun p => vec (p.coeffs ++ p.payload))).map
      (LinearMap.funLeft Gf256 Gf256 (Fin.val : Fin k → Nat)) := by
  have hhead : ∀ p ∈ ps, vec (p.coeffs ++ p.payload) ∘ (Fin.val : Fin k → Nat) =
      fun c : Fin k => vec p.coeffs c := by
    intro p hp
    ext1 c
    rw [Function.comp_apply, vec_append (h p hp), if_pos c.isLt]
  rw [map_rowSpace, coeffSpace, rowSpace, List.map_map]
  congr 1
  ext v
  simp only [Set.mem_ofPred_eq, List.mem_map, Function.comp_apply]
  constructor
  · rintro ⟨p, hp, rfl⟩
    exact ⟨p, hp, hhead p hp⟩
  · rintro ⟨p, hp, rfl⟩
    exact ⟨p, hp, hhead p hp⟩

/-- A true equation without coefficients is the zero row. -/
theorem eq_zero_of_mem_equations {k : Nat} {x : List (List UInt8)} {row : Nat → Gf256}
    (h : row ∈ equations k x) (hzero : ∀ c < k, row c = 0) : row = 0 := by
  ext1 c
  rcases Nat.lt_or_ge c k with hlt | hge
  · exact hzero c hlt
  · obtain ⟨p, rfl⟩ := Nat.exists_eq_add_of_le hge
    rw [h p]
    apply Finset.sum_eq_zero
    intro j hj
    rw [hzero j (Finset.mem_range.mp hj), zero_mul]

/-- Clearing columns changes a row only by what the clearing rows span. -/
theorem foldl_clearColumn_mem_iff {es : List (List UInt8 × Nat)} {row : List UInt8}
    (hfit : ∀ e ∈ es, e.1.length ≤ row.length) {W : Submodule Gf256 (Nat → Gf256)}
    (hW : ∀ e ∈ es, vec e.1 ∈ W) :
    vec (es.foldl (fun row e => clearColumn e.2 e.1 row) row) ∈ W ↔ vec row ∈ W := by
  induction es generalizing row with
  | nil => rfl
  | cons e rest ih =>
      rw [List.foldl_cons, ih, vec_clearColumn (hfit e List.mem_cons_self)]
      · exact W.add_mem_iff_left (W.smul_mem _ (hW e List.mem_cons_self))
      · intro e' he'
        rw [length_clearColumn]
        exact hfit e' (List.mem_cons_of_mem _ he')
      · exact fun e' he' => hW e' (List.mem_cons_of_mem _ he')

namespace RlncDecoder

/-- With as many rows as columns every column is seen. -/
theorem Inv.decode_isOk {d : RlncDecoder} {x : List (List UInt8)} (h : d.Inv x)
    (hfull : d.rows.length = d.k) : ∃ out, d.decode = .ok out := by
  have hbound : ∀ p ∈ d.pivots, p < d.pivots.length := by
    intro p hp
    rw [h.count, hfull]
    exact h.bound p hp
  have hseen : (d.rows.zip d.pivots).foldl (fun seen e => seen.set e.2 true)
      (List.replicate d.k false) = List.replicate d.k true := by
    calc (d.rows.zip d.pivots).foldl (fun seen e => seen.set e.2 true) (List.replicate d.k false)
        = ((d.rows.zip d.pivots).map fun e => (e.2, true)).foldl (fun out e => out.set e.1 e.2)
            (List.replicate d.k false) := by rw [List.foldl_map]
      _ = List.replicate d.k true := by
        apply foldl_set_eq
        · simp
        · intro e he
          obtain ⟨⟨row, p⟩, hmem, rfl⟩ := List.mem_map.mp he
          exact List.getElem?_replicate_of_lt (h.bound p (List.of_mem_zip hmem).2)
        · intro c hc
          left
          rw [List.length_replicate, ← hfull, ← h.count] at hc
          rw [List.map_map]
          change c ∈ (d.rows.zip d.pivots).map Prod.snd
          rw [List.map_snd_zip h.count.le]
          exact h.reduced.mem_of_lt hbound hc
  unfold RlncDecoder.decode
  rw [if_neg (by omega)]
  simp only [hseen]
  rw [if_neg (by simp)]
  exact ⟨_, rfl⟩

/-- What a decoder knows after the packets `ps`: its rows span what they span. -/
structure Received (d : RlncDecoder) (x : List (List UInt8)) (ps : List CodedPacket) : Prop
    extends d.Inv x where
  combines : ∀ p ∈ ps, p.Combines d.k d.symbolSize x
  span : rowSpace (d.rows.map vec) = rowSpace (ps.map fun p => vec (p.coeffs ++ p.payload))

namespace Received

variable {d : RlncDecoder} {x : List (List UInt8)} {ps : List CodedPacket} {p : CodedPacket}

theorem new (k symbolSize : Nat) (x : List (List UInt8)) :
    (RlncDecoder.new k symbolSize).Received x [] :=
  ⟨Inv.new k symbolSize x, by simp, rfl⟩

/-- The rank is the dimension of what has been received. -/
theorem rank_eq (h : d.Received x ps) :
    d.rank = Module.finrank Gf256 (coeffSpace d.k ps) := by
  have hpivots := h.reduced.finrank_map (Fin.val : Fin d.k → Nat)
    (fun p hp => ⟨⟨p, h.bound p hp⟩, rfl⟩) (by
      intro j row hj hrow
      have hlt := (List.getElem?_eq_some_iff.mp hrow).1
      rw [List.length_map, ← h.count] at hlt
      omega)
  rw [coeffSpace_eq fun p hp => (h.combines p hp).coeffs, ← h.span, hpivots, h.count]
  rfl

/-- The rows of a decoder with one more pivot span what the rows before and the new row do. -/
theorem rowSpace_pushRow (h : d.Inv x) {row : List UInt8}
    (hlen : row.length = d.k + d.symbolSize) {piv : Nat} (hne : vec row piv ≠ 0) :
    rowSpace ((d.pushRow piv row).rows.map vec) = rowSpace (d.rows.map vec ++ [vec row]) := by
  have hfit : ∀ e ∈ d.rows, (normalized piv row).length ≤ e.length := by
    intro e he
    rw [length_normalized, hlen, h.size e he]
  simp only [pushRow, List.map_append, List.map_map, List.map_cons, List.map_nil]
  apply rowSpace_pivot (vec (normalized piv row)) (c := vec row piv)
  · rw [smul_normalized hne]
    exact List.mem_append_right _ (List.mem_singleton_self _)
  · exact hne
  · exact List.mem_append_right _ (List.mem_singleton_self _)
  · intro row' hrow'
    rcases List.mem_append.mp hrow' with hold | hnew
    · obtain ⟨e, he, rfl⟩ := List.mem_map.mp hold
      exact Or.inr ⟨vec e, List.mem_append_left _ (List.mem_map_of_mem he), _,
        vec_clearColumn (hfit e he)⟩
    · exact Or.inl (List.mem_singleton.mp hnew)
  · intro row' hrow'
    rcases List.mem_append.mp hrow' with hold | hnew
    · obtain ⟨e, he, rfl⟩ := List.mem_map.mp hold
      refine Or.inr ⟨vec e piv, List.mem_append_left _ ?_⟩
      rw [← vec_clearColumn (hfit e he)]
      exact List.mem_map_of_mem (f := vec ∘ clearColumn piv (normalized piv row)) he
    · rw [List.mem_singleton.mp hnew]
      exact Or.inl (smul_normalized hne).symm

/-- One more packet. It is dropped, or it adds one to the rank. -/
theorem add (h : d.Received x ps) (hp : p.Combines d.k d.symbolSize x) :
    ∃ grew d', d.add p = .ok (grew, d') ∧ d'.Received x (ps ++ [p]) ∧ d'.k = d.k ∧
      d'.symbolSize = d.symbolSize ∧ d'.rank = d.rank + grew.toNat := by
  have hlen : (p.coeffs ++ p.payload).length = d.k + d.symbolSize := by
    rw [List.length_append, hp.coeffs, hp.payload]
  obtain ⟨hlen', heq', hzero⟩ := h.reduceRow hlen hp.equation
  have hcombines : ∀ q ∈ ps ++ [p], q.Combines d.k d.symbolSize x := by
    intro q hq
    rcases List.mem_append.mp hq with hold | hnew
    · exact h.combines q hold
    · rw [List.mem_singleton.mp hnew]
      exact hp
  -- the reduced row and the packet span the same beside the rows
  have hreduced : rowSpace (d.rows.map vec ++
        [vec (RlncDecoder.reduceRow d.rows d.pivots (p.coeffs ++ p.payload))]) =
      rowSpace ((ps ++ [p]).map fun p => vec (p.coeffs ++ p.payload)) := by
    rw [List.map_append]
    apply rowSpace_append_congr h.span
    intro W hW
    rw [rowSpace_le] at hW
    unfold RlncDecoder.reduceRow
    simp only [clearColumn_eq]
    apply foldl_clearColumn_mem_iff
    · intro e he
      rw [hlen, h.size e.1 (List.of_mem_zip he).1]
    · exact fun e he => hW _ (List.mem_map_of_mem (List.of_mem_zip he).1)
  obtain ⟨hadd, hvanish⟩ | ⟨piv, hpiv, hne, hadd⟩ :=
    h.add_cases hp.coeffs hp.payload hp.equation
  · refine ⟨false, d, hadd, ⟨h.toInv, hcombines, ?_⟩, rfl, rfl, rfl⟩
    rw [← hreduced, eq_zero_of_mem_equations heq' hvanish, rowSpace_append]
    symm
    rw [sup_eq_left, rowSpace_le]
    intro row hrow
    rw [List.mem_singleton.mp hrow]
    exact Submodule.zero_mem _
  · refine ⟨true, _, hadd, ⟨h.push hlen' heq' hzero hpiv hne, hcombines, ?_⟩, rfl, rfl, ?_⟩
    · rw [rowSpace_pushRow h.toInv hlen' hne, hreduced]
    · simp [rank, pushRow]

/-- Any sequence of packets is taken. -/
theorem addAll (h : d.Received x ps) (qs : List CodedPacket)
    (hqs : ∀ q ∈ qs, q.Combines d.k d.symbolSize x) :
    ∃ d', d.addAll qs = .ok d' ∧ d'.Received x (ps ++ qs) ∧ d'.k = d.k ∧
      d'.symbolSize = d.symbolSize := by
  induction qs generalizing d ps with
  | nil => exact ⟨d, rfl, by rwa [List.append_nil], rfl, rfl⟩
  | cons q rest ih =>
      obtain ⟨grew, d₁, hadd, h₁, hk, hs, -⟩ := h.add (hqs q List.mem_cons_self)
      obtain ⟨d₂, hall, h₂, hk₂, hs₂⟩ := ih h₁ (by
        intro q' hq'
        rw [hk, hs]
        exact hqs q' (List.mem_cons_of_mem _ hq'))
      refine ⟨d₂, ?_, by rwa [List.append_assoc] at h₂, hk₂.trans hk, hs₂.trans hs⟩
      rw [RlncDecoder.addAll, hadd]
      exact hall

/-- The sources come out exactly when the rank is full. -/
theorem decode_eq_iff (h : d.Received x ps) (hx : x.length = d.k)
    (hsize : ∀ s ∈ x, s.length = d.symbolSize) : d.decode = .ok x ↔ d.rank = d.k := by
  constructor
  · intro hdec
    have hle := h.rank_le
    unfold RlncDecoder.decode at hdec
    split_ifs at hdec with hshort
    simp only [rank]
    omega
  · intro hfull
    obtain ⟨out, hout⟩ := h.decode_isOk hfull
    rw [hout, h.decode hx hsize hout]

end Received

/-- After any sequence of packets that combine `x`, one more packet keeps the rows reduced and
true, the rank is the dimension of what has been received, the packet is reported as new exactly
when that dimension grows, and the sources come out exactly at full rank. -/
theorem rank_tracks_span {k size : Nat} {x : List (List UInt8)} (hx : x.length = k)
    (hsize : ∀ s ∈ x, s.length = size) (ps : List CodedPacket) (p : CodedPacket)
    (hps : ∀ q ∈ ps ++ [p], q.Combines k size x) :
    ∃ d grew d', (new k size).addAll ps = .ok d ∧ d.add p = .ok (grew, d') ∧ d'.Inv x ∧
      d'.rank = Module.finrank Gf256 (coeffSpace k (ps ++ [p])) ∧
      (grew = true ↔ Module.finrank Gf256 (coeffSpace k ps) <
        Module.finrank Gf256 (coeffSpace k (ps ++ [p]))) ∧
      (d'.decode = .ok x ↔ d'.rank = k) := by
  obtain ⟨d, hall, hd, hk, hs⟩ := (Received.new k size x).addAll ps
    fun q hq => hps q (List.mem_append_left _ hq)
  obtain rfl : d.k = k := hk
  obtain rfl : d.symbolSize = size := hs
  obtain ⟨grew, d', hadd, hd', hk', hs', hrank⟩ :=
    hd.add (hps p (List.mem_append_right _ (List.mem_singleton_self p)))
  rw [List.nil_append] at hd hd'
  have hbefore := hd.rank_eq
  have hafter := hd'.rank_eq
  rw [hk'] at hafter
  refine ⟨d, grew, d', hall, hadd, hd'.toInv, hafter, ?_, ?_⟩
  · rw [← hbefore, ← hafter, hrank]
    cases grew <;> simp
  · rw [← hk']
    apply hd'.decode_eq_iff
    · rw [hk', hx]
    · rwa [hs']

/-- Two symbols from a packet, the same packet again, a zero packet and an independent one. -/
theorem rank_tracks_span_dependent :
    let x : List (List UInt8) := [[7], [9]]
    let p : CodedPacket := ⟨[1, 1], [14]⟩
    ∃ d grew d', (new 2 1).addAll [p, p, ⟨[0, 0], [0]⟩] = .ok d ∧
      d.add ⟨[0, 1], [9]⟩ = .ok (grew, d') ∧ d'.Inv x ∧ d'.decode = .ok x := by
  intro x p
  have hcombines : ∀ q ∈ [p, p, ⟨[0, 0], [0]⟩] ++ [⟨[0, 1], [9]⟩], q.Combines 2 1 x := by
    intro q hq
    have hcheck : q.coeffs.length = 2 ∧ q.payload = (List.range 2).foldl
        (fun out j => if q.coeffs.getD j 0 = 0 then out
          else axpy out (q.coeffs.getD j 0) (x.getD j [])) (List.replicate 1 0) := by
      revert q
      decide +kernel
    exact CodedPacket.combines_of_eq hcheck.1 (by decide) hcheck.2
  obtain ⟨d, grew, d', hall, hadd, hinv, -, -, hdec⟩ :=
    rank_tracks_span (k := 2) (x := x) rfl (by decide) [p, p, ⟨[0, 0], [0]⟩] ⟨[0, 1], [9]⟩ hcombines
  refine ⟨d, grew, d', hall, hadd, hinv, hdec.mpr ?_⟩
  have hrank : ((new 2 1).addAll [p, p, ⟨[0, 0], [0]⟩] >>= fun d =>
      (d.add ⟨[0, 1], [9]⟩).map fun r => r.2.rank) = .ok 2 := by decide +kernel
  rw [hall] at hrank
  change (d.add ⟨[0, 1], [9]⟩).map _ = _ at hrank
  rw [hadd] at hrank
  exact Except.ok.inj hrank

end RlncDecoder

end Dlr.Coding
