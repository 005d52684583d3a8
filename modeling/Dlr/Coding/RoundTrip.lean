import Dlr.Coding.ExactPeeling

/-!
# From the encoder to a fresh decoder

Every symbol the encoder emits is a true equation about its sources. A decoder
that receives one whole generation therefore returns the sources, whatever the
repair symbols are.
-/

namespace Dlr.Coding

open Lib.Bytes Lib.Machine

namespace FountainEncoder

/-! ## What the encoder accepts -/

theorem new_eq_ok {source : List (List UInt8)} {generation : UInt32} {enc : FountainEncoder}
    (h : new source generation = .ok enc) :
    source ≠ [] ∧ (∀ x ∈ source, x.length = (source.headD []).length) ∧
      enc = { source := .owned source, generation } := by
  cases source with
  | nil => cases h
  | cons first rest =>
      simp only [new] at h
      split at h
      · cases h
      · rename_i hfind
        refine ⟨List.cons_ne_nil _ _, ?_, (Except.ok.inj h).symm⟩
        intro x hx
        have hsame := List.find?_eq_none.mp hfind x hx
        simpa using hsame

theorem newShared_eq_ok {buf : List UInt8} {offset stride k : Nat} {generation : UInt32}
    {enc : FountainEncoder}
    (h : newShared buf offset stride k generation = .ok enc) :
    0 < k ∧ 0 < stride ∧ offset + k * stride ≤ buf.length ∧ offset + k * stride ≤ usizeMax ∧
      enc = { source := .shared buf offset stride k, generation } := by
  unfold newShared at h
  split_ifs at h with hzero
  cases hmul : checkedMul k stride with
  | none => simp [hmul] at h
  | some size =>
      obtain rfl := checkedMul_eq_some hmul
      cases hadd : checkedAdd offset (k * stride) with
      | none => simp [hmul, hadd] at h
      | some stop =>
          obtain ⟨rfl, hmax⟩ := checkedAdd_eq_some_iff.mp hadd
          simp only [hmul, Option.bind_some, hadd] at h
          split_ifs at h with hfit
          exact ⟨by omega, by omega, by omega, hmax, (Except.ok.inj h).symm⟩

/-! ## What the encoder emits -/

theorem nextBelow_lt {k : Nat} (hk : 0 < k) (rng : ImplRng) : (rng.nextBelow k).1 < k := by
  unfold ImplRng.nextBelow
  rw [if_neg (by omega)]
  exact Nat.mod_lt _ hk

/-- The chosen indices are distinct sources. -/
theorem chooseIndices_spec {k : Nat} (hk : 0 < k) (degree draws : Nat) (rng : ImplRng)
    (chosen : List Nat) (hnodup : chosen.Nodup) (hlt : ∀ i ∈ chosen, i < k) :
    (chooseIndices k degree draws rng chosen).1.Nodup ∧
      ∀ i ∈ (chooseIndices k degree draws rng chosen).1, i < k := by
  induction draws generalizing rng chosen with
  | zero => exact ⟨hnodup, hlt⟩
  | succ draws ih =>
      by_cases hmore : chosen.length < degree
      · simp only [chooseIndices, if_pos hmore]
        by_cases hmem : (rng.nextBelow k).1 ∈ chosen
        · rw [if_pos hmem]
          exact ih _ _ hnodup hlt
        · rw [if_neg hmem]
          refine ih _ _ (List.Nodup.append hnodup (List.nodup_singleton _) (by simpa using hmem))
            fun i hi => ?_
          rcases List.mem_append.mp hi with hold | hnew
          · exact hlt i hold
          · rw [List.mem_singleton.mp hnew]
            exact nextBelow_lt hk rng
      · simp only [chooseIndices, if_neg hmore]
        exact ⟨hnodup, hlt⟩

@[simp] theorem map_fst_drawCoeffs (chosen : List Nat) (rng : ImplRng) :
    (drawCoeffs chosen rng).map Prod.fst = chosen := by
  induction chosen generalizing rng with
  | nil => rfl
  | cons idx rest ih => simp [drawCoeffs, ih]

/-- The lowest bit of a coefficient is set. -/
theorem coeff_ne_zero_of_mem {chosen : List Nat} {rng : ImplRng} {e : Nat × UInt8}
    (h : e ∈ drawCoeffs chosen rng) : e.2 ≠ 0 := by
  induction chosen generalizing rng with
  | nil => simp [drawCoeffs] at h
  | cons idx rest ih =>
      rcases List.mem_cons.mp h with rfl | hmem
      · intro h0
        have hbit := congrArg (fun b : UInt8 => b.toNat.testBit 0) h0
        simp at hbit
      · exact ih hmem

private theorem foldl_axpy_spec {src : Nat → List UInt8} {s : Nat}
    (pairs : List (Nat × UInt8)) (acc : List UInt8) (hacc : acc.length = s)
    (hsrc : ∀ e ∈ pairs, (src e.1).length = s) :
    (pairs.foldl (fun payload e => axpy payload e.2 (src e.1)) acc).length = s ∧
      ∀ p, (pairs.foldl (fun payload e => axpy payload e.2 (src e.1)) acc).getD p 0 =
        acc.getD p 0 ^^^ comb src pairs p := by
  induction pairs generalizing acc with
  | nil => exact ⟨hacc, fun p => by simp [comb]⟩
  | cons e rest ih =>
      have hlen : (src e.1).length = s := hsrc e List.mem_cons_self
      obtain ⟨hsize, hval⟩ := ih (axpy acc e.2 (src e.1)) (by simp [hacc])
        fun e he => hsrc e (List.mem_cons_of_mem _ he)
      refine ⟨hsize, fun p => ?_⟩
      rw [List.foldl_cons, hval, getD_axpy _ _ _ _ (by omega)]
      simp only [comb, List.foldr_cons]
      rw [UInt8.xor_assoc]

/-- Whatever indices and coefficients are drawn, the mixed payload is the
combination they describe. -/
theorem mix_holds (source : Source) (hsrc : ∀ i < source.k, (source.src i).length = source.symbolSize)
    {pairs : List (Nat × UInt8)} (hnodup : (pairs.map Prod.fst).Nodup)
    (hlt : ∀ e ∈ pairs, e.1 < source.k) (hcoeff : ∀ e ∈ pairs, e.2 ≠ 0) :
    (⟨pairs, mix source pairs⟩ : ParsedSym).Holds source.src source.k source.symbolSize := by
  obtain ⟨hsize, hval⟩ := foldl_axpy_spec pairs (List.replicate source.symbolSize 0) (by simp)
    fun e he => hsrc e.1 (hlt e he)
  refine ⟨hnodup, hlt, hcoeff, hsize, fun p => ?_⟩
  rw [mix, hval]
  have hzero : (List.replicate source.symbolSize (0 : UInt8)).getD p 0 = 0 := by simp
  rw [hzero, UInt8.zero_xor]

end FountainEncoder

/-! ## What the decoder reads -/

private theorem coverInsert_of_not_mem {cover : List (Nat × UInt8)} {idx : Nat} (c : UInt8)
    (h : idx ∉ cover.map Prod.fst) : coverInsert cover idx c = cover ++ [(idx, c)] := by
  unfold coverInsert
  congr 1
  refine List.filter_eq_self.mpr fun e he => ?_
  have hne : e.1 ≠ idx := fun heq => h (heq ▸ List.mem_map_of_mem he)
  simpa using hne

/-- Reading back the coefficient entries of a wire symbol. -/
theorem parseCover_flatMap {k : Nat} (hk : k ≤ 65536) (pairs cover : List (Nat × UInt8))
    (rest : List UInt8) (hnodup : ((cover ++ pairs).map Prod.fst).Nodup)
    (hlt : ∀ e ∈ pairs, e.1 < k) (hcoeff : ∀ e ∈ pairs, e.2 ≠ 0) :
    parseCover k pairs.length (pairs.flatMap (fun e => toLe 2 e.1 ++ [e.2]) ++ rest) cover =
      cover ++ pairs := by
  induction pairs generalizing cover with
  | nil => simp [parseCover]
  | cons e more ih =>
      obtain ⟨idx, c⟩ := e
      have hidx : idx < k := hlt (idx, c) List.mem_cons_self
      have hc : c ≠ 0 := hcoeff (idx, c) List.mem_cons_self
      have hbytes : ((idx, c) :: more).flatMap (fun e => toLe 2 e.1 ++ [e.2]) ++ rest =
          toLe 2 idx ++ (c :: (more.flatMap (fun e => toLe 2 e.1 ++ [e.2]) ++ rest)) := by
        simp
      have hlen : (toLe 2 idx).length = 2 := length_toLe 2 idx
      have hread : ofLe (toLe 2 idx) = idx := ofLe_toLe (by norm_num; omega)
      have hnot : idx ∉ cover.map Prod.fst := by
        intro hmem
        rw [List.map_append, List.nodup_append'] at hnodup
        exact hnodup.2.2 hmem (by simp)
      rw [hbytes, List.length_cons, parseCover]
      simp only [List.take_left' hlen]
      rw [hread, List.getD_append_right _ _ _ _ (by omega), hlen,
        show (2 : Nat) - 2 = 0 from rfl, List.getD_cons_zero, if_pos ⟨hidx, hc⟩,
        coverInsert_of_not_mem c hnot, show (3 : Nat) = 2 + 1 from rfl, ← List.drop_drop,
        List.drop_left' hlen, List.drop_succ_cons, List.drop_zero, ih]
      · simp
      · simpa using hnodup
      · exact fun e he => hlt e (List.mem_cons_of_mem _ he)
      · exact fun e he => hcoeff e (List.mem_cons_of_mem _ he)

section Honest

variable {X : Nat → List UInt8} {k s : Nat}

/-- A wire symbol written from a true equation. -/
def HonestWire (X : Nat → List UInt8) (k s : Nat) (wire : List UInt8) : Prop :=
  ∃ sym : ParsedSym, sym.Holds X k s ∧ wire = FountainEncoder.wireSymbol sym.cover sym.payload

/-- A decoder that has stored further equations. -/
def FountainDecoder.extend (d : FountainDecoder) (syms : List ParsedSym) : FountainDecoder :=
  { d with syms := d.syms ++ syms }

@[simp] theorem FountainDecoder.extend_k (d : FountainDecoder) (syms : List ParsedSym) :
    (d.extend syms).k = d.k := rfl

@[simp] theorem FountainDecoder.extend_symbolSize (d : FountainDecoder) (syms : List ParsedSym) :
    (d.extend syms).symbolSize = d.symbolSize := rfl

@[simp] theorem FountainDecoder.extend_nil (d : FountainDecoder) : d.extend [] = d := by
  simp [FountainDecoder.extend]

@[simp] theorem FountainDecoder.extend_extend (d : FountainDecoder) (xs ys : List ParsedSym) :
    (d.extend xs).extend ys = d.extend (xs ++ ys) := by
  simp [FountainDecoder.extend]

/-- A true equation is stored as it was written, unless its count wraps to zero. -/
theorem add_wireSymbol (hk : k ≤ 65536) {sym : ParsedSym} (h : sym.Holds X k s)
    {d : FountainDecoder} (hdk : d.k = k) (hds : d.symbolSize = s) :
    d.add (FountainEncoder.wireSymbol sym.cover sym.payload) =
      if sym.cover = [] ∨ sym.cover.length = 65536 then .ok (false, d)
      else .ok (true, d.extend [sym]) := by
  obtain ⟨cover, payload⟩ := sym
  subst hdk hds
  have hlen2 : (toLe 2 cover.length).length = 2 := length_toLe 2 _
  have hbody : (cover.flatMap fun e => toLe 2 e.1 ++ [e.2]).length = 3 * cover.length := by
    simp [List.length_flatMap, Nat.mul_comm]
  have hwire : (FountainEncoder.wireSymbol cover payload).length = 2 + 3 * cover.length + d.symbolSize := by
    simp only [FountainEncoder.wireSymbol, List.length_append, hlen2, hbody, h.size]
  have hcover : cover.length ≤ 65536 := by
    have hsub : cover.map Prod.fst ⊆ List.range d.k := by
      intro i hi
      obtain ⟨e, he, rfl⟩ := List.mem_map.mp hi
      exact List.mem_range.mpr (h.lt e he)
    have hcard := (h.nodup.subperm hsub).length_le
    simp only [List.length_map, List.length_range] at hcard
    omega
  have hsplit : FountainEncoder.wireSymbol cover payload = toLe 2 cover.length ++
      ((cover.flatMap fun e => toLe 2 e.1 ++ [e.2]) ++ payload) := by
    simp [FountainEncoder.wireSymbol]
  unfold FountainDecoder.add
  simp only at *
  rw [if_neg (by omega), hsplit, List.take_left' hlen2, ← hsplit]
  rcases Nat.lt_or_ge cover.length 65536 with hlt | hge
  · have hcount : ofLe (toLe 2 cover.length) = cover.length := ofLe_toLe (by norm_num; omega)
    rw [hcount, if_neg (by omega)]
    have hparse := parseCover_flatMap hk cover [] payload (by simpa using h.nodup) h.lt h.coeff
    rw [List.nil_append] at hparse
    have hpay : (FountainEncoder.wireSymbol cover payload).drop (2 + cover.length * 3) =
        payload := by
      rw [hsplit, ← List.drop_drop, List.drop_left' hlen2, List.drop_left' (by omega)]
    have htake : payload.take d.symbolSize = payload := List.take_of_length_le (le_of_eq h.size)
    rw [hpay, hsplit, List.drop_left' hlen2, hparse, htake]
    by_cases hnil : cover = []
    · simp [hnil]
    · rw [if_neg hnil, if_neg (by simp only [hnil, false_or]; omega)]
      rfl
  · have hfull : cover.length = 65536 := by omega
    have hcount : ofLe (toLe 2 cover.length) = 0 := by rw [hfull]; rfl
    rw [hcount, if_neg (by omega), if_pos (Or.inr hfull)]
    simp [parseCover]

theorem addAll_append (d : FountainDecoder) (xs ys : List (List UInt8)) {d' : FountainDecoder}
    (h : d.addAll xs = (.ok (), d')) : d.addAll (xs ++ ys) = d'.addAll ys := by
  induction xs generalizing d with
  | nil =>
      cases h
      rfl
  | cons wire rest ih =>
      simp only [List.cons_append, FountainDecoder.addAll] at h ⊢
      cases hadd : d.add wire with
      | error e => rw [hadd] at h; cases h
      | ok r =>
          rw [hadd] at h
          exact ih r.2 h

/-- A wire symbol that every decoder of the generation ignores, or stores as an equation with the
property `P`. -/
def AddsOnly (P : ParsedSym → Prop) (k s : Nat) (wire : List UInt8) : Prop :=
  ∃ syms : List ParsedSym, (∀ sym ∈ syms, P sym) ∧
    ∀ d : FountainDecoder, d.k = k → d.symbolSize = s →
      ∃ stored, d.add wire = .ok (stored, d.extend syms)

theorem AddsOnly.mono {P Q : ParsedSym → Prop} {wire : List UInt8}
    (h : AddsOnly P k s wire) (hPQ : ∀ sym, P sym → Q sym) : AddsOnly Q k s wire := by
  obtain ⟨syms, hsyms, hadd⟩ := h
  exact ⟨syms, fun sym hsym => hPQ sym (hsyms sym hsym), hadd⟩

/-- A wire symbol that every decoder of the generation ignores, or stores as an equation that
holds. -/
def TrueWire (X : Nat → List UInt8) (k s : Nat) (wire : List UInt8) : Prop :=
  AddsOnly (fun sym => sym.Holds X k s) k s wire

/-- What an encoder writes from a true equation is such a symbol. -/
theorem HonestWire.trueWire {wire : List UInt8}
    (hk : k ≤ 65536) (h : HonestWire X k s wire) : TrueWire X k s wire := by
  obtain ⟨sym, hsym, rfl⟩ := h
  by_cases hskip : sym.cover = [] ∨ sym.cover.length = 65536
  · refine ⟨[], by simp, fun d hdk hds => ⟨false, ?_⟩⟩
    rw [add_wireSymbol hk hsym hdk hds, if_pos hskip, FountainDecoder.extend_nil]
  · refine ⟨[sym], by simpa using hsym, fun d hdk hds => ⟨true, ?_⟩⟩
    rw [add_wireSymbol hk hsym hdk hds, if_neg hskip]

theorem FountainDecoder.addAll_adds {P : ParsedSym → Prop} (wires : List (List UInt8))
    (h : ∀ w ∈ wires, AddsOnly P k s w) :
    ∃ syms : List ParsedSym, (∀ sym ∈ syms, P sym) ∧
      ∀ d : FountainDecoder, d.k = k → d.symbolSize = s →
        d.addAll wires = (.ok (), d.extend syms) := by
  induction wires with
  | nil => exact ⟨[], by simp, fun d _ _ => by simp [addAll]⟩
  | cons wire rest ih =>
      obtain ⟨first, hfirst, hadd⟩ := h wire List.mem_cons_self
      obtain ⟨others, hothers, hall⟩ := ih fun w hw => h w (List.mem_cons_of_mem _ hw)
      refine ⟨first ++ others, ?_, ?_⟩
      · intro sym hsym
        rcases List.mem_append.mp hsym with hold | hnew
        · exact hfirst sym hold
        · exact hothers sym hnew
      · intro d hdk hds
        obtain ⟨stored, hstored⟩ := hadd d hdk hds
        rw [addAll, hstored]
        simp only
        rw [hall (d.extend first) hdk hds, extend_extend]

end Honest

/-! ## One whole generation -/

/-- A source symbol sent verbatim is the equation with coefficient one. -/
theorem systematic_holds {X : Nat → List UInt8} {k s i : Nat} (hi : i < k)
    (hsize : (X i).length = s) : (⟨[(i, 1)], X i⟩ : ParsedSym).Holds X k s where
  nodup := by simp
  lt := by simpa using hi
  coeff := by simp
  size := hsize
  value := fun p => by simp [comb]

/-- A source sent verbatim. -/
theorem trueWire_systematic {X : Nat → List UInt8} {k s i : Nat} (hk : k ≤ 65536) (hi : i < k)
    (hsize : (X i).length = s) :
    TrueWire X k s (FountainEncoder.wireSymbol [(i, 1)] (X i)) :=
  HonestWire.trueWire hk ⟨_, systematic_holds hi hsize, rfl⟩

section Generation

variable [FloatChoices] (enc : FountainEncoder)

theorem repairSymbol_honest (hk : 0 < enc.source.k)
    (hsrc : ∀ i < enc.source.k, (enc.source.src i).length = enc.source.symbolSize) :
    HonestWire enc.source.src enc.source.k enc.source.symbolSize enc.repairSymbol.1 := by
  unfold FountainEncoder.repairSymbol
  simp only
  set degree := FountainEncoder.solitonDegree enc.source.k
    (ImplRng.new (enc.generation.toUInt64 <<< 40 ||| (enc.repairIndex + 1)))
  obtain ⟨hnodup, hlt⟩ := FountainEncoder.chooseIndices_spec hk degree.1 (10 * enc.source.k)
    degree.2 [] List.nodup_nil (by simp)
  refine ⟨⟨_, _⟩, FountainEncoder.mix_holds enc.source hsrc ?_ ?_ ?_, rfl⟩
  · rwa [FountainEncoder.map_fst_drawCoeffs]
  · intro e he
    have hmem := List.mem_map_of_mem (f := Prod.fst) he
    rw [FountainEncoder.map_fst_drawCoeffs] at hmem
    exact hlt e.1 hmem
  · intro e he
    exact FountainEncoder.coeff_ne_zero_of_mem he

theorem repairSymbols_honest (n : Nat) (hk : 0 < enc.source.k)
    (hsrc : ∀ i < enc.source.k, (enc.source.src i).length = enc.source.symbolSize) :
    ∀ w ∈ (enc.repairSymbols n).1,
      HonestWire enc.source.src enc.source.k enc.source.symbolSize w := by
  induction n generalizing enc with
  | zero => simp [FountainEncoder.repairSymbols]
  | succ n ih =>
      intro w hw
      rcases List.mem_cons.mp hw with rfl | hmem
      · exact repairSymbol_honest enc hk hsrc
      · exact ih enc.repairSymbol.2 hk hsrc w hmem

/-- Every symbol of a generation is written from a true equation. -/
theorem produce_honest (count : Nat) (hk : 0 < enc.source.k)
    (hsrc : ∀ i < enc.source.k, (enc.source.src i).length = enc.source.symbolSize) :
    ∀ w ∈ (enc.produce count).1,
      HonestWire enc.source.src enc.source.k enc.source.symbolSize w := by
  intro w hw
  rcases List.mem_append.mp hw with hsys | hrepair
  · obtain ⟨i, hi, rfl⟩ := List.mem_map.mp hsys
    have hlt : i < enc.source.k := (List.mem_range.mp hi).trans_le (min_le_right _ _)
    exact ⟨_, systematic_holds hlt (hsrc i hlt), rfl⟩
  · exact repairSymbols_honest enc _ hk hsrc w hrepair

@[simp] theorem source_repairSymbols (enc : FountainEncoder) (n : Nat) :
    (enc.repairSymbols n).2.source = enc.source := by
  induction n generalizing enc with
  | zero => rfl
  | succ n ih =>
      calc ((enc.repairSymbol).2.repairSymbols n).2.source
          = (enc.repairSymbol).2.source := ih _
        _ = enc.source := rfl

omit [FloatChoices] in
private theorem addAll_systematic (hk : enc.source.k ≤ 65536)
    (hsrc : ∀ i < enc.source.k, (enc.source.src i).length = enc.source.symbolSize)
    (is : List Nat) (his : ∀ i ∈ is, i < enc.source.k) {d : FountainDecoder}
    (hdk : d.k = enc.source.k) (hds : d.symbolSize = enc.source.symbolSize) :
    d.addAll (is.map fun i => FountainEncoder.wireSymbol [(i, 1)] (enc.source.src i)) =
      (.ok (), d.extend (is.map fun i => ⟨[(i, 1)], enc.source.src i⟩)) := by
  induction is generalizing d with
  | nil => simp [FountainDecoder.addAll]
  | cons i rest ih =>
      have hi := his i List.mem_cons_self
      have hadd := add_wireSymbol hk (systematic_holds hi (hsrc i hi)) hdk hds
      simp only [List.cons_ne_nil, List.length_singleton, false_or] at hadd
      rw [if_neg (by omega)] at hadd
      simp only [List.map_cons, FountainDecoder.addAll, hadd]
      rw [ih (fun j hj => his j (List.mem_cons_of_mem _ hj)) (d := d.extend _) hdk hds]
      simp

/-- A fresh decoder that receives a whole generation returns its sources. -/
theorem decode_produce (count : Nat) (hpos : 0 < enc.source.k) (hk : enc.source.k ≤ 65536)
    (hsym : 0 < enc.source.symbolSize)
    (hcount : enc.source.k ≤ count)
    (hsrc : ∀ i < enc.source.k, (enc.source.src i).length = enc.source.symbolSize) :
    ∃ d, (FountainDecoder.new enc.source.k enc.source.symbolSize).addAll (enc.produce count).1 =
        (.ok (), d) ∧
      d.decode.1 = .ok ((List.range enc.source.k).map enc.source.src) := by
  unfold FountainEncoder.produce
  simp only
  rw [Nat.min_eq_right hcount]
  have hsys := addAll_systematic enc hk hsrc (List.range enc.source.k)
    (fun i hi => List.mem_range.mp hi)
    (d := FountainDecoder.new enc.source.k enc.source.symbolSize) rfl rfl
  obtain ⟨syms, hholds, hrep⟩ := FountainDecoder.addAll_adds
    (enc.repairSymbols (count - enc.source.k)).1
    fun w hw => (repairSymbols_honest enc _ hpos hsrc w hw).trueWire hk
  refine ⟨_, (addAll_append _ _ _ hsys).trans (hrep _ rfl rfl), ?_⟩
  have hlen : ¬ ((List.range enc.source.k).map (fun i => (⟨[(i, 1)], enc.source.src i⟩ : ParsedSym))
      ++ syms).length < enc.source.k := by
    simp
  simp only [FountainDecoder.decode, FountainDecoder.extend, FountainDecoder.new,
    List.nil_append, hlen, if_false]
  refine peelSymbols_of_own hsym ?_ ?_ hsrc
  · intro sym hsym
    rcases List.mem_append.mp hsym with hmem | hmem
    · obtain ⟨i, hi, rfl⟩ := List.mem_map.mp hmem
      have hlt := List.mem_range.mp hi
      exact systematic_holds hlt (hsrc i hlt)
    · exact hholds sym hmem
  · intro i hi
    exact ⟨⟨[(i, 1)], enc.source.src i⟩,
      List.mem_append_left _ (List.mem_map.mpr ⟨i, List.mem_range.mpr hi, rfl⟩), rfl⟩

end Generation

end Dlr.Coding
