import Dlr.Coding.Gauss

/-!
# Random linear network coding

A packet is a combination of the source symbols with its coefficients. The decoder keeps the
independent packets it has seen in reduced form, each with its pivot column, and is done when
every column has a pivot.

## Implementation notes

The encoder draws coefficients until one of them is not zero; `code` takes a bound on the number
of draws. The sources are shared between encoders, which does not show in the model.
-/

namespace Dlr.Coding

open Lib.Elimination

inductive RlncError
  | insufficient (have_ need : Nat)
  | singular (have_ : Nat)
  | sizeMismatch (exp got : Nat)
  deriving DecidableEq, Repr

def RlncError.toText : RlncError → String
  | insufficient have_ need =>
      "insufficient independent packets: have " ++ toString have_ ++ " need " ++ toString need
  | singular have_ => "singular generation after " ++ toString have_ ++ " packets"
  | sizeMismatch exp got => "size mismatch: expected " ++ toString exp ++ " got " ++ toString got

/-- A coefficient vector and the combination of the sources it gives. -/
structure CodedPacket where
  coeffs : List UInt8
  payload : List UInt8
  deriving DecidableEq

/-! ## Encoder -/

/-- A linear congruential stream. -/
structure Lcg where
  state : UInt64
  deriving DecidableEq, Repr

namespace Lcg

def new (seed : UInt64) : Lcg := ⟨0x9E3779B97F4A7C15 * (seed ^^^ 0xD1B54A32D192ED03)⟩

def nextU64 (rng : Lcg) : UInt64 × Lcg :=
  let state := rng.state * 6364136223846793005 + 1442695040888963407
  (state, ⟨state⟩)

def nextU8 (rng : Lcg) : UInt8 × Lcg :=
  let (z, rng) := rng.nextU64
  ((z >>> 40).toUInt8, rng)

end Lcg

/-- The encoder of one generation. -/
structure RlncEncoder where
  k : Nat
  symbolSize : Nat
  source : List (List UInt8)
  rng : Lcg
  deriving DecidableEq

namespace RlncEncoder

/-- An encoder over its own sources, padded or cut to the symbol size. -/
def new (source : List (List UInt8)) (symbolSize : Nat) (seed : UInt64) : RlncEncoder :=
  ⟨source.length, symbolSize,
    source.map fun s => s.take symbolSize ++ List.replicate (symbolSize - s.length) 0,
    Lcg.new seed⟩

/-- An encoder over shared sources, which already have the symbol size. -/
def newShared (source : List (List UInt8)) (symbolSize : Nat) (seed : UInt64) : RlncEncoder :=
  ⟨source.length, symbolSize, source, Lcg.new seed⟩

def drawCoeffs : Nat → Lcg → List UInt8 × Lcg
  | 0, rng => ([], rng)
  | n + 1, rng =>
      let (c, rng) := rng.nextU8
      let (rest, rng) := drawCoeffs n rng
      (c :: rest, rng)

/-- Draw a coefficient vector until it is not zero. -/
def resample (k : Nat) : Nat → Lcg → Option (List UInt8 × Lcg)
  | 0, _ => none
  | tries + 1, rng =>
      let (coeffs, rng) := drawCoeffs k rng
      if coeffs.any (· ≠ 0) then some (coeffs, rng) else resample k tries rng

/-- The sources combined with the coefficients. -/
def combine (enc : RlncEncoder) (coeffs : List UInt8) : List UInt8 :=
  (List.range enc.k).foldl
    (fun payload i =>
      if coeffs.getD i 0 = 0 then payload
      else axpy payload (coeffs.getD i 0) (enc.source.getD i []))
    (List.replicate enc.symbolSize 0)

/-- One dense packet, drawn in at most `tries` rounds. -/
def code (enc : RlncEncoder) (tries : Nat) : Option (CodedPacket × RlncEncoder) :=
  (resample enc.k tries enc.rng).map fun (coeffs, rng) =>
    (⟨coeffs, enc.combine coeffs⟩, { enc with rng })

/-- Choose up to `degree` distinct sources with odd coefficients in `guard` rounds. -/
def chooseSparse (k degree : Nat) : Nat → Lcg → List UInt8 → List Nat → List UInt8 × List Nat × Lcg
  | 0, rng, coeffs, chosen => (coeffs, chosen, rng)
  | guard + 1, rng, coeffs, chosen =>
      if chosen.length < degree then
        let (z, rng) := rng.nextU64
        let idx := (z >>> 40).toNat % k
        if coeffs.getD idx 0 = 0 then
          let (c, rng) := rng.nextU8
          chooseSparse k degree guard rng (coeffs.set idx (c ||| 1)) (chosen ++ [idx])
        else chooseSparse k degree guard rng coeffs chosen
      else (coeffs, chosen, rng)

/-- One packet over `degree` sources. -/
def codeSparse (enc : RlncEncoder) (degree : Nat) : CodedPacket × RlncEncoder :=
  let degree := min (max degree 1) enc.k
  let (coeffs, chosen, rng) :=
    chooseSparse enc.k degree (8 * enc.k) enc.rng (List.replicate enc.k 0) []
  let payload := chosen.foldl
    (fun payload i => axpy payload (coeffs.getD i 0) (enc.source.getD i []))
    (List.replicate enc.symbolSize 0)
  (⟨coeffs, payload⟩, { enc with rng })

end RlncEncoder

/-! ## Decoder -/

/-- The decoder of one generation. -/
structure RlncDecoder where
  k : Nat
  symbolSize : Nat
  /-- Rows `coefficients | payload` in reduced form. -/
  rows : List (List UInt8) := []
  /-- The pivot column of every row. -/
  pivots : List Nat := []
  deriving DecidableEq

namespace RlncDecoder

def new (k symbolSize : Nat) : RlncDecoder := { k, symbolSize }

def rank (d : RlncDecoder) : Nat := d.rows.length

/-- Clear the pivot columns of the known rows in a new one. -/
def reduceRow (rows : List (List UInt8)) (pivots : List Nat) (row : List UInt8) : List UInt8 :=
  (rows.zip pivots).foldl
    (fun row e =>
      if row.getD e.2 0 ≠ 0 then axpy row (row.getD e.2 0) e.1 else row)
    row

/-- Add a packet; `true` when it is independent of the ones before. -/
def add (d : RlncDecoder) (p : CodedPacket) : Except RlncError (Bool × RlncDecoder) :=
  if p.coeffs.length ≠ d.k then
    .error (.sizeMismatch d.k p.coeffs.length)
  else if p.payload.length ≠ d.symbolSize then
    .error (.sizeMismatch d.symbolSize p.payload.length)
  else
    let row := reduceRow d.rows d.pivots (p.coeffs ++ p.payload)
    match (row.take d.k).findIdx? (· ≠ 0) with
    | none => .ok (false, d)
    | some piv =>
        let row := scalInplace row (gfInv (row.getD piv 0))
        let rows := d.rows.map fun e =>
          if e.getD piv 0 ≠ 0 then axpy e (e.getD piv 0) row else e
        .ok (true, { d with rows := rows ++ [row], pivots := d.pivots ++ [piv] })

/-- Add packets one by one, up to the first that is refused. -/
def addAll (d : RlncDecoder) : List CodedPacket → Except RlncError RlncDecoder
  | [] => .ok d
  | p :: rest =>
      match d.add p with
      | .error e => .error e
      | .ok (_, d) => d.addAll rest

/-- The sources, once every column has a pivot. -/
def decode (d : RlncDecoder) : Except RlncError (List (List UInt8)) :=
  if d.rows.length < d.k then
    .error (.insufficient d.rows.length d.k)
  else
    let out := (d.rows.zip d.pivots).foldl (fun out e => out.set e.2 (e.1.drop d.k))
      (List.replicate d.k (List.replicate d.symbolSize 0))
    let seen := (d.rows.zip d.pivots).foldl (fun seen e => seen.set e.2 true)
      (List.replicate d.k false)
    if seen.any (· = false) then .error (.singular d.rows.length) else .ok out

/-! ## The rows stay reduced and true -/

/-- What the decoder knows about the sources `x`: rows in reduced form, each a true equation. -/
structure Inv (d : RlncDecoder) (x : List (List UInt8)) : Prop where
  reduced : Reduced (d.rows.map vec) d.pivots
  count : d.pivots.length = d.rows.length
  bound : ∀ p ∈ d.pivots, p < d.k
  size : ∀ row ∈ d.rows, row.length = d.k + d.symbolSize
  equation : ∀ row ∈ d.rows, vec row ∈ equations d.k x

theorem Inv.new (k symbolSize : Nat) (x : List (List UInt8)) : (new k symbolSize).Inv x :=
  ⟨Reduced.nil _, rfl, by simp [RlncDecoder.new], by simp [RlncDecoder.new],
    by simp [RlncDecoder.new]⟩

/-- Reducing against rows with their pivots adds multiples of the rows and clears the pivot
columns. -/
theorem reduceRow_spec {es : List (List UInt8 × Nat)} {row : List UInt8} {len : Nat}
    (hlen : row.length = len) (hsize : ∀ e ∈ es, e.1.length = len)
    (hone : ∀ e ∈ es, vec e.1 e.2 = 1)
    (hzero : es.Pairwise fun e e' => vec e'.1 e.2 = 0) :
    (es.foldl (fun row e => clearColumn e.2 e.1 row) row).length = len ∧
      (∀ W : Submodule Gf256 (Nat → Gf256), vec row ∈ W → (∀ e ∈ es, vec e.1 ∈ W) →
        vec (es.foldl (fun row e => clearColumn e.2 e.1 row) row) ∈ W) ∧
      (∀ p, vec row p = 0 → (∀ e ∈ es, vec e.1 p = 0) →
        vec (es.foldl (fun row e => clearColumn e.2 e.1 row) row) p = 0) ∧
      ∀ e ∈ es, vec (es.foldl (fun row e => clearColumn e.2 e.1 row) row) e.2 = 0 := by
  induction es generalizing row with
  | nil => exact ⟨hlen, fun _ h _ => h, fun _ h _ => h, by simp⟩
  | cons e rest ih =>
      have hfit : e.1.length ≤ row.length := by rw [hsize e List.mem_cons_self, hlen]
      have hvec : vec (clearColumn e.2 e.1 row) = vec row + vec row e.2 • vec e.1 :=
        vec_clearColumn hfit
      obtain ⟨hhead, htail⟩ := List.pairwise_cons.mp hzero
      obtain ⟨hlen', hmem, hkeep, hclear⟩ := ih ((length_clearColumn e.2 e.1 row).trans hlen)
        (fun e' he' => hsize e' (List.mem_cons_of_mem _ he'))
        (fun e' he' => hone e' (List.mem_cons_of_mem _ he')) htail
      rw [List.foldl_cons]
      refine ⟨hlen', ?_, ?_, ?_⟩
      · intro W hrow hes
        apply hmem W _ fun e' he' => hes e' (List.mem_cons_of_mem _ he')
        rw [hvec]
        exact W.add_mem hrow (W.smul_mem _ (hes e List.mem_cons_self))
      · intro p hrow hes
        apply hkeep p _ fun e' he' => hes e' (List.mem_cons_of_mem _ he')
        rw [hvec, Pi.add_apply, Pi.smul_apply, hrow, hes e List.mem_cons_self, smul_zero, add_zero]
      · intro e' he'
        rcases List.mem_cons.mp he' with rfl | hrest
        · exact hkeep e'.2 (clearColumn_col hfit (hone e' List.mem_cons_self)) hhead
        · exact hclear e' hrest

/-- The decoder with one more row, scaled to its pivot and cleared out of the others. -/
def pushRow (d : RlncDecoder) (piv : Nat) (row : List UInt8) : RlncDecoder :=
  { d with
    rows := d.rows.map (clearColumn piv (normalized piv row)) ++ [normalized piv row]
    pivots := d.pivots ++ [piv] }

theorem clearColumn_eq (col : Nat) (prow row : List UInt8) :
    (if row.getD col 0 ≠ 0 then axpy row (row.getD col 0) prow else row) =
      clearColumn col prow row := by
  unfold clearColumn
  rw [ite_not]

namespace Inv

variable {d : RlncDecoder} {x : List (List UInt8)}

/-- Rows in position `i` and `j` and the pivot of the first. -/
theorem entry (h : d.Inv x) {i j p : Nat} {row : List UInt8} (hp : d.pivots[i]? = some p)
    (hrow : d.rows[j]? = some row) : vec row p = if j = i then 1 else 0 :=
  h.reduced.column i p hp j _ (by rw [List.getElem?_map, hrow]; rfl)

/-- A true equation stays true when it is reduced, and vanishes in the pivot columns. -/
theorem reduceRow (h : d.Inv x) {row : List UInt8} (hlen : row.length = d.k + d.symbolSize)
    (heq : vec row ∈ equations d.k x) :
    (RlncDecoder.reduceRow d.rows d.pivots row).length = d.k + d.symbolSize ∧
      vec (RlncDecoder.reduceRow d.rows d.pivots row) ∈ equations d.k x ∧
      ∀ p ∈ d.pivots, vec (RlncDecoder.reduceRow d.rows d.pivots row) p = 0 := by
  have hzip : ∀ e ∈ d.rows.zip d.pivots, e.1 ∈ d.rows := fun e he => (List.of_mem_zip he).1
  have hone : ∀ e ∈ d.rows.zip d.pivots, vec e.1 e.2 = 1 := by
    intro e he
    obtain ⟨i, hi⟩ := List.getElem?_of_mem he
    obtain ⟨hrow, hp⟩ := List.getElem?_zip_eq_some.mp hi
    rw [h.entry hp hrow, if_pos rfl]
  have hzero : (d.rows.zip d.pivots).Pairwise fun e e' => vec e'.1 e.2 = 0 := by
    rw [List.pairwise_iff_getElem]
    intro i j hi hj hij
    have hi' := List.getElem?_zip_eq_some.mp (List.getElem?_eq_getElem hi)
    have hj' := List.getElem?_zip_eq_some.mp (List.getElem?_eq_getElem hj)
    rw [h.entry hi'.2 hj'.1, if_neg (by omega)]
  have hfold : RlncDecoder.reduceRow d.rows d.pivots row =
      (d.rows.zip d.pivots).foldl (fun row e => clearColumn e.2 e.1 row) row := by
    unfold RlncDecoder.reduceRow
    simp only [clearColumn_eq]
  obtain ⟨hlen', hmem, -, hclear⟩ := reduceRow_spec hlen
    (fun e he => h.size e.1 (hzip e he)) hone hzero
  rw [hfold]
  refine ⟨hlen', hmem _ heq fun e he => h.equation e.1 (hzip e he), ?_⟩
  intro p hp
  obtain ⟨i, hi, rfl⟩ := List.getElem_of_mem hp
  have hi' : i < d.rows.length := by rw [← h.count]; exact hi
  exact hclear (d.rows[i], d.pivots[i]) (List.mem_iff_getElem.mpr
    ⟨i, by rw [List.length_zip]; omega, List.getElem_zip⟩)

/-- A new pivot row is cleared out of the rows before it. -/
theorem push (h : d.Inv x) {row : List UInt8} (hlen : row.length = d.k + d.symbolSize)
    (heq : vec row ∈ equations d.k x) (hzero : ∀ p ∈ d.pivots, vec row p = 0) {piv : Nat}
    (hpiv : piv < d.k) (hne : vec row piv ≠ 0) : (d.pushRow piv row).Inv x := by
  have hfit : ∀ e ∈ d.rows, (normalized piv row).length ≤ e.length := by
    intro e he
    rw [length_normalized, hlen, h.size e he]
  have hnorm : vec (normalized piv row) ∈ equations d.k x := by
    rw [vec_normalized]
    exact Submodule.smul_mem _ _ heq
  unfold pushRow
  refine ⟨?_, by simp [h.count], ?_, ?_, ?_⟩
  · apply (h.reduced.append hzero).step (vec (normalized piv row))
    · simp
    · rw [List.map_append, List.getElem?_append_right (by simp [h.count])]
      simp [h.count]
    · exact normalized_col hne
    · intro p hp
      rw [vec_normalized, Pi.smul_apply, hzero p hp, smul_zero]
    · intro j row' hj hrow'
      rw [List.map_append, List.map_map, List.getElem?_append] at hrow'
      split_ifs at hrow' with hlt
      · rw [List.getElem?_map] at hrow'
        obtain ⟨e, he, rfl⟩ := Option.map_eq_some_iff.mp hrow'
        have hmem := hfit e (List.mem_of_getElem? he)
        refine ⟨clearColumn_col hmem (normalized_col hne), j, vec e, vec e piv, ?_,
          vec_clearColumn hmem, fun _ => rfl, ?_⟩
        · rw [List.getElem?_append_left (by simpa using hlt), List.getElem?_map, he]
          rfl
        · exact fun hgt => hgt.le
      · simp only [List.length_map] at hlt
        have hbound := (List.getElem?_eq_some_iff.mp hrow').1
        simp only [List.length_map, List.length_singleton] at hbound
        have hcount := h.count
        omega
  · intro p hp
    rcases List.mem_append.mp hp with hold | hnew
    · exact h.bound p hold
    · rw [List.mem_singleton.mp hnew]
      exact hpiv
  · intro w hw
    rcases List.mem_append.mp hw with hold | hnew
    · obtain ⟨e, he, rfl⟩ := List.mem_map.mp hold
      rw [length_clearColumn]
      exact h.size e he
    · rw [List.mem_singleton.mp hnew, length_normalized]
      exact hlen
  · intro w hw
    rcases List.mem_append.mp hw with hold | hnew
    · obtain ⟨e, he, rfl⟩ := List.mem_map.mp hold
      rw [vec_clearColumn (hfit e he)]
      exact Submodule.add_mem _ (h.equation e he) (Submodule.smul_mem _ _ hnorm)
    · rw [List.mem_singleton.mp hnew]
      exact hnorm

/-- A packet whose reduced coefficients vanish is dropped; any other packet adds its reduced
row. -/
theorem add_cases (h : d.Inv x) {p : CodedPacket} (hcoeffs : p.coeffs.length = d.k)
    (hpayload : p.payload.length = d.symbolSize)
    (heq : vec (p.coeffs ++ p.payload) ∈ equations d.k x) :
    (d.add p = .ok (false, d) ∧
        ∀ c < d.k, vec (RlncDecoder.reduceRow d.rows d.pivots (p.coeffs ++ p.payload)) c = 0) ∨
      ∃ piv < d.k,
        vec (RlncDecoder.reduceRow d.rows d.pivots (p.coeffs ++ p.payload)) piv ≠ 0 ∧
          d.add p = .ok (true, d.pushRow piv
            (RlncDecoder.reduceRow d.rows d.pivots (p.coeffs ++ p.payload))) := by
  have hlen : (p.coeffs ++ p.payload).length = d.k + d.symbolSize := by
    rw [List.length_append, hcoeffs, hpayload]
  obtain ⟨hlen', -, -⟩ := h.reduceRow hlen heq
  unfold RlncDecoder.add
  rw [if_neg (not_not_intro hcoeffs), if_neg (not_not_intro hpayload)]
  simp only [clearColumn_eq]
  set row := RlncDecoder.reduceRow d.rows d.pivots (p.coeffs ++ p.payload) with hrow
  have hbyte : ∀ c < d.k, ∀ hc : c < (row.take d.k).length,
      vec row c = 0 ↔ (row.take d.k)[c] = 0 := by
    intro c hck hc
    rw [vec_apply, List.getElem_take, List.getD_eq_getElem _ _ (by omega)]
    exact ⟨congrArg Gf256.byte, fun hzero => Gf256.ext hzero⟩
  cases hfind : (row.take d.k).findIdx? (· ≠ 0) with
  | none =>
      refine Or.inl ⟨rfl, ?_⟩
      intro c hc
      have hlt : c < (row.take d.k).length := by
        rw [List.length_take]
        omega
      have hzero := List.findIdx?_eq_none_iff.mp hfind _ (List.getElem_mem hlt)
      exact (hbyte c hc hlt).mpr (by simpa using hzero)
  | some piv =>
      obtain ⟨hlt, hne, -⟩ := List.findIdx?_eq_some_iff_getElem.mp hfind
      have hpiv : piv < d.k := by
        rw [List.length_take] at hlt
        omega
      refine Or.inr ⟨piv, hpiv, ?_, rfl⟩
      rw [Ne, hbyte piv hpiv hlt]
      simpa using hne

/-- Adding a true equation keeps the invariant. -/
theorem add (h : d.Inv x) {p : CodedPacket} (heq : vec (p.coeffs ++ p.payload) ∈ equations d.k x)
    {grew : Bool} {d' : RlncDecoder} (hadd : d.add p = .ok (grew, d')) :
    d'.Inv x ∧ d'.k = d.k ∧ d'.symbolSize = d.symbolSize := by
  obtain ⟨hcoeffs, hpayload⟩ : p.coeffs.length = d.k ∧ p.payload.length = d.symbolSize := by
    unfold RlncDecoder.add at hadd
    split_ifs at hadd with hcoeffs hpayload
    exact ⟨not_not.mp hcoeffs, not_not.mp hpayload⟩
  have hlen : (p.coeffs ++ p.payload).length = d.k + d.symbolSize := by
    rw [List.length_append, hcoeffs, hpayload]
  obtain ⟨hlen', heq', hzero⟩ := h.reduceRow hlen heq
  obtain ⟨hsame, -⟩ | ⟨piv, hpiv, hne, hpush⟩ := h.add_cases hcoeffs hpayload heq
  · rw [hsame] at hadd
    cases hadd
    exact ⟨h, rfl, rfl⟩
  · rw [hpush] at hadd
    cases hadd
    exact ⟨h.push hlen' heq' hzero hpiv hne, rfl, rfl⟩

/-- There are no more pivots than columns. -/
theorem rank_le (h : d.Inv x) : d.rows.length ≤ d.k := by
  calc d.rows.length = d.pivots.toFinset.card := by
        rw [List.toFinset_card_of_nodup h.reduced.nodup, h.count]
    _ ≤ (Finset.range d.k).card := by
        apply Finset.card_le_card
        intro p hp
        rw [Finset.mem_range]
        exact h.bound p (List.mem_toFinset.mp hp)
    _ = d.k := Finset.card_range d.k

/-- A decoder with a pivot in every column knows the sources. -/
theorem decode (h : d.Inv x) (hx : x.length = d.k) (hsize : ∀ s ∈ x, s.length = d.symbolSize)
    {out : List (List UInt8)} (hdec : d.decode = .ok out) : out = x := by
  simp only [RlncDecoder.decode] at hdec
  split_ifs at hdec with hshort
  obtain rfl := Except.ok.inj hdec
  have hcount := h.count
  have hfull : d.pivots.length = d.k := by
    have hle := h.rank_le
    omega
  have hbound : ∀ p ∈ d.pivots, p < d.pivots.length := fun p hp => hfull ▸ h.bound p hp
  have hitems : (d.rows.zip d.pivots).foldl (fun out e => out.set e.2 (e.1.drop d.k))
      (List.replicate d.k (List.replicate d.symbolSize 0)) =
      ((d.rows.zip d.pivots).map fun e => (e.2, e.1.drop d.k)).foldl
        (fun out e => out.set e.1 e.2) (List.replicate d.k (List.replicate d.symbolSize 0)) := by
    rw [List.foldl_map]
  rw [hitems]
  apply foldl_set_eq
  · rw [List.length_replicate, hx]
  · intro e he
    obtain ⟨⟨row, p⟩, hmem, rfl⟩ := List.mem_map.mp he
    obtain ⟨i, hi⟩ := List.getElem?_of_mem hmem
    obtain ⟨hrow, hp⟩ := List.getElem?_zip_eq_some.mp hi
    have hpk : p < d.k := h.bound p (List.mem_of_getElem? hp)
    have hget : x.getD p [] = x[p] := List.getD_eq_getElem _ _ (by omega)
    rw [List.getElem?_eq_getElem (by omega), ← hget, Option.some.injEq]
    symm
    apply drop_of_unit _ hpk _ (h.equation row (List.mem_of_getElem? hrow))
    · rw [hget, hsize _ (List.getElem_mem _), h.size row (List.mem_of_getElem? hrow)]
    · intro c hc
      apply h.reduced.unit_row hbound hp _ (by omega)
      rw [List.getElem?_map, hrow]
      rfl
  · intro c hc
    left
    have hmem := h.reduced.mem_of_lt hbound (show c < d.pivots.length by omega)
    have hsnd : (d.rows.zip d.pivots).map Prod.snd = d.pivots := List.map_snd_zip hcount.le
    rw [List.map_map]
    rw [← hsnd] at hmem
    exact hmem

end Inv

end RlncDecoder

/-! ## Packets of an encoder are true equations -/

namespace RlncEncoder

/-- A packet that combines the sources as its coefficients say. -/
def Honest (enc : RlncEncoder) (p : CodedPacket) : Prop :=
  p.coeffs.length = enc.k ∧ p.payload.length = enc.symbolSize ∧
    vec p.payload = ∑ j ∈ Finset.range enc.k, vec p.coeffs j • vec (enc.source.getD j [])

theorem Honest.equation {enc : RlncEncoder} {p : CodedPacket} (h : enc.Honest p) :
    vec (p.coeffs ++ p.payload) ∈ equations enc.k enc.source :=
  append_mem_equations h.1 h.2.2

theorem length_drawCoeffs (n : Nat) (rng : Lcg) : (drawCoeffs n rng).1.length = n := by
  induction n generalizing rng with
  | zero => rfl
  | succ n ih => simp [drawCoeffs, ih]

theorem length_resample {k tries : Nat} {rng rng' : Lcg} {coeffs : List UInt8}
    (h : resample k tries rng = some (coeffs, rng')) : coeffs.length = k := by
  induction tries generalizing rng with
  | zero => cases h
  | succ tries ih =>
      simp only [resample] at h
      split_ifs at h
      · cases h
        exact length_drawCoeffs k rng
      · exact ih h

/-- Every packet of the dense coder is honest. -/
theorem code_honest {enc enc' : RlncEncoder} {tries : Nat} {p : CodedPacket}
    (hsource : ∀ j < enc.k, (enc.source.getD j []).length ≤ enc.symbolSize)
    (h : enc.code tries = some (p, enc')) : enc.Honest p := by
  obtain ⟨⟨coeffs, rng⟩, hdraw, heq⟩ := Option.map_eq_some_iff.mp h
  cases heq
  exact ⟨length_resample hdraw, (length_foldl_axpy _ _ _ _).trans List.length_replicate,
    vec_combination _ hsource⟩

/-- What the choice of a sparse packet keeps: distinct sources, and coefficients only there. -/
structure Chosen (k : Nat) (coeffs : List UInt8) (chosen : List Nat) : Prop where
  length : coeffs.length = k
  nodup : chosen.Nodup
  bound : ∀ j ∈ chosen, j < k
  nonzero : ∀ j ∈ chosen, coeffs.getD j 0 ≠ 0
  zero : ∀ j, j ∉ chosen → coeffs.getD j 0 = 0

theorem or_one_ne_zero (c : UInt8) : c ||| 1 ≠ 0 := by
  intro h
  have hbit := congrArg (fun b : UInt8 => b.toNat.testBit 0) h
  simp at hbit

theorem Chosen.push {k idx : Nat} {coeffs : List UInt8} {chosen : List Nat}
    (h : Chosen k coeffs chosen) (hidx : idx < k) (hzero : coeffs.getD idx 0 = 0) (c : UInt8) :
    Chosen k (coeffs.set idx (c ||| 1)) (chosen ++ [idx]) := by
  have hnew : idx ∉ chosen := fun hmem => h.nonzero idx hmem hzero
  have hother : ∀ j, j ≠ idx → (coeffs.set idx (c ||| 1)).getD j 0 = coeffs.getD j 0 := by
    intro j hj
    rw [List.getD_eq_getElem?_getD, List.getElem?_set_ne (Ne.symm hj), List.getD_eq_getElem?_getD]
  refine ⟨by rw [List.length_set, h.length], ?_, ?_, ?_, ?_⟩
  · exact List.nodup_append.mpr ⟨h.nodup, List.nodup_singleton idx, by
      intro a ha b hb
      rw [List.mem_singleton.mp hb]
      rintro rfl
      exact hnew ha⟩
  · intro j hj
    rcases List.mem_append.mp hj with hold | hidx'
    · exact h.bound j hold
    · rw [List.mem_singleton.mp hidx']
      exact hidx
  · intro j hj
    rcases List.mem_append.mp hj with hold | hidx'
    · rw [hother j (fun heq => hnew (heq ▸ hold))]
      exact h.nonzero j hold
    · rw [List.mem_singleton.mp hidx', List.getD_eq_getElem?_getD,
        List.getElem?_set_self (by rw [h.length]; exact hidx)]
      exact or_one_ne_zero c
  · intro j hj
    rw [List.mem_append, not_or, List.mem_singleton] at hj
    rw [hother j hj.2]
    exact h.zero j hj.1

theorem chooseSparse_spec {k degree : Nat} (hdegree : degree ≤ k) (guard : Nat) (rng : Lcg)
    {coeffs : List UInt8} {chosen : List Nat} (h : Chosen k coeffs chosen) :
    Chosen k (chooseSparse k degree guard rng coeffs chosen).1
      (chooseSparse k degree guard rng coeffs chosen).2.1 := by
  induction guard generalizing rng coeffs chosen with
  | zero => exact h
  | succ guard ih =>
      simp only [chooseSparse]
      split_ifs with hlt hzero
      · exact ih _ (h.push (Nat.mod_lt _ (by omega)) hzero _)
      · exact ih _ h
      · exact h

/-- Every packet of the sparse coder is honest. -/
theorem codeSparse_honest {enc : RlncEncoder} (degree : Nat)
    (hsource : ∀ j < enc.k, (enc.source.getD j []).length ≤ enc.symbolSize) :
    enc.Honest (enc.codeSparse degree).1 := by
  have hempty : Chosen enc.k (List.replicate enc.k 0) [] := by
    refine ⟨by simp, by simp, by simp, by simp, ?_⟩
    intro j _
    rw [List.getD_eq_getElem?_getD, List.getElem?_replicate]
    split_ifs <;> rfl
  have hchosen := chooseSparse_spec (min_le_right (max degree 1) enc.k) (8 * enc.k) enc.rng hempty
  set picked := chooseSparse enc.k (min (max degree 1) enc.k) (8 * enc.k) enc.rng
    (List.replicate enc.k 0) [] with hpicked
  have hskip : ∀ (out : List UInt8) (j : Nat), axpy out (picked.1.getD j 0) (enc.source.getD j []) =
      if picked.1.getD j 0 = 0 then out
      else axpy out (picked.1.getD j 0) (enc.source.getD j []) := by
    intro out j
    split_ifs with hzero
    · rw [hzero, axpy, if_pos rfl]
    · rfl
  have hpayload : (enc.codeSparse degree).1.payload = picked.2.1.foldl
      (fun out j => if picked.1.getD j 0 = 0 then out
        else axpy out (picked.1.getD j 0) (enc.source.getD j []))
      (List.replicate enc.symbolSize 0) := by
    simp only [← hskip]
    rfl
  have hcoeffs : (enc.codeSparse degree).1.coeffs = picked.1 := rfl
  refine ⟨hchosen.length, ?_, ?_⟩
  · rw [hpayload, length_foldl_axpy, List.length_replicate]
  · rw [hpayload, hcoeffs, vec_foldl_axpy, vec_replicate_zero, zero_add,
      ← List.sum_toFinset _ hchosen.nodup]
    · apply Finset.sum_subset
      · intro j hj
        rw [Finset.mem_range]
        exact hchosen.bound j (List.mem_toFinset.mp hj)
      · intro j _ hj
        have hzero : (⟨picked.1.getD j 0⟩ : Gf256) = 0 :=
          Gf256.ext (hchosen.zero j fun hmem => hj (List.mem_toFinset.mpr hmem))
        rw [hzero, zero_smul]
    · intro j hj
      rw [List.length_replicate]
      exact hsource j (hchosen.bound j hj)

end RlncEncoder

end Dlr.Coding
