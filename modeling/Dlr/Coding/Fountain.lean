import Dlr.Coding.Gf256
import Dlr.Lib.Bytes
import Dlr.Lib.Machine

/-!
# The systematic fountain code of one generation

The encoder emits the source symbols verbatim and then repair symbols, each a
random combination of a few sources. The decoder keeps the sparse equations it
reads off the wire, peels equations of degree one, and solves what is left by
Gaussian elimination.

## Implementation notes

A cover is an association list; its order stands for the iteration order of the
program's hash map. Two steps of the program use floating point, and both only
choose a number: how many repair symbols are emitted and which degree a repair
symbol gets. They are parameters, so nothing below depends on the choice.

The peeling loop takes a bound on the number of queue pops. `Peel.run` shows
that the bound computed from the initial degrees always empties the queue.
-/

namespace Dlr.Coding

open Lib.Bytes Lib.Machine

inductive FountainError
  | empty
  | underdetermined (got need : Nat)
  | sizeMismatch (a b : Nat)
  deriving DecidableEq, Repr

def FountainError.toText : FountainError → String
  | empty => "empty generation"
  | underdetermined got need =>
      "decode failed: only " ++ toString got ++ " of " ++ toString need ++ " independent symbols"
  | sizeMismatch a b => "symbol size mismatch: " ++ toString a ++ " vs " ++ toString b

/-- The numbers the program obtains from floating-point arithmetic. -/
class FloatChoices where
  Fraction : Type
  /-- A margin in percent as a fraction. -/
  ofPercent : UInt32 → Fraction
  /-- A fraction of a generation size, rounded up. -/
  repairCount : Nat → Fraction → Nat
  /-- First index of the cumulative degree distribution not below a draw. -/
  solitonIndex : Nat → UInt64 → Nat

/-- Exact percentages with the lowest degree for every draw, on which the model can be
evaluated. -/
@[reducible] def percentChoices : FloatChoices where
  Fraction := Nat
  ofPercent := UInt32.toNat
  repairCount := fun k percent => divCeil (k * percent) 100
  solitonIndex := fun _ _ => 0

theorem percentChoices_repairCount_zero (k : Nat) :
    percentChoices.repairCount k (percentChoices.ofPercent 0) = 0 := by
  change divCeil (k * 0) 100 = 0
  rw [Nat.mul_zero]
  rfl

/-! ## The pseudo-random stream -/

/-- A splitmix stream. -/
structure ImplRng where
  state : UInt64
  deriving DecidableEq, Repr

namespace ImplRng

def new (seed : UInt64) : ImplRng :=
  let z := seed * 0x9E3779B97F4A7C15 + 0xA5A5A5A5
  let z := (z ^^^ (z >>> 30)) * 0xBF58476D1CE4E5B9
  let z := (z ^^^ (z >>> 27)) * 0x94D049BB133111EB
  ⟨z ^^^ (z >>> 31)⟩

def nextU64 (rng : ImplRng) : UInt64 × ImplRng :=
  let state := rng.state + 0x9E3779B97F4A7C15
  let z := (state ^^^ (state >>> 30)) * 0xBF58476D1CE4E5B9
  let z := (z ^^^ (z >>> 27)) * 0x94D049BB133111EB
  (z ^^^ (z >>> 31), ⟨state⟩)

/-- An index below `n`, from the high bits of the stream. -/
def nextBelow (rng : ImplRng) (n : Nat) : Nat × ImplRng :=
  if n = 0 then (0, rng) else
    let (z, rng) := rng.nextU64
    ((z >>> 40).toNat % n, rng)

end ImplRng

/-! ## Encoder -/

/-- The source symbols of a generation: owned, or slices of one shared buffer. -/
inductive Source
  | owned (symbols : List (List UInt8))
  | shared (buf : List UInt8) (offset stride k : Nat)
  deriving DecidableEq

namespace Source

def k : Source → Nat
  | owned symbols => symbols.length
  | shared _ _ _ k => k

def symbolSize : Source → Nat
  | owned symbols => (symbols.headD []).length
  | shared _ _ stride _ => stride

def src : Source → Nat → List UInt8
  | owned symbols, i => symbols.getD i []
  | shared buf offset stride _, i => (buf.drop (offset + i * stride)).take stride

end Source

/-- The encoder of one generation. -/
structure FountainEncoder where
  source : Source
  generation : UInt32
  repairIndex : UInt64 := 0
  deriving DecidableEq

namespace FountainEncoder

def new (source : List (List UInt8)) (generation : UInt32) :
    Except FountainError FountainEncoder :=
  match source with
  | [] => .error .empty
  | first :: _ =>
      match source.find? fun s => s.length ≠ first.length with
      | some s => .error (.sizeMismatch first.length s.length)
      | none => .ok { source := .owned source, generation }

def newShared (buf : List UInt8) (offset stride k : Nat) (generation : UInt32) :
    Except FountainError FountainEncoder :=
  if k = 0 ∨ stride = 0 then
    .error .empty
  else
    match (checkedMul k stride).bind (checkedAdd offset) with
    | none => .error (.sizeMismatch offset stride)
    | some stop =>
        if stop > buf.length then .error (.sizeMismatch buf.length stop)
        else .ok { source := .shared buf offset stride k, generation }

/-- The wire form of a coded symbol: `count:u16 (index:u16 coeff:u8)* payload`. -/
def wireSymbol (pairs : List (Nat × UInt8)) (payload : List UInt8) : List UInt8 :=
  toLe 2 pairs.length ++ pairs.flatMap (fun e => toLe 2 e.1 ++ [e.2]) ++ payload

/-- Draw source indices until `degree` distinct ones are chosen or the draws run out. -/
def chooseIndices (k degree : Nat) : Nat → ImplRng → List Nat → List Nat × ImplRng
  | 0, rng, chosen => (chosen, rng)
  | draws + 1, rng, chosen =>
      if chosen.length < degree then
        let (idx, rng) := rng.nextBelow k
        chooseIndices k degree draws rng (if idx ∈ chosen then chosen else chosen ++ [idx])
      else (chosen, rng)

/-- One odd coefficient for every chosen index. -/
def drawCoeffs : List Nat → ImplRng → List (Nat × UInt8)
  | [], _ => []
  | idx :: rest, rng =>
      let (z, rng) := rng.nextU64
      (idx, z.toUInt8 ||| 1) :: drawCoeffs rest rng

/-- Mix the chosen source symbols. -/
def mix (source : Source) (pairs : List (Nat × UInt8)) : List UInt8 :=
  pairs.foldl (fun payload e => axpy payload e.2 (source.src e.1))
    (List.replicate source.symbolSize 0)

variable [FloatChoices]

/-- A degree between 1 and `k` from the first draw of the stream. -/
def solitonDegree (k : Nat) (rng : ImplRng) : Nat × ImplRng :=
  let (z, rng) := rng.nextU64
  (max 1 (min (FloatChoices.solitonIndex k (z >>> 11) + 1) k), rng)

def repairSymbol (enc : FountainEncoder) : List UInt8 × FountainEncoder :=
  let k := enc.source.k
  let enc := { enc with repairIndex := enc.repairIndex + 1 }
  let rng := ImplRng.new ((enc.generation.toUInt64 <<< (40 : UInt64)) ||| enc.repairIndex)
  let (degree, rng) := solitonDegree k rng
  let (chosen, rng) := chooseIndices k degree (10 * k) rng []
  let pairs := drawCoeffs chosen rng
  (wireSymbol pairs (mix enc.source pairs), enc)

def repairSymbols (enc : FountainEncoder) : Nat → List (List UInt8) × FountainEncoder
  | 0 => ([], enc)
  | n + 1 =>
      let (wire, enc) := enc.repairSymbol
      let (rest, enc) := enc.repairSymbols n
      (wire :: rest, enc)

/-- `count` coded symbols: the sources verbatim, then repair symbols. -/
def produce (enc : FountainEncoder) (count : Nat) : List (List UInt8) × FountainEncoder :=
  let k := enc.source.k
  let systematic := (List.range (min count k)).map fun i => wireSymbol [(i, 1)] (enc.source.src i)
  let (repair, enc) := enc.repairSymbols (count - k)
  (systematic ++ repair, enc)

end FountainEncoder

/-! ## Decoder -/

/-- A parsed equation: the covered sources with their coefficients, and the value. -/
structure ParsedSym where
  cover : List (Nat × UInt8)
  payload : List UInt8
  deriving DecidableEq

/-- Store a coefficient under an index, replacing an earlier one. -/
def coverInsert (cover : List (Nat × UInt8)) (idx : Nat) (c : UInt8) : List (Nat × UInt8) :=
  cover.filter (fun e => e.1 ≠ idx) ++ [(idx, c)]

/-- Read `n` coefficient entries, ignoring zero and out-of-range ones. -/
def parseCover (k : Nat) : Nat → List UInt8 → List (Nat × UInt8) → List (Nat × UInt8)
  | 0, _, cover => cover
  | n + 1, bytes, cover =>
      let idx := ofLe (bytes.take 2)
      let c := bytes.getD 2 0
      parseCover k n (bytes.drop 3) (if idx < k ∧ c ≠ 0 then coverInsert cover idx c else cover)

/-- The state of the peeling decoder. Positions outside a vector read as empty. -/
structure Peel where
  syms : List ParsedSym
  revealed : List (Option (List UInt8))
  /-- For every source, the equations that may still cover it. -/
  covers : List (List Nat)
  degree : List Nat
  queue : List Nat

namespace Peel

def sym (st : Peel) (si : Nat) : ParsedSym := st.syms.getD si ⟨[], []⟩
def value (st : Peel) (src : Nat) : Option (List UInt8) := st.revealed.getD src none
def coverers (st : Peel) (src : Nat) : List Nat := st.covers.getD src []
def deg (st : Peel) (si : Nat) : Nat := st.degree.getD si 0

def init (syms : List ParsedSym) (k : Nat) : Peel :=
  let degree := syms.map fun sym => sym.cover.length
  { syms
    revealed := List.replicate k none
    covers := (List.range k).map fun src => (List.range syms.length).filter fun si =>
      src ∈ (syms.getD si ⟨[], []⟩).cover.map Prod.fst
    degree
    queue := (List.range syms.length).filter fun si => degree.getD si 0 = 1 }

/-- Remove a revealed source from an equation that covers it with coefficient `c`.
An equation left with one unknown enters the queue. -/
def substitute (st : Peel) (sj target : Nat) (c : UInt8) (x : List UInt8) : Peel :=
  { st with
    syms := st.syms.set sj
      ⟨(st.sym sj).cover.filter fun e => e.1 ≠ target, axpy (st.sym sj).payload c x⟩
    degree := st.degree.set sj (st.deg sj - 1)
    queue := if st.deg sj - 1 = 1 then st.queue ++ [sj] else st.queue }

/-- Substitute a revealed value into one dependent of its source. -/
def ripple (si target : Nat) (x : List UInt8) (st : Peel) (sj : Nat) : Peel :=
  if sj = si ∨ st.deg sj = 0 then st
  else
    match (st.sym sj).cover.lookup target with
    | none => st
    | some c => st.substitute sj target c x

/-- Reveal one source from an equation and substitute it everywhere else. -/
def reveal (st : Peel) (si target : Nat) (coeff : UInt8) : Peel :=
  let x := scalInplace (st.sym si).payload (gfInv coeff)
  let dependents := st.coverers target
  let st := { st with
    syms := st.syms.set si { st.sym si with payload := [] }
    degree := st.degree.set si 0
    covers := st.covers.set target [] }
  let st := dependents.foldl (ripple si target x) st
  { st with revealed := st.revealed.set target (some x) }

/-- Process the equation at the head of the queue. -/
def pop (st : Peel) (si : Nat) (queue : List Nat) : Peel :=
  let st := { st with queue }
  if st.deg si = 0 then st
  else
    match (st.sym si).cover.find? fun e => (st.value e.1).isNone with
    | none => { st with degree := st.degree.set si 0 }
    | some (target, coeff) => st.reveal si target coeff

/-- At most `fuel` pops of the queue. -/
def run : Nat → Peel → Peel
  | 0, st => st
  | fuel + 1, st =>
      match st.queue with
      | [] => st
      | si :: queue => run fuel (st.pop si queue)

/-- Twice the open degrees plus the queue length: every pop lowers it. -/
def work (st : Peel) : Nat := 2 * st.degree.sum + st.queue.length

/-- The unrevealed part of one equation as a row `coefficients | payload`. -/
def residualRow (st : Peel) (unknowns : List Nat) (sym : ParsedSym) : Option (List UInt8) :=
  let entries := sym.cover.filter fun e => (st.value e.1).isNone
  if sym.payload = [] ∨ entries = [] then none
  else
    some (entries.foldl (fun row e => row.modify (unknowns.idxOf e.1) (· ^^^ e.2))
      (List.replicate unknowns.length 0) ++ sym.payload)

/-- Write the solved rows back to their sources. -/
def publish (revealed : List (Option (List UInt8))) (unknowns : List Nat) (row : List UInt8) :
    List (Option (List UInt8)) :=
  match (List.range unknowns.length).find? fun c => row.getD c 0 ≠ 0 with
  | none => revealed
  | some piv => revealed.set (unknowns.getD piv 0) (some (row.drop unknowns.length))

/-- Solve the system that peeling leaves behind. -/
def residual (st : Peel) (k s : Nat) (unknowns : List Nat) :
    Except FountainError (List (List UInt8)) :=
  let r := unknowns.length
  let (rank, mat) := gfGaussEliminate (st.syms.filterMap (st.residualRow unknowns)) (r + s) r
  if rank < r then .error (.underdetermined rank r)
  else
    let revealed := mat.foldl (fun revealed row => publish revealed unknowns row) st.revealed
    if revealed.any Option.isNone then .error (.underdetermined rank k)
    else .ok (revealed.map fun o => o.getD [])

end Peel

/-- Peel, then solve the residual system. The equations are updated in place, also
when the decode fails. -/
def peelSymbols (syms : List ParsedSym) (k s : Nat) :
    Except FountainError (List (List UInt8)) × List ParsedSym :=
  let st := (Peel.init syms k).run (Peel.init syms k).work
  let unknowns := (List.range k).filter fun i => (st.value i).isNone
  if unknowns = [] then (.ok (st.revealed.map fun o => o.getD []), st.syms)
  else (st.residual k s unknowns, st.syms)

/-- The decoder of one generation. -/
structure FountainDecoder where
  k : Nat
  symbolSize : Nat
  syms : List ParsedSym := []
  deriving DecidableEq

namespace FountainDecoder

def new (k symbolSize : Nat) : FountainDecoder := { k, symbolSize }

/-- Ingest one wire symbol; `false` when it carries no information. -/
def add (d : FountainDecoder) (wire : List UInt8) :
    Except FountainError (Bool × FountainDecoder) :=
  if wire.length < 2 then
    .error (.sizeMismatch wire.length 2)
  else
    let ncoeffs := ofLe (wire.take 2)
    let headerLen := 2 + ncoeffs * 3
    if wire.length < headerLen + d.symbolSize then
      .error (.sizeMismatch wire.length (headerLen + d.symbolSize))
    else
      let cover := parseCover d.k ncoeffs (wire.drop 2) []
      if cover = [] then .ok (false, d)
      else
        let payload := (wire.drop headerLen).take d.symbolSize
        .ok (true, { d with syms := d.syms ++ [⟨cover, payload⟩] })

/-- Ingest the symbols of a frame up to the first malformed one. -/
def addAll (d : FountainDecoder) : List (List UInt8) → Except FountainError Unit × FountainDecoder
  | [] => (.ok (), d)
  | wire :: rest =>
      match d.add wire with
      | .error e => (.error e, d)
      | .ok (_, d) => d.addAll rest

/-- Attempt to decode. -/
def decode (d : FountainDecoder) :
    Except FountainError (List (List UInt8)) × FountainDecoder :=
  if d.syms.length < d.k then
    (.error (.underdetermined d.syms.length d.k), d)
  else
    let (result, syms) := peelSymbols d.syms d.k d.symbolSize
    (result, { d with syms })

end FountainDecoder

end Dlr.Coding
