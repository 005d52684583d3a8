import Dlr.Core.Block

/-!
# Per-block compression

Compressed bytes carry a marker: `0x00` for passthrough and `0x01` for a zstd
frame. Passthrough is used for tiny inputs and whenever zstd does not shrink
the input, so the output is never more than one byte longer than the input.

## Implementation notes

The zstd library is a parameter. Its encoder and decoder contexts are cached
per thread; here a call depends only on the level, the dictionary and the input.
-/

namespace Dlr.Compress

/-- The operations of the zstd library. -/
class Zstd where
  /-- Compress an input at a level with a (possibly empty) dictionary. -/
  compress : Int → List UInt8 → List UInt8 → Except String (List UInt8)
  /-- Decompress a frame with a dictionary into a buffer of the given capacity. -/
  decompress : List UInt8 → List UInt8 → Nat → Except String (List UInt8)
  /-- The content size stored in a frame header. -/
  frameContentSize : List UInt8 → Except String (Option Nat)

/-- A codec that stores its input, on which the model can be evaluated. -/
@[reducible] def storedZstd : Zstd where
  compress := fun _ _ input => .ok input
  decompress := fun _ frame _ => .ok frame
  frameContentSize := fun frame => .ok (some frame.length)

/-- A codec whose encoder fails, as on a failed allocation. -/
@[reducible] def refusingZstd : Zstd where
  compress := fun _ _ _ => .error "Allocation error : not enough memory"
  decompress := fun _ frame _ => .ok frame
  frameContentSize := fun frame => .ok (some frame.length)

/-- A frame the encoder writes carries the size of its content, and the decoder restores the
content with the same dictionary in any buffer that is large enough. -/
def Zstd.Inverts [Zstd] : Prop :=
  ∀ level dict input z, Zstd.compress level dict input = .ok z →
    Zstd.frameContentSize z = .ok (some input.length) ∧
      ∀ cap, input.length ≤ cap → Zstd.decompress dict z cap = .ok input

inductive CompressError
  | encode (message : String)
  | decode (message : String)
  | dictId (expected got : UInt64)
  deriving DecidableEq, Repr

def CompressError.toText : CompressError → String
  | encode message => "zstd encode: " ++ message
  | decode message => "zstd decode: " ++ message
  | dictId expected got =>
      "dictionary id mismatch: expected " ++ toString expected ++ " got " ++ toString got

/-- A compression dictionary with the id the wire refers to. -/
structure Dict where
  id : UInt64
  content : List UInt8
  deriving DecidableEq

def Dict.empty : Dict := ⟨0, []⟩

/-- A per-block compressor over one dictionary. -/
structure Compressor where
  dict : Dict
  level : Int
  minBlock : Nat := 32
  deriving DecidableEq

namespace Compressor

def default : Compressor := ⟨Dict.empty, 19, 32⟩

def withLevel (c : Compressor) (level : Int) : Compressor := { c with level := level }

variable [Zstd]

/-- Compress a block, or pass it through behind a `0x00` marker. -/
def compress (c : Compressor) (input : List UInt8) : Except CompressError (List UInt8) :=
  if input.length < c.minBlock then
    .ok (0x00 :: input)
  else
    match Zstd.compress c.level c.dict.content input with
    | .error e => .error (.encode e)
    | .ok compressed =>
        if compressed.length + 1 ≥ input.length then
          .ok (0x00 :: input)
        else
          .ok (0x01 :: compressed)

/-- The size of the output buffer: the content size of the frame, or a guess. -/
def outputCap (body : List UInt8) : Nat :=
  match Zstd.frameContentSize body with
  | .ok (some s) => s
  | .ok none | .error _ => body.length * 64 + 2 ^ 20

/-- Invert `compress`; the marker selects the path. -/
def decompress (c : Compressor) (input : List UInt8) : Except CompressError (List UInt8) :=
  match input with
  | [] => .error (.decode "empty input")
  | marker :: body =>
      if marker = 0x00 then
        .ok body
      else if marker = 0x01 then
        match Zstd.decompress c.dict.content body (outputCap body) with
        | .error e => .error (.decode e)
        | .ok out => .ok out
      else
        .error (.decode ("unknown marker 0x" ++ String.ofList (Nat.toDigits 16 marker.toNat)))

/-- The receiving side restores whatever the sending side compressed. -/
def RoundTrips (sender receiver : Compressor) : Prop :=
  ∀ input, ∃ z, sender.compress input = .ok z ∧ receiver.decompress z = .ok input

/-- A block is passed through, or compressed to something shorter. -/
theorem compress_cases {c : Compressor} {input z : List UInt8} (h : c.compress input = .ok z) :
    z = 0x00 :: input ∨
      ∃ compressed, Zstd.compress c.level c.dict.content input = .ok compressed ∧
        compressed.length + 1 < input.length ∧ z = 0x01 :: compressed := by
  unfold compress at h
  split_ifs at h with hshort
  · cases h
    exact Or.inl rfl
  · cases hz : Zstd.compress c.level c.dict.content input with
    | error e =>
        rw [hz] at h
        cases h
    | ok compressed =>
        simp only [hz] at h
        split_ifs at h with hlong
        · cases h
          exact Or.inl rfl
        · cases h
          exact Or.inr ⟨compressed, rfl, Nat.lt_of_not_le hlong, rfl⟩

/-- Compressed output starts with its marker byte. -/
theorem compress_ne_nil {c : Compressor} {input z : List UInt8}
    (h : c.compress input = .ok z) : z ≠ [] := by
  obtain rfl | ⟨compressed, -, -, rfl⟩ := compress_cases h
  · exact List.cons_ne_nil _ _
  · exact List.cons_ne_nil _ _

/-- Compression never expands by more than the marker byte. -/
theorem length_compress_le {c : Compressor} {input z : List UInt8}
    (h : c.compress input = .ok z) : z.length ≤ input.length + 1 := by
  obtain rfl | ⟨compressed, -, hshorter, rfl⟩ := compress_cases h
  · exact le_of_eq List.length_cons
  · rw [List.length_cons]
    omega

/-- Compression succeeds when the encoder is not asked or does not fail. -/
theorem compress_ok_iff {c : Compressor} {input : List UInt8} :
    (∃ z, c.compress input = .ok z) ↔
      input.length < c.minBlock ∨ ∃ z, Zstd.compress c.level c.dict.content input = .ok z := by
  unfold compress
  split_ifs with hshort
  · simp [hshort]
  · cases hz : Zstd.compress c.level c.dict.content input with
    | error e => simp [hshort]
    | ok z => by_cases hlong : z.length + 1 ≥ input.length <;> simp [hlong]

/-- Whatever is compressed is restored under the same dictionary. -/
theorem decompress_compress {c c' : Compressor} (hinv : Zstd.Inverts)
    (hdict : c'.dict.content = c.dict.content) {input z : List UInt8}
    (h : c.compress input = .ok z) : c'.decompress z = .ok input := by
  obtain rfl | ⟨compressed, hz, -, rfl⟩ := compress_cases h
  · rfl
  · obtain ⟨hsize, hdec⟩ := hinv _ _ _ _ hz
    have hcap : outputCap compressed = input.length := by simp only [outputCap, hsize]
    simp only [decompress, hdict, hcap, hdec _ le_rfl, if_neg (by decide : ¬ (1 : UInt8) = 0),
      if_pos]

omit [Zstd] in
/-- A codec that never shrinks its input leaves every block to the passthrough path. -/
theorem compress_storedZstd (c : Compressor) (input : List UInt8) :
    letI := storedZstd
    c.compress input = .ok (0x00 :: input) := by
  unfold compress
  split
  · rfl
  · exact if_pos (Nat.le_succ _)

omit [Zstd] in
theorem roundTrips_storedZstd (sender receiver : Compressor) :
    letI := storedZstd
    RoundTrips sender receiver :=
  fun input => ⟨0x00 :: input, compress_storedZstd sender input, rfl⟩

end Compressor

end Dlr.Compress
