import Dlr.Receiver.Receiver

/-!
# The chat envelope

A chat request travels as `DLR1 | version | metadata length | metadata | frame`. The
metadata is JSON; the messages of the conversation are the payloads of the blocks in the
frame, as JSON objects.

## Implementation notes

The JSON library is a parameter: its printer, and its parsers into a value and into the
two derived record types. A value lists the members of an object in the order in which
they were read, so that a duplicate key stays visible: a map keeps the last of them, while
a derived record refuses them.
-/

namespace Dlr.Sidecar

open Dlr.Core Lib.Bytes Lib.Machine

/-- A JSON value. -/
inductive Value
  | null
  | bool (b : Bool)
  | number (text : String)
  | string (s : String)
  | array (items : List Value)
  | object (members : List (String × Value))

namespace Value

def asObject : Value → Option (List (String × Value))
  | object members => some members
  | _ => none

def asStr : Value → Option String
  | string s => some s
  | _ => none

/-- The entry of a map that was filled in the order of the members: the last one counts. -/
def getMember (key : String) : List (String × Value) → Option Value
  | [] => none
  | (k, v) :: rest => (getMember key rest).or (if k = key then some v else none)

def containsKey (members : List (String × Value)) (key : String) : Bool :=
  (getMember key members).isSome

/-- The derived record of a single `role` string: an object with exactly one such member,
or an array of exactly that field. -/
def messageRole : Value → Option String
  | object members =>
      match members.filter fun m => m.1 = "role" with
      | [(_, string s)] => some s
      | _ => none
  | array [string s] => some s
  | _ => none

end Value

/-- The operations of the JSON library. -/
class SerdeJson where
  toVec : Value → List UInt8
  /-- Parse a document into a value. -/
  fromSlice : List UInt8 → Except String Value
  /-- The document as a derived record walks it, skipping what it has no field for. -/
  structFromSlice : List UInt8 → Except String Value
  /-- Parse the metadata record and return its `request` field. -/
  metadataFromSlice : List UInt8 → Except String Value
  /-- Skipping checks less than parsing and sees the same members. -/
  structFromSlice_of_fromSlice : ∀ {doc : List UInt8} {v : Value},
    fromSlice doc = .ok v → structFromSlice doc = .ok v

mutual

/-- Compact JSON text, for strings that need no escape. -/
def Value.print : Value → List UInt8
  | .null => [0x6E, 0x75, 0x6C, 0x6C]
  | .bool true => [0x74, 0x72, 0x75, 0x65]
  | .bool false => [0x66, 0x61, 0x6C, 0x73, 0x65]
  | .number text => text.toUTF8.data.toList
  | .string s => [0x22] ++ s.toUTF8.data.toList ++ [0x22]
  | .array items => [0x5B] ++ Value.printItems items ++ [0x5D]
  | .object members => [0x7B] ++ Value.printMembers members ++ [0x7D]

def Value.printItems : List Value → List UInt8
  | [] => []
  | v :: rest => v.print ++ (if rest.isEmpty then [] else [0x2C]) ++ Value.printItems rest

def Value.printMembers : List (String × Value) → List UInt8
  | [] => []
  | (key, v) :: rest =>
      [0x22] ++ key.toUTF8.data.toList ++ [0x22, 0x3A] ++ v.print ++
        (if rest.isEmpty then [] else [0x2C]) ++ Value.printMembers rest

end

/-- A library that reads back the given documents, on which the model can be evaluated. -/
@[reducible] def sampleJson (docs : List Value) : SerdeJson where
  toVec := Value.print
  fromSlice := fun doc => (docs.find? fun v => v.print = doc).elim (.error "expected value") .ok
  structFromSlice := fun doc =>
    (docs.find? fun v => v.print = doc).elim (.error "expected value") .ok
  metadataFromSlice := fun doc =>
    (docs.find? fun v => (Value.object [("request", v)]).print = doc).elim
      (.error "expected value") .ok
  structFromSlice_of_fromSlice := fun h => h

inductive SidecarError
  | envelope (message : String)
  | metadata (message : String)
  | frame (message : String)
  | receiver (error : ReceiverError)
  | requestNotObject
  | messagesInMetadata
  | invalidMessage (index : Nat)
  | requestInFlight
  deriving DecidableEq

def SidecarError.toText : SidecarError → String
  | envelope message => "invalid DLR envelope: " ++ message
  | metadata message => "invalid request metadata: " ++ message
  | frame message => "invalid DLR frame: " ++ message
  | receiver error => "receiver: " ++ error.toText
  | requestNotObject => "request metadata must be a JSON object"
  | messagesInMetadata => "request metadata must not contain messages"
  | invalidMessage index =>
      "session block " ++ toString index ++ " is not a valid OpenAI message object"
  | requestInFlight => "a prepared chat append is already awaiting an ACK"

def protocolVersion : Nat := 1
/-- The bytes `DLR1`. -/
def magic : List UInt8 := [0x44, 0x4C, 0x52, 0x31]
def maxMetadataBytes : Nat := 2 * 1024 * 1024
def maxRequestBytes : Nat := 64 * 1024 * 1024

structure ChatEnvelope where
  /-- Request fields excluding `messages`. -/
  request : Value
  frame : List UInt8

namespace ChatEnvelope

def encodeParts (metadata frame : List UInt8) : Except SidecarError (List UInt8) :=
  if metadata.length > maxMetadataBytes then
    .error (.envelope "metadata exceeds 2 MiB")
  else
    match (((checkedAdd 4 2).bind fun n => checkedAdd n 4).bind fun n =>
        checkedAdd n metadata.length).bind fun n => checkedAdd n frame.length with
    | none => .error (.envelope "length overflow")
    | some total =>
        if total > maxRequestBytes then
          .error (.envelope "request exceeds 64 MiB")
        else
          .ok (magic ++ toLe 2 protocolVersion ++ toLe 4 metadata.length ++ metadata ++ frame)

def decode [SerdeJson] (body : List UInt8) : Except SidecarError ChatEnvelope :=
  if body.length < 10 ∨ body.take 4 ≠ magic then
    .error (.envelope "bad magic or truncated header")
  else if ofLe (slice body 4 6) ≠ protocolVersion then
    .error (.envelope "unsupported protocol version")
  else
    let metadataLen := ofLe (slice body 6 10)
    if metadataLen > maxMetadataBytes then
      .error (.envelope "metadata exceeds 2 MiB")
    else
      match checkedAdd 10 metadataLen with
      | none => .error (.envelope "length overflow")
      | some frameStart =>
          if frameStart ≥ body.length then
            .error (.envelope "missing frame")
          else
            match SerdeJson.metadataFromSlice (slice body 10 frameStart) with
            | .error e => .error (.metadata e)
            | .ok request => .ok ⟨request, body.drop frameStart⟩

/-- An envelope that fits is encoded. -/
theorem encodeParts_ok {metadata frame : List UInt8} (hmeta : metadata.length ≤ maxMetadataBytes)
    (htotal : 10 + metadata.length + frame.length ≤ maxRequestBytes) :
    encodeParts metadata frame = .ok (magic ++ toLe 2 protocolVersion ++
      toLe 4 metadata.length ++ metadata ++ frame) := by
  simp only [maxMetadataBytes, maxRequestBytes] at hmeta htotal
  have husize : usizeMax = 2 ^ 64 - 1 := rfl
  unfold encodeParts
  rw [if_neg (by simp only [maxMetadataBytes]; omega), checkedAdd_of_le (by omega),
    Option.bind_some, checkedAdd_of_le (by omega), Option.bind_some, checkedAdd_of_le (by omega),
    Option.bind_some, checkedAdd_of_le (by omega)]
  exact if_neg (by simp only [maxRequestBytes]; omega)

/-- What is encoded is within the limit of a request. -/
theorem length_le_of_encodeParts {metadata frame body : List UInt8}
    (h : encodeParts metadata frame = .ok body) : body.length ≤ maxRequestBytes := by
  unfold encodeParts at h
  split_ifs at h
  split at h
  · cases h
  · rename_i total hadd
    split_ifs at h with hmax
    cases h
    obtain ⟨n, hn, hlast⟩ := Option.bind_eq_some_iff.mp hadd
    obtain ⟨m, hm, hmeta⟩ := Option.bind_eq_some_iff.mp hn
    obtain ⟨k, hk, hten⟩ := Option.bind_eq_some_iff.mp hm
    have hsix := checkedAdd_eq_some hk
    have hten' := checkedAdd_eq_some hten
    have hmeta' := checkedAdd_eq_some hmeta
    have hlast' := checkedAdd_eq_some hlast
    simp only [List.length_append, length_toLe, magic, List.length_cons, List.length_nil]
    omega

/-- An envelope decodes to its frame, if there is one, and whatever its metadata parses to. -/
theorem decode_parts [SerdeJson] {metadata frame body : List UInt8}
    (hmeta : metadata.length ≤ maxMetadataBytes)
    (hbody : body = magic ++ toLe 2 protocolVersion ++ toLe 4 metadata.length ++ metadata ++ frame) :
    decode body =
      if frame = [] then .error (.envelope "missing frame")
      else match SerdeJson.metadataFromSlice metadata with
        | .error e => .error (.metadata e)
        | .ok request => .ok ⟨request, frame⟩ := by
  have hmax : metadata.length < 256 ^ 4 := by
    simp only [maxMetadataBytes] at hmeta
    omega
  have husize : usizeMax = 2 ^ 64 - 1 := rfl
  have hlen : ofLe (slice body 6 10) = metadata.length := by
    have hfield : slice body 6 10 = toLe 4 metadata.length := by
      rw [hbody, List.append_assoc, List.append_assoc]
      simp [slice, magic, toLe]
    rw [hfield, ofLe_toLe hmax]
  have hhead : body = (magic ++ toLe 2 protocolVersion ++ toLe 4 metadata.length) ++
      (metadata ++ frame) := by rw [hbody, List.append_assoc]
  have hsize : (magic ++ toLe 2 protocolVersion ++ toLe 4 metadata.length).length = 10 := by
    simp [magic]
  have hdrop : body.drop (10 + metadata.length) = frame := by
    rw [hbody]
    apply List.drop_left'
    rw [List.length_append, hsize]
  have hslice : slice body 10 (10 + metadata.length) = metadata := by
    rw [slice, hhead, List.drop_left' hsize, Nat.add_sub_cancel_left, List.take_left' rfl]
  have htotal : body.length = 10 + metadata.length + frame.length := by
    rw [hbody, List.length_append, List.length_append, hsize]
  have hmissing : 10 + metadata.length ≥ body.length ↔ frame = [] := by
    rw [htotal, ← List.length_eq_zero_iff]
    omega
  have hmagic : ¬ (body.length < 10 ∨ body.take 4 ≠ magic) := by
    have hstart : body.take 4 = magic := by
      rw [hhead]
      rfl
    have hten : ¬ body.length < 10 := by omega
    simp [hstart, hten]
  have hversion : ofLe (slice body 4 6) = protocolVersion := by
    rw [hhead]
    rfl
  unfold decode
  rw [if_neg hmagic, if_neg (not_not.mpr hversion)]
  simp only [hlen, checkedAdd_of_le (show 10 + metadata.length ≤ usizeMax by omega), hslice, hdrop,
    hmissing]
  rw [if_neg (Nat.not_lt.mpr hmeta)]

/-- Decoding never changes the frame bytes. -/
theorem frame_of_decode [SerdeJson] {metadata frame body : List UInt8} {env : ChatEnvelope}
    (hmeta : metadata.length ≤ maxMetadataBytes)
    (hbody : body = magic ++ toLe 2 protocolVersion ++ toLe 4 metadata.length ++ metadata ++ frame)
    (h : decode body = .ok env) : env.frame = frame := by
  rw [decode_parts hmeta hbody] at h
  split_ifs at h
  split at h
  · cases h
  · cases h
    rfl

end ChatEnvelope

end Dlr.Sidecar
