import Dlr.Sidecar.Server

/-!
# Responses on the wire

An acknowledged root travels as 64 hexadecimal digits in a header of the response. A
response that went upstream carries the gateway's own headers too, except those that
belong to one connection and the two headers that carry roots: nothing the gateway answers
can be taken for an acknowledgement.

## Implementation notes

Header names are lower case, as the header type of the HTTP library keeps them. The body of
a streamed response is the list of its bytes.
-/

namespace Dlr.Sidecar

open Dlr.Core Lib.Machine

/-! ## Roots as text -/

/-- The table of the digits, `0` to `f`. -/
def hexTable : List UInt8 :=
  [0x30, 0x31, 0x32, 0x33, 0x34, 0x35, 0x36, 0x37, 0x38, 0x39, 0x61, 0x62, 0x63, 0x64, 0x65, 0x66]

def hexPair (b : UInt8) : List UInt8 :=
  [hexTable.getD (b >>> 4).toNat 0, hexTable.getD (b &&& 0x0F).toNat 0]

def rootHex (root : MerkleRoot) : List UInt8 := root.bytes.flatMap hexPair

def hexNibble (value : UInt8) : Option UInt8 :=
  if 0x30 ≤ value ∧ value ≤ 0x39 then some (value - 0x30)
  else if 0x61 ≤ value ∧ value ≤ 0x66 then some (value - 0x61 + 10)
  else if 0x41 ≤ value ∧ value ≤ 0x46 then some (value - 0x41 + 10)
  else none

/-- The bytes that pairs of digits stand for. -/
def parsePairs : List UInt8 → Option (List UInt8)
  | hi :: lo :: rest => do
      let h ← hexNibble hi
      let l ← hexNibble lo
      let bytes ← parsePairs rest
      return (h <<< 4 ||| l) :: bytes
  | _ => some []

def parseRootHex (value : List UInt8) : Option MerkleRoot :=
  if value.length ≠ 64 then none
  else (parsePairs value).bind fun bytes => if h : bytes.length = 32 then some ⟨bytes, h⟩ else none

section Hex

/-- A digit with its letter in lower case. -/
def lowerDigit (value : UInt8) : UInt8 :=
  if 0x41 ≤ value ∧ value ≤ 0x46 then value + 0x20 else value

theorem forall_byte {P : UInt8 → Prop} (h : ∀ n ∈ List.range 256, P (UInt8.ofNat n)) (b : UInt8) :
    P b := by
  have hb := h b.toNat (List.mem_range.mpr b.toNat_lt)
  rwa [UInt8.ofNat_toNat] at hb

/-- A digit is read to a value below sixteen, which is written as the digit in lower case. -/
theorem hexNibble_spec {value n : UInt8} (h : hexNibble value = some n) :
    n < 16 ∧ hexTable.getD n.toNat 0 = lowerDigit value := by
  have hall := forall_byte (P := fun value => (hexNibble value).all fun m =>
    m < 16 ∧ hexTable.getD m.toNat 0 = lowerDigit value) (by decide +kernel) value
  rw [h, Option.all_some] at hall
  exact of_decide_eq_true hall

theorem lowerDigit_table {value n : UInt8} (hn : n < 16)
    (h : lowerDigit value = hexTable.getD n.toNat 0) : hexNibble value = some n := by
  have hall := forall_byte (P := fun value => ∀ m ∈ List.range 16,
    lowerDigit value = hexTable.getD m 0 → hexNibble value = some (UInt8.ofNat m))
    (by decide +kernel) value n.toNat (List.mem_range.mpr (UInt8.lt_iff_toNat_lt.mp hn)) h
  rwa [UInt8.ofNat_toNat] at hall

theorem nibbles {h l : UInt8} (hh : h < 16) (hl : l < 16) :
    (h <<< 4 ||| l) >>> 4 = h ∧ (h <<< 4 ||| l) &&& 0x0F = l := by
  have hall : ∀ h ∈ List.range 16, ∀ l ∈ List.range 16,
      (UInt8.ofNat h <<< 4 ||| UInt8.ofNat l) >>> 4 = UInt8.ofNat h ∧
        (UInt8.ofNat h <<< 4 ||| UInt8.ofNat l) &&& 0x0F = UInt8.ofNat l := by decide +kernel
  have hone := hall h.toNat (List.mem_range.mpr (UInt8.lt_iff_toNat_lt.mp hh)) l.toNat
    (List.mem_range.mpr (UInt8.lt_iff_toNat_lt.mp hl))
  simpa only [UInt8.ofNat_toNat] using hone

/-- A byte is read from its two digits, in either case, and from nothing else. -/
theorem pair_spec {hi lo b : UInt8} :
    ((do let h ← hexNibble hi; let l ← hexNibble lo; return h <<< 4 ||| l) = some b) ↔
      [lowerDigit hi, lowerDigit lo] = hexPair b := by
  have hhigh : ∀ b : UInt8, b >>> 4 < 16 ∧ b &&& 0x0F < 16 ∧ b >>> 4 <<< 4 ||| b &&& 0x0F = b :=
    forall_byte (by decide +kernel)
  constructor
  · intro h
    obtain ⟨x, hx, h⟩ := Option.bind_eq_some_iff.mp h
    obtain ⟨y, hy, h⟩ := Option.bind_eq_some_iff.mp h
    obtain rfl := Option.some.inj h
    obtain ⟨hxlt, hxdigit⟩ := hexNibble_spec hx
    obtain ⟨hylt, hydigit⟩ := hexNibble_spec hy
    obtain ⟨hxhalf, hyhalf⟩ := nibbles hxlt hylt
    rw [hexPair, hxhalf, hyhalf, hxdigit, hydigit]
  · intro h
    simp only [hexPair, List.cons.injEq, and_true] at h
    obtain ⟨hx, hy, hb⟩ := hhigh b
    rw [lowerDigit_table hx h.1, lowerDigit_table hy h.2]
    exact congrArg some hb

theorem parsePairs_eq_some_iff {value bytes : List UInt8} (heven : value.length % 2 = 0) :
    parsePairs value = some bytes ↔ value.map lowerDigit = bytes.flatMap hexPair := by
  induction value using parsePairs.induct generalizing bytes with
  | case1 hi lo rest ih =>
      have hrest : rest.length % 2 = 0 := by
        simp only [List.length_cons] at heven
        omega
      have hsplit : parsePairs (hi :: lo :: rest) =
          ((do let h ← hexNibble hi; let l ← hexNibble lo; return h <<< 4 ||| l).bind fun b =>
            (parsePairs rest).map (b :: ·)) := by
        rw [parsePairs]
        cases hexNibble hi with
        | none => rfl
        | some h =>
            cases hexNibble lo with
            | none => rfl
            | some l => cases parsePairs rest <;> rfl
      rw [hsplit, Option.bind_eq_some_iff]
      simp only [Option.map_eq_some_iff, ih hrest, pair_spec]
      cases bytes with
      | nil => simp
      | cons b tail =>
          constructor
          · rintro ⟨b', hpair, tail', htail, heq⟩
            obtain ⟨rfl, rfl⟩ := List.cons.inj heq
            rw [List.flatMap_cons, ← hpair, ← htail]
            rfl
          · intro h
            have hcut : [lowerDigit hi, lowerDigit lo] ++ rest.map lowerDigit =
                hexPair b ++ tail.flatMap hexPair := h
            obtain ⟨hpair, htail⟩ := List.append_inj hcut rfl
            exact ⟨b, hpair, tail, htail, rfl⟩
  | case2 value hshort =>
      have hnil : value = [] := by
        match value, hshort with
        | [], _ => rfl
        | [_], _ => simp at heven
        | hi :: lo :: rest, hshort => exact absurd rfl (hshort hi lo rest)
      subst hnil
      cases bytes with
      | nil => simp [parsePairs]
      | cons b tail => simp [parsePairs, hexPair]

theorem length_rootHex (root : MerkleRoot) : (rootHex root).length = 64 := by
  have hall : ∀ bytes : List UInt8, (bytes.flatMap hexPair).length = 2 * bytes.length := by
    intro bytes
    induction bytes with
    | nil => rfl
    | cons b rest ih =>
        rw [List.flatMap_cons, List.length_append, ih, List.length_cons]
        simp only [hexPair, List.length_cons, List.length_nil]
        omega
  rw [rootHex, hall, root.size]

/-- The accepted spellings of a root are those that are its text up to the case of the
digits. -/
theorem parseRootHex_eq_some_iff {value : List UInt8} {root : MerkleRoot} :
    parseRootHex value = some root ↔ value.map lowerDigit = rootHex root := by
  unfold parseRootHex
  split_ifs with hlen
  · refine ⟨False.elim, fun h => absurd ?_ hlen⟩
    rw [← List.length_map (f := lowerDigit), h, length_rootHex]
  · have heven : value.length % 2 = 0 := by omega
    rw [Option.bind_eq_some_iff]
    simp only [parsePairs_eq_some_iff heven]
    constructor
    · rintro ⟨bytes, hbytes, hroot⟩
      split_ifs at hroot with hsize
      obtain rfl := Option.some.inj hroot
      exact hbytes
    · intro h
      exact ⟨root.bytes, h, by rw [dif_pos root.size]⟩

@[simp] theorem parseRootHex_rootHex (root : MerkleRoot) :
    parseRootHex (rootHex root) = some root := by
  rw [parseRootHex_eq_some_iff]
  have hlower : ∀ b : UInt8, (hexPair b).map lowerDigit = hexPair b :=
    forall_byte (by decide +kernel)
  rw [rootHex, List.map_flatMap]
  exact congrArg (fun f => root.bytes.flatMap f) (funext hlower)

/-- The text of a root is a header value that the client can read. -/
theorem headerText_rootHex (root : MerkleRoot) : headerText (rootHex root) = some (rootHex root) := by
  have hdigits : ∀ b : UInt8, (hexPair b).all fun d => (0x20 ≤ d ∧ d < 0x7F) ∨ d = 0x09 :=
    forall_byte (by decide +kernel)
  apply if_pos
  rw [List.all_eq_true]
  intro d hd
  obtain ⟨b, -, hmem⟩ := List.mem_flatMap.mp hd
  simpa using List.all_eq_true.mp (hdigits b) d hmem

end Hex

/-! ## Responses -/

/-- An HTTP response. -/
structure HttpResponse where
  status : Nat
  headers : List (String × List UInt8)
  body : List UInt8
  deriving DecidableEq

namespace HttpResponse

/-- The first value of a header. -/
def header (response : HttpResponse) (name : String) : Option (List UInt8) :=
  (response.headers.find? fun h => h.1 = name).map Prod.snd

/-- Set a header to a root; other values of it are dropped. -/
def insertRootHeader (response : HttpResponse) (name : String) (root : MerkleRoot) : HttpResponse :=
  { response with
    headers := (response.headers.filter fun h => h.1 ≠ name) ++ [(name, rootHex root)] }

end HttpResponse

def frameContentType : String := "application/vnd.dlr.frame+binary; version=1"
def ackRootHeader : String := "x-dlr-ack-root"
def currentRootHeader : String := "x-dlr-current-root"

def isHopByHopResponseHeader (name : String) : Bool :=
  name ∈ ["connection", "keep-alive", "proxy-authenticate", "proxy-authorization", "te", "trailer",
    "transfer-encoding", "upgrade", "content-length", ackRootHeader, currentRootHeader]

/-- The gateway's answer with the headers of its own connection removed and the
acknowledged root added. -/
def proxyResponse (upstream : HttpResponse) (ackRoot : MerkleRoot) : HttpResponse :=
  ({ upstream with
    headers := upstream.headers.filter fun h => !isHopByHopResponseHeader h.1 } :
      HttpResponse).insertRootHeader ackRootHeader ackRoot

section Render

variable [SerdeJson]

def errorResponse (status : Nat) (message : String) : HttpResponse where
  status := status
  headers := [("content-type", "application/json".toUTF8.data.toList)]
  body := SerdeJson.toVec (.object [("error", .object [("message", .string message)])])

/-- What is sent back when the gateway gives this answer, or cannot be reached. A handler that
panics closes the connection. -/
def Response.render (answer : Except String HttpResponse) : Response → Option HttpResponse
  | .error status message none => some (errorResponse status message)
  | .error status message (some current) =>
      some ((errorResponse status message).insertRootHeader currentRootHeader current)
  | .panic => none
  | .frame body =>
      some ⟨200, [("content-type", frameContentType.toUTF8.data.toList)], body⟩
  | .noContent => some ⟨204, [], []⟩
  | .forwarded ackRoot _ =>
      match answer with
      | .error e => some ((errorResponse 502 e).insertRootHeader ackRootHeader ackRoot)
      | .ok upstream => some (proxyResponse upstream ackRoot)

omit [SerdeJson] in
/-- A root that was inserted is the only value of its header. -/
theorem HttpResponse.header_insertRootHeader (response : HttpResponse) (name : String)
    (root : MerkleRoot) (other : String) :
    (response.insertRootHeader name root).header other =
      if other = name then some (rootHex root) else response.header other := by
  have hfind : ∀ headers : List (String × List UInt8),
      (headers.filter fun h => h.1 ≠ name).find? (fun h => h.1 = other) =
        if other = name then none else headers.find? fun h => h.1 = other := by
    intro headers
    induction headers with
    | nil => simp
    | cons h rest ih =>
        by_cases hdrop : h.1 = name
        · rw [List.filter_cons_of_neg (by simpa using hdrop), ih]
          split_ifs with hother
          · rfl
          · rw [List.find?_cons_of_neg (by simpa [hdrop] using Ne.symm hother)]
        · rw [List.filter_cons_of_pos (by simpa using hdrop)]
          by_cases hother : h.1 = other
          · rw [List.find?_cons_of_pos (by simpa using hother), if_neg (hother ▸ hdrop),
              List.find?_cons_of_pos (by simpa using hother)]
          · rw [List.find?_cons_of_neg (by simpa using hother), ih,
              List.find?_cons_of_neg (by simpa using hother)]
  simp only [HttpResponse.header, insertRootHeader, List.find?_append, hfind]
  split_ifs with hother
  · simp [hother]
  · cases response.headers.find? fun h => decide (h.1 = other) with
    | none => simp [Ne.symm hother]
    | some h => rfl

/-- A response carries an acknowledged root exactly when the request was forwarded, and then it
is that root, whatever the gateway answers. -/
theorem Response.render_ackRoot (answer : Except String HttpResponse) (response : Response) :
    (response.render answer).bind (·.header ackRootHeader) =
      match response with
      | .forwarded ackRoot _ => some (rootHex ackRoot)
      | _ => none := by
  cases response with
  | error status message current =>
      cases current with
      | none => rfl
      | some current =>
          simp only [render, Option.bind_some, HttpResponse.header_insertRootHeader]
          rfl
  | panic => rfl
  | frame body => rfl
  | noContent => rfl
  | forwarded ackRoot request =>
      cases answer with
      | error e =>
          simp only [render, Option.bind_some, HttpResponse.header_insertRootHeader]
          rfl
      | ok upstream =>
          simp only [render, proxyResponse, Option.bind_some, HttpResponse.header_insertRootHeader]
          rfl

/-- A root that the client reads from a response was forwarded with the request. -/
theorem Response.forwarded_of_ackRoot {answer : Except String HttpResponse} {response : Response}
    {rendered : HttpResponse} {value : List UInt8} {root : MerkleRoot}
    (hrender : response.render answer = some rendered)
    (hvalue : rendered.header ackRootHeader = some value)
    (hroot : (headerText value).bind parseRootHex = some root) :
    ∃ request, response = .forwarded root request := by
  have hack := response.render_ackRoot answer
  rw [hrender, Option.bind_some, hvalue] at hack
  split at hack
  · rename_i ackRoot request
    obtain rfl : value = rootHex ackRoot := Option.some.inj hack
    rw [headerText_rootHex, Option.bind_some, parseRootHex_rootHex] at hroot
    cases hroot
    exact ⟨request, rfl⟩
  · cases hack

end Render

end Dlr.Sidecar
