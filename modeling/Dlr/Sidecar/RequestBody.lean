import Dlr.Lib.Json
import Dlr.Sidecar.Transparency

/-!
# The forwarded request as JSON

The body that goes upstream is spliced from bytes: the text of the request without its
closing brace, a member for the messages, and the payloads of the log as they are stored.
For a request with at least one field the result is the request with its messages. The
comma in front of the messages is written unconditionally, so the empty request object
gives a text that is not JSON.

## Implementation notes

What is JSON is decided by the grammar, not by the library's parser, which refuses some
JSON (deep nesting, numbers out of range). Of the library it is used that it accepts JSON
only, that it reads the printed request back, and that it prints without trailing white
space. How it reads a number literal is left open.
-/

namespace Dlr.Sidecar

open Dlr.Core Compress Lib Lib.Machine

/-- JSON texts as values, given the numbers of the literals. -/
def Value.meaning (number : List UInt8 → Option String) : Json.Meaning String Value where
  null := .null
  bool := .bool
  number := fun lit => (number lit).map .number
  text := Json.unescape
  string := .string
  array := .array
  object := .object

section Body

variable [SerdeJson]

/-- The upstream body as a stream of chunks, its length, and the projection to be kept. -/
def reconstructRequestBody (r : Receiver) (sid : SessionId) (request : Value) (root : MerkleRoot)
    (cached : Option CachedChatProjection) :
    Except SidecarError (List (List UInt8) × Nat × CachedChatProjection) :=
  match requestPrefix request with
  | .error e => .error e
  | .ok opening =>
      match extendOrReconstructProjection r sid root (r.store.sessionLen sid) cached with
      | .error e => .error e
      | .ok projection =>
          .ok ([opening] ++ projection.chunks ++ [[0x5D, 0x7D]],
            saturatingAdd (saturatingAdd opening.length projection.jsonBytes) 2, projection)

/-- The chat endpoint sends the reconstructed body, with its length. -/
theorem respondChat_eq (s : SidecarState) (request : Request) (metadata : Value)
    (frame : AppendFrame) (ack : AckFrame) (cached : Option CachedChatProjection) :
    s.respondChat request metadata frame ack cached =
      match reconstructRequestBody s.receiver frame.sessionId metadata ack.root cached with
      | .error e => (.error 400 e.toText none, s)
      | .ok (body, total, projection) =>
          (.forwarded ack.root
            { s.upstreamRequest request [] projection with
              contentLength := total
              body := body.flatten },
            s.withProjections (s.chatProjections.insert frame.sessionId projection)) := by
  simp only [SidecarState.respondChat, reconstructRequestBody, SidecarState.buildProjection]
  cases requestPrefix metadata with
  | error e => rfl
  | ok opening =>
      cases extendOrReconstructProjection s.receiver frame.sessionId ack.root
        (s.receiver.store.sessionLen frame.sessionId) cached with
      | error e => rfl
      | ok projection =>
          simp [SidecarState.forward, SidecarState.upstreamRequest]

end Body

/-! ## The texts of an object -/

section Splice

variable {number : List UInt8 → Option String}

/-- The text of an object: its members, or white space, in braces. -/
theorem text_object {t : List UInt8} {members : List (String × Value)}
    (h : Json.Text (Value.meaning number) t (.object members)) :
    ∃ ws inner ws', t = ws ++ ([0x7B] ++ inner ++ [0x7D]) ++ ws' ∧ ws.all Json.isWs = true ∧
      ws'.all Json.isWs = true ∧
      (members = [] ∧ inner.all Json.isWs = true ∨
        Json.Derives (Value.meaning number) .members inner members) := by
  cases h with
  | @element ws t ws' v hws hv hws' =>
      generalize hobject : Value.object members = v at hv
      cases hv with
      | emptyObject hinner =>
          cases hobject
          exact ⟨ws, _, ws', rfl, hws, hws', Or.inl ⟨rfl, hinner⟩⟩
      | object hinner =>
          cases hobject
          exact ⟨ws, _, ws', rfl, hws, hws', Or.inr hinner⟩
      | number _ hlit =>
          obtain ⟨text, -, rfl⟩ := Option.map_eq_some_iff.mp hlit
          cases hobject
      | null => cases hobject
      | true => cases hobject
      | false => cases hobject
      | string _ _ => cases hobject
      | emptyArray _ => cases hobject
      | array _ => cases hobject

/-- Texts in a row, separated by commas, are the elements of an array. -/
theorem elements_append {front more : List (List UInt8)} {vs ws : List Value}
    (hfront : Json.Derives (Value.meaning number) .elements (messagesJson front) vs)
    (hne : front ≠ []) (hmore : List.Forall₂ (Json.Text (Value.meaning number)) more ws) :
    Json.Derives (Value.meaning number) .elements (messagesJson (front ++ more)) (vs ++ ws) := by
  induction hmore generalizing front vs with
  | nil => simpa using hfront
  | @cons payload v more ws hpayload _ ih =>
      have hone : Json.Derives (Value.meaning number) .elements (messagesJson (front ++ [payload]))
          (vs ++ [v]) := by
        rw [messagesJson_concat, if_pos (List.length_pos_of_ne_nil hne)]
        exact .elementsMore hfront hpayload
      have hall := ih hone (by simp)
      rw [List.append_assoc, List.append_assoc] at hall
      exact hall

theorem array_text {payloads : List (List UInt8)} {values : List Value}
    (h : List.Forall₂ (Json.Text (Value.meaning number)) payloads values) :
    Json.Text (Value.meaning number) ([0x5B] ++ messagesJson payloads ++ [0x5D])
      (.array values) := by
  apply Json.Derives.text
  cases h with
  | nil => exact .emptyArray List.all_nil
  | @cons payload v more ws hpayload hmore =>
      have hfirst : Json.Derives (Value.meaning number) .elements (messagesJson [payload]) [v] := by
        have hsingle : messagesJson [payload] = payload := by simp [messagesJson, List.intercalate]
        rw [hsingle]
        exact .elementsOne hpayload
      exact .array (elements_append hfirst (by simp) hmore)

/-- What is written between the fields of the request and its messages: a comma, the key, a
colon and a bracket. -/
def messagesOpening : List UInt8 :=
  [0x2C, 0x22, 0x6D, 0x65, 0x73, 0x73, 0x61, 0x67, 0x65, 0x73, 0x22, 0x3A, 0x5B]

/-- The member that is spliced in. -/
theorem messages_member {t : List UInt8} {v : Value} (h : Json.Text (Value.meaning number) t v) :
    Json.Derives (Value.meaning number) .member
      ([0x22, 0x6D, 0x65, 0x73, 0x73, 0x61, 0x67, 0x65, 0x73, 0x22, 0x3A] ++ t)
      ("messages", v) := by
  have hkey : (Value.meaning number).text [0x6D, 0x65, 0x73, 0x73, 0x61, 0x67, 0x65, 0x73] =
      some "messages" := by
    show Json.unescape _ = some "messages"
    decide +kernel
  exact h.member (by decide) hkey

/-- The spliced body of a request with fields is the text of the request with its messages. -/
theorem spliced_text {ws inner : List UInt8} {members : List (String × Value)}
    {payloads : List (List UInt8)} {values : List Value} (hws : ws.all Json.isWs = true)
    (hinner : Json.Derives (Value.meaning number) .members inner members)
    (hpayloads : List.Forall₂ (Json.Text (Value.meaning number)) payloads values) :
    Json.Text (Value.meaning number)
      (ws ++ [0x7B] ++ inner ++ messagesOpening ++ messagesJson payloads ++ [0x5D, 0x7D])
      (.object (members ++ [("messages", .array values)])) := by
  have hobject : Json.Derives (Value.meaning number) .value _
      (.object (members ++ [("messages", .array values)])) :=
    .object (.membersMore hinner (messages_member (array_text hpayloads)))
  have htext := Json.Derives.element hws hobject List.all_nil
  simpa [Json.Text, messagesOpening] using htext

/-- Without fields, a comma follows the opening brace. -/
theorem spliced_empty_not_text {ws inner : List UInt8} (hws : ws.all Json.isWs = true)
    (hinner : inner.all Json.isWs = true) (rest : List UInt8) (v : Value) :
    ¬ Json.Text (Value.meaning number) (ws ++ [0x7B] ++ inner ++ 0x2C :: rest) v := by
  intro h
  have hread := h.read
  rw [List.append_assoc, List.append_assoc, Json.read, Json.reads_ws rfl [] hws] at hread
  have hopen : Json.reads (Value.meaning number) ⟨.value, []⟩ ([0x7B] ++ (inner ++ 0x2C :: rest)) =
      Json.reads (Value.meaning number) ⟨.firstKey, [.object []]⟩ (inner ++ 0x2C :: rest) := rfl
  rw [hopen, Json.reads_ws rfl _ hinner] at hread
  cases hread

end Splice

/-! ## The reconstructed body -/

section Forwards

variable [SerdeJson] {r : Receiver} {sid : SessionId} {blocks : List Block}

/-- A message of a log: a JSON object that the validation of a history accepts. -/
def IsMessage (payload : List UInt8) (v : Value) : Prop :=
  SerdeJson.fromSlice payload = .ok v ∧ v.asObject.isSome = true ∧ HistoryMessage payload

/-- The cached projection, if there is one, stands for the beginning of the log. -/
def ProjectsLog (blocks : List Block) (cached : Option CachedChatProjection) : Prop :=
  ∀ p, cached = some p →
    ∃ n, n ≤ blocks.length ∧ p.Represents ((blocks.take n).map Block.payload)

/-- A body is built that is the text of `v` and of no other value, with its length. -/
def ForwardsJson (number : List UInt8 → Option String) (r : Receiver) (sid : SessionId)
    (root : MerkleRoot) (cached : Option CachedChatProjection) (request v : Value) : Prop :=
  ∃ body total projection,
    reconstructRequestBody r sid request root cached = .ok (body, total, projection) ∧
      (∀ w, Json.Text (Value.meaning number) body.flatten w ↔ w = v) ∧
      body.flatten.length = total

theorem projection_built (hlog : Holds r (r.store.sessionIds sid) blocks)
    (hknown : (r.sessions.get? sid).isSome = true) (root : MerkleRoot)
    {cached : Option CachedChatProjection} (hcached : ProjectsLog blocks cached)
    (hvalid : ∀ b ∈ blocks, HistoryMessage b.payload) :
    ∃ q, extendOrReconstructProjection r sid root (r.store.sessionLen sid) cached = .ok q ∧
      q.Represents (blocks.map Block.payload) := by
  cases cached with
  | some p =>
      obtain ⟨n, hn, hp⟩ := hcached p rfl
      obtain ⟨q, hq, -, hrep⟩ := extendProjection hlog hknown root hn hp
      exact ⟨q, hq, hrep⟩
  | none =>
      obtain ⟨q, -, hrep, hq⟩ := reconstructProjection hlog hknown root (r.store.sessionLen sid)
      rw [(validateMessages_eq_ok 0 blocks).mpr hvalid] at hq
      exact ⟨q, hq, hrep⟩

theorem requestPrefix_object {members : List (String × Value)}
    (hvalid : validateRequestValue (.object members) = .ok ()) {text : List UInt8}
    (htext : SerdeJson.toVec (.object members) = text ++ [0x7D]) :
    requestPrefix (.object members) = .ok (text ++ messagesOpening) := by
  simp only [validateRequestValue, Value.asObject] at hvalid
  split_ifs at hvalid with hkey
  simp [requestPrefix, Value.asObject, hkey, htext, messagesOpening]

/-- The body and the length that are built from the text of a request and a log. -/
theorem reconstructRequestBody_eq (hlog : Holds r (r.store.sessionIds sid) blocks)
    (hknown : (r.sessions.get? sid).isSome = true) (root : MerkleRoot)
    {cached : Option CachedChatProjection} (hcached : ProjectsLog blocks cached)
    (hvalid : ∀ b ∈ blocks, HistoryMessage b.payload) {members : List (String × Value)}
    (hrequest : validateRequestValue (.object members) = .ok ()) {text : List UInt8}
    (htext : SerdeJson.toVec (.object members) = text ++ [0x7D]) :
    ∃ body projection,
      reconstructRequestBody r sid (.object members) root cached =
        .ok (body, min body.flatten.length usizeMax, projection) ∧
      body.flatten =
        text ++ messagesOpening ++ messagesJson (blocks.map Block.payload) ++ [0x5D, 0x7D] := by
  obtain ⟨q, hq, hrep⟩ := projection_built hlog hknown root hcached hvalid
  have hflat : ([text ++ messagesOpening] ++ q.chunks ++ [[0x5D, 0x7D]]).flatten =
      text ++ messagesOpening ++ messagesJson (blocks.map Block.payload) ++ [0x5D, 0x7D] := by
    simp only [List.flatten_append, List.flatten_singleton, hrep.chunks]
  have htotal : saturatingAdd (saturatingAdd (text ++ messagesOpening).length q.jsonBytes) 2 =
      min (text ++ messagesOpening ++ messagesJson (blocks.map Block.payload) ++
        [0x5D, 0x7D]).length usizeMax := by
    rw [hrep.jsonBytes]
    simp only [saturatingAdd, List.length_append, List.length_cons, List.length_nil]
    omega
  refine ⟨[text ++ messagesOpening] ++ q.chunks ++ [[0x5D, 0x7D]], q, ?_, hflat⟩
  rw [hflat, ← htotal]
  simp only [reconstructRequestBody, requestPrefix_object hrequest htext, hq]

/-- The printed text of an object that reads back ends in its closing brace. -/
theorem toVec_object {number : List UInt8 → Option String} {members : List (String × Value)}
    (htext : Json.Text (Value.meaning number) (SerdeJson.toVec (.object members))
      (.object members))
    (hcompact : ∀ b ∈ (SerdeJson.toVec (.object members)).getLast?, Json.isWs b = false) :
    ∃ ws inner, SerdeJson.toVec (.object members) = ws ++ [0x7B] ++ inner ++ [0x7D] ∧
      ws.all Json.isWs = true ∧
      (members = [] ∧ inner.all Json.isWs = true ∨
        Json.Derives (Value.meaning number) .members inner members) := by
  obtain ⟨ws, inner, ws', heq, hws, hws', hinner⟩ := text_object htext
  have hnil : ws' = [] := by
    rcases List.eq_nil_or_concat ws' with hnil | ⟨init, b, rfl⟩
    · exact hnil
    · have hlast : (SerdeJson.toVec (.object members)).getLast? = some b := by
        rw [heq, List.concat_eq_append, ← List.append_assoc, List.getLast?_concat]
      simp [hcompact b hlast] at hws'
  refine ⟨ws, inner, ?_, hws, hinner⟩
  rw [heq, hnil, List.append_nil]
  simp

/-- A request that passes validation, with a log of messages, is forwarded as the request's
fields and its messages, with the right length, exactly when it has a field and the length
fits a machine word. -/
theorem forwards_iff (number : List UInt8 → Option String)
    (hreads : ∀ doc v, SerdeJson.fromSlice doc = .ok v → Json.Text (Value.meaning number) doc v)
    {members : List (String × Value)}
    (hinverse : SerdeJson.fromSlice (SerdeJson.toVec (.object members)) = .ok (.object members))
    (hcompact : ∀ b ∈ (SerdeJson.toVec (.object members)).getLast?, Json.isWs b = false)
    (hrequest : validateRequestValue (.object members) = .ok ())
    (hlog : Holds r (r.store.sessionIds sid) blocks)
    (hknown : (r.sessions.get? sid).isSome = true) {values : List Value}
    (hmessages : List.Forall₂ (fun b v => IsMessage b.payload v) blocks values)
    (root : MerkleRoot) {cached : Option CachedChatProjection}
    (hcached : ProjectsLog blocks cached) :
    ForwardsJson number r sid root cached (.object members)
        (.object (members ++ [("messages", .array values)])) ↔
      members ≠ [] ∧ (SerdeJson.toVec (.object members)).length +
        (messagesJson (blocks.map Block.payload)).length + 14 ≤ usizeMax := by
  obtain ⟨ws, inner, htext, hws, hinner⟩ := toVec_object (hreads _ _ hinverse) hcompact
  have hvalid : ∀ b ∈ blocks, HistoryMessage b.payload := by
    intro b hb
    obtain ⟨v, -, -, -, hv⟩ := forall₂_exists hmessages hb
    exact hv
  have hpayloads : List.Forall₂ (Json.Text (Value.meaning number)) (blocks.map Block.payload)
      values := by
    rw [List.forall₂_map_left_iff]
    exact hmessages.imp fun b v h => hreads _ _ h.1
  obtain ⟨body, projection, hbuilt, hbody⟩ := reconstructRequestBody_eq hlog hknown root hcached
    hvalid hrequest htext
  have hlength : body.flatten.length = (SerdeJson.toVec (.object members)).length +
      (messagesJson (blocks.map Block.payload)).length + 14 := by
    rw [hbody, htext]
    simp only [List.length_append, messagesOpening, List.length_cons, List.length_nil]
    omega
  constructor
  · rintro ⟨body', total, projection', hbuilt', hparse, htotal⟩
    rw [hbuilt] at hbuilt'
    cases hbuilt'
    constructor
    · rintro rfl
      rcases hinner with ⟨-, hinner⟩ | hinner
      · apply spliced_empty_not_text hws hinner _ _
        have hright := (hparse _).mpr rfl
        rw [hbody] at hright
        simpa [messagesOpening] using hright
      · exact hinner.members_ne_nil rfl
    · omega
  · rintro ⟨hne, hfits⟩
    refine ⟨body, _, projection, hbuilt, ?_, by omega⟩
    rcases hinner with ⟨hnil, -⟩ | hinner
    · exact absurd hnil hne
    · have hright := spliced_text hws hinner hpayloads
      rw [← hbody] at hright
      intro w
      constructor
      · exact fun hw => hw.unique hright
      · rintro rfl
        exact hright

omit [SerdeJson] in
/-- The text of an object with one string field. -/
theorem text_one_field (number : List UInt8 → Option String) (key raw : List UInt8) {k x : String}
    (hkey : Json.isChars key = true) (hk : Json.unescape key = some k)
    (hraw : Json.isChars raw = true) (hx : Json.unescape raw = some x) :
    Json.Text (Value.meaning number)
      ([0x7B] ++ ([0x22] ++ key ++ [0x22, 0x3A] ++ ([0x22] ++ raw ++ [0x22])) ++ [0x7D])
      (.object [(k, .string x)]) :=
  (Json.Derives.object (.membersOne ((Json.Derives.string hraw hx).text.member hkey hk))).text

omit [SerdeJson] in
theorem sampleJson_reads (number : List UInt8 → Option String) {docs : List Value}
    (hdocs : ∀ v ∈ docs, Json.Text (Value.meaning number) v.print v) (doc : List UInt8) (v : Value)
    (h : (sampleJson docs).fromSlice doc = .ok v) : Json.Text (Value.meaning number) doc v := by
  change (docs.find? fun v => v.print = doc).elim (Except.error "expected value") Except.ok =
    Except.ok v at h
  cases hfind : docs.find? fun v => v.print = doc with
  | none =>
      rw [hfind] at h
      cases h
  | some w =>
      rw [hfind] at h
      cases h
      have hprint : v.print = doc := by simpa using List.find?_some hfind
      rw [← hprint]
      exact hdocs v (List.mem_of_find?_eq_some hfind)

omit [SerdeJson] in
/-- A request with one field and a log of two messages, of which the first is in the cache. -/
theorem forwards_iff_cached_message :
    letI := prefixHash
    letI := storedZstd
    let request : Value := .object [("model", .string "m")]
    let user : Value := .object [("role", .string "user")]
    let tool : Value := .object [("role", .string "tool")]
    letI := sampleJson [request, user, tool]
    let first : Block := ⟨.message, 1, user.print⟩
    let second : Block := ⟨.message, 2, tool.print⟩
    let r := ((Receiver.new ContentStore.new Compressor.default).handleAppend
      ⟨5, rootZero, [.inline ⟨.message, 1, 0 :: canonicalBytes first⟩,
        .inline ⟨.message, 2, 0 :: canonicalBytes second⟩]⟩).2
    let cached := appendCalls (rootOver rootZero [first.blockId]) [[first.payload]]
    ForwardsJson (fun _ => none) r 5 (r.store.sessionRoot 5) (some cached) request
      (.object [("model", .string "m"), ("messages", .array [user, tool])]) := by
  let _ := prefixHash
  let _ := storedZstd
  intro request user tool
  let _ := sampleJson [request, user, tool]
  intro first second r cached
  have hdocs : ∀ v ∈ [request, user, tool],
      Json.Text (Value.meaning fun _ => none) v.print v := by
    have hrequest : Json.Text (Value.meaning fun _ => none) request.print request :=
      text_one_field _ [0x6D, 0x6F, 0x64, 0x65, 0x6C] [0x6D] (by decide) (by decide +kernel)
        (by decide) (by decide +kernel)
    have huser : Json.Text (Value.meaning fun _ => none) user.print user :=
      text_one_field _ [0x72, 0x6F, 0x6C, 0x65] [0x75, 0x73, 0x65, 0x72] (by decide)
        (by decide +kernel) (by decide) (by decide +kernel)
    have htool : Json.Text (Value.meaning fun _ => none) tool.print tool :=
      text_one_field _ [0x72, 0x6F, 0x6C, 0x65] [0x74, 0x6F, 0x6F, 0x6C] (by decide)
        (by decide +kernel) (by decide) (by decide +kernel)
    intro v hv
    rcases List.mem_cons.mp hv with rfl | hv
    · exact hrequest
    · rcases List.mem_pair.mp hv with rfl | rfl
      · exact huser
      · exact htool
  have hlog : Holds r (r.store.sessionIds 5) [first, second] := by
    have hids : r.store.sessionIds 5 = [first.blockId, second.blockId] := by decide +kernel
    rw [hids]
    exact .cons (by decide +kernel) (.cons (by decide +kernel) .nil)
  have hvalid : validateSerializedMessage first.payload 0 = .ok () ∧
      validateSerializedMessage second.payload 0 = .ok () := by decide +kernel
  have huser : IsMessage first.payload user := ⟨rfl, rfl, historyMessage_of_valid hvalid.1⟩
  have htool : IsMessage second.payload tool := ⟨rfl, rfl, historyMessage_of_valid hvalid.2⟩
  have hcached : ProjectsLog [first, second] (some cached) := by
    rintro p ⟨⟩
    exact ⟨1, by decide, appendCalls_represents _ [[first.payload]]⟩
  exact (forwards_iff (fun _ => none) (sampleJson_reads _ hdocs) rfl (by decide +kernel)
    (by decide +kernel) hlog (by decide +kernel) (.cons huser (.cons htool .nil)) _ hcached).mpr
    ⟨by simp, by decide +kernel⟩

omit [SerdeJson] in
/-- The empty request object passes validation, and its log is a message. The body that is
built opens with a brace and a comma, and is no JSON text. -/
theorem empty_request_is_not_json :
    letI := prefixHash
    letI := storedZstd
    let message : Value := .object [("role", .string "user")]
    letI := sampleJson [.object [], message]
    let block : Block := ⟨.message, 1, message.print⟩
    let r := ((Receiver.new ContentStore.new Compressor.default).handleAppend
      ⟨5, rootZero, [.inline ⟨.message, 1, 0 :: canonicalBytes block⟩]⟩).2
    let body : List UInt8 := [0x7B] ++ messagesOpening ++ message.print ++ [0x5D, 0x7D]
    validateRequestValue (.object []) = .ok () ∧
      r.reconstruct 5 = [block] ∧ validateMessages 0 [block] = .ok () ∧
      ((reconstructRequestBody r 5 (.object []) (r.store.sessionRoot 5) none).map fun result =>
        result.1.flatten) = .ok body ∧
      (∀ number w, ¬ Json.Text (Value.meaning number) body w) ∧
      ∀ number, ¬ ForwardsJson number r 5 (r.store.sessionRoot 5) none (.object [])
        (.object [("messages", .array [message])]) := by
  let _ := prefixHash
  let _ := storedZstd
  intro message
  let _ := sampleJson [.object [], message]
  intro block r body
  have hbuilt : ((reconstructRequestBody r 5 (.object []) (r.store.sessionRoot 5) none).map
      fun result => result.1.flatten) = .ok body := by decide +kernel
  have hnot : ∀ number w, ¬ Json.Text (Value.meaning number) body w := by
    intro number w
    have hempty : ([] : List UInt8).all Json.isWs = true := rfl
    exact spliced_empty_not_text hempty hempty _ w
  refine ⟨by decide +kernel, by decide +kernel, by decide +kernel, hbuilt, hnot, ?_⟩
  rintro number ⟨chunks, total, projection, hresult, hparse, -⟩
  rw [hresult] at hbuilt
  have hbody : chunks.flatten = body := Except.ok.inj hbuilt
  rw [hbody] at hparse
  exact hnot number _ ((hparse _).mpr rfl)

end Forwards

end Dlr.Sidecar
