import Dlr.Compress.Compressor

/-!
# Cached zstd contexts

Each thread keeps one encoder context under a level and a dictionary id, and one decoder
context under a dictionary id. A call reuses the context it finds under its own key and never
looks at the dictionary the context was loaded with.

## Implementation notes

A context is whatever the library returns. What it does with an input is a function of the
context, so a call depends on the history of its thread through the cached contexts only. A
call on a fresh thread is the stateless model of the other modules.
-/

namespace Dlr.Compress

open Lib.Bytes

/-- The contexts of the zstd library. -/
class ZstdContexts (Enc Dec : outParam Type) where
  newEncoder : Int → Except String Enc
  encoderWithDictionary : Int → List UInt8 → Except String Enc
  compress : Enc → List UInt8 → Except String (List UInt8)
  newDecoder : Except String Dec
  decoderWithDictionary : List UInt8 → Except String Dec
  decompress : Dec → List UInt8 → Nat → Except String (List UInt8)
  frameContentSize : List UInt8 → Except String (Option Nat)

variable {Enc Dec : Type} [ZstdContexts Enc Dec]

/-- An encoder for a level and a dictionary; an empty dictionary is none. -/
def loadEncoder (level : Int) (dict : List UInt8) : Except String Enc :=
  if dict = [] then ZstdContexts.newEncoder level
  else ZstdContexts.encoderWithDictionary level dict

def loadDecoder (dict : List UInt8) : Except String Dec :=
  if dict = [] then ZstdContexts.newDecoder else ZstdContexts.decoderWithDictionary dict

/-- The library as a function of level, dictionary and input: load a context and use it. -/
@[reducible] def ZstdContexts.toZstd : Zstd where
  compress := fun level dict input =>
    (loadEncoder level dict).bind fun enc => ZstdContexts.compress enc input
  decompress := fun dict frame cap =>
    (loadDecoder dict).bind fun dec => ZstdContexts.decompress dec frame cap
  frameContentSize := ZstdContexts.frameContentSize

theorem ZstdContexts.compress_toZstd (level : Int) (dict input : List UInt8) :
    (@ZstdContexts.toZstd Enc Dec _).compress level dict input =
      (loadEncoder level dict).bind fun enc => ZstdContexts.compress enc input := rfl

theorem ZstdContexts.decompress_toZstd (dict frame : List UInt8) (cap : Nat) :
    (@ZstdContexts.toZstd Enc Dec _).decompress dict frame cap =
      (loadDecoder dict).bind fun dec => ZstdContexts.decompress dec frame cap := rfl

/-- The contexts cached on a thread. -/
structure Thread (Enc Dec : Type) where
  enc : Option (Int × UInt64 × Enc) := none
  dec : Option (UInt64 × Dec) := none

namespace Thread

/-- Load the dictionary of a compressor and cache the encoder under its level and id. -/
def rebuildEncoder (t : Thread Enc Dec) (c : Compressor) :
    Except CompressError (Enc × Thread Enc Dec) :=
  match loadEncoder c.level c.dict.content with
  | .error e => .error (.encode e)
  | .ok enc => .ok (enc, { t with enc := some (c.level, c.dict.id, enc) })

/-- The encoder of a call: the cached one under the same level and id, or a new one. -/
def encoder (t : Thread Enc Dec) (c : Compressor) : Except CompressError (Enc × Thread Enc Dec) :=
  match t.enc with
  | some (l, d, enc) =>
      if l ≠ c.level ∨ d ≠ c.dict.id then t.rebuildEncoder c else .ok (enc, t)
  | none => t.rebuildEncoder c

def rebuildDecoder (t : Thread Enc Dec) (c : Compressor) :
    Except CompressError (Dec × Thread Enc Dec) :=
  match loadDecoder c.dict.content with
  | .error e => .error (.decode e)
  | .ok dec => .ok (dec, { t with dec := some (c.dict.id, dec) })

/-- The decoder of a call, cached under the id alone. -/
def decoder (t : Thread Enc Dec) (c : Compressor) : Except CompressError (Dec × Thread Enc Dec) :=
  match t.dec with
  | some (d, dec) => if d ≠ c.dict.id then t.rebuildDecoder c else .ok (dec, t)
  | none => t.rebuildDecoder c

end Thread

namespace Compressor

/-- `compress` on a thread. -/
def compressOn (c : Compressor) (t : Thread Enc Dec) (input : List UInt8) :
    Except CompressError (List UInt8) × Thread Enc Dec :=
  if input.length < c.minBlock then
    (.ok (0x00 :: input), t)
  else
    match t.encoder c with
    | .error e => (.error e, t)
    | .ok (enc, t) =>
        match ZstdContexts.compress enc input with
        | .error e => (.error (.encode e), t)
        | .ok compressed =>
            if compressed.length + 1 ≥ input.length then
              (.ok (0x00 :: input), t)
            else
              (.ok (0x01 :: compressed), t)

/-- `decompress` on a thread. -/
def decompressOn (c : Compressor) (t : Thread Enc Dec) (input : List UInt8) :
    Except CompressError (List UInt8) × Thread Enc Dec :=
  match input with
  | [] => (.error (.decode "empty input"), t)
  | marker :: body =>
      if marker = 0x00 then
        (.ok body, t)
      else if marker = 0x01 then
        match t.decoder c with
        | .error e => (.error e, t)
        | .ok (dec, t) =>
            match ZstdContexts.decompress dec body (@outputCap ZstdContexts.toZstd body) with
            | .error e => (.error (.decode e), t)
            | .ok out => (.ok out, t)
      else
        (.error (.decode
          ("unknown marker 0x" ++ String.ofList (Nat.toDigits 16 marker.toNat))), t)

end Compressor

/-- A call by some compressor. -/
inductive ContextCall
  | compress (c : Compressor) (input : List UInt8)
  | decompress (c : Compressor) (input : List UInt8)

namespace ContextCall

def on (t : Thread Enc Dec) : ContextCall → Except CompressError (List UInt8) × Thread Enc Dec
  | compress c input => c.compressOn t input
  | decompress c input => c.decompressOn t input

/-- What a call returns on a fresh thread. -/
def fresh (call : ContextCall) : Except CompressError (List UInt8) :=
  (call.on ({} : Thread Enc Dec)).1

/-- The results of some calls, one after the other on a thread. -/
def results (t : Thread Enc Dec) : List ContextCall → List (Except CompressError (List UInt8))
  | [] => []
  | call :: rest => (call.on t).1 :: results (call.on t).2 rest

/-- The compressor of a call. -/
def compressor : ContextCall → Compressor
  | compress c _ => c
  | decompress c _ => c

/-- What the call returns when each call loads its own context. -/
def stateless (call : ContextCall) : Except CompressError (List UInt8) :=
  let _ := @ZstdContexts.toZstd Enc Dec _
  match call with
  | compress c input => c.compress input
  | decompress c input => c.decompress input

end ContextCall

/-! ## Reusing a context -/

/-- A context that the call would reuse was loaded from the dictionary of the call's
compressor. A call that needs no context meets this anyway. -/
def Thread.Meets (t : Thread Enc Dec) : ContextCall → Prop
  | .compress c input => c.minBlock ≤ input.length →
      ∀ enc, t.enc = some (c.level, c.dict.id, enc) →
        loadEncoder c.level c.dict.content = .ok enc
  | .decompress c input => input.head? = some 0x01 →
      ∀ dec, t.dec = some (c.dict.id, dec) → loadDecoder c.dict.content = .ok dec

/-- Every call of a run meets the condition on the thread it finds. -/
def Thread.MeetsAll (t : Thread Enc Dec) : List ContextCall → Prop
  | [] => True
  | call :: rest => t.Meets call ∧ (call.on t).2.MeetsAll rest

theorem Thread.encoder_eq {t : Thread Enc Dec} {c : Compressor}
    (h : ∀ enc, t.enc = some (c.level, c.dict.id, enc) →
      loadEncoder c.level c.dict.content = .ok enc) :
    match loadEncoder c.level c.dict.content with
    | .error e => t.encoder c = .error (.encode e)
    | .ok enc => ∃ t', t.encoder c = .ok (enc, t') := by
  have hrebuild : match loadEncoder c.level c.dict.content with
      | .error e => t.rebuildEncoder c = .error (.encode e)
      | .ok enc => ∃ t', t.rebuildEncoder c = .ok (enc, t') := by
    unfold Thread.rebuildEncoder
    split <;> simp_all
  cases henc : t.enc with
  | none => simpa only [Thread.encoder, henc] using hrebuild
  | some cached =>
      obtain ⟨l, d, enc⟩ := cached
      simp only [Thread.encoder, henc]
      split_ifs with hkey
      · exact hrebuild
      · push Not at hkey
        obtain ⟨rfl, rfl⟩ := hkey
        rw [h enc henc]
        exact ⟨t, rfl⟩

theorem Thread.decoder_eq {t : Thread Enc Dec} {c : Compressor}
    (h : ∀ dec, t.dec = some (c.dict.id, dec) → loadDecoder c.dict.content = .ok dec) :
    match loadDecoder c.dict.content with
    | .error e => t.decoder c = .error (.decode e)
    | .ok dec => ∃ t', t.decoder c = .ok (dec, t') := by
  have hrebuild : match loadDecoder c.dict.content with
      | .error e => t.rebuildDecoder c = .error (.decode e)
      | .ok dec => ∃ t', t.rebuildDecoder c = .ok (dec, t') := by
    unfold Thread.rebuildDecoder
    split <;> simp_all
  cases hdec : t.dec with
  | none => simpa only [Thread.decoder, hdec] using hrebuild
  | some cached =>
      obtain ⟨d, dec⟩ := cached
      simp only [Thread.decoder, hdec]
      split_ifs with hkey
      · exact hrebuild
      · push Not at hkey
        subst hkey
        rw [h dec hdec]
        exact ⟨t, rfl⟩

theorem compressOn_of_meets {t : Thread Enc Dec} {c : Compressor} {input : List UInt8}
    (h : t.Meets (.compress c input)) :
    (c.compressOn t input).1 = ContextCall.stateless (.compress c input) := by
  simp only [Compressor.compressOn, ContextCall.stateless, Compressor.compress,
    ZstdContexts.compress_toZstd]
  split_ifs with hshort
  · rfl
  · have hencoder := Thread.encoder_eq (h (Nat.le_of_not_lt hshort))
    cases hload : loadEncoder c.level c.dict.content with
    | error e =>
        simp only [hload] at hencoder
        simp only [hencoder, Except.bind]
    | ok enc =>
        rw [hload] at hencoder
        obtain ⟨t', ht'⟩ := hencoder
        simp only [ht', Except.bind]
        cases ZstdContexts.compress enc input with
        | error e => rfl
        | ok z => by_cases hlong : z.length + 1 ≥ input.length <;> simp [hlong]

theorem decompressOn_of_meets {t : Thread Enc Dec} {c : Compressor} {input : List UInt8}
    (h : t.Meets (.decompress c input)) :
    (c.decompressOn t input).1 = ContextCall.stateless (.decompress c input) := by
  cases input with
  | nil => rfl
  | cons marker body =>
      simp only [Compressor.decompressOn, ContextCall.stateless, Compressor.decompress,
        ZstdContexts.decompress_toZstd]
      split_ifs with hraw hzstd
      · rfl
      · have hdecoder := Thread.decoder_eq (h (by rw [hzstd]; rfl))
        cases hload : loadDecoder c.dict.content with
        | error e =>
            simp only [hload] at hdecoder
            simp only [hdecoder, Except.bind]
        | ok dec =>
            rw [hload] at hdecoder
            obtain ⟨t', ht'⟩ := hdecoder
            simp only [ht', Except.bind]
            generalize ZstdContexts.decompress dec body _ = out
            cases out with
            | error e => rfl
            | ok out => rfl
      · rfl

/-- A call that meets the condition returns what it returns without a cache. -/
theorem ContextCall.on_of_meets {t : Thread Enc Dec} {call : ContextCall} (h : t.Meets call) :
    (call.on t).1 = call.stateless := by
  cases call with
  | compress c input => exact compressOn_of_meets h
  | decompress c input => exact decompressOn_of_meets h

/-- Nothing is cached on a fresh thread. -/
theorem ContextCall.fresh_eq (call : ContextCall) :
    call.fresh = call.stateless := by
  apply ContextCall.on_of_meets
  cases call <;> exact fun _ _ hcached => nomatch hcached

theorem ContextCall.results_eq {t : Thread Enc Dec} {calls : List ContextCall}
    (h : t.MeetsAll calls) : results t calls = calls.map fresh := by
  induction calls generalizing t with
  | nil => rfl
  | cons call rest ih =>
      rw [results, List.map_cons, on_of_meets h.1, fresh_eq, ih h.2]

/-! ## Dictionaries told apart by their ids -/

/-- A call leaves the thread as it is, or caches a context loaded from its own dictionary. -/
inductive Thread.Leaves (t : Thread Enc Dec) (c : Compressor) : Thread Enc Dec → Prop
  | same : Leaves t c t
  | encoder {enc : Enc} (load : loadEncoder c.level c.dict.content = .ok enc) :
      Leaves t c { t with enc := some (c.level, c.dict.id, enc) }
  | decoder {dec : Dec} (load : loadDecoder c.dict.content = .ok dec) :
      Leaves t c { t with dec := some (c.dict.id, dec) }

theorem Thread.encoder_leaves {t t' : Thread Enc Dec} {c : Compressor} {enc : Enc}
    (h : t.encoder c = .ok (enc, t')) : t.Leaves c t' := by
  have hrebuild : t.rebuildEncoder c = .ok (enc, t') → t.Leaves c t' := by
    intro h
    unfold Thread.rebuildEncoder at h
    split at h
    · cases h
    · rename_i hload
      cases h
      exact .encoder hload
  unfold Thread.encoder at h
  split at h
  · split_ifs at h
    · exact hrebuild h
    · cases h
      exact .same
  · exact hrebuild h

theorem Thread.decoder_leaves {t t' : Thread Enc Dec} {c : Compressor} {dec : Dec}
    (h : t.decoder c = .ok (dec, t')) : t.Leaves c t' := by
  have hrebuild : t.rebuildDecoder c = .ok (dec, t') → t.Leaves c t' := by
    intro h
    unfold Thread.rebuildDecoder at h
    split at h
    · cases h
    · rename_i hload
      cases h
      exact .decoder hload
  unfold Thread.decoder at h
  split at h
  · split_ifs at h
    · exact hrebuild h
    · cases h
      exact .same
  · exact hrebuild h

theorem ContextCall.on_leaves (t : Thread Enc Dec) (call : ContextCall) :
    t.Leaves call.compressor (call.on t).2 := by
  cases call with
  | compress c input =>
      simp only [on, compressor, Compressor.compressOn]
      split_ifs
      · exact .same
      · split
        · exact .same
        · rename_i hencoder
          split
          · exact Thread.encoder_leaves hencoder
          · split_ifs <;> exact Thread.encoder_leaves hencoder
  | decompress c input =>
      cases input with
      | nil => exact .same
      | cons marker body =>
          simp only [on, compressor, Compressor.decompressOn]
          split_ifs
          · exact .same
          · split
            · exact .same
            · rename_i hdecoder
              split <;> exact Thread.decoder_leaves hdecoder
          · exact .same

/-- The cached contexts were loaded by calls of the run so far. -/
structure Thread.LoadedBy (t : Thread Enc Dec) (calls : List ContextCall) : Prop where
  enc : ∀ l d enc, t.enc = some (l, d, enc) → ∃ call ∈ calls,
    call.compressor.dict.id = d ∧ loadEncoder l call.compressor.dict.content = .ok enc
  dec : ∀ d dec, t.dec = some (d, dec) → ∃ call ∈ calls,
    call.compressor.dict.id = d ∧ loadDecoder call.compressor.dict.content = .ok dec

theorem Thread.LoadedBy.on {t : Thread Enc Dec} {calls : List ContextCall} (h : t.LoadedBy calls)
    {call : ContextCall} (hcall : call ∈ calls) : (call.on t).2.LoadedBy calls := by
  generalize hleft : (call.on t).2 = left
  have hleaves := hleft ▸ call.on_leaves t
  cases hleaves with
  | same => exact h
  | encoder load =>
      refine ⟨?_, h.dec⟩
      intro l d enc hcached
      cases hcached
      exact ⟨call, hcall, rfl, load⟩
  | decoder load =>
      refine ⟨h.enc, ?_⟩
      intro d dec hcached
      cases hcached
      exact ⟨call, hcall, rfl, load⟩

/-- Among these calls, the id of a dictionary determines its content. -/
def IdsIdentify (calls : List ContextCall) : Prop :=
  ∀ a ∈ calls, ∀ b ∈ calls, a.compressor.dict.id = b.compressor.dict.id →
    a.compressor.dict.content = b.compressor.dict.content

theorem Thread.LoadedBy.meets {t : Thread Enc Dec} {calls : List ContextCall}
    (h : t.LoadedBy calls) (hids : IdsIdentify calls) {call : ContextCall}
    (hcall : call ∈ calls) : t.Meets call := by
  cases call with
  | compress c input =>
      intro _ enc hcached
      obtain ⟨other, hother, hid, hload⟩ := h.enc _ _ _ hcached
      exact hids other hother _ hcall hid ▸ hload
  | decompress c input =>
      intro _ dec hcached
      obtain ⟨other, hother, hid, hload⟩ := h.dec _ _ hcached
      exact hids other hother _ hcall hid ▸ hload

/-- Where ids identify dictionaries, every call of a run meets the condition. -/
theorem Thread.meetsAll_of_idsIdentify {calls : List ContextCall} (hids : IdsIdentify calls) :
    ({} : Thread Enc Dec).MeetsAll calls := by
  suffices hrun : ∀ (rest : List ContextCall) (t : Thread Enc Dec), rest ⊆ calls →
      t.LoadedBy calls → t.MeetsAll rest from
    hrun calls {} (List.Subset.refl _) ⟨fun _ _ _ h => (nomatch h), fun _ _ h => (nomatch h)⟩
  intro rest
  induction rest with
  | nil => exact fun _ _ _ => trivial
  | cons call rest ih =>
      intro t hsub hloaded
      have hcall := hsub List.mem_cons_self
      exact ⟨hloaded.meets hids hcall,
        ih _ (fun x hx => hsub (List.mem_cons_of_mem _ hx)) (hloaded.on hcall)⟩

/-! ## History -/

/-- In a run that reuses a context only for the dictionary it was loaded from, every call
returns what it returns on a fresh thread, and what was compressed is restored. -/
theorem calls_independent_of_history (calls : List ContextCall)
    (hmeets : ({} : Thread Enc Dec).MeetsAll calls) :
    ContextCall.results ({} : Thread Enc Dec) calls = calls.map ContextCall.fresh ∧
      (@Zstd.Inverts ZstdContexts.toZstd → ∀ (i j : Nat) (c c' : Compressor) (x z : List UInt8),
        c'.dict.content = c.dict.content → calls[i]? = some (.compress c x) →
        (ContextCall.results ({} : Thread Enc Dec) calls)[i]? = some (.ok z) →
        calls[j]? = some (.decompress c' z) →
        (ContextCall.results ({} : Thread Enc Dec) calls)[j]? = some (.ok x)) := by
  have hresults := ContextCall.results_eq hmeets
  refine ⟨hresults, ?_⟩
  intro hinv i j c c' x z hdict hcompress hz hdecompress
  rw [hresults, List.getElem?_map, hcompress, Option.map_some, ContextCall.fresh_eq] at hz
  rw [hresults, List.getElem?_map, hdecompress, Option.map_some, ContextCall.fresh_eq]
  let _ := @ZstdContexts.toZstd Enc Dec _
  have hdec : c'.decompress z = .ok x :=
    Compressor.decompress_compress hinv hdict (Option.some.inj hz)
  exact congrArg some hdec

/-- How many bytes an input has in common with the start of a dictionary. -/
def sharedPrefix : List UInt8 → List UInt8 → Nat
  | d :: dict, b :: input => if d = b then sharedPrefix dict input + 1 else 0
  | _, _ => 0

theorem take_sharedPrefix_append (dict input : List UInt8) :
    dict.take (sharedPrefix dict input) ++ input.drop (sharedPrefix dict input) = input := by
  fun_induction sharedPrefix dict input with
  | case1 dict b input ih => rw [List.take_succ_cons, List.drop_succ_cons, List.cons_append, ih]
  | case2 => rfl
  | case3 => rfl

theorem sharedPrefix_le (dict input : List UInt8) : sharedPrefix dict input ≤ input.length := by
  fun_induction sharedPrefix dict input with
  | case1 dict b input ih => simpa using ih
  | case2 => exact Nat.zero_le _
  | case3 => exact Nat.zero_le _

/-- A frame is the content size, how much of the dictionary the input starts with, and the
rest of the input. -/
def prefixCompress (dict input : List UInt8) : Except String (List UInt8) :=
  if 256 ^ 8 ≤ input.length then .error "Src size is incorrect"
  else
    .ok (toLe 8 input.length ++ toLe 8 (sharedPrefix dict input) ++
      input.drop (sharedPrefix dict input))

def prefixDecompress (dict frame : List UInt8) (cap : Nat) : Except String (List UInt8) :=
  let out := dict.take (ofLe ((frame.drop 8).take 8)) ++ frame.drop 16
  if out.length ≤ cap then .ok out else .error "Destination buffer is too small"

/-- A codec that copies from the start of the dictionary, on which the model can be evaluated.
A context is its dictionary. -/
@[reducible] def prefixContexts : ZstdContexts (List UInt8) (List UInt8) where
  newEncoder := fun _ => .ok []
  encoderWithDictionary := fun _ dict => .ok dict
  compress := prefixCompress
  newDecoder := .ok []
  decoderWithDictionary := fun dict => .ok dict
  decompress := prefixDecompress
  frameContentSize := fun frame =>
    if frame.length < 8 then .error "Src size is incorrect"
    else .ok (some (ofLe (frame.take 8)))

omit [ZstdContexts Enc Dec] in
theorem inverts_prefixContexts : @Zstd.Inverts prefixContexts.toZstd := by
  let _ := prefixContexts
  intro level dict input z hz
  have hload : loadEncoder level dict = .ok dict := by
    unfold loadEncoder
    split_ifs with hnil
    · exact congrArg Except.ok hnil.symm
    · rfl
  have hunload : loadDecoder dict = .ok dict := by
    unfold loadDecoder
    split_ifs with hnil
    · exact congrArg Except.ok hnil.symm
    · rfl
  rw [ZstdContexts.compress_toZstd, hload] at hz
  simp only [ZstdContexts.decompress_toZstd, hunload, Except.bind] at hz ⊢
  change prefixCompress dict input = .ok z at hz
  change (if z.length < 8 then .error "Src size is incorrect" else .ok (some (ofLe (z.take 8)))) =
    Except.ok (some input.length) ∧
      ∀ cap, input.length ≤ cap → prefixDecompress dict z cap = .ok input
  unfold prefixCompress at hz
  split_ifs at hz with hlong
  cases hz
  have hsize : input.length < 256 ^ 8 := Nat.lt_of_not_le hlong
  have hshared := (sharedPrefix_le dict input).trans_lt hsize
  constructor
  · simp [ofLe_toLe hsize]
  · intro cap hcap
    have hheader : (toLe 8 input.length ++ toLe 8 (sharedPrefix dict input)).length = 16 := by
      simp
    rw [prefixDecompress, List.drop_left' hheader, List.append_assoc,
      List.drop_left' (length_toLe 8 _), List.take_left' (length_toLe 8 _), ofLe_toLe hshared]
    simp only [take_sharedPrefix_append]
    exact if_pos hcap

/-- The first of two dictionaries under the id 7. -/
def dictionaryA : Dict := ⟨7, (List.range' 0 64).map UInt8.ofNat⟩

/-- The second one, which has no byte in common with the first. -/
def dictionaryB : Dict := ⟨7, (List.range' 64 64).map UInt8.ofNat⟩

omit [ZstdContexts Enc Dec] in
/-- One dictionary under one id: the frame against it is restored on the same thread. -/
theorem calls_independent_one_dictionary :
    letI := prefixContexts
    let c : Compressor := ⟨dictionaryA, 3, 32⟩
    let x := dictionaryA.content.take 48
    let z : List UInt8 := 0x01 :: (toLe 8 48 ++ toLe 8 48)
    ContextCall.results ({} : Thread _ _) [.compress c x, .decompress c z] =
      [.ok z, .ok x] := by
  let _ := prefixContexts
  let c : Compressor := ⟨dictionaryA, 3, 32⟩
  let x := dictionaryA.content.take 48
  let z : List UInt8 := 0x01 :: (toLe 8 48 ++ toLe 8 48)
  have hids : IdsIdentify [.compress c x, .decompress c z] := by
    intro a ha b hb _
    have hdict : ∀ call ∈ [ContextCall.compress c x, .decompress c z],
        call.compressor = c := by simp [ContextCall.compressor]
    rw [hdict a ha, hdict b hb]
  exact (calls_independent_of_history _ (Thread.meetsAll_of_idsIdentify hids)).1.trans
    (by decide +kernel)

omit [ZstdContexts Enc Dec] in
/-- Two dictionaries under one id: the second compressor uses the encoder of the first, returns
something else than on a fresh thread, and restores the start of its own dictionary instead. -/
theorem calls_share_context_of_equal_ids :
    letI := prefixContexts
    let a : Compressor := ⟨dictionaryA, 3, 32⟩
    let b : Compressor := ⟨dictionaryB, 3, 32⟩
    let x := dictionaryA.content.take 48
    let z : List UInt8 := 0x01 :: (toLe 8 48 ++ toLe 8 48)
    let calls : List ContextCall := [.compress a x, .compress b x, .decompress b z]
    @Zstd.Inverts ZstdContexts.toZstd ∧
      (ContextCall.results ({} : Thread _ _) calls)[1]? = some (.ok z) ∧
      ContextCall.fresh (.compress b x) = .ok (0x00 :: x) ∧
      (ContextCall.results ({} : Thread _ _) calls)[2]? =
        some (.ok (dictionaryB.content.take 48)) ∧
      dictionaryB.content.take 48 ≠ x ∧
      ContextCall.results ({} : Thread _ _) calls ≠ calls.map ContextCall.fresh := by
  refine ⟨inverts_prefixContexts, ?_⟩
  decide +kernel

end Dlr.Compress
