import Mathlib.Data.List.Basic

/-!
# JSON texts

The JSON grammar over bytes, with the value that each text stands for. The grammar is
unambiguous: a deterministic machine that reads a text byte by byte, with a stack of the
arrays and objects it is inside of, follows every derivation.

## Implementation notes

One family of relations covers the nonterminals, indexed by the symbol. What literals,
strings, arrays and objects mean is a parameter, so a text can be read into any type of
values. White space belongs to the elements and members it surrounds.
-/

namespace Dlr.Lib.Json

variable {K V : Type}

/-- What the pieces of a text stand for. Numbers and the characters between the quotes of a
string may have no meaning. -/
structure Meaning (K V : Type) where
  null : V
  bool : Bool → V
  number : List UInt8 → Option V
  text : List UInt8 → Option K
  string : K → V
  array : List V → V
  object : List (K × V) → V

/-! ## Lexical elements -/

def isWs (b : UInt8) : Bool := b = 0x20 ∨ b = 0x09 ∨ b = 0x0A ∨ b = 0x0D

/-- Bytes that end a word: `"`, `,`, `:`, `[`, `]`, the braces. -/
def isPunctuation (b : UInt8) : Bool :=
  b = 0x22 ∨ b = 0x2C ∨ b = 0x3A ∨ b = 0x5B ∨ b = 0x5D ∨ b = 0x7B ∨ b = 0x7D

/-- Bytes of numbers and of `null`, `true` and `false`. -/
def isWord (b : UInt8) : Bool := ¬isWs b ∧ ¬isPunctuation b

def isDigit (b : UInt8) : Bool := 0x30 ≤ b ∧ b ≤ 0x39

def nullWord : List UInt8 := [0x6E, 0x75, 0x6C, 0x6C]
def trueWord : List UInt8 := [0x74, 0x72, 0x75, 0x65]
def falseWord : List UInt8 := [0x66, 0x61, 0x6C, 0x73, 0x65]

/-- A zero, or digits that do not start with a zero. -/
def isInt : List UInt8 → Bool
  | [] => false
  | d :: ds => isDigit d ∧ (d = 0x30 → ds = []) ∧ ds.all isDigit

def isFrac : List UInt8 → Bool
  | [] => true
  | point :: ds => point = 0x2E ∧ ds ≠ [] ∧ ds.all isDigit

def isExp : List UInt8 → Bool
  | [] => true
  | [_] => false
  | e :: d :: ds =>
      (e = 0x65 ∨ e = 0x45) ∧ (isDigit d ∨ ((d = 0x2B ∨ d = 0x2D) ∧ ds ≠ [])) ∧ ds.all isDigit

/-- A number literal. -/
def IsNumber (lit : List UInt8) : Prop :=
  ∃ sign int frac exp, lit = sign ++ int ++ frac ++ exp ∧ (sign = [] ∨ sign = [0x2D]) ∧
    isInt int = true ∧ isFrac frac = true ∧ isExp exp = true

/-- The characters between the quotes of a string: no quote that is not escaped, and no
control character. -/
def isChars : List UInt8 → Bool
  | [] => true
  | b :: rest =>
      if b = 0x5C then
        match rest with
        | [] => false
        | _ :: rest => isChars rest
      else b ≠ 0x22 ∧ 0x20 ≤ b ∧ isChars rest

/-! ## The characters of a string -/

def hexDigit (b : UInt8) : Option Nat :=
  if 0x30 ≤ b ∧ b ≤ 0x39 then some (b.toNat - 0x30)
  else if 0x41 ≤ b ∧ b ≤ 0x46 then some (b.toNat - 0x37)
  else if 0x61 ≤ b ∧ b ≤ 0x66 then some (b.toNat - 0x57)
  else none

/-- The byte of a two-character escape. -/
def escaped (b : UInt8) : Option UInt8 :=
  if b = 0x22 ∨ b = 0x5C ∨ b = 0x2F then some b
  else if b = 0x62 then some 0x08
  else if b = 0x66 then some 0x0C
  else if b = 0x6E then some 0x0A
  else if b = 0x72 then some 0x0D
  else if b = 0x74 then some 0x09
  else none

/-- A byte of a string, or a UTF-16 code unit written as `\u` and four digits. -/
inductive Piece
  | byte (b : UInt8)
  | unit (n : Nat)

def pieces : List UInt8 → Option (List Piece)
  | [] => some []
  | 0x5C :: 0x75 :: a :: b :: c :: d :: rest => do
      let a ← hexDigit a
      let b ← hexDigit b
      let c ← hexDigit c
      let d ← hexDigit d
      let tail ← pieces rest
      some (.unit (((a * 16 + b) * 16 + c) * 16 + d) :: tail)
  | 0x5C :: e :: rest => do
      let b ← escaped e
      let tail ← pieces rest
      some (.byte b :: tail)
  | b :: rest =>
      if b = 0x5C then none
      else (pieces rest).map fun tail => .byte b :: tail

def utf8 (n : Nat) : List UInt8 := String.utf8EncodeChar (Char.ofNat n)

/-- The UTF-8 bytes of some pieces. A high surrogate needs a low one behind it. -/
def utf8Bytes : List Piece → Option (List UInt8)
  | [] => some []
  | .byte b :: rest => (utf8Bytes rest).map fun tail => b :: tail
  | .unit hi :: .unit lo :: rest =>
      if 0xD800 ≤ hi ∧ hi < 0xDC00 then
        if 0xDC00 ≤ lo ∧ lo < 0xE000 then
          (utf8Bytes rest).map fun tail =>
            utf8 (0x10000 + (hi - 0xD800) * 0x400 + (lo - 0xDC00)) ++ tail
        else none
      else if 0xDC00 ≤ hi ∧ hi < 0xE000 then none
      else (utf8Bytes (.unit lo :: rest)).map fun tail => utf8 hi ++ tail
  | .unit n :: rest =>
      if 0xD800 ≤ n ∧ n < 0xE000 then none
      else (utf8Bytes rest).map fun tail => utf8 n ++ tail

/-- The string written between two quotes. -/
def unescape (raw : List UInt8) : Option String := do
  let written ← pieces raw
  let bytes ← utf8Bytes written
  String.fromUTF8? ⟨bytes.toArray⟩

/-! ## The grammar -/

inductive Symbol
  | value
  | element
  | elements
  | member
  | members

/-- What the texts of a symbol stand for. -/
def Symbol.Sem (K V : Type) : Symbol → Type
  | value => V
  | element => V
  | elements => List V
  | member => K × V
  | members => List (K × V)

/-- The productions. An element is a value in white space; a member is a key and an element;
elements and members are separated by commas. -/
inductive Derives (m : Meaning K V) : (s : Symbol) → List UInt8 → s.Sem K V → Prop
  | null : Derives m .value nullWord m.null
  | true : Derives m .value trueWord (m.bool true)
  | false : Derives m .value falseWord (m.bool false)
  | number {lit : List UInt8} {v : V} :
      IsNumber lit → m.number lit = some v → Derives m .value lit v
  | string {raw : List UInt8} {k : K} :
      isChars raw = true → m.text raw = some k →
        Derives m .value ([0x22] ++ raw ++ [0x22]) (m.string k)
  | emptyArray {ws : List UInt8} :
      ws.all isWs = true → Derives m .value ([0x5B] ++ ws ++ [0x5D]) (m.array [])
  | array {t : List UInt8} {vs : List V} :
      Derives m .elements t vs → Derives m .value ([0x5B] ++ t ++ [0x5D]) (m.array vs)
  | emptyObject {ws : List UInt8} :
      ws.all isWs = true → Derives m .value ([0x7B] ++ ws ++ [0x7D]) (m.object [])
  | object {t : List UInt8} {ms : List (K × V)} :
      Derives m .members t ms → Derives m .value ([0x7B] ++ t ++ [0x7D]) (m.object ms)
  | element {ws t ws' : List UInt8} {v : V} :
      ws.all isWs = true → Derives m .value t v → ws'.all isWs = true →
        Derives m .element (ws ++ t ++ ws') v
  | elementsOne {t : List UInt8} {v : V} :
      Derives m .element t v → Derives m .elements t [v]
  | elementsMore {t u : List UInt8} {vs : List V} {v : V} :
      Derives m .elements t vs → Derives m .element u v →
        Derives m .elements (t ++ [0x2C] ++ u) (vs ++ [v])
  | member {ws raw ws' t : List UInt8} {k : K} {v : V} :
      ws.all isWs = true → isChars raw = true → m.text raw = some k → ws'.all isWs = true →
        Derives m .element t v →
          Derives m .member (ws ++ [0x22] ++ raw ++ [0x22] ++ ws' ++ [0x3A] ++ t) (k, v)
  | membersOne {t : List UInt8} {x : K × V} :
      Derives m .member t x → Derives m .members t [x]
  | membersMore {t u : List UInt8} {ms : List (K × V)} {x : K × V} :
      Derives m .members t ms → Derives m .member u x →
        Derives m .members (t ++ [0x2C] ++ u) (ms ++ [x])

/-- The text is JSON and stands for the value. -/
def Text (m : Meaning K V) (t : List UInt8) (v : V) : Prop := Derives m .element t v

/-! ## A machine that follows the grammar -/

/-- An array or object that the machine is inside of, with what it has of it; the key of a
member stands above its object. -/
inductive Frame (K V : Type)
  | array (items : List V)
  | object (members : List (K × V))
  | member (key : K)

/-- What the machine has just read: it waits for a value, for a value or the end of an
empty array, for a key or the end of an empty object, for a key, for a colon, for what
follows a value, or it is inside a word or a string. -/
inductive Mode (V : Type)
  | value
  | firstValue
  | firstKey
  | key
  | colon
  | done (v : V)
  | word (lit : List UInt8)
  | chars (raw : List UInt8)
  | escape (raw : List UInt8)

structure State (K V : Type) where
  mode : Mode V
  stack : List (Frame K V)

variable (m : Meaning K V)

/-- The value of a word. -/
def wordValue (lit : List UInt8) : Option V :=
  if lit = nullWord then some m.null
  else if lit = trueWord then some (m.bool true)
  else if lit = falseWord then some (m.bool false)
  else m.number lit

/-- The first byte of a value. -/
def begin (stack : List (Frame K V)) (b : UInt8) : Option (State K V) :=
  if b = 0x22 then some ⟨.chars [], stack⟩
  else if b = 0x5B then some ⟨.firstValue, .array [] :: stack⟩
  else if b = 0x7B then some ⟨.firstKey, .object [] :: stack⟩
  else if isWord b then some ⟨.word [b], stack⟩
  else none

/-- The byte behind a value. -/
def after (v : V) : List (Frame K V) → UInt8 → Option (State K V)
  | .array items :: stack, b =>
      if b = 0x2C then some ⟨.value, .array (items ++ [v]) :: stack⟩
      else if b = 0x5D then some ⟨.done (m.array (items ++ [v])), stack⟩
      else none
  | .member k :: .object members :: stack, b =>
      if b = 0x2C then some ⟨.key, .object (members ++ [(k, v)]) :: stack⟩
      else if b = 0x7D then some ⟨.done (m.object (members ++ [(k, v)])), stack⟩
      else none
  | _, _ => none

/-- The closing quote of a string: a key if it stands directly in an object. -/
def close (k : K) : List (Frame K V) → State K V
  | .object members :: stack => ⟨.colon, .member k :: .object members :: stack⟩
  | stack => ⟨.done (m.string k), stack⟩

def step (st : State K V) (b : UInt8) : Option (State K V) :=
  match st.mode with
  | .chars raw =>
      if b = 0x22 then (m.text raw).map fun k => close m k st.stack
      else if b = 0x5C then some ⟨.escape (raw ++ [b]), st.stack⟩
      else some ⟨.chars (raw ++ [b]), st.stack⟩
  | .escape raw => some ⟨.chars (raw ++ [b]), st.stack⟩
  | .word lit =>
      if isWord b then some ⟨.word (lit ++ [b]), st.stack⟩
      else (wordValue m lit).bind fun v => if isWs b then some ⟨.done v, st.stack⟩ else
        after m v st.stack b
  | .value => if isWs b then some st else begin st.stack b
  | .firstValue =>
      if isWs b then some st
      else
        match st.stack with
        | .array [] :: stack => if b = 0x5D then some ⟨.done (m.array []), stack⟩ else
            begin st.stack b
        | _ => none
  | .firstKey =>
      if isWs b then some st
      else
        match st.stack with
        | .object [] :: stack =>
            if b = 0x7D then some ⟨.done (m.object []), stack⟩
            else if b = 0x22 then some ⟨.chars [], st.stack⟩
            else none
        | _ => none
  | .key => if isWs b then some st else if b = 0x22 then some ⟨.chars [], st.stack⟩ else none
  | .colon => if isWs b then some st else if b = 0x3A then some ⟨.value, st.stack⟩ else none
  | .done v => if isWs b then some st else after m v st.stack b

/-- The value at the end of the text. -/
def finish (st : State K V) : Option V :=
  match st.mode, st.stack with
  | .done v, [] => some v
  | .word lit, [] => wordValue m lit
  | _, _ => none

def reads : State K V → List UInt8 → Option V
  | st, [] => finish m st
  | st, b :: rest => (step m st b).bind fun st => reads st rest

/-- The value of a text. -/
def read (t : List UInt8) : Option V := reads m ⟨.value, []⟩ t

/-! ## Following one piece of a text -/

section Follow

variable {m}

/-- Modes in which white space is skipped. -/
def Mode.skips : Mode V → Bool
  | word _ => false
  | chars _ => false
  | escape _ => false
  | _ => true

theorem reads_ws {mode : Mode V} (hskips : mode.skips = true) (stack : List (Frame K V))
    {ws : List UInt8} (hws : ws.all isWs = true) (rest : List UInt8) :
    reads m ⟨mode, stack⟩ (ws ++ rest) = reads m ⟨mode, stack⟩ rest := by
  induction ws with
  | nil => rfl
  | cons b ws ih =>
      rw [List.all_cons, Bool.and_eq_true] at hws
      have hstep : step m ⟨mode, stack⟩ b = some ⟨mode, stack⟩ := by
        cases mode <;> simp_all [step, Mode.skips]
      rw [List.cons_append, reads, hstep]
      exact ih hws.2

theorem reads_chars {raw : List UInt8} (hraw : isChars raw = true) (acc : List UInt8)
    (stack : List (Frame K V)) (rest : List UInt8) :
    reads m ⟨.chars acc, stack⟩ (raw ++ [0x22] ++ rest) =
      (m.text (acc ++ raw)).bind fun k => reads m (close m k stack) rest := by
  fun_induction isChars raw generalizing acc with
  | case1 => cases h : m.text acc <;> simp [reads, step, h]
  | case2 => cases hraw
  | case3 c raw ih =>
      have htwo : reads m ⟨.chars acc, stack⟩ ((0x5C :: c :: raw) ++ [0x22] ++ rest) =
          reads m ⟨.chars (acc ++ [0x5C, c]), stack⟩ (raw ++ [0x22] ++ rest) := by
        simp [reads, step]
      rw [htwo, ih hraw, List.append_assoc]
      rfl
  | case4 b raw hb ih =>
      simp only [decide_eq_true_eq] at hraw
      have hone : reads m ⟨.chars acc, stack⟩ ((b :: raw) ++ [0x22] ++ rest) =
          reads m ⟨.chars (acc ++ [b]), stack⟩ (raw ++ [0x22] ++ rest) := by
        simp [reads, step, hraw.1, hb]
      rw [hone, ih hraw.2.2, List.append_assoc]
      rfl

/-- The text goes on with something that is not part of a word. -/
def Stops (rest : List UInt8) : Prop := ∀ b ∈ rest.head?, isWord b = false

theorem stops_cons {b : UInt8} (h : isWord b = false) (rest : List UInt8) : Stops (b :: rest) := by
  rintro c ⟨⟩
  exact h

theorem Stops.ws_append {ws : List UInt8} (hws : ws.all isWs = true) {rest : List UInt8}
    (h : Stops rest) : Stops (ws ++ rest) := by
  cases ws with
  | nil => exact h
  | cons b ws =>
      apply stops_cons
      rw [List.all_cons, Bool.and_eq_true] at hws
      simp [isWord, hws.1]

theorem reads_word {lit : List UInt8} (hlit : lit.all isWord = true) (acc : List UInt8)
    (stack : List (Frame K V)) (rest : List UInt8) :
    reads m ⟨.word acc, stack⟩ (lit ++ rest) = reads m ⟨.word (acc ++ lit), stack⟩ rest := by
  induction lit generalizing acc with
  | nil => rw [List.nil_append, List.append_nil]
  | cons b lit ih =>
      rw [List.all_cons, Bool.and_eq_true] at hlit
      have hstep : step m ⟨.word acc, stack⟩ b = some ⟨.word (acc ++ [b]), stack⟩ := by
        simp [step, hlit.1]
      rw [List.cons_append, reads, hstep, List.append_cons acc b lit]
      exact ih hlit.2 (acc ++ [b])

/-- A word ends where the next piece begins. -/
theorem reads_word_end {lit : List UInt8} {v : V} (hv : wordValue m lit = some v)
    (stack : List (Frame K V)) {rest : List UInt8} (hstops : Stops rest) :
    reads m ⟨.word lit, stack⟩ rest = reads m ⟨.done v, stack⟩ rest := by
  cases rest with
  | nil => cases stack <;> simp [reads, finish, hv]
  | cons b rest =>
      have hb := hstops b rfl
      simp [reads, step, hb, hv]

/-- States in which a value is read next. -/
inductive AwaitsValue : State K V → Prop
  | value {stack : List (Frame K V)} (h : ∀ members below, stack ≠ .object members :: below) :
      AwaitsValue ⟨.value, stack⟩
  | first {stack : List (Frame K V)} : AwaitsValue ⟨.firstValue, .array [] :: stack⟩

theorem AwaitsValue.skips {st : State K V} (h : AwaitsValue st) : st.mode.skips = true := by
  cases h <;> rfl

theorem AwaitsValue.step_eq {st : State K V} (h : AwaitsValue st) {b : UInt8}
    (hws : isWs b = false) (hb : b ≠ 0x5D) : step m st b = begin st.stack b := by
  cases h <;> simp [step, hws, hb]

theorem AwaitsValue.close_eq {st : State K V} (h : AwaitsValue st) (k : K) :
    close m k st.stack = ⟨.done (m.string k), st.stack⟩ := by
  cases h with
  | @value stack htop =>
      match stack, htop with
      | [], _ => rfl
      | .array _ :: _, _ => rfl
      | .member _ :: _, _ => rfl
      | .object members :: below, htop => exact absurd rfl (htop members below)
  | first => rfl

theorem awaitsValue_array (items : List V) (stack : List (Frame K V)) :
    AwaitsValue ⟨.value, .array items :: stack⟩ :=
  .value (by simp)

theorem awaitsValue_member (k : K) (stack : List (Frame K V)) :
    AwaitsValue ⟨.value, .member k :: stack⟩ :=
  .value (by simp)

/-- States in which a key of an object with these members is read next. -/
inductive AwaitsKey : State K V → List (K × V) → List (Frame K V) → Prop
  | key {members : List (K × V)} {stack : List (Frame K V)} :
      AwaitsKey ⟨.key, .object members :: stack⟩ members stack
  | first {stack : List (Frame K V)} : AwaitsKey ⟨.firstKey, .object [] :: stack⟩ [] stack

/-- A word that stands where a value is due. -/
theorem AwaitsValue.word {st : State K V} (h : AwaitsValue st) {lit : List UInt8}
    (hne : lit ≠ []) (hlit : lit.all isWord = true) {v : V} (hv : wordValue m lit = some v)
    {rest : List UInt8} (hstops : Stops rest) :
    reads m st (lit ++ rest) = reads m ⟨.done v, st.stack⟩ rest := by
  obtain ⟨b, lit, rfl⟩ := List.exists_cons_of_ne_nil hne
  rw [List.all_cons, Bool.and_eq_true] at hlit
  obtain ⟨hb, hlit⟩ := hlit
  have hbytes : isWs b = false ∧ isPunctuation b = false := by simpa [isWord] using hb
  have hpunct : b ≠ 0x22 ∧ b ≠ 0x2C ∧ b ≠ 0x3A ∧ b ≠ 0x5B ∧ b ≠ 0x5D ∧ b ≠ 0x7B ∧ b ≠ 0x7D := by
    simpa [isPunctuation] using hbytes.2
  have hbegin : begin st.stack b = some ⟨.word [b], st.stack⟩ := by
    simp [begin, hb, hpunct]
  rw [List.cons_append, reads, h.step_eq hbytes.1 hpunct.2.2.2.2.1, hbegin]
  calc reads m ⟨.word [b], st.stack⟩ (lit ++ rest)
      = reads m ⟨.word (b :: lit), st.stack⟩ rest := reads_word hlit [b] st.stack rest
    _ = reads m ⟨.done v, st.stack⟩ rest := reads_word_end hv st.stack hstops

/-! ## Numbers are words -/

theorem isWord_of_isDigit {b : UInt8} (h : isDigit b = true) : isWord b = true := by
  simp only [isDigit, decide_eq_true_eq, UInt8.le_iff_toNat_le] at h
  have hne : ∀ c : UInt8, ¬ (0x30 ≤ c.toNat ∧ c.toNat ≤ 0x39) → b ≠ c := by
    rintro c hc rfl
    exact hc h
  simp [isWord, isWs, isPunctuation, hne]

theorem all_isWord_of_digits {ds : List UInt8} (h : ds.all isDigit = true) :
    ds.all isWord = true :=
  List.all_eq_true.mpr fun b hb => isWord_of_isDigit (List.all_eq_true.mp h b hb)

theorem isInt_words {int : List UInt8} (h : isInt int = true) :
    int.all isWord = true ∧ ∃ d ds, int = d :: ds ∧ isDigit d = true := by
  cases int with
  | nil => cases h
  | cons d ds =>
      simp only [isInt, decide_eq_true_eq] at h
      refine ⟨?_, d, ds, rfl, h.1⟩
      rw [List.all_cons, isWord_of_isDigit h.1, all_isWord_of_digits h.2.2]
      rfl

theorem isFrac_words {frac : List UInt8} (h : isFrac frac = true) : frac.all isWord = true := by
  cases frac with
  | nil => rfl
  | cons point ds =>
      simp only [isFrac, decide_eq_true_eq] at h
      rw [List.all_cons, h.1, all_isWord_of_digits h.2.2]
      rfl

theorem isExp_words {exp : List UInt8} (h : isExp exp = true) : exp.all isWord = true := by
  match exp, h with
  | [], _ => rfl
  | e :: d :: ds, h =>
      simp only [isExp, decide_eq_true_eq] at h
      obtain ⟨he, hd, hds⟩ := h
      have hwe : isWord e = true := by
        rcases he with rfl | rfl <;> rfl
      have hwd : isWord d = true := by
        rcases hd with hd | ⟨rfl | rfl, -⟩
        · exact isWord_of_isDigit hd
        · rfl
        · rfl
      rw [List.all_cons, List.all_cons, hwe, hwd, all_isWord_of_digits hds]
      rfl

/-- A number is a word, and none of the three names. -/
theorem IsNumber.word {lit : List UInt8} (h : IsNumber lit) :
    lit ≠ [] ∧ lit.all isWord = true ∧ wordValue m lit = m.number lit := by
  obtain ⟨sign, int, frac, exp, rfl, hsign, hint, hfrac, hexp⟩ := h
  obtain ⟨hwords, d, ds, rfl, hd⟩ := isInt_words hint
  have hne : d ≠ 0x6E ∧ d ≠ 0x74 ∧ d ≠ 0x66 := by
    refine ⟨?_, ?_, ?_⟩ <;> rintro rfl <;> cases hd
  rcases hsign with rfl | rfl
  · refine ⟨by simp, ?_, ?_⟩
    · simp only [List.nil_append, List.all_append, hwords, isFrac_words hfrac, isExp_words hexp]
      rfl
    · simp [wordValue, nullWord, trueWord, falseWord, hne]
  · refine ⟨by simp, ?_, ?_⟩
    · simp only [List.all_append, hwords, isFrac_words hfrac, isExp_words hexp]
      rfl
    · simp [wordValue, nullWord, trueWord, falseWord]

/-! ## Following a derivation -/

variable (m) in
/-- What the machine does on the texts of a symbol. On elements and members it stands behind
the last of them, with the others on the stack. -/
def Follows : (s : Symbol) → List UInt8 → s.Sem K V → Prop
  | .value, t, v => ∀ st rest, AwaitsValue st → Stops rest →
      reads m st (t ++ rest) = reads m ⟨.done v, st.stack⟩ rest
  | .element, t, v => ∀ st rest, AwaitsValue st → Stops rest →
      reads m st (t ++ rest) = reads m ⟨.done v, st.stack⟩ rest
  | .elements, t, vs => ∃ init v, vs = init ++ [v] ∧ ∀ mode items stack rest,
      AwaitsValue ⟨mode, .array items :: stack⟩ → Stops rest →
        reads m ⟨mode, .array items :: stack⟩ (t ++ rest) =
          reads m ⟨.done v, .array (items ++ init) :: stack⟩ rest
  | .member, t, x => ∀ st members stack rest, AwaitsKey st members stack → Stops rest →
      reads m st (t ++ rest) = reads m ⟨.done x.2, .member x.1 :: .object members :: stack⟩ rest
  | .members, t, ms => ∃ init x, ms = init ++ [x] ∧ ∀ st members stack rest,
      AwaitsKey st members stack → Stops rest →
        reads m st (t ++ rest) =
          reads m ⟨.done x.2, .member x.1 :: .object (members ++ init) :: stack⟩ rest

theorem AwaitsValue.open_array {st : State K V} (h : AwaitsValue st) (rest : List UInt8) :
    reads m st (0x5B :: rest) = reads m ⟨.firstValue, .array [] :: st.stack⟩ rest := by
  have hopen : step m st 0x5B = some ⟨.firstValue, .array [] :: st.stack⟩ :=
    h.step_eq rfl (by decide)
  rw [reads, hopen, Option.bind_some]

theorem AwaitsValue.open_object {st : State K V} (h : AwaitsValue st) (rest : List UInt8) :
    reads m st (0x7B :: rest) = reads m ⟨.firstKey, .object [] :: st.stack⟩ rest := by
  have hopen : step m st 0x7B = some ⟨.firstKey, .object [] :: st.stack⟩ :=
    h.step_eq rfl (by decide)
  rw [reads, hopen, Option.bind_some]

/-- A string that stands where a value is due. -/
theorem AwaitsValue.string {st : State K V} (h : AwaitsValue st) {raw : List UInt8}
    (hraw : isChars raw = true) {k : K} (hk : m.text raw = some k) (rest : List UInt8) :
    reads m st ([0x22] ++ raw ++ [0x22] ++ rest) = reads m ⟨.done (m.string k), st.stack⟩ rest := by
  have hopen : step m st 0x22 = some ⟨.chars [], st.stack⟩ := h.step_eq rfl (by decide)
  have hsplit : [0x22] ++ raw ++ [0x22] ++ rest = 0x22 :: (raw ++ [0x22] ++ rest) := by simp
  rw [hsplit, reads, hopen, Option.bind_some, reads_chars hraw [] st.stack rest, List.nil_append,
    hk, Option.bind_some, h.close_eq k]

/-- A key and its colon. -/
theorem AwaitsKey.key_colon {st : State K V} {members : List (K × V)} {stack : List (Frame K V)}
    (h : AwaitsKey st members stack) {ws raw ws' : List UInt8} (hws : ws.all isWs = true)
    (hraw : isChars raw = true) {k : K} (hk : m.text raw = some k) (hws' : ws'.all isWs = true)
    (rest : List UInt8) :
    reads m st (ws ++ ([0x22] ++ raw ++ [0x22] ++ (ws' ++ 0x3A :: rest))) =
      reads m ⟨.value, .member k :: .object members :: stack⟩ rest := by
  have hskips : st.mode.skips = true := by cases h <;> rfl
  have hstack : st.stack = .object members :: stack := by cases h <;> rfl
  have hopen : step m st 0x22 = some ⟨.chars [], st.stack⟩ := by cases h <;> rfl
  rw [reads_ws hskips st.stack hws]
  have hsplit : [0x22] ++ raw ++ [0x22] ++ (ws' ++ 0x3A :: rest) =
      0x22 :: (raw ++ [0x22] ++ (ws' ++ 0x3A :: rest)) := by simp
  rw [hsplit, reads, hopen, Option.bind_some, reads_chars hraw [] st.stack, List.nil_append,
    hk, Option.bind_some, hstack]
  exact reads_ws rfl _ hws' _

theorem Derives.follows {s : Symbol} {t : List UInt8} {x : s.Sem K V} (h : Derives m s t x) :
    Follows m s t x := by
  induction h with
  | null => exact fun st rest hst hrest => hst.word (by decide) (by decide) rfl hrest
  | true => exact fun st rest hst hrest => hst.word (by decide) (by decide) rfl hrest
  | false => exact fun st rest hst hrest => hst.word (by decide) (by decide) rfl hrest
  | number hlit hv =>
      intro st rest hst hrest
      obtain ⟨hne, hwords, hvalue⟩ := hlit.word (m := m)
      exact hst.word hne hwords (hvalue.trans hv) hrest
  | string hraw hk => exact fun st rest hst _ => hst.string hraw hk rest
  | @emptyArray ws hws =>
      intro st rest hst _
      have hsplit : [0x5B] ++ ws ++ [0x5D] ++ rest = 0x5B :: (ws ++ 0x5D :: rest) := by simp
      rw [hsplit, hst.open_array, reads_ws rfl _ hws]
      rfl
  | @array t vs _ ih =>
      intro st rest hst _
      obtain ⟨init, v, rfl, hfollow⟩ := ih
      have hsplit : [0x5B] ++ t ++ [0x5D] ++ rest = 0x5B :: (t ++ 0x5D :: rest) := by simp
      rw [hsplit, hst.open_array, hfollow _ [] st.stack _ .first (stops_cons (by decide) rest)]
      rfl
  | @emptyObject ws hws =>
      intro st rest hst _
      have hsplit : [0x7B] ++ ws ++ [0x7D] ++ rest = 0x7B :: (ws ++ 0x7D :: rest) := by simp
      rw [hsplit, hst.open_object, reads_ws rfl _ hws]
      rfl
  | @object t ms _ ih =>
      intro st rest hst _
      obtain ⟨init, x, rfl, hfollow⟩ := ih
      have hsplit : [0x7B] ++ t ++ [0x7D] ++ rest = 0x7B :: (t ++ 0x7D :: rest) := by simp
      rw [hsplit, hst.open_object, hfollow _ [] st.stack _ .first (stops_cons (by decide) rest)]
      rfl
  | @element ws t ws' v hws _ hws' ih =>
      intro st rest hst hrest
      have hsplit : ws ++ t ++ ws' ++ rest = ws ++ (t ++ (ws' ++ rest)) := by simp
      rw [hsplit, reads_ws hst.skips st.stack hws, ih st _ hst (hrest.ws_append hws')]
      exact reads_ws rfl st.stack hws' rest
  | @elementsOne t v _ ih =>
      refine ⟨[], v, rfl, ?_⟩
      intro mode items stack rest hst hrest
      rw [List.append_nil]
      exact ih _ rest hst hrest
  | @elementsMore t u vs v _ _ ih ihv =>
      obtain ⟨init, w, rfl, hfollow⟩ := ih
      refine ⟨init ++ [w], v, rfl, ?_⟩
      intro mode items stack rest hst hrest
      have hsplit : t ++ [0x2C] ++ u ++ rest = t ++ 0x2C :: (u ++ rest) := by simp
      rw [hsplit, hfollow mode items stack _ hst (stops_cons (by decide) _), ← List.append_assoc]
      exact ihv _ rest (awaitsValue_array _ stack) hrest
  | @member ws raw ws' t k v hws hraw hk hws' _ ih =>
      intro st members stack rest hst hrest
      have hsplit : ws ++ [0x22] ++ raw ++ [0x22] ++ ws' ++ [0x3A] ++ t ++ rest =
          ws ++ ([0x22] ++ raw ++ [0x22] ++ (ws' ++ 0x3A :: (t ++ rest))) := by simp
      rw [hsplit, hst.key_colon hws hraw hk hws']
      exact ih _ rest (awaitsValue_member k _) hrest
  | @membersOne t x _ ih =>
      refine ⟨[], x, rfl, ?_⟩
      intro st members stack rest hst hrest
      rw [List.append_nil]
      exact ih st members stack rest hst hrest
  | @membersMore t u ms x _ _ ih ihx =>
      obtain ⟨init, y, rfl, hfollow⟩ := ih
      refine ⟨init ++ [y], x, rfl, ?_⟩
      intro st members stack rest hst hrest
      have hsplit : t ++ [0x2C] ++ u ++ rest = t ++ 0x2C :: (u ++ rest) := by simp
      rw [hsplit, hfollow st members stack _ hst (stops_cons (by decide) _), ← List.append_assoc]
      exact ihx _ _ stack rest .key hrest

/-- The machine reads every text of the grammar. -/
theorem Text.read {t : List UInt8} {v : V} (h : Text m t v) : read m t = some v := by
  have hstart : AwaitsValue (⟨.value, []⟩ : State K V) := .value (by simp)
  have hfollow := Derives.follows h ⟨.value, []⟩ [] hstart (by simp [Stops])
  rw [List.append_nil] at hfollow
  exact hfollow

/-- A text stands for one value. -/
theorem Text.unique {t : List UInt8} {v w : V} (h : Text m t v) (h' : Text m t w) : v = w :=
  Option.some.inj (h.read.symm.trans h'.read)

/-- Only an object with members has a text of members. -/
theorem Derives.members_ne_nil {t : List UInt8} {ms : List (K × V)}
    (h : Derives m .members t ms) : ms ≠ [] := by
  obtain ⟨init, x, hms, -⟩ := h.follows
  rintro rfl
  exact List.append_ne_nil_of_right_ne_nil init (List.cons_ne_nil x []) hms.symm

end Follow

/-! ## Texts without white space -/

section Compact

variable {m}

theorem Derives.text {t : List UInt8} {v : V} (h : Derives m .value t v) : Text m t v := by
  have helement := Derives.element (List.all_nil (f := isWs)) h (List.all_nil (f := isWs))
  rw [List.nil_append, List.append_nil] at helement
  exact helement

theorem Text.member {raw t : List UInt8} {k : K} {v : V} (hraw : isChars raw = true)
    (hk : m.text raw = some k) (h : Text m t v) :
    Derives m .member ([0x22] ++ raw ++ [0x22, 0x3A] ++ t) (k, v) := by
  have hmember := Derives.member (List.all_nil (f := isWs)) hraw hk (List.all_nil (f := isWs)) h
  simpa using hmember

end Compact

end Dlr.Lib.Json
