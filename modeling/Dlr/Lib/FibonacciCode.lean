import Mathlib.Data.List.Chain
import Mathlib.Data.List.Induction
import Mathlib.Data.Nat.Fib.Basic
import Mathlib.Tactic.Ring

/-!
# The Fibonacci code

A word of the code is a list of digits, lowest first, without two adjacent ones. Digit `j` counts
the Fibonacci number `fib (j + 2)`. The greedy choice of digits is the only word of its length
with its value. In a stream a word ends with a one, and another one after it terminates it: the
first two adjacent ones of a stream end its first word.
-/

namespace Dlr.Lib.FibonacciCode

open Nat

/-! ## Words and their values -/

def NoAdjacent (bits : List Bool) : Prop := bits.IsChain fun a b => ¬ (a = true ∧ b = true)

instance : DecidablePred NoAdjacent := fun bits =>
  inferInstanceAs (Decidable (bits.IsChain fun a b => ¬ (a = true ∧ b = true)))

/-- The value of digits of which the first counts `fib k`. -/
def valueFrom (k : Nat) : List Bool → Nat
  | [] => 0
  | b :: rest => b.toNat * fib k + valueFrom (k + 1) rest

def value (bits : List Bool) : Nat := valueFrom 2 bits

/-- The digits of a number, the highest one chosen first. -/
def greedy : Nat → Nat → List Bool
  | 0, _ => []
  | k + 1, n =>
      if fib (k + 2) ≤ n then greedy k (n - fib (k + 2)) ++ [true] else greedy k n ++ [false]

theorem valueFrom_append (k : Nat) (l l' : List Bool) :
    valueFrom k (l ++ l') = valueFrom k l + valueFrom (k + l.length) l' := by
  induction l generalizing k with
  | nil => simp [valueFrom]
  | cons b rest ih =>
      have hlen : k + 1 + rest.length = k + (rest.length + 1) := by omega
      rw [List.cons_append, valueFrom, valueFrom, ih, List.length_cons, hlen, Nat.add_assoc]

@[simp] theorem value_nil : value [] = 0 := rfl

@[simp] theorem value_concat (l : List Bool) (b : Bool) :
    value (l ++ [b]) = value l + b.toNat * fib (l.length + 2) := by
  rw [value, valueFrom_append, valueFrom, valueFrom, Nat.add_zero, value, Nat.add_comm 2]

theorem noAdjacent_nil : NoAdjacent [] := List.isChain_nil

theorem noAdjacent_replicate (k : Nat) : NoAdjacent (List.replicate k false) := by
  refine List.isChain_iff_getElem.mpr ?_
  intro i hi hpair
  rw [List.getElem_replicate] at hpair
  exact nomatch hpair.1

theorem noAdjacent_concat {l : List Bool} {b : Bool} :
    NoAdjacent (l ++ [b]) ↔ NoAdjacent l ∧ (l.getLast? = some true → b = false) := by
  unfold NoAdjacent
  rw [List.isChain_append]
  constructor
  · rintro ⟨hl, -, hlast⟩
    refine ⟨hl, ?_⟩
    intro htrue
    have hnot := hlast true htrue b rfl
    simpa using hnot
  · rintro ⟨hl, hlast⟩
    refine ⟨hl, List.isChain_singleton b, ?_⟩
    rintro a ha c hc ⟨rfl, rfl⟩
    cases hc
    exact absurd (hlast ha) (by decide)

/-- A word is smaller than the first Fibonacci number it has no digit for, and smaller than the
last one it has a digit for where this digit is no one. -/
theorem value_lt_and {bits : List Bool} (h : NoAdjacent bits) :
    value bits < fib (bits.length + 2) ∧
      (bits.getLast? ≠ some true → value bits < fib (bits.length + 1)) := by
  induction bits using List.reverseRecOn with
  | nil => exact ⟨by decide, fun _ => by decide⟩
  | append_singleton l b ih =>
      obtain ⟨hl, hlast⟩ := noAdjacent_concat.mp h
      obtain ⟨hlt, hlt'⟩ := ih hl
      have hfib : fib (l.length + 1 + 2) = fib (l.length + 1) + fib (l.length + 2) := fib_add_two
      rw [value_concat, List.length_append, List.length_singleton]
      cases b with
      | false =>
          rw [Bool.toNat_false, Nat.zero_mul, Nat.add_zero]
          exact ⟨hlt.trans_le (fib_mono (by omega)), fun _ => hlt⟩
      | true =>
          have hbefore : l.getLast? ≠ some true := fun htrue => nomatch hlast htrue
          rw [Bool.toNat_true, Nat.one_mul, hfib]
          exact ⟨Nat.add_lt_add_right (hlt' hbefore) _, fun hne => absurd (by simp) hne⟩

theorem value_lt {bits : List Bool} (h : NoAdjacent bits) : value bits < fib (bits.length + 2) :=
  (value_lt_and h).1

@[simp] theorem length_greedy (k n : Nat) : (greedy k n).length = k := by
  induction k generalizing n with
  | zero => rfl
  | succ k ih =>
      rw [greedy]
      split_ifs <;> simp [ih]

/-- What is left after a greedy choice is too small for the next digit. -/
theorem sub_fib_lt {k n : Nat} (h : n < fib (k + 1 + 2)) : n - fib (k + 2) < fib (k + 1) := by
  have hfib : fib (k + 1 + 2) = fib (k + 1) + fib (k + 2) := fib_add_two
  have hpos : 0 < fib (k + 1) := fib_pos.mpr (Nat.succ_pos k)
  omega

theorem value_greedy {k n : Nat} (h : n < fib (k + 2)) : value (greedy k n) = n := by
  induction k generalizing n with
  | zero =>
      have hzero : n = 0 := Nat.lt_one_iff.mp h
      rw [hzero]
      rfl
  | succ k ih =>
      rw [greedy]
      split_ifs with hle
      · have hrest : n - fib (k + 2) < fib (k + 2) := (sub_fib_lt h).trans_le fib_le_fib_succ
        rw [value_concat, ih hrest, length_greedy, Bool.toNat_true, Nat.one_mul]
        exact Nat.sub_add_cancel hle
      · rw [value_concat, ih (Nat.lt_of_not_le hle), Bool.toNat_false, Nat.zero_mul, Nat.add_zero]

/-- The highest digit is a one exactly where its number is taken. -/
theorem getLast?_greedy {k n : Nat} (h : (greedy k n).getLast? = some true) : fib (k + 1) ≤ n := by
  cases k with
  | zero => cases h
  | succ k =>
      rw [greedy] at h
      split_ifs at h with hle
      · exact hle
      · simp at h

theorem noAdjacent_greedy {k n : Nat} (h : n < fib (k + 2)) : NoAdjacent (greedy k n) := by
  induction k generalizing n with
  | zero => exact noAdjacent_nil
  | succ k ih =>
      rw [greedy]
      split_ifs with hle
      · have hrest := sub_fib_lt h
        refine noAdjacent_concat.mpr ⟨ih (hrest.trans_le fib_le_fib_succ), ?_⟩
        intro hlast
        exact absurd (getLast?_greedy hlast) (Nat.not_le_of_gt hrest)
      · exact noAdjacent_concat.mpr ⟨ih (Nat.lt_of_not_le hle), fun _ => rfl⟩

/-- A word is the greedy one of its length and value. -/
theorem eq_greedy {bits : List Bool} (h : NoAdjacent bits) :
    bits = greedy bits.length (value bits) := by
  induction bits using List.reverseRecOn with
  | nil => rfl
  | append_singleton l b ih =>
      obtain ⟨hl, -⟩ := noAdjacent_concat.mp h
      have hlt := value_lt hl
      rw [List.length_append, List.length_singleton, greedy, value_concat]
      cases b with
      | false =>
          simp only [Bool.toNat_false, Nat.zero_mul, Nat.add_zero]
          rw [if_neg (Nat.not_le_of_gt hlt), ← ih hl]
      | true =>
          rw [Bool.toNat_true, Nat.one_mul, if_pos (Nat.le_add_left _ _), Nat.add_sub_cancel,
            ← ih hl]

/-! ## Streams of words -/

/-- The first word of a stream and what follows its terminator. -/
def cut : List Bool → Option (List Bool × List Bool)
  | [] => none
  | [_] => none
  | true :: true :: rest => some ([true], rest)
  | b :: c :: rest => (cut (c :: rest)).map fun p => (b :: p.1, p.2)

/-- A word of a stream: it ends with a one, which with the terminator is the first pair of
adjacent ones. -/
structure IsWord (d : List Bool) : Prop where
  noAdjacent : NoAdjacent d
  last : d.getLast? = some true

/-- The last digit of a word counts. -/
theorem IsWord.fib_le_value {d : List Bool} (hd : IsWord d) : fib (d.length + 1) ≤ value d := by
  rcases List.eq_nil_or_concat' d with rfl | ⟨l, b, rfl⟩
  · exact nomatch hd.last
  · have hb : b = true := by
      have hlast := hd.last
      simpa using hlast
    rw [hb, value_concat, Bool.toNat_true, Nat.one_mul, List.length_append, List.length_singleton]
    exact Nat.le_add_left _ _

theorem IsWord.value_pos {d : List Bool} (hd : IsWord d) : 0 < value d :=
  (fib_pos.mpr (Nat.succ_pos _)).trans_le hd.fib_le_value

/-- Words with the same value are the same. -/
theorem IsWord.eq_of_value_eq {d e : List Bool} (hd : IsWord d) (he : IsWord e)
    (h : value d = value e) : d = e := by
  have hlen : d.length = e.length := by
    have hd' := value_lt hd.noAdjacent
    have he' := value_lt he.noAdjacent
    have hdle := hd.fib_le_value
    have hele := he.fib_le_value
    rcases lt_trichotomy d.length e.length with hlt | heq | hgt
    · have hmono : fib (d.length + 2) ≤ fib (e.length + 1) := fib_mono (by omega)
      omega
    · exact heq
    · have hmono : fib (e.length + 2) ≤ fib (d.length + 1) := fib_mono (by omega)
      omega
  rw [eq_greedy hd.noAdjacent, eq_greedy he.noAdjacent, hlen, h]

/-- A word, its terminator and zeros have two adjacent ones at the end of the word only. -/
theorem IsWord.pair_iff {d : List Bool} (hd : IsWord d) (k j : Nat) :
    ((d ++ true :: List.replicate k false)[j]? = some true ∧
      (d ++ true :: List.replicate k false)[j + 1]? = some true) ↔ j + 1 = d.length := by
  have hlast := hd.last
  rw [List.getLast?_eq_getElem?] at hlast
  have hpos : 0 < d.length := by
    cases d with
    | nil => exact nomatch hlast
    | cons b rest => exact Nat.succ_pos _
  constructor
  · rintro ⟨hone, htwo⟩
    rcases lt_trichotomy (j + 1) d.length with hlt | heq | hgt
    · rw [List.getElem?_append_left (by omega), List.getElem?_eq_getElem (by omega)] at hone
      rw [List.getElem?_append_left hlt, List.getElem?_eq_getElem hlt] at htwo
      have hnot := List.isChain_iff_getElem.mp hd.noAdjacent j hlt
      exact absurd ⟨Option.some.inj hone, Option.some.inj htwo⟩ hnot
    · exact heq
    · obtain ⟨i, hi⟩ := Nat.exists_eq_add_of_lt hgt
      rw [List.getElem?_append_right hgt.le, hi,
        show d.length + i + 1 - d.length = i + 1 by omega, List.getElem?_cons_succ,
        List.getElem?_replicate] at htwo
      split_ifs at htwo
      cases htwo
  · intro heq
    have hj : j = d.length - 1 := by omega
    rw [List.getElem?_append_left (by omega), hj, List.getElem?_append_right (by omega)]
    refine ⟨hlast, ?_⟩
    rw [show d.length - 1 + 1 - d.length = 0 by omega]
    rfl

theorem cut_cons_of_not {b : Bool} {s : List Bool} (h : ¬ (b = true ∧ s.head? = some true)) :
    cut (b :: s) = (cut s).map fun p => (b :: p.1, p.2) := by
  cases s with
  | nil => rfl
  | cons c rest =>
      cases b with
      | false => cases c <;> rfl
      | true =>
          cases c with
          | false => rfl
          | true => exact absurd ⟨rfl, rfl⟩ h

theorem isWord_cons {b : Bool} {d : List Bool} (hd : IsWord d)
    (h : ¬ (b = true ∧ d.head? = some true)) : IsWord (b :: d) := by
  cases d with
  | nil => exact nomatch hd.last
  | cons c rest =>
      refine ⟨List.isChain_cons_cons.mpr ⟨?_, hd.noAdjacent⟩, ?_⟩
      · simpa using h
      · simpa using hd.last

theorem cut_append_word {d : List Bool} (hd : IsWord d) (rest : List Bool) :
    cut (d ++ true :: rest) = some (d, rest) := by
  induction d with
  | nil => exact nomatch hd.last
  | cons b tail ih =>
      cases tail with
      | nil =>
          have hb : b = true := Option.some.inj hd.last
          rw [hb]
          rfl
      | cons c tail =>
          obtain ⟨hne, hchain⟩ := List.isChain_cons_cons.mp hd.noAdjacent
          have htail : IsWord (c :: tail) := ⟨hchain, by simpa using hd.last⟩
          rw [List.cons_append, cut_cons_of_not (by simpa using hne), ih htail]
          rfl

/-- The first word is found where the stream has one. -/
theorem eq_of_cut {s d rest : List Bool} (h : cut s = some (d, rest)) :
    IsWord d ∧ s = d ++ true :: rest := by
  induction s generalizing d with
  | nil => cases h
  | cons b s ih =>
      by_cases hpair : b = true ∧ s.head? = some true
      · obtain ⟨rfl, hhead⟩ := hpair
        obtain ⟨tail, rfl⟩ := List.head?_eq_some_iff.mp hhead
        cases h
        exact ⟨⟨List.isChain_singleton true, rfl⟩, rfl⟩
      · rw [cut_cons_of_not hpair, Option.map_eq_some_iff] at h
        obtain ⟨⟨d', rest'⟩, hcut, heq⟩ := h
        cases heq
        obtain ⟨hd', rfl⟩ := ih hcut
        refine ⟨isWord_cons hd' ?_, rfl⟩
        rintro ⟨rfl, hhead⟩
        obtain ⟨tail, rfl⟩ := List.head?_eq_some_iff.mp hhead
        exact hpair ⟨rfl, rfl⟩

/-- A stream without adjacent ones has no word. -/
theorem cut_eq_none_iff {s : List Bool} : cut s = none ↔ NoAdjacent s := by
  induction s with
  | nil => exact ⟨fun _ => noAdjacent_nil, fun _ => rfl⟩
  | cons b s ih =>
      cases s with
      | nil => exact ⟨fun _ => List.isChain_singleton b, fun _ => rfl⟩
      | cons c rest =>
          unfold NoAdjacent at ih ⊢
          rw [List.isChain_cons_cons, ← ih]
          by_cases hpair : b = true ∧ c = true
          · obtain ⟨rfl, rfl⟩ := hpair
            constructor
            · intro h
              cases h
            · intro h
              exact absurd ⟨rfl, rfl⟩ h.1
          · rw [cut_cons_of_not (by simpa using hpair), Option.map_eq_none_iff]
            exact ⟨fun h => ⟨hpair, h⟩, fun h => h.2⟩

/-- All words of a stream, from its first bit on. -/
def words (s : List Bool) : List (List Bool) :=
  match _h : cut s with
  | none => []
  | some (d, rest) => d :: words rest
termination_by s.length
decreasing_by
  rw [(eq_of_cut _h).2, List.length_append, List.length_cons]
  omega

theorem words_of_noAdjacent {s : List Bool} (h : NoAdjacent s) : words s = [] := by
  rw [words]
  split
  · rfl
  · next hcut =>
    rw [cut_eq_none_iff.mpr h] at hcut
    cases hcut

theorem words_append_word {d : List Bool} (hd : IsWord d) (rest : List Bool) :
    words (d ++ true :: rest) = d :: words rest := by
  rw [words]
  split
  · next hcut =>
    rw [cut_append_word hd] at hcut
    cases hcut
  · next hcut =>
    rw [cut_append_word hd] at hcut
    cases hcut
    rfl

/-- The bits of some words with their terminators. -/
def join (ds : List (List Bool)) : List Bool := ds.flatMap fun d => d ++ [true]

theorem join_nil : join [] = [] := rfl

theorem join_cons (d : List Bool) (ds : List (List Bool)) :
    join (d :: ds) = d ++ true :: join ds := by
  rw [join, List.flatMap_cons, List.append_assoc, List.singleton_append, join]

theorem words_join_append {ds : List (List Bool)} (h : ∀ d ∈ ds, IsWord d) (rest : List Bool) :
    words (join ds ++ rest) = ds ++ words rest := by
  induction ds with
  | nil => rfl
  | cons d ds ih =>
      rw [join_cons, List.append_assoc, List.cons_append,
        words_append_word (h d List.mem_cons_self),
        ih fun e he => h e (List.mem_cons_of_mem d he), List.cons_append]

theorem words_join {ds : List (List Bool)} (h : ∀ d ∈ ds, IsWord d) : words (join ds) = ds := by
  have happend := words_join_append h []
  rwa [List.append_nil, words_of_noAdjacent noAdjacent_nil, List.append_nil] at happend

/-- A stream is its words and a rest without adjacent ones. -/
theorem exists_eq_join (s : List Bool) :
    ∃ rest, NoAdjacent rest ∧ s = join (words s) ++ rest ∧ ∀ d ∈ words s, IsWord d := by
  induction hn : s.length using Nat.strong_induction_on generalizing s with
  | _ n ih =>
      cases hcut : cut s with
      | none =>
          have hs := cut_eq_none_iff.mp hcut
          rw [words_of_noAdjacent hs]
          exact ⟨s, hs, rfl, fun d hd => nomatch hd⟩
      | some p =>
          obtain ⟨d, tail⟩ := p
          obtain ⟨hd, rfl⟩ := eq_of_cut hcut
          have hlt : tail.length < n := by
            rw [← hn, List.length_append, List.length_cons]
            omega
          obtain ⟨rest, hrest, heq, hwords⟩ := ih tail.length hlt tail rfl
          rw [words_append_word hd]
          refine ⟨rest, hrest, ?_, ?_⟩
          · rw [join_cons, List.append_assoc, List.cons_append, ← heq]
          · intro e he
            cases List.mem_cons.mp he with
            | inl hsame => rwa [hsame]
            | inr htail => exact hwords e htail

/-- Words that follow a zero and two ones are read as they are, whatever comes before. -/
theorem words_sync (p rest : List Bool) :
    ∃ ds, (∀ d ∈ ds, IsWord d) ∧ join ds = p ++ [false, true, true] ∧
      words (p ++ [false, true, true] ++ rest) = ds ++ words rest := by
  induction hn : p.length using Nat.strong_induction_on generalizing p with
  | _ n ih =>
      cases hcut : cut (p ++ [false]) with
      | none =>
          have hchain := cut_eq_none_iff.mp hcut
          have hd : IsWord (p ++ [false] ++ [true]) := by
            refine ⟨noAdjacent_concat.mpr ⟨hchain, ?_⟩, by simp⟩
            intro hlast
            simp at hlast
          refine ⟨[p ++ [false] ++ [true]], by simpa using hd, ?_, ?_⟩
          · simp [join]
          · have hword := words_append_word hd rest
            simpa using hword
      | some found =>
          obtain ⟨d, tail⟩ := found
          obtain ⟨hd, heq⟩ := eq_of_cut hcut
          -- the terminator lies before the zero
          obtain ⟨p', hp, rfl⟩ : ∃ p', p = d ++ true :: p' ∧ tail = p' ++ [false] := by
            rcases List.eq_nil_or_concat' tail with rfl | ⟨p', b, rfl⟩
            · exact nomatch (List.append_inj' heq rfl).2
            · have heq' : p ++ [false] = (d ++ true :: p') ++ [b] := by simpa using heq
              obtain ⟨hp, hb⟩ := List.append_inj' heq' rfl
              exact ⟨p', hp, by rw [hb]⟩
          have hlt : p'.length < n := by
            rw [← hn, hp, List.length_append, List.length_cons]
            omega
          obtain ⟨ds, hds, hjoin, hwords⟩ := ih p'.length hlt p' rfl
          refine ⟨d :: ds, ?_, ?_, ?_⟩
          · intro e he
            cases List.mem_cons.mp he with
            | inl hsame => rwa [hsame]
            | inr hin => exact hds e hin
          · rw [join_cons, hjoin, hp, List.append_assoc, List.cons_append]
          · rw [hp, List.append_assoc, List.append_assoc, List.cons_append, words_append_word hd,
              ← List.append_assoc, hwords, List.cons_append]

end Dlr.Lib.FibonacciCode
