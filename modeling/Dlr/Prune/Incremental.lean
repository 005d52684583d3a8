import Dlr.Core.Block
import Dlr.Lib.FinMap
import Mathlib.Data.List.Sort
import Mathlib.Data.Prod.Lex

/-!
# The incremental pruner

A window of scored blocks is kept while blocks come in one by one. A map ordered by score and
insertion number finds the lowest survivor, a hash map finds a block by its id, and a running
total of the sizes decides about a token budget.

## Implementation notes

The ordered map is the list of its entries, lowest key first. Numbers are 64 bits wide. Where an
addition or a subtraction leaves them the model has no result: a debug build panics there and a
release build goes on with the wrapped number. `List ScoredBlock` is the abstract window, lowest
first, that both maps stand for.
-/

namespace Dlr.Prune

open Dlr.Core Lib Lib.Machine

/-- The retention budget. -/
inductive Budget
  | blocks (n : Nat)
  | tokens (n : Nat)
  deriving DecidableEq

structure ScoredBlock where
  id : BlockId
  score : Nat
  seq : Nat
  size : Nat
  deriving DecidableEq

/-- Score and insertion number, compared in this order. -/
abbrev Key := Nat ×ₗ Nat

structure IncrementalPruner where
  budget : Budget
  /-- Score of a block from its insertion number and its size. -/
  scorer : Nat → Nat → Nat
  ordered : List (Key × BlockId) := []
  index : FinMap BlockId (Nat × Nat × Nat) := ∅
  totalSize : Nat := 0
  clock : Nat := 0

/-- Recency in the high bits, the size up to a mebibyte in the low ones. -/
def defaultScore (seq size : Nat) : Nat := (seq <<< 20 % 2 ^ 64) ||| min size (1 <<< 20 - 1)

section OrderedMap

variable {K V : Type*} [LinearOrder K]

def mapInsert (k : K) (v : V) : List (K × V) → List (K × V)
  | [] => [(k, v)]
  | e :: rest =>
      if k < e.1 then (k, v) :: e :: rest
      else if k = e.1 then (k, v) :: rest
      else e :: mapInsert k v rest

def mapRemove (k : K) (entries : List (K × V)) : List (K × V) := entries.filter fun e => e.1 ≠ k

end OrderedMap

/-- Whether survivors of this number and total size are too much. -/
def Budget.over : Budget → Nat → Nat → Bool
  | .blocks b, len, _ => decide (len > b)
  | .tokens b, len, total => decide (total > b ∧ len > 1)

namespace IncrementalPruner

def newWith (budget : Budget) (scorer : Nat → Nat → Nat) : IncrementalPruner := { budget, scorer }

/-- Evict the lowest survivor while there is too much, a block budget only once. The first
evicted id comes first in the result. -/
def evict (p : IncrementalPruner) (evicted : Option BlockId) :
    List (Key × BlockId) → FinMap BlockId (Nat × Nat × Nat) → Nat →
      Option (Option BlockId × IncrementalPruner)
  | [], index, totalSize =>
      if p.budget.over 0 totalSize then none
      else some (evicted, { p with ordered := [], index, totalSize })
  | e :: rest, index, totalSize =>
      if p.budget.over (rest.length + 1) totalSize then do
        let (_, _, evSize) ← index.get? e.2
        let totalSize ← checkedSub totalSize evSize
        match p.budget with
        | .blocks _ =>
            some (evicted.or (some e.2),
              { p with ordered := rest, index := index.unset e.2, totalSize })
        | .tokens _ => evict p (evicted.or (some e.2)) rest (index.unset e.2) totalSize
      else some (evicted, { p with ordered := e :: rest, index, totalSize })

/-- The ordered map and the total without an earlier entry of the id. -/
def withdraw (p : IncrementalPruner) (id : BlockId) : Option (List (Key × BlockId) × Nat) :=
  match p.index.get? id with
  | some (score, oldSeq, oldSize) => do
      return (mapRemove (toLex (score, oldSeq)) p.ordered, ← checkedSub p.totalSize oldSize)
  | none => some (p.ordered, p.totalSize)

def insert (p : IncrementalPruner) (id : BlockId) (size : Nat) :
    Option (Option BlockId × IncrementalPruner) := do
  let (ordered, totalSize) ← p.withdraw id
  let clock ← checkedAdd p.clock 1
  let s := p.scorer clock size
  let totalSize ← checkedAdd totalSize size
  evict { p with clock } none (mapInsert (toLex (s, clock)) id ordered)
    (p.index.set id (s, clock, size)) totalSize

/-- The surviving ids, highest score first. -/
def window (p : IncrementalPruner) : List BlockId := p.ordered.reverse.map Prod.snd

/-- The surviving ids by insertion number, from the entries of the hash map in whatever order
it iterates over them. -/
def windowOrdered (entries : List (BlockId × (Nat × Nat × Nat))) : List BlockId :=
  (entries.insertionSort fun a b => a.2.2.1 ≤ b.2.2.1).map Prod.fst

/-- The pruner after some insertions. -/
def insertAll (p : IncrementalPruner) : List (BlockId × Nat) → Option IncrementalPruner
  | [] => some p
  | (id, size) :: rest => do
      let (_, p) ← p.insert id size
      p.insertAll rest

end IncrementalPruner

/-! ## The window behind the maps -/

namespace ScoredBlock

def key (b : ScoredBlock) : Key := toLex (b.score, b.seq)

def entry (b : ScoredBlock) : Key × BlockId := (b.key, b.id)

/-- The first block ranks at most as high as the second. -/
def Below (a b : ScoredBlock) : Prop := a.key ≤ b.key

instance : DecidableRel Below := fun a b => inferInstanceAs (Decidable (a.key ≤ b.key))

instance : Std.Total Below := ⟨fun a b => le_total a.key b.key⟩

instance : IsTrans ScoredBlock Below := ⟨fun _ _ _ => le_trans⟩

end ScoredBlock

def totalOf (l : List ScoredBlock) : Nat := (l.map ScoredBlock.size).sum

/-- The survivors that are left when the lowest ones go. -/
def settle (budget : Budget) : List ScoredBlock → List ScoredBlock
  | [] => []
  | b :: rest =>
      if budget.over (rest.length + 1) (totalOf (b :: rest)) then
        match budget with
        | .blocks _ => rest
        | .tokens _ => settle budget rest
      else b :: rest

theorem settle_cons (budget : Budget) (b : ScoredBlock) (rest : List ScoredBlock) :
    settle budget (b :: rest) =
      if budget.over (rest.length + 1) (totalOf (b :: rest)) then
        match budget with
        | .blocks _ => rest
        | .tokens _ => settle budget rest
      else b :: rest := by
  cases budget <;> rfl

/-- Put a block among the others. -/
def place (b : ScoredBlock) (l : List ScoredBlock) : List ScoredBlock :=
  l.orderedInsert ScoredBlock.Below b

/-- Both maps and the total stand for these survivors. -/
structure Holds (ordered : List (Key × BlockId)) (index : FinMap BlockId (Nat × Nat × Nat))
    (totalSize : Nat) (l : List ScoredBlock) : Prop where
  ordered : ordered = l.map ScoredBlock.entry
  index : ∀ id v, index.get? id = some v ↔
    ∃ b ∈ l, b.id = id ∧ v = (b.score, b.seq, b.size)
  totalSize : totalSize = totalOf l
  nodup : (l.map ScoredBlock.id).Nodup

/-- The others beside one block of the list. -/
def others (l : List ScoredBlock) (id : BlockId) : List ScoredBlock := l.filter fun b => b.id ≠ id

theorem others_of_not_mem {l : List ScoredBlock} {id : BlockId}
    (h : id ∉ l.map ScoredBlock.id) : others l id = l := by
  apply List.filter_eq_self.mpr
  intro b hb
  have hne : b.id ≠ id := fun heq => h (heq ▸ List.mem_map_of_mem hb)
  simpa using hne

theorem others_cons_self {b : ScoredBlock} {l : List ScoredBlock}
    (h : ((b :: l).map ScoredBlock.id).Nodup) : others (b :: l) b.id = l := by
  have hrest := others_of_not_mem (List.nodup_cons.mp h).1
  unfold others at hrest ⊢
  rw [List.filter_cons_of_neg (by simp), hrest]

/-- A list without repeated ids is one of its blocks and the others, up to order. -/
theorem perm_others {l : List ScoredBlock} (h : (l.map ScoredBlock.id).Nodup) {b : ScoredBlock}
    (hb : b ∈ l) : l.Perm (b :: others l b.id) := by
  induction l with
  | nil => cases hb
  | cons c rest ih =>
      by_cases hc : c = b
      · rw [← hc, others_cons_self h]
      · have hrest : b ∈ rest := (List.mem_cons.mp hb).resolve_left (Ne.symm hc)
        obtain ⟨hfresh, hnodup⟩ := List.nodup_cons.mp h
        have hne : c.id ≠ b.id := fun heq => hfresh (heq ▸ List.mem_map_of_mem hrest)
        have hcons : others (c :: rest) b.id = c :: others rest b.id :=
          List.filter_cons_of_pos (by simpa using hne)
        rw [hcons]
        exact ((ih hnodup hrest).cons c).trans (List.Perm.swap b c _)

namespace Holds

variable {ordered : List (Key × BlockId)} {index : FinMap BlockId (Nat × Nat × Nat)}
  {totalSize : Nat} {l : List ScoredBlock}

theorem get?_eq (h : Holds ordered index totalSize l) {b : ScoredBlock} (hb : b ∈ l) :
    index.get? b.id = some (b.score, b.seq, b.size) :=
  (h.index b.id _).mpr ⟨b, hb, rfl, rfl⟩

theorem get?_eq_none (h : Holds ordered index totalSize l) {id : BlockId}
    (hid : id ∉ l.map ScoredBlock.id) : index.get? id = none := by
  rw [Option.eq_none_iff_forall_ne_some]
  intro v hv
  obtain ⟨b, hb, rfl, -⟩ := (h.index id v).mp hv
  exact hid (List.mem_map_of_mem hb)

theorem total_eq (h : Holds ordered index totalSize l) {b : ScoredBlock} (hb : b ∈ l) :
    totalSize = b.size + totalOf (others l b.id) := by
  rw [h.totalSize, totalOf, ((perm_others h.nodup hb).map _).sum_eq, List.map_cons, List.sum_cons,
    totalOf]

/-- A block that is taken out of both maps leaves the others. -/
theorem without (h : Holds ordered index totalSize l) {b : ScoredBlock} (hb : b ∈ l) :
    Holds ((others l b.id).map ScoredBlock.entry) (index.unset b.id) (totalSize - b.size)
      (others l b.id) := by
  refine ⟨rfl, ?_, ?_, h.nodup.sublist (List.filter_sublist.map _)⟩
  · intro id v
    rw [FinMap.get?_unset]
    constructor
    · intro hv
      split_ifs at hv with hid
      obtain ⟨c, hc, rfl, hval⟩ := (h.index id v).mp hv
      exact ⟨c, List.mem_filter.mpr ⟨hc, by simpa using hid⟩, rfl, hval⟩
    · rintro ⟨c, hc, rfl, hval⟩
      obtain ⟨hmem, hne⟩ := List.mem_filter.mp hc
      rw [if_neg (by simpa using hne)]
      exact (h.index c.id v).mpr ⟨c, hmem, rfl, hval⟩
  · rw [h.total_eq hb, Nat.add_sub_cancel_left]

/-- The lowest survivor is evicted. -/
theorem tail {b : ScoredBlock} {rest : List ScoredBlock}
    (h : Holds ordered index totalSize (b :: rest)) :
    Holds (rest.map ScoredBlock.entry) (index.unset b.id) (totalSize - b.size) rest := by
  have hwithout := h.without List.mem_cons_self
  rwa [others_cons_self h.nodup] at hwithout

/-- A new key goes where the new block goes. -/
theorem mapInsert_eq {b : ScoredBlock} {l : List ScoredBlock} (h : ∀ c ∈ l, c.key ≠ b.key) :
    mapInsert b.key b.id (l.map ScoredBlock.entry) = (place b l).map ScoredBlock.entry := by
  induction l with
  | nil => rfl
  | cons c rest ih =>
      have hrest := ih fun d hd => h d (List.mem_cons_of_mem _ hd)
      have hne : b.key ≠ c.key := Ne.symm (h c List.mem_cons_self)
      unfold place at hrest ⊢
      rw [List.map_cons, mapInsert, List.orderedInsert_cons]
      by_cases hlt : b.key < c.key
      · have hlt' : b.key < c.entry.1 := hlt
        have hbelow : b.Below c := hlt.le
        rw [if_pos hlt', if_pos hbelow]
        rfl
      · have hlt' : ¬ b.key < c.entry.1 := hlt
        have hne' : ¬ b.key = c.entry.1 := hne
        have hbelow : ¬ b.Below c := fun hle => hlt (lt_of_le_of_ne hle hne)
        rw [if_neg hlt', if_neg hne', if_neg hbelow, hrest]
        rfl

theorem perm_place (b : ScoredBlock) (l : List ScoredBlock) : (place b l).Perm (b :: l) :=
  List.perm_orderedInsert _ b l

theorem mem_place {b c : ScoredBlock} {l : List ScoredBlock} :
    c ∈ place b l ↔ c = b ∨ c ∈ l := by
  rw [(perm_place b l).mem_iff, List.mem_cons]

/-- A block with a new key keeps the others in order. -/
theorem sorted_place {b : ScoredBlock} {l : List ScoredBlock}
    (hsorted : l.Pairwise fun a b => a.key < b.key) (hkey : ∀ c ∈ l, c.key ≠ b.key) :
    (Prune.place b l).Pairwise fun a b => a.key < b.key := by
  have hle : (Prune.place b l).Pairwise ScoredBlock.Below :=
    List.Pairwise.orderedInsert _ _ (hsorted.imp le_of_lt)
  have hkeys : ((b :: l).map ScoredBlock.key).Nodup := by
    refine List.nodup_cons.mpr ⟨?_, List.pairwise_map.mpr (hsorted.imp ne_of_lt)⟩
    intro hmem
    obtain ⟨c, hc, heq⟩ := List.mem_map.mp hmem
    exact hkey c hc heq
  have hne := List.pairwise_map.mp (((perm_place b l).map ScoredBlock.key).nodup_iff.mpr hkeys)
  exact (hle.and hne).imp fun hab => lt_of_le_of_ne hab.1 hab.2

/-- A block with a new id and a new key is put into both maps. -/
theorem place (h : Holds ordered index totalSize l) {b : ScoredBlock}
    (hid : b.id ∉ l.map ScoredBlock.id) (hkey : ∀ c ∈ l, c.key ≠ b.key) :
    Holds (mapInsert b.key b.id ordered) (index.set b.id (b.score, b.seq, b.size))
      (totalSize + b.size) (place b l) := by
  have hperm := perm_place b l
  refine ⟨?_, ?_, ?_, ?_⟩
  · rw [h.ordered, mapInsert_eq hkey]
  · intro id v
    rw [FinMap.get?_set]
    split_ifs with hsame
    · constructor
      · intro hv
        exact ⟨b, mem_place.mpr (Or.inl rfl), hsame.symm, (Option.some.inj hv).symm⟩
      · rintro ⟨c, hc, hcid, rfl⟩
        cases mem_place.mp hc with
        | inl heq => rw [heq]
        | inr hold =>
            have hmem : b.id ∈ l.map ScoredBlock.id := by
              rw [← hsame, ← hcid]
              exact List.mem_map_of_mem hold
            exact absurd hmem hid
    · rw [h.index]
      constructor
      · rintro ⟨c, hc, hcid, hv⟩
        exact ⟨c, mem_place.mpr (Or.inr hc), hcid, hv⟩
      · rintro ⟨c, hc, hcid, hv⟩
        refine ⟨c, (mem_place.mp hc).resolve_left ?_, hcid, hv⟩
        rintro rfl
        exact hsame hcid.symm
  · rw [h.totalSize, totalOf, totalOf, (hperm.map _).sum_eq, List.map_cons, List.sum_cons,
      Nat.add_comm]
  · rw [(hperm.map _).nodup_iff]
    exact List.nodup_cons.mpr ⟨hid, h.nodup⟩

/-- An earlier entry of the id goes out of both maps. -/
theorem withdraw {p : IncrementalPruner} (h : Holds p.ordered p.index p.totalSize l)
    (hsorted : l.Pairwise fun a b => a.key < b.key) (id : BlockId) :
    ∃ ordered totalSize, p.withdraw id = some (ordered, totalSize) ∧
      Holds ordered (p.index.unset id) totalSize (others l id) := by
  by_cases hid : id ∈ l.map ScoredBlock.id
  · obtain ⟨b, hb, rfl⟩ := List.mem_map.mp hid
    have hle : b.size ≤ p.totalSize := by
      rw [h.total_eq hb]
      exact Nat.le_add_right _ _
    have hkeys : (l.map ScoredBlock.key).Nodup := List.pairwise_map.mpr (hsorted.imp ne_of_lt)
    have hremove : mapRemove b.key p.ordered = (others l b.id).map ScoredBlock.entry := by
      rw [h.ordered, mapRemove, others, List.filter_map]
      congr 1
      apply List.filter_congr
      intro c hc
      -- keys and ids tell the same survivors apart
      have hiff : c.key = b.key ↔ c.id = b.id := by
        constructor
        · intro hkey
          rw [List.inj_on_of_nodup_map hkeys hc hb hkey]
        · intro hcid
          rw [List.inj_on_of_nodup_map h.nodup hc hb hcid]
      simp [ScoredBlock.entry, hiff]
    refine ⟨_, p.totalSize - b.size, ?_, h.without hb⟩
    simp only [IncrementalPruner.withdraw, h.get?_eq hb, checkedSub_of_le hle]
    exact congrArg (fun o => some (o, p.totalSize - b.size)) hremove
  · refine ⟨p.ordered, p.totalSize, ?_, ?_⟩
    · rw [IncrementalPruner.withdraw, h.get?_eq_none hid]
    · rw [others_of_not_mem hid, FinMap.unset_of_get?_eq_none (h.get?_eq_none hid)]
      exact h

/-- The loop evicts the lowest survivors and never panics. -/
theorem evict (p : IncrementalPruner) (evicted : Option BlockId)
    (h : Holds ordered index totalSize l) :
    ∃ first p', p.evict evicted ordered index totalSize = some (first, p') ∧
      Holds p'.ordered p'.index p'.totalSize (settle p.budget l) ∧
      p'.budget = p.budget ∧ p'.scorer = p.scorer ∧ p'.clock = p.clock := by
  obtain rfl := h.ordered
  induction l generalizing index totalSize evicted with
  | nil =>
      have hover : p.budget.over 0 totalSize = false := by
        cases p.budget <;> simp [Budget.over]
      refine ⟨evicted, { p with ordered := [], index, totalSize }, ?_, h, rfl, rfl, rfl⟩
      rw [List.map_nil, IncrementalPruner.evict, if_neg (by simp [hover])]
  | cons b rest ih =>
      rw [List.map_cons, IncrementalPruner.evict, settle_cons, List.length_map, ← h.totalSize]
      by_cases hover : p.budget.over (rest.length + 1) totalSize = true
      · have hle : b.size ≤ totalSize := by
          rw [h.total_eq List.mem_cons_self]
          exact Nat.le_add_right _ _
        rw [if_pos hover, if_pos hover]
        simp only [ScoredBlock.entry, h.get?_eq List.mem_cons_self, checkedSub_of_le hle,
          Option.bind_eq_bind, Option.bind_some]
        cases hbudget : p.budget with
        | blocks n => exact ⟨_, _, rfl, h.tail, rfl, rfl, rfl⟩
        | tokens n =>
            have hrest := ih (evicted.or (some b.id)) h.tail
            rwa [hbudget] at hrest
      · rw [if_neg hover, if_neg hover]
        exact ⟨evicted, _, rfl, h, rfl, rfl, rfl⟩

/-- The total is the sum over the hash map. -/
theorem sumOf_eq (h : Holds ordered index totalSize l) :
    totalSize = index.sumOf fun v => v.2.2 := by
  rw [h.totalSize]
  induction l generalizing ordered index totalSize with
  | nil =>
      have hempty : index = ∅ := FinMap.ext_get? fun id => by
        rw [h.get?_eq_none List.not_mem_nil, FinMap.get?_empty]
      rw [hempty]
      rfl
  | cons b rest ih =>
      rw [FinMap.sumOf_unset _ index b.id, ← ih h.tail, h.get?_eq List.mem_cons_self]
      rfl

theorem size_eq (h : Holds ordered index totalSize l) : index.size = l.length := by
  rw [FinMap.size_eq_length h.nodup, List.length_map]
  intro id
  rw [Option.isSome_iff_exists]
  constructor
  · intro hid
    obtain ⟨b, hb, rfl⟩ := List.mem_map.mp hid
    exact ⟨_, h.get?_eq hb⟩
  · rintro ⟨v, hv⟩
    obtain ⟨b, hb, rfl, -⟩ := (h.index id v).mp hv
    exact List.mem_map_of_mem hb

end Holds

theorem settle_suffix (budget : Budget) (l : List ScoredBlock) : settle budget l <:+ l := by
  induction l with
  | nil => exact List.suffix_refl _
  | cons b rest ih =>
      rw [settle_cons]
      split_ifs
      · cases budget with
        | blocks n => exact List.suffix_cons b rest
        | tokens n => exact ih.trans (List.suffix_cons b rest)
      · exact List.suffix_refl _

/-- One insertion more than a block budget allows is settled by one eviction. -/
theorem not_over_settle {budget : Budget} {l : List ScoredBlock}
    (h : ∀ n, budget = .blocks n → l.length ≤ n + 1) :
    budget.over (settle budget l).length (totalOf (settle budget l)) = false := by
  induction l with
  | nil => cases budget <;> simp [settle, Budget.over]
  | cons b rest ih =>
      rw [settle_cons]
      split_ifs with hover
      · cases budget with
        | blocks n =>
            have hlen : rest.length ≤ n := Nat.le_of_succ_le_succ (h n rfl)
            simpa [Budget.over] using hlen
        | tokens n => exact ih fun m hm => nomatch hm
      · simpa using hover

namespace IncrementalPruner

/-- The pruner stands for these survivors and keeps its budget. -/
structure Represents (p : IncrementalPruner) (l : List ScoredBlock) : Prop where
  holds : Holds p.ordered p.index p.totalSize l
  sorted : l.Pairwise fun a b => a.key < b.key
  seq_le : ∀ b ∈ l, b.seq ≤ p.clock
  budget : p.budget.over l.length (totalOf l) = false

/-- The insertion stays within 64 bits: the sizes of the survivors other than an earlier entry
of the id with the new one, and the number of insertions. -/
def Fits (p : IncrementalPruner) (id : BlockId) (size : Nat) : Prop :=
  p.totalSize - (p.index.get? id).elim 0 (fun v => v.2.2) + size ≤ usizeMax ∧
    p.clock + 1 ≤ usizeMax

/-- Every insertion of a run fits on the pruner it finds. -/
def FitsAll (p : IncrementalPruner) : List (BlockId × Nat) → Prop
  | [] => True
  | (id, size) :: rest =>
      p.Fits id size ∧ ∀ first p', p.insert id size = some (first, p') → p'.FitsAll rest

/-- The block that an insertion makes. -/
def scored (p : IncrementalPruner) (id : BlockId) (size : Nat) : ScoredBlock :=
  ⟨id, p.scorer (p.clock + 1) size, p.clock + 1, size⟩

theorem represents_newWith (budget : Budget) (scorer : Nat → Nat → Nat) :
    (newWith budget scorer).Represents [] := by
  refine ⟨⟨rfl, ?_, rfl, List.nodup_nil⟩, List.Pairwise.nil, ?_, ?_⟩
  · intro id v
    simp [newWith]
  · intro b hb
    cases hb
  · cases budget <;> simp [newWith, Budget.over]

namespace Represents

variable {p : IncrementalPruner} {l : List ScoredBlock}

theorem not_mem_others (l : List ScoredBlock) (id : BlockId) :
    id ∉ (others l id).map ScoredBlock.id := by
  intro hmem
  obtain ⟨b, hb, heq⟩ := List.mem_map.mp hmem
  have hne := (List.mem_filter.mp hb).2
  simp [heq] at hne

/-- The keys of the survivors are older than a new one. -/
theorem key_ne (h : p.Represents l) (id : BlockId) (size : Nat) :
    ∀ c ∈ others l id, c.key ≠ (p.scored id size).key := by
  intro c hc heq
  have hseq : c.seq = p.clock + 1 := congrArg (fun k : Key => (ofLex k).2) heq
  have hle := h.seq_le c (List.mem_filter.mp hc).1
  omega

theorem sorted_place (h : p.Represents l) (id : BlockId) (size : Nat) :
    (place (p.scored id size) (others l id)).Pairwise fun a b => a.key < b.key :=
  Holds.sorted_place (h.sorted.sublist List.filter_sublist) (h.key_ne id size)

/-- The total beside the block that an insertion replaces. -/
theorem total_others (h : p.Represents l) (id : BlockId) :
    p.totalSize - (p.index.get? id).elim 0 (fun v => v.2.2) = totalOf (others l id) := by
  by_cases hid : id ∈ l.map ScoredBlock.id
  · obtain ⟨b, hb, rfl⟩ := List.mem_map.mp hid
    rw [h.holds.get?_eq hb, h.holds.total_eq hb]
    exact Nat.add_sub_cancel_left _ _
  · rw [h.holds.get?_eq_none hid, others_of_not_mem hid, h.holds.totalSize]
    rfl

/-- What the insertion does to the two maps before it evicts. -/
theorem insert_eq (h : p.Represents l) (id : BlockId) (size : Nat) :
    ∃ ordered, Holds ordered (p.index.unset id) (totalOf (others l id)) (others l id) ∧
      p.insert id size =
        (checkedAdd p.clock 1).bind fun clock => (checkedAdd (totalOf (others l id)) size).bind
          fun total => evict { p with clock } none
            (mapInsert (toLex (p.scorer clock size, clock)) id ordered)
            (p.index.set id (p.scorer clock size, clock, size)) total := by
  obtain ⟨ordered, totalSize, hwithdraw, hholds⟩ := h.holds.withdraw h.sorted id
  obtain rfl := hholds.totalSize
  refine ⟨ordered, hholds, ?_⟩
  simp only [IncrementalPruner.insert, hwithdraw]
  rfl

/-- An insertion that fits puts its block among the others and settles the budget. -/
theorem insert (h : p.Represents l) {id : BlockId} {size : Nat} (hfits : p.Fits id size) :
    ∃ first p', p.insert id size = some (first, p') ∧
      p'.Represents (settle p.budget (place (p.scored id size) (others l id))) ∧
      p'.budget = p.budget ∧ p'.scorer = p.scorer ∧ p'.clock = p.clock + 1 := by
  obtain ⟨hsize, hclock⟩ := hfits
  rw [h.total_others] at hsize
  obtain ⟨ordered, hholds, hinsert⟩ := h.insert_eq id size
  rw [checkedAdd_of_le hclock, checkedAdd_of_le hsize, Option.bind_some, Option.bind_some]
    at hinsert
  have hplaced : Holds _ _ _ (place (p.scored id size) (others l id)) :=
    hholds.place (not_mem_others l id) (h.key_ne id size)
  obtain ⟨first, p', hevict, hholds', hbudget, hscorer, hclock'⟩ :=
    hplaced.evict { p with clock := p.clock + 1 } none
  refine ⟨first, p', ?_, ⟨hholds', ?_, ?_, ?_⟩, hbudget, hscorer, hclock'⟩
  · rw [hinsert, ← FinMap.set_unset]
    exact hevict
  · exact (h.sorted_place id size).sublist (settle_suffix _ _).sublist
  · intro b hb
    rw [hclock']
    cases Holds.mem_place.mp ((settle_suffix _ _).subset hb) with
    | inl hnew => rw [hnew, scored]
    | inr hold => exact (h.seq_le b (List.mem_filter.mp hold).1).trans (Nat.le_succ _)
  · rw [hbudget]
    apply not_over_settle
    intro n hn
    have hn' : p.budget = .blocks n := hn
    have hlen := h.budget
    rw [hn'] at hlen
    simp only [Budget.over, decide_eq_false_iff_not, Nat.not_lt] at hlen
    rw [(Holds.perm_place _ _).length_eq, List.length_cons]
    exact Nat.succ_le_succ ((List.length_filter_le _ _).trans hlen)

/-- An insertion that does not fit leaves the 64 bits. -/
theorem insert_eq_none (h : p.Represents l) {id : BlockId} {size : Nat}
    (hfits : ¬ p.Fits id size) : p.insert id size = none := by
  obtain ⟨ordered, -, hinsert⟩ := h.insert_eq id size
  rw [hinsert]
  by_cases hclock : p.clock + 1 ≤ usizeMax
  · have hsize : usizeMax < totalOf (others l id) + size := by
      rw [← h.total_others]
      exact Nat.lt_of_not_le fun hle => hfits ⟨hle, hclock⟩
    rw [checkedAdd_of_le hclock, Option.bind_some, checkedAdd_eq_none hsize, Option.bind_none]
  · rw [checkedAdd_eq_none (Nat.lt_of_not_le hclock), Option.bind_none]

end Represents

/-! ## Any insertions -/

end IncrementalPruner

/-- The survivors of some insertions into a window, after `n` earlier ones. -/
def survivorsFrom (budget : Budget) (scorer : Nat → Nat → Nat) :
    Nat → List ScoredBlock → List (BlockId × Nat) → List ScoredBlock
  | _, l, [] => l
  | n, l, (id, size) :: rest =>
      survivorsFrom budget scorer (n + 1)
        (settle budget (place ⟨id, scorer (n + 1) size, n + 1, size⟩ (others l id))) rest

/-- All blocks ever inserted, in order. -/
def insertedFrom (scorer : Nat → Nat → Nat) : Nat → List (BlockId × Nat) → List ScoredBlock
  | _, [] => []
  | n, (id, size) :: rest =>
      ⟨id, scorer (n + 1) size, n + 1, size⟩ :: insertedFrom scorer (n + 1) rest

namespace IncrementalPruner

/-- A run whose insertions fit ends in the window of the abstract run. -/
theorem Represents.insertAll {p : IncrementalPruner} {l : List ScoredBlock}
    (h : p.Represents l) {inserts : List (BlockId × Nat)} (hfits : p.FitsAll inserts) :
    ∃ p', p.insertAll inserts = some p' ∧ p'.budget = p.budget ∧
      p'.Represents (survivorsFrom p.budget p.scorer p.clock l inserts) := by
  induction inserts generalizing p l with
  | nil => exact ⟨p, rfl, rfl, h⟩
  | cons block rest ih =>
      obtain ⟨id, size⟩ := block
      obtain ⟨first, p₁, hinsert, h₁, hbudget, hscorer, hclock⟩ := h.insert hfits.1
      obtain ⟨p₂, hall, hbudget₂, h₂⟩ := ih h₁ (hfits.2 first p₁ hinsert)
      rw [hbudget, hscorer, hclock] at h₂
      refine ⟨p₂, ?_, hbudget₂.trans hbudget, h₂⟩
      simp only [IncrementalPruner.insertAll, hinsert]
      exact hall

/-- A run that ends has fitted all along. -/
theorem Represents.fitsAll {p p' : IncrementalPruner} {l : List ScoredBlock}
    (h : p.Represents l) {inserts : List (BlockId × Nat)} (hall : p.insertAll inserts = some p') :
    p.FitsAll inserts := by
  induction inserts generalizing p l with
  | nil => trivial
  | cons block rest ih =>
      obtain ⟨id, size⟩ := block
      by_cases hfits : p.Fits id size
      · refine ⟨hfits, ?_⟩
        intro first p₁ hinsert
        obtain ⟨first', p₁', hinsert', h₁, -⟩ := h.insert hfits
        rw [hinsert] at hinsert'
        cases hinsert'
        simp only [IncrementalPruner.insertAll, hinsert] at hall
        exact ih h₁ hall
      · simp only [IncrementalPruner.insertAll, h.insert_eq_none hfits] at hall
        cases hall

/-- The two maps describe the same survivors, the total is the sum of their sizes, and the
budget is kept. -/
structure Books (p : IncrementalPruner) : Prop where
  sorted : p.ordered.Pairwise fun a b => a.1 < b.1
  nodup : (p.ordered.map Prod.snd).Nodup
  agree : ∀ id score seq, (toLex (score, seq), id) ∈ p.ordered ↔
    ∃ size, p.index.get? id = some (score, seq, size)
  size : p.index.size = p.ordered.length
  totalSize : p.totalSize = p.index.sumOf fun v => v.2.2
  budget : match p.budget with
    | .blocks b => p.ordered.length ≤ b
    | .tokens b => p.totalSize ≤ b ∨ p.ordered.length = 1

theorem Represents.books {p : IncrementalPruner} {l : List ScoredBlock} (h : p.Represents l) :
    p.Books := by
  have hordered := h.holds.ordered
  have hlength : p.ordered.length = l.length := by rw [hordered, List.length_map]
  refine ⟨?_, ?_, ?_, ?_, h.holds.sumOf_eq, ?_⟩
  · rw [hordered]
    exact List.pairwise_map.mpr h.sorted
  · rw [hordered, List.map_map]
    exact h.holds.nodup
  · intro id score seq
    rw [hordered, List.mem_map]
    constructor
    · rintro ⟨b, hb, heq⟩
      cases heq
      exact ⟨b.size, h.holds.get?_eq hb⟩
    · rintro ⟨size, hget⟩
      obtain ⟨b, hb, rfl, hval⟩ := (h.holds.index id _).mp hget
      cases hval
      exact ⟨b, hb, rfl⟩
  · rw [h.holds.size_eq, hlength]
  · have hbudget := h.budget
    rw [hlength, h.holds.totalSize]
    cases hshape : p.budget with
    | blocks b => simpa [hshape, Budget.over] using hbudget
    | tokens b =>
        simp only [hshape, Budget.over, decide_eq_false_iff_not, not_and, Nat.not_lt] at hbudget
        by_cases hle : totalOf l ≤ b
        · exact Or.inl hle
        · right
          have hone := hbudget (Nat.lt_of_not_le hle)
          have hne : l ≠ [] := by
            rintro rfl
            exact hle (Nat.zero_le b)
          have hpos := List.length_pos_iff.mpr hne
          omega

end IncrementalPruner

end Dlr.Prune
