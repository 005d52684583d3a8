import Dlr.Coding.RoundTrip

/-!
# Asking a decoder again

An attempt to decode updates the stored equations in place: the payload of an equation that
reveals a source is moved out, and its cover stays. A later attempt peels the same sources and
finds the same rank, but reveals the empty symbol from every equation that an earlier attempt has
used. So a later attempt is as good as a fresh decoder exactly as long as it fails, or no earlier
attempt has used an equation.

## Implementation notes

Which sources peeling reveals does not depend on the order of the queue. `Peelable` is the least
set of sources that contains the last unknown of every equation, and the loop reveals exactly
these.
-/

namespace Dlr.Coding

open Lib.Elimination

/-! ## What peeling can reveal -/

/-- The sources of a cover. -/
def ParsedSym.keys (sym : ParsedSym) : List Nat := sym.cover.map Prod.fst

/-- A source that peeling reveals: the only one of some equation that is not revealed before. -/
inductive Peelable (syms : List ParsedSym) : Nat → Prop
  | last {sym : ParsedSym} (hsym : sym ∈ syms) {t : Nat} (ht : t ∈ sym.keys)
      (hrest : ∀ i ∈ sym.keys, i ≠ t → Peelable syms i) : Peelable syms t

theorem Peelable.mono {syms more : List ParsedSym} (h : ∀ sym ∈ syms, sym ∈ more) {t : Nat}
    (ht : Peelable syms t) : Peelable more t := by
  induction ht with
  | last hsym ht _ ih => exact .last (h _ hsym) ht ih

namespace Peel

/-- What the covers have lost against the equations `syms₀` are known sources, and what is known
is peelable. -/
structure Closure (k : Nat) (syms₀ : List ParsedSym) (t : Nat) (st : Peel) : Prop where
  length : st.syms.length = syms₀.length
  part : ∀ si, ∀ i ∈ (st.sym si).keys, i ∈ (syms₀.getD si ⟨[], []⟩).keys
  kept : ∀ si, ∀ i ∈ (syms₀.getD si ⟨[], []⟩).keys, i ∈ (st.sym si).keys ∨ Known k t st i
  peelable : ∀ i, Known k t st i → Peelable syms₀ i

variable {k s : Nat} {syms₀ : List ParsedSym} {st : Peel} {si sj t : Nat} {rest : List Nat}
  {c : UInt8} {x : List UInt8}

theorem keys_close (hsi : si < st.syms.length) (i : Nat) :
    ((st.close si t).sym i).keys = (st.sym i).keys := by
  rw [sym_close hsi]
  split_ifs with hi
  · rw [hi]
    rfl
  · rfl

theorem Closure.close {queue : List Nat} (h : Closure k syms₀ k st) (hsi : si < st.syms.length)
    (hcover : (st.sym si).cover = [(t, c)]) :
    Closure k syms₀ t ((st.close si t).dequeue queue) := by
  have hkeys : (st.sym si).keys = [t] := by rw [ParsedSym.keys, hcover]; rfl
  refine ⟨by simpa [dequeue, Peel.close] using h.length, ?_, ?_, ?_⟩
  · intro i
    rw [sym_dequeue, keys_close hsi]
    exact h.part i
  · intro i j hj
    rw [sym_dequeue, keys_close hsi]
    exact (h.kept i j hj).imp_right fun hknown => Or.inl (known_self.mp hknown)
  · intro i hi
    rcases hi with hval | ⟨rfl, -⟩
    · exact h.peelable i (known_self.mpr hval)
    · -- every other source of the original equation is already known
      have hlt : si < syms₀.length := h.length ▸ hsi
      have hmem : syms₀.getD si ⟨[], []⟩ ∈ syms₀ := by
        rw [List.getD_eq_getElem _ _ hlt]
        exact List.getElem_mem hlt
      apply Peelable.last hmem (h.part si i (by simp [hkeys]))
      intro j hj hji
      rcases h.kept si j hj with hcur | hknown
      · rw [hkeys, List.mem_singleton] at hcur
        exact absurd hcur hji
      · exact h.peelable j hknown

theorem Closure.substitute (h : Closure k syms₀ t st) (ht : t < k) (hsj : sj < st.syms.length) :
    Closure k syms₀ t (st.substitute sj t c x) := by
  have hkeys : ∀ i j, j ∈ ((st.substitute sj t c x).sym i).keys ↔
      j ∈ (st.sym i).keys ∧ (i = sj → j ≠ t) := by
    intro i j
    rw [sym_substitute hsj]
    split_ifs with hi
    · subst hi
      simp only [ParsedSym.keys, List.mem_map, List.mem_filter, decide_eq_true_eq]
      constructor
      · rintro ⟨e, ⟨he, het⟩, rfl⟩
        exact ⟨⟨e, he, rfl⟩, fun _ => het⟩
      · rintro ⟨⟨e, he, rfl⟩, het⟩
        exact ⟨e, ⟨he, het trivial⟩, rfl⟩
    · simp [hi]
  refine ⟨by simpa [Peel.substitute] using h.length, ?_, ?_, h.peelable⟩
  · exact fun i j hj => h.part i j ((hkeys i j).mp hj).1
  · intro i j hj
    rw [hkeys]
    rcases h.kept i j hj with hcur | hknown
    · by_cases hlost : i = sj ∧ j = t
      · exact Or.inr (Or.inr ⟨hlost.2, ht⟩)
      · exact Or.inl ⟨hcur, fun hi hjt => hlost ⟨hi, hjt⟩⟩
    · exact Or.inr hknown

theorem Closure.pop {queue : List Nat} (h : Closure k syms₀ k st) (hinv : Inv k s k [] st)
    (hq : st.queue = si :: queue) : Closure k syms₀ k (st.pop si queue) := by
  obtain ⟨-, heq⟩ | ⟨hdeg, t, c, hcover, ht, -, -, heq⟩ := hinv.pop_cases hq
  · rw [heq]
    exact ⟨h.length, h.part, h.kept, h.peelable⟩
  · obtain ⟨st', hinv', hclosure, hst'⟩ := hinv.resolve hq hdeg
      (h.close (hinv.lt_length hdeg) hcover)
      fun st sj rest c hst _ _ hsj _ hclosure => hclosure.substitute ht (hst.lt_length hsj)
    have hknown := fun i => known_put (x := scalInplace (st.sym si).payload (gfInv c))
      (hinv'.sources ▸ ht) ht i
    rw [heq, hst']
    exact ⟨hclosure.length, hclosure.part,
      fun i j hj => (hclosure.kept i j hj).imp_right (hknown j).mpr,
      fun i hi => hclosure.peelable i ((hknown i).mp hi)⟩

/-- A value that is revealed stays. -/
theorem Inv.value_pop {queue : List Nat} {i : Nat} {y : List UInt8} (h : Inv k s k [] st)
    (hq : st.queue = si :: queue) (hval : st.value i = some y) :
    (st.pop si queue).value i = some y := by
  obtain ⟨-, heq⟩ | ⟨hdeg, t, c, -, ht, -, hnone, heq⟩ := h.pop_cases hq
  · rw [heq]
    exact hval
  · obtain ⟨st', hinv', hsame, hst'⟩ := h.resolve (Q := fun st => st.value i = some y) hq hdeg hval
      fun _ _ _ _ _ _ _ _ _ hsame => hsame
    have hne : i ≠ t := by
      rintro rfl
      rw [hnone] at hval
      cases hval
    rw [heq, hst', value_put (hinv'.sources ▸ ht), if_neg hne]
    exact hsame

theorem closure_init (syms : List ParsedSym) : Closure k syms k (init syms k) := by
  refine ⟨rfl, fun _ _ hi => hi, fun _ _ hi => Or.inl hi, ?_⟩
  intro i hi
  rw [known_self] at hi
  simp [value, init] at hi

/-- The loop reveals every source it can. -/
theorem Closure.revealed (h : Closure k syms₀ k st) (hpeeled : Peeled k s syms₀ st)
    (ht : Peelable syms₀ t) : st.value t ≠ none := by
  induction ht with
  | @last sym hsym t ht _ ih =>
      intro hnone
      obtain ⟨si, hlt, rfl⟩ := List.getElem_of_mem hsym
      have hget : syms₀.getD si ⟨[], []⟩ = syms₀[si] := List.getD_eq_getElem _ _ hlt
      -- the equation still has the source, so it is open, and it has no other
      have hcur : t ∈ (st.sym si).keys := by
        rcases h.kept si t (hget ▸ ht) with hcur | hknown
        · exact hcur
        · exact absurd hnone (known_self.mp hknown)
      obtain ⟨e, he, rfl⟩ := List.mem_map.mp hcur
      have hdeg : st.deg si ≠ 0 := by
        intro hzero
        rcases hpeeled.history.closed si hzero with hnil | ⟨e', he', -, -, hknown⟩
        · simp [hnil] at he
        · rw [he', List.mem_singleton] at he
          exact known_self.mp hknown (he ▸ hnone)
      have hopen := hpeeled.inv.isOpen si hdeg
      have hall : ∀ i ∈ (st.sym si).keys, i = e.1 := by
        intro i hi
        by_contra hne
        obtain ⟨e', he', rfl⟩ := List.mem_map.mp hi
        exact ih e'.1 (hget ▸ h.part si e'.1 hi) hne (hopen.unrevealed e' he')
      have hone : st.deg si = 1 := by
        have hle : (st.sym si).keys.length ≤ [e.1].length :=
          (hopen.formed.nodup.subperm fun i hi => List.mem_singleton.mpr (hall i hi)).length_le
        have hdegree := hopen.degree
        rw [ParsedSym.keys, List.length_map, List.length_singleton] at hle
        omega
      have hqueued := hpeeled.inv.queued si hone
      rw [hpeeled.queue] at hqueued
      cases hqueued

end Peel

/-! ## What an attempt leaves -/

section Peeled

variable {k s : Nat} {syms : List ParsedSym}

/-- The equations a decoder may hold: only an equation in one source may have lost its
payload. -/
structure Stored (k s : Nat) (syms : List ParsedSym) : Prop where
  formed : ∀ sym ∈ syms, sym.WellFormed k
  size : ∀ sym ∈ syms, sym.payload.length = s ∨ sym.cover.length ≤ 1

theorem Stored.append {more : List ParsedSym} (h : Stored k s syms) (hmore : Stored k s more) :
    Stored k s (syms ++ more) := by
  constructor
  all_goals
    intro sym hsym
    rcases List.mem_append.mp hsym with hold | hnew
  · exact h.formed sym hold
  · exact hmore.formed sym hnew
  · exact h.size sym hold
  · exact hmore.size sym hnew

theorem stored_of_holds {X : Nat → List UInt8} (h : ∀ sym ∈ syms, sym.Holds X k s) :
    Stored k s syms :=
  ⟨fun sym hsym => (h sym hsym).formed, fun sym hsym => Or.inl (h sym hsym).size⟩

variable (h : Stored k s syms)

include h

theorem Stored.peeled : Peel.Peeled k s syms (peel k syms) := Peel.peeled_run h.formed h.size

theorem Stored.closure : Peel.Closure k syms k (peel k syms) :=
  ((Peel.inv_init h.formed h.size).run_rule (Peel.closure_init syms)
    (fun _ _ _ hst hq hclosure => hclosure.pop hst hq) (Peel.init syms k).work).2

/-- Peeling reveals exactly the peelable sources. -/
theorem Stored.mem_unknowns_iff {i : Nat} :
    i ∈ (peel k syms).unknowns k ↔ i < k ∧ ¬ Peelable syms i := by
  rw [Peel.mem_unknowns]
  refine and_congr_right fun _ => ⟨fun hnone ht => h.closure.revealed h.peeled ht hnone, ?_⟩
  intro hnot
  by_contra hval
  exact hnot (h.closure.peelable i (Peel.known_self.mpr hval))

/-- An equation after an attempt: open with at least two unknowns, empty, or used up. -/
theorem Stored.after_cases {sym : ParsedSym} (hsym : sym ∈ (peel k syms).syms) :
    (sym.WellFormed k ∧ sym.payload.length = s ∧ sym.cover.length ≠ 1) ∨ sym.cover = [] ∨
      ∃ t c, t < k ∧ c ≠ 0 ∧ sym = ⟨[(t, c)], []⟩ := by
  have hpeeled := h.peeled
  obtain ⟨si, hlt, rfl⟩ := List.getElem_of_mem hsym
  have hget : (peel k syms).syms[si] = (peel k syms).sym si :=
    (List.getD_eq_getElem _ _ hlt).symm
  rw [hget]
  by_cases hdeg : (peel k syms).deg si = 0
  · right
    rcases hpeeled.history.closed si hdeg with hnil | ⟨⟨t, c⟩, hcover, hc, hpay, hknown⟩
    · exact Or.inl hnil
    · refine Or.inr ⟨t, c, ?_, hc, ?_⟩
      · rw [← hpeeled.inv.sources]
        by_contra hge
        exact Peel.known_self.mp hknown (List.getD_eq_default _ _ (by omega))
      · rw [← hcover, ← hpay]
  · left
    have hopen := hpeeled.inv.isOpen si hdeg
    refine ⟨hopen.formed, (hpeeled.of_open hdeg).1, ?_⟩
    intro hone
    have hmem := hpeeled.inv.queued si (hopen.degree.trans hone)
    rw [hpeeled.queue] at hmem
    cases hmem

theorem Stored.after : Stored k s (peel k syms).syms := by
  constructor
  all_goals
    intro sym hsym
    obtain ⟨hformed, hsize, -⟩ | hnil | ⟨t, c, ht, hc, rfl⟩ := h.after_cases hsym
  · exact hformed
  · exact ⟨by simp [hnil], by simp [hnil], by simp [hnil]⟩
  · exact ⟨by simp, by simpa using ht, by simpa using hc⟩
  · exact Or.inl hsize
  · exact Or.inr (by simp [hnil])
  · exact Or.inr le_rfl

/-- An attempt does not change what is peelable, whatever is received later. -/
theorem Stored.peelable_after (more : List ParsedSym) (t : Nat) :
    Peelable ((peel k syms).syms ++ more) t ↔ Peelable (syms ++ more) t := by
  have hclosure := h.closure
  have hsub : ∀ sym ∈ syms, sym ∈ syms ++ more := fun _ hsym => List.mem_append_left _ hsym
  constructor
  · intro ht
    induction ht with
    | @last sym hsym t ht _ ih =>
        rcases List.mem_append.mp hsym with hold | hnew
        · obtain ⟨si, hlt, rfl⟩ := List.getElem_of_mem hold
          have hget : (peel k syms).syms[si] = (peel k syms).sym si :=
            (List.getD_eq_getElem _ _ hlt).symm
          rw [hget] at ht ih
          have hlt₀ : si < syms.length := hclosure.length ▸ hlt
          have hget₀ : syms.getD si ⟨[], []⟩ = syms[si] := List.getD_eq_getElem _ _ hlt₀
          apply Peelable.last (hsub _ (List.getElem_mem hlt₀)) (hget₀ ▸ hclosure.part si t ht)
          intro i hi hit
          rcases hclosure.kept si i (hget₀ ▸ hi) with hcur | hknown
          · exact ih i hcur hit
          · exact (hclosure.peelable i hknown).mono hsub
        · exact .last (List.mem_append_right _ hnew) ht ih
  · intro ht
    induction ht with
    | @last sym hsym t ht _ ih =>
        rcases List.mem_append.mp hsym with hold | hnew
        · obtain ⟨si, hlt₀, rfl⟩ := List.getElem_of_mem hold
          have hget₀ : syms.getD si ⟨[], []⟩ = syms[si] := List.getD_eq_getElem _ _ hlt₀
          have hlt : si < (peel k syms).syms.length := hclosure.length ▸ hlt₀
          rcases hclosure.kept si t (hget₀ ▸ ht) with hcur | hknown
          · apply Peelable.last (List.mem_append_left _
              (List.mem_of_getElem? (Peel.getElem?_syms hlt))) hcur
            intro i hi hit
            exact ih i (hget₀ ▸ hclosure.part si i hi) hit
          · -- the equation that revealed the source still names it
            obtain ⟨sk, c, -, hsk, -, hcover⟩ := h.peeled.history.unit t hknown
            have hkeys : ((peel k syms).sym sk).keys = [t] := by rw [ParsedSym.keys, hcover]; rfl
            apply Peelable.last (List.mem_append_left _
              (List.mem_of_getElem? (Peel.getElem?_syms hsk))) (by simp [hkeys])
            intro i hi hit
            rw [hkeys, List.mem_singleton] at hi
            exact absurd hi hit
        · exact .last (List.mem_append_right _ hnew) ht ih

/-- An attempt that finds an equation in one source uses one up. -/
theorem Stored.exists_used (hone : ∃ sym ∈ syms, sym.cover.length = 1) :
    ∃ sym ∈ (peel k syms).syms, sym.cover.length = 1 := by
  obtain ⟨sym, hsym, hlen⟩ := hone
  obtain ⟨⟨t, c⟩, hcover⟩ := List.length_eq_one_iff.mp hlen
  have hkeys : sym.keys = [t] := by rw [ParsedSym.keys, hcover]; rfl
  have ht : Peelable syms t := by
    apply Peelable.last hsym (by simp [hkeys])
    intro i hi hit
    rw [hkeys, List.mem_singleton] at hi
    exact absurd hi hit
  obtain ⟨sk, d, -, hsk, -, hunit⟩ := h.peeled.history.unit t
    (Peel.known_self.mpr (h.closure.revealed h.peeled ht))
  exact ⟨_, List.mem_of_getElem? (Peel.getElem?_syms hsk), by rw [hunit]; rfl⟩

end Peeled

/-- An attempt without an equation in one source leaves the equations as they are. -/
theorem peel_syms_of_none {k : Nat} {syms : List ParsedSym}
    (h : ∀ sym ∈ syms, sym.cover.length ≠ 1) : (peel k syms).syms = syms := by
  have hqueue : (Peel.init syms k).queue = [] := by
    simp only [Peel.init]
    apply List.filter_eq_nil_iff.mpr
    intro si hsi
    have hlt := List.mem_range.mp hsi
    rw [decide_eq_true_eq, List.getD_eq_getElem _ _ (by simpa using hlt), List.getElem_map]
    exact h _ (List.getElem_mem hlt)
  unfold peel
  cases (Peel.init syms k).work with
  | zero => rfl
  | succ fuel =>
      rw [Peel.run, hqueue]
      rfl

/-! ## The equations of a decoder that has been asked before -/

/-- A fresh decoder with the equations `fresh` would use one of them. -/
def Usable (k : Nat) (fresh : List ParsedSym) : Prop :=
  k ≤ fresh.length ∧ ∃ sym ∈ fresh, sym.cover.length = 1

/-- The equations `stored` are what attempts that have used some have made of `fresh`. -/
structure Spoiled (k s : Nat) (fresh stored : List ParsedSym) : Prop extends Stored k s stored where
  length : stored.length = fresh.length
  space : coverSpace stored = coverSpace fresh
  peelable : ∀ more t, Peelable (stored ++ more) t ↔ Peelable (fresh ++ more) t
  used : ∃ sym ∈ stored, sym.cover.length = 1
  empty : ∀ sym ∈ stored, sym.cover.length = 1 → sym.payload = []

section History

variable {k s : Nat} {fresh stored : List ParsedSym}

theorem coverSpace_append (xs ys : List ParsedSym) :
    coverSpace (xs ++ ys) = coverSpace xs ⊔ coverSpace ys := by
  unfold coverSpace
  rw [List.map_append, rowSpace_append]

/-- The first attempt that uses an equation. -/
theorem spoiled_peel (h : Stored k s fresh) (hone : ∃ sym ∈ fresh, sym.cover.length = 1) :
    Spoiled k s fresh (peel k fresh).syms where
  toStored := h.after
  length := h.closure.length
  space := h.peeled.history.span
  peelable := h.peelable_after
  used := h.exists_used hone
  empty := by
    intro sym hsym hlen
    obtain ⟨-, -, hne⟩ | hnil | ⟨t, c, -, -, rfl⟩ := h.after_cases hsym
    · exact absurd hlen hne
    · simp [hnil] at hlen
    · rfl

/-- A further attempt, after more equations have been received. -/
theorem Spoiled.peel (h : Spoiled k s fresh stored) {more : List ParsedSym}
    (hmore : Stored k s more) :
    Spoiled k s (fresh ++ more) (peel k (stored ++ more)).syms := by
  have hstored := h.toStored.append hmore
  obtain ⟨sym, hsym, hlen⟩ := h.used
  have hnext := spoiled_peel hstored ⟨sym, List.mem_append_left _ hsym, hlen⟩
  refine ⟨hnext.toStored, ?_, ?_, ?_, hnext.used, hnext.empty⟩
  · rw [hnext.length, List.length_append, List.length_append, h.length]
  · rw [hnext.space, coverSpace_append, coverSpace_append, h.space]
  · intro later t
    rw [hnext.peelable, List.append_assoc, h.peelable, List.append_assoc]

/-- The equations of a decoder: untouched as long as no attempt has used one. -/
inductive Kept (k s : Nat) (fresh stored : List ParsedSym) : Prop
  | untouched (husable : ¬ Usable k fresh) (heq : stored = fresh)
  | spoiled (husable : Usable k fresh) (h : Spoiled k s fresh stored)

/-- The stored equations after an attempt. -/
def attempted (k s : Nat) (syms : List ParsedSym) : List ParsedSym :=
  if syms.length < k then syms else (peelSymbols syms k s).2

/-- The answer of an attempt. -/
def answer (k s : Nat) (syms : List ParsedSym) : Except FountainError (List (List UInt8)) :=
  if syms.length < k then .error (.underdetermined syms.length k) else (peelSymbols syms k s).1

theorem Kept.attempt (h : Kept k s fresh stored) (hfresh : Stored k s fresh)
    {more : List ParsedSym} (hmore : Stored k s more) :
    Kept k s (fresh ++ more) (attempted k s (stored ++ more)) := by
  unfold attempted
  rw [peelSymbols_snd]
  cases h with
  | untouched _ heq =>
      subst heq
      by_cases hshort : (stored ++ more).length < k
      · rw [if_pos hshort]
        exact .untouched (fun husable => absurd husable.1 (by omega)) rfl
      · rw [if_neg hshort]
        by_cases hone : ∃ sym ∈ stored ++ more, sym.cover.length = 1
        · exact .spoiled ⟨by omega, hone⟩ (spoiled_peel (hfresh.append hmore) hone)
        · push Not at hone
          exact .untouched (fun ⟨_, sym, hsym, hlen⟩ => hone sym hsym hlen)
            (peel_syms_of_none hone)
  | spoiled husable h =>
      have hlen : k ≤ (stored ++ more).length := by
        rw [List.length_append, h.length]
        exact husable.1.trans (Nat.le_add_right _ _)
      obtain ⟨sym, hsym, hone⟩ := husable.2
      rw [if_neg (by omega)]
      exact .spoiled ⟨by rw [List.length_append]; exact husable.1.trans (Nat.le_add_right _ _),
        sym, List.mem_append_left _ hsym, hone⟩ (h.peel hmore)

/-! ## The answer of a later attempt -/

theorem spans_congr_space {syms syms' : List ParsedSym} (h : coverSpace syms = coverSpace syms') :
    Spans k (syms.map fun sym => coverVec sym.cover) ↔
      Spans k (syms'.map fun sym => coverVec sym.cover) := by
  unfold coverSpace at h
  unfold Spans
  rw [h]

/-- Fewer than `k` equations do not span everything. -/
theorem le_length_of_spans {syms : List ParsedSym}
    (h : Spans k (syms.map fun sym => coverVec sym.cover)) : k ≤ syms.length := by
  have hcard := h.le_card (Finset.range syms.length)
    (fun i => coverVec (syms.getD i ⟨[], []⟩).cover) (by
      intro row hrow
      obtain ⟨sym, hsym, rfl⟩ := List.mem_map.mp hrow
      obtain ⟨i, hi, rfl⟩ := List.getElem_of_mem hsym
      exact ⟨i, Finset.mem_range.mpr hi, by rw [List.getD_eq_getElem _ _ hi]⟩)
  rwa [Finset.card_range] at hcard

/-- The answer to equations that hold and span everything. -/
theorem answer_of_spans {X : Nat → List UInt8} (hs : 0 < s) (hX : ∀ i < k, (X i).length = s)
    {syms : List ParsedSym} (hholds : ∀ sym ∈ syms, sym.Holds X k s)
    (hspan : Spans k (syms.map fun sym => coverVec sym.cover)) :
    answer k s syms = .ok ((List.range k).map X) := by
  have hk := le_length_of_spans hspan
  unfold answer
  rw [if_neg (by omega), peelSymbols_of_holds hs hX hholds hspan]

theorem answer_of_spans_stored {syms : List ParsedSym} (h : Stored k s syms) (hs : 0 < s)
    (hspan : Spans k (syms.map fun sym => coverVec sym.cover)) :
    ∃ xs, answer k s syms = .ok xs := by
  have hk := le_length_of_spans hspan
  unfold answer
  rw [if_neg (by omega)]
  exact ⟨_, peelSymbols_of_spans h.formed h.size hs hspan⟩

/-- The answer to equations that leave sources open. -/
theorem answer_of_short {syms : List ParsedSym} (h : Stored k s syms) (hs : 0 < s)
    (hspan : ¬ Spans k (syms.map fun sym => coverVec sym.cover)) :
    ∃ got need, answer k s syms = .error (.underdetermined got need) := by
  unfold answer
  split_ifs
  · exact ⟨_, _, rfl⟩
  · exact ⟨_, _, peelSymbols_of_not_spans h.formed h.size hs hspan⟩

/-- Equations with the same space and the same peelable sources fail alike. -/
theorem answer_of_not_spans {syms syms' : List ParsedSym} (h : Stored k s syms)
    (h' : Stored k s syms') (hs : 0 < s) (hlen : syms.length = syms'.length)
    (hspace : coverSpace syms = coverSpace syms')
    (hpeelable : ∀ t, Peelable syms t ↔ Peelable syms' t)
    (hspan : ¬ Spans k (syms.map fun sym => coverVec sym.cover)) :
    answer k s syms = answer k s syms' := by
  have hunknowns : (peel k syms).unknowns k = (peel k syms').unknowns k := by
    unfold Peel.unknowns
    apply List.filter_congr
    intro i hi
    have hiff := h.mem_unknowns_iff (i := i)
    have hiff' := h'.mem_unknowns_iff (i := i)
    rw [Peel.mem_unknowns] at hiff hiff'
    have hik := List.mem_range.mp hi
    rw [and_iff_right hik, and_iff_right hik] at hiff hiff'
    rw [Bool.eq_iff_iff, Option.isNone_iff_eq_none, Option.isNone_iff_eq_none, hiff, hiff', hpeelable]
  have hrank : Peel.residualRank syms ((peel k syms).unknowns k) =
      Peel.residualRank syms' ((peel k syms').unknowns k) := by
    rw [hunknowns, Peel.residualRank, hspace]
    rfl
  unfold answer
  rw [hlen, peelSymbols_of_not_spans h.formed h.size hs hspan,
    peelSymbols_of_not_spans h'.formed h'.size hs fun hsp => hspan ((spans_congr_space hspace).mpr hsp),
    hrank, hunknowns]

/-- An equation that an earlier attempt has used is the first in the queue. -/
theorem init_queue_head {used : List ParsedSym} (more : List ParsedSym)
    (hused : ∃ sym ∈ used, sym.cover.length = 1) :
    ∃ i queue sym, (Peel.init (used ++ more) k).queue = i :: queue ∧ sym ∈ used ∧
      sym.cover.length = 1 ∧ (Peel.init (used ++ more) k).sym i = sym := by
  have hmem : ∀ i, i ∈ (Peel.init (used ++ more) k).queue ↔
      ∃ sym, (used ++ more)[i]? = some sym ∧ sym.cover.length = 1 := by
    intro i
    simp only [Peel.init, List.mem_filter, List.mem_range, decide_eq_true_eq]
    constructor
    · rintro ⟨hlt, hone⟩
      rw [List.getD_eq_getElem _ _ (by simpa using hlt), List.getElem_map] at hone
      exact ⟨_, List.getElem?_eq_getElem hlt, hone⟩
    · rintro ⟨sym, hget, hone⟩
      obtain ⟨hlt, rfl⟩ := List.getElem?_eq_some_iff.mp hget
      rw [List.getD_eq_getElem _ _ (by simpa using hlt), List.getElem_map]
      exact ⟨hlt, hone⟩
  have hsorted : (Peel.init (used ++ more) k).queue.Pairwise (· < ·) :=
    List.pairwise_lt_range.filter _
  obtain ⟨sym, hsym, hone⟩ := hused
  obtain ⟨j, hj, rfl⟩ := List.getElem_of_mem hsym
  have hjmem := (hmem j).mpr ⟨used[j],
    by rw [List.getElem?_append_left hj, List.getElem?_eq_getElem hj], hone⟩
  cases hq : (Peel.init (used ++ more) k).queue with
  | nil => rw [hq] at hjmem; cases hjmem
  | cons i queue =>
      have hij : i ≤ j := by
        rw [hq] at hjmem hsorted
        rcases List.mem_cons.mp hjmem with rfl | hrest
        · exact le_rfl
        · exact ((List.pairwise_cons.mp hsorted).1 j hrest).le
      have hi : i < used.length := hij.trans_lt hj
      obtain ⟨sym, hget, hlen⟩ := (hmem i).mp (by rw [hq]; exact List.mem_cons_self)
      have hsame : (Peel.init (used ++ more) k).sym i = sym := by
        simp [Peel.sym, Peel.init, List.getD_eq_getElem?_getD, hget]
      rw [List.getElem?_append_left hi] at hget
      exact ⟨i, queue, sym, rfl, List.mem_of_getElem? hget, hlen, hsame⟩

/-- A source revealed from an equation without payload is the empty symbol. -/
theorem exists_value_nil {used more : List ParsedSym} (h : Stored k s (used ++ more))
    (hused : ∃ sym ∈ used, sym.cover.length = 1)
    (hempty : ∀ sym ∈ used, sym.cover.length = 1 → sym.payload = []) :
    ∃ t < k, (peel k (used ++ more)).value t = some [] := by
  have hinv := Peel.inv_init h.formed h.size
  obtain ⟨i, queue, sym, hq, hsym, hone, hsame⟩ := init_queue_head (k := k) more hused
  obtain ⟨fuel, hfuel⟩ : ∃ fuel, (Peel.init (used ++ more) k).work = fuel + 1 := by
    apply Nat.exists_eq_succ_of_ne_zero
    simp only [Peel.work, hq, List.length_cons]
    omega
  have hrun : peel k (used ++ more) =
      Peel.run fuel ((Peel.init (used ++ more) k).pop i queue) := by
    rw [peel, hfuel, Peel.run, hq]
  obtain ⟨hzero, -⟩ | ⟨hdeg, t, c, -, ht, -, -, hpop⟩ := hinv.pop_cases hq
  · rw [Peel.deg_init, hsame, hone] at hzero
    cases hzero
  · refine ⟨t, ht, ?_⟩
    obtain ⟨st', hinv', -, hst'⟩ := hinv.resolve (Q := fun _ => True) hq hdeg trivial
      fun _ _ _ _ _ _ _ _ _ _ => trivial
    have hfirst : ((Peel.init (used ++ more) k).pop i queue).value t = some [] := by
      rw [hpop, hst', Peel.value_put (hinv'.sources ▸ ht), if_pos rfl, hsame, hempty sym hsym hone]
      simp [scalInplace]
    rw [hrun]
    exact ((hinv.pop hq).run_rule hfirst
      (fun _ _ _ hst hq hval => hst.value_pop hq hval) fuel).2

/-- After earlier attempts the answer is that of a fresh decoder exactly when the equations do not
span everything or no attempt has used one. -/
theorem Kept.answer_iff {X : Nat → List UInt8} (h : Kept k s fresh stored) (hs : 0 < s)
    (hX : ∀ i < k, (X i).length = s) {more : List ParsedSym}
    (hholds : ∀ sym ∈ fresh ++ more, sym.Holds X k s) :
    answer k s (stored ++ more) = answer k s (fresh ++ more) ↔
      ¬ Spans k ((fresh ++ more).map fun sym => coverVec sym.cover) ∨ ¬ Usable k fresh := by
  cases h with
  | untouched husable heq => simp [heq, husable]
  | spoiled husable h =>
      have hmore : Stored k s more :=
        stored_of_holds fun sym hsym => hholds sym (List.mem_append_right _ hsym)
      have hstored := h.toStored.append hmore
      have hlen : (stored ++ more).length = (fresh ++ more).length := by
        rw [List.length_append, List.length_append, h.length]
      have hspace : coverSpace (stored ++ more) = coverSpace (fresh ++ more) := by
        rw [coverSpace_append, coverSpace_append, h.space]
      rw [or_iff_left (not_not_intro husable)]
      constructor
      · intro hsame hspan
        have hspan' := (spans_congr_space hspace).mpr hspan
        have hk := le_length_of_spans hspan
        obtain ⟨t, ht, hnil⟩ := exists_value_nil hstored h.used h.empty
        have hfull := hstored.peeled.spans_iff_rank.mp hspan'
        have hsolution := hstored.peeled.solution_of_value hs hfull hnil
        unfold answer at hsame
        rw [if_neg (by omega), if_neg (by omega),
          peelSymbols_of_spans hstored.formed hstored.size hs hspan',
          peelSymbols_of_holds hs hX hholds hspan, Except.ok.injEq] at hsame
        -- the source that was lost is empty here and not empty there
        have hentry := congrArg (·[t]?) hsame
        simp only [List.getElem?_map, hsolution, List.getElem?_range ht, Option.map_some,
          Option.getD_some, Option.some.injEq] at hentry
        have hsize := hX t ht
        rw [← hentry] at hsize
        exact absurd hsize (by simp; omega)
      · intro hspan
        refine answer_of_not_spans hstored (stored_of_holds hholds) hs hlen hspace (h.peelable more) ?_
        exact fun hspan' => hspan ((spans_congr_space hspace).mp hspan')

end History

/-! ## Batches of symbols -/

namespace FountainDecoder

/-- Attempt to decode after each batch, whatever the answers are. -/
def attempts (d : FountainDecoder) : List (List (List UInt8)) → FountainDecoder
  | [] => d
  | batch :: rest => ((d.addAll batch).2.decode.2).attempts rest

theorem decode_eq (d : FountainDecoder) :
    d.decode = (answer d.k d.symbolSize d.syms,
      { d with syms := attempted d.k d.symbolSize d.syms }) := by
  unfold decode answer attempted
  split_ifs
  all_goals rfl

section Batches

variable {X : Nat → List UInt8} {k s : Nat}

/-- The equations of a decoder that has been asked after each batch. -/
theorem kept_attempts {fresh : List ParsedSym} (batches : List (List (List UInt8)))
    (h : ∀ batch ∈ batches, ∀ w ∈ batch, TrueWire X k s w) {d : FountainDecoder} (hdk : d.k = k)
    (hds : d.symbolSize = s) (hkept : Kept k s fresh d.syms)
    (hfresh : ∀ sym ∈ fresh, sym.Holds X k s) :
    ∃ syms, (∀ sym ∈ syms, sym.Holds X k s) ∧
      (∀ d : FountainDecoder, d.k = k → d.symbolSize = s →
        d.addAll batches.flatten = (.ok (), d.extend syms)) ∧
      Kept k s (fresh ++ syms) (d.attempts batches).syms ∧ (d.attempts batches).k = k ∧
      (d.attempts batches).symbolSize = s := by
  induction batches generalizing d fresh with
  | nil =>
      refine ⟨[], by simp, fun d _ _ => by simp [addAll], ?_, hdk, hds⟩
      rw [List.append_nil]
      exact hkept
  | cons batch rest ih =>
      obtain ⟨first, hfirst, hadd⟩ := addAll_adds batch (h batch List.mem_cons_self)
      have hboth : ∀ sym ∈ fresh ++ first, sym.Holds X k s := by
        intro sym hsym
        rcases List.mem_append.mp hsym with hold | hnew
        · exact hfresh sym hold
        · exact hfirst sym hnew
      have hstep : (d.addAll batch).2.decode.2 =
          { d with syms := attempted k s (d.syms ++ first) } := by
        rw [hadd d hdk hds, decode_eq]
        simp [extend, hdk, hds]
      have hnext := hkept.attempt (stored_of_holds hfresh) (stored_of_holds hfirst)
      obtain ⟨others, hothers, hall, hafter, hk, hs⟩ :=
        ih (fun b hb => h b (List.mem_cons_of_mem _ hb))
          (d := { d with syms := attempted k s (d.syms ++ first) }) hdk hds hnext hboth
      refine ⟨first ++ others, ?_, ?_, ?_, ?_, ?_⟩
      · intro sym hsym
        rcases List.mem_append.mp hsym with hold | hnew
        · exact hfirst sym hold
        · exact hothers sym hnew
      · intro d' hdk' hds'
        rw [List.flatten_cons, addAll_append _ _ _ (hadd d' hdk' hds'),
          hall (d'.extend first) hdk' hds', extend_extend]
      · rw [attempts, hstep, ← List.append_assoc]
        exact hafter
      · rw [attempts, hstep]
        exact hk
      · rw [attempts, hstep]
        exact hs

/-- A decoder that has been fed the symbols and never been asked. -/
def fed (k s : Nat) (wires : List (List UInt8)) : FountainDecoder := ((new k s).addAll wires).2

theorem fed_eq {wires : List (List UInt8)} {syms : List ParsedSym}
    (h : (new k s).addAll wires = (.ok (), (new k s).extend syms)) :
    fed k s wires = { k, symbolSize := s, syms } := by
  rw [fed, h]
  simp [extend, new]

/-- Attempt to decode after each batch, and once more after the symbols that follow. The last
answer is that of a decoder fed all symbols and never asked before exactly when the symbols do not
span, or the earlier attempts had too few symbols, or no source on its own among them. -/
theorem later_attempt_iff {x : List (List UInt8)} (hk : 0 < k) (hs : 0 < s) (hx : x.length = k)
    (hsize : ∀ v ∈ x, v.length = s) (batches : List (List (List UInt8)))
    (next : List (List UInt8))
    (hbatches : ∀ batch ∈ batches, ∀ w ∈ batch, TrueWire (fun i => x.getD i []) k s w)
    (hnext : ∀ w ∈ next, TrueWire (fun i => x.getD i []) k s w) :
    let fresh := fed k s (batches.flatten ++ next)
    let later := (((new k s).attempts batches).addAll next).2
    let before := (fed k s batches.flatten).syms
    let rows := fresh.syms.map fun sym => coverVec sym.cover
    (Spans k rows → fresh.decode.1 = .ok x) ∧
      (¬ Spans k rows → ∃ got need, fresh.decode.1 = .error (.underdetermined got need)) ∧
      (later.decode.1 = fresh.decode.1 ↔
        ¬ Spans k rows ∨ before.length < k ∨ ∀ sym ∈ before, sym.cover.length ≠ 1) := by
  intro fresh later before rows
  have hempty : Kept k s [] (new k s).syms :=
    .untouched (fun husable => absurd husable.1 (by simp; omega)) rfl
  obtain ⟨syms, hholds, hall, hkept, hlk, hls⟩ :=
    kept_attempts batches hbatches (d := new k s) rfl rfl hempty (by simp)
  obtain ⟨more, hmore, hadd⟩ := addAll_adds next hnext
  rw [List.nil_append] at hkept
  have hboth : ∀ sym ∈ syms ++ more, sym.Holds (fun i => x.getD i []) k s := by
    intro sym hsym
    rcases List.mem_append.mp hsym with hold | hnew
    · exact hholds sym hold
    · exact hmore sym hnew
  have hbefore : before = syms := by
    simp only [before, fed_eq (hall (new k s) rfl rfl)]
  have hfresh : fresh = { k, symbolSize := s, syms := syms ++ more } := by
    apply fed_eq
    rw [addAll_append _ _ _ (hall (new k s) rfl rfl), hadd _ rfl rfl, extend_extend]
  have hlater : later.decode.1 = answer k s (((new k s).attempts batches).syms ++ more) := by
    simp only [later]
    rw [hadd _ hlk hls, decode_eq]
    simp only [extend, hlk, hls]
  have hrows : rows = (syms ++ more).map fun sym => coverVec sym.cover := by
    simp only [rows, hfresh]
  have hanswer : fresh.decode.1 = answer k s (syms ++ more) := by rw [hfresh, decode_eq]
  rw [hanswer, hlater, hrows, hbefore]
  have hX : ∀ i < k, (x.getD i []).length = s := fun _ hi => length_getD_of_forall hx hsize hi
  refine ⟨?_, answer_of_short (stored_of_holds hboth) hs, ?_⟩
  · intro hspan
    rw [answer_of_spans hs hX hboth hspan, range_map_getD hx]
  rw [hkept.answer_iff hs hX hboth]
  apply or_congr_right
  rw [Usable, not_and_or, not_le]
  push Not
  rfl

/-- The sum of both sources, received twice, reveals nothing: the attempt fails and spoils nothing,
and a source completes the next one. -/
theorem later_attempt_iff_repeated_sum :
    let sum := FountainEncoder.wireSymbol [(0, 1), (1, 1)] [14]
    let second := FountainEncoder.wireSymbol [(1, 1)] [9]
    (fed 2 1 [sum, sum]).syms.length = 2 ∧
      (fed 2 1 [sum, sum]).decode.1.toOption = none ∧
      (((new 2 1).attempts [[sum, sum]]).addAll [second]).2.decode.1 =
        (fed 2 1 [sum, sum, second]).decode.1 ∧
      (fed 2 1 [sum, sum, second]).decode.1 = .ok [[7], [9]] := by
  intro sum second
  have hsum : TrueWire (fun i => ([[7], [9]] : List (List UInt8)).getD i []) 2 1 sum := by
    refine HonestWire.trueWire (by decide) ⟨⟨[(0, 1), (1, 1)], [14]⟩, ?_, rfl⟩
    refine ⟨by decide, by decide, by decide, rfl, fun p => ?_⟩
    cases p with
    | zero => decide +kernel
    | succ p => simp [comb]
  have hsecond : TrueWire (fun i => ([[7], [9]] : List (List UInt8)).getD i []) 2 1 second :=
    trueWire_systematic (i := 1) (by decide) (by decide) rfl
  refine ⟨by decide +kernel, by decide +kernel, ?_, by decide +kernel⟩
  apply (later_attempt_iff (k := 2) (x := [[7], [9]]) (by decide) Nat.one_pos rfl (by decide)
    [[sum, sum]] [second] (by simpa using hsum) (by simpa using hsecond)).2.2.mpr
  right
  right
  decide +kernel

/-- A symbol received twice makes the first attempt use one copy of it and fail. The attempt that
follows then returns the empty symbol in its place. -/
theorem failed_attempt_loses_a_source :
    let first := FountainEncoder.wireSymbol [(0, 1)] [7]
    let second := FountainEncoder.wireSymbol [(1, 1)] [9]
    (∀ w ∈ [first, second], TrueWire (fun i => ([[7], [9]] : List (List UInt8)).getD i []) 2 1 w) ∧
      (fed 2 1 [first, first]).decode.1 = .error (.underdetermined 0 1) ∧
      (((new 2 1).attempts [[first, first]]).addAll [second]).2.decode.1 = .ok [[], [9]] ∧
      (fed 2 1 [first, first, second]).decode.1 = .ok [[7], [9]] := by
  intro first second
  refine ⟨?_, by decide +kernel, by decide +kernel, by decide +kernel⟩
  intro w hw
  rw [List.mem_cons, List.mem_singleton] at hw
  obtain rfl | rfl := hw
  · exact trueWire_systematic (X := fun i => ([[7], [9]] : List (List UInt8)).getD i []) (i := 0)
      (by decide) (by decide) rfl
  · exact trueWire_systematic (X := fun i => ([[7], [9]] : List (List UInt8)).getD i []) (i := 1)
      (by decide) (by decide) rfl

end Batches

end FountainDecoder

end Dlr.Coding
