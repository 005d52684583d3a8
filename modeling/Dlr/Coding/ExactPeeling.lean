import Dlr.Coding.Gauss
import Dlr.Coding.Peeling

/-!
# Peeling and elimination solve exactly what is determined

The covers of the equations are rows of coefficients. Peeling turns them into unit rows for the
revealed sources and rows over the unknowns, and keeps their row space; the elimination of the
residual system then finds the rank on the unknowns. So the decoder succeeds exactly when the
covers span everything, and on equations that hold it returns the sources.

## Implementation notes

Whether the decoder succeeds depends on the covers alone. This is stated for equations whose
payloads may be wrong or lost, as they are when a decoder is asked again.
-/

namespace Dlr.Coding

open Lib.Elimination

/-! ## Covers as rows -/

/-- A cover as a row of coefficients. -/
def coverVec (cover : List (Nat × UInt8)) : Nat → Gf256 :=
  (cover.map fun e => (Pi.single e.1 ⟨e.2⟩ : Nat → Gf256)).sum

@[simp] theorem coverVec_nil : coverVec [] = 0 := rfl

@[simp] theorem coverVec_cons (e : Nat × UInt8) (rest : List (Nat × UInt8)) :
    coverVec (e :: rest) = Pi.single e.1 ⟨e.2⟩ + coverVec rest := rfl

theorem single_eq_smul (t : Nat) (c : UInt8) :
    (Pi.single t ⟨c⟩ : Nat → Gf256) = (⟨c⟩ : Gf256) • Pi.single t 1 := by
  rw [← Pi.single_smul, smul_eq_mul, mul_one]

/-- The row of a single source gives its unit row. -/
theorem single_mem_of_cover {W : Submodule Gf256 (Nat → Gf256)} {i : Nat} {c : UInt8} (hc : c ≠ 0)
    (h : coverVec [(i, c)] ∈ W) : (Pi.single i 1 : Nat → Gf256) ∈ W := by
  have hne : (⟨c⟩ : Gf256) ≠ 0 := fun habs => hc (congrArg Gf256.byte habs)
  have hscaled := W.smul_mem (⟨c⟩ : Gf256)⁻¹ h
  rwa [coverVec_cons, coverVec_nil, add_zero, single_eq_smul, smul_smul, inv_mul_cancel₀ hne,
    one_smul] at hscaled

/-- Sources outside the cover have coefficient zero. -/
theorem coverVec_of_not_mem {cover : List (Nat × UInt8)} {i : Nat}
    (h : i ∉ cover.map Prod.fst) : coverVec cover i = 0 := by
  induction cover with
  | nil => rfl
  | cons e rest ih =>
      rw [List.map_cons, List.mem_cons, not_or] at h
      rw [coverVec_cons, Pi.add_apply, Pi.single_eq_of_ne h.1, ih h.2, add_zero]

/-- Taking a source out of a cover takes its unit row out of the row. -/
theorem coverVec_filter {cover : List (Nat × UInt8)} {t : Nat} {c : UInt8}
    (hnodup : (cover.map Prod.fst).Nodup) (h : cover.lookup t = some c) :
    coverVec cover = coverVec (cover.filter fun e => e.1 ≠ t) + (⟨c⟩ : Gf256) • Pi.single t 1 := by
  rw [← single_eq_smul]
  induction cover with
  | nil => simp at h
  | cons e rest ih =>
      obtain ⟨i, d⟩ := e
      rw [List.map_cons, List.nodup_cons] at hnodup
      by_cases hi : t = i
      · subst hi
        simp only [List.lookup_cons, beq_self_eq_true, Option.some.injEq] at h
        subst h
        rw [List.filter_cons_of_neg (by simp), filter_of_not_mem hnodup.1, coverVec_cons, add_comm]
      · have hbeq : (t == i) = false := by simpa using hi
        simp only [List.lookup_cons, hbeq] at h
        rw [List.filter_cons_of_pos (by simpa using Ne.symm hi), coverVec_cons, coverVec_cons,
          ih hnodup.2 h, add_assoc]

/-- The row space of the covers. -/
def coverSpace (syms : List ParsedSym) : Submodule Gf256 (Nat → Gf256) :=
  rowSpace (syms.map fun sym => coverVec sym.cover)

/-! ## The row space through the loop -/

namespace Peel

/-- A source that is revealed, or whose value is being substituted. -/
def Known (k t : Nat) (st : Peel) (i : Nat) : Prop := st.value i ≠ none ∨ (i = t ∧ t < k)

theorem known_self {k : Nat} {st : Peel} {i : Nat} : Known k k st i ↔ st.value i ≠ none := by
  simp [Known]

/-- What peeling has made of the equations `syms₀`: an equation of degree zero has an empty cover
or is the used-up equation of a known source, every known source has one, and the row space is the
same. -/
structure History (k : Nat) (syms₀ : List ParsedSym) (t : Nat) (st : Peel) : Prop where
  span : coverSpace st.syms = coverSpace syms₀
  closed : ∀ si, st.deg si = 0 → (st.sym si).cover = [] ∨
    ∃ e, (st.sym si).cover = [e] ∧ e.2 ≠ 0 ∧ (st.sym si).payload = [] ∧ Known k t st e.1
  unit : ∀ i, Known k t st i → ∃ si c, c ≠ 0 ∧ si < st.syms.length ∧ st.deg si = 0 ∧
    (st.sym si).cover = [(i, c)]

variable {k s : Nat} {syms₀ : List ParsedSym} {st : Peel} {si sj t : Nat} {rest : List Nat}
  {c : UInt8} {x : List UInt8}

theorem getElem?_syms (h : si < st.syms.length) : st.syms[si]? = some (st.sym si) := by
  rw [sym, List.getD_eq_getElem _ _ h, List.getElem?_eq_getElem h]

theorem History.close {queue : List Nat} (h : History k syms₀ k st) (hsi : si < st.syms.length)
    (hlt : si < st.degree.length) (hdeg : st.deg si ≠ 0) (hcover : (st.sym si).cover = [(t, c)])
    (hc : c ≠ 0) (ht : t < k) : History k syms₀ t ((st.close si t).dequeue queue) := by
  refine ⟨?_, ?_, ?_⟩
  · rw [← h.span]
    unfold coverSpace
    congr 1
    change (st.syms.set si _).map _ = _
    have hsame : (st.syms.map fun sym => coverVec sym.cover)[si]? =
        some (coverVec (st.sym si).cover) := by
      rw [List.getElem?_map, getElem?_syms hsi]
      rfl
    obtain ⟨hbound, hget⟩ := List.getElem?_eq_some_iff.mp hsame
    rw [List.map_set, ← hget]
    exact List.set_getElem_self hbound
  · intro i hi
    rw [deg_dequeue, deg_close hlt] at hi
    rw [sym_dequeue, sym_close hsi]
    by_cases hij : i = si
    · rw [if_pos hij]
      exact Or.inr ⟨(t, c), hcover, hc, rfl, Or.inr ⟨rfl, ht⟩⟩
    · rw [if_neg hij] at hi ⊢
      refine (h.closed i hi).imp_right ?_
      rintro ⟨e, he, hne, hpay, hknown⟩
      exact ⟨e, he, hne, hpay, Or.inl (known_self.mp hknown)⟩
  · intro i hi
    rcases hi with hval | ⟨rfl, -⟩
    · obtain ⟨sk, d, hd, hsk, hzero, hunit⟩ := h.unit i (known_self.mpr hval)
      have hne : sk ≠ si := by
        rintro rfl
        exact hdeg hzero
      refine ⟨sk, d, hd, by simpa [dequeue, Peel.close] using hsk, ?_, ?_⟩
      · rw [deg_dequeue, deg_close hlt, if_neg hne]
        exact hzero
      · rw [sym_dequeue, sym_close hsi, if_neg hne]
        exact hunit
    · refine ⟨si, c, hc, by simpa [dequeue, Peel.close] using hsi, ?_, ?_⟩
      · rw [deg_dequeue, deg_close hlt, if_pos rfl]
      · rw [sym_dequeue, sym_close hsi, if_pos rfl]
        exact hcover

theorem History.substitute (h : History k syms₀ t st) (hinv : Inv k s t (sj :: rest) st)
    (ht : t < k) (hdeg : st.deg sj ≠ 0) (hc : (st.sym sj).cover.lookup t = some c) :
    History k syms₀ t (st.substitute sj t c x) := by
  have hlt : sj < st.degree.length := lt_length_of_getD_ne hdeg
  have hsj := hinv.lt_length hdeg
  have hopen := hinv.isOpen sj hdeg
  refine ⟨?_, ?_, ?_⟩
  · -- the used-up equation of the source is another row
    obtain ⟨sk, d, hd, hsk, hzero, hunit⟩ := h.unit t (Or.inr ⟨rfl, ht⟩)
    have hne : sk ≠ sj := by
      rintro rfl
      exact hdeg hzero
    have hinvd : (⟨d⟩ : Gf256) ≠ 0 := fun habs => hd (congrArg Gf256.byte habs)
    rw [← h.span]
    unfold coverSpace
    change rowSpace ((st.syms.set sj _).map _) = _
    rw [List.map_set]
    apply rowSpace_set (coverVec (st.sym sk).cover) _ (a := (⟨c⟩ : Gf256) * (⟨d⟩ : Gf256)⁻¹) hne
    · rw [List.getElem?_map, getElem?_syms hsk]
      rfl
    · rw [List.getElem?_map, getElem?_syms hsj, Option.map_some,
        coverVec_filter hopen.formed.nodup hc, hunit, coverVec_cons, coverVec_nil, add_zero,
        single_eq_smul t d, smul_smul, mul_assoc, inv_mul_cancel₀ hinvd, mul_one]
  · intro i hi
    rw [deg_substitute hlt] at hi
    rw [sym_substitute hsj]
    by_cases hij : i = sj
    · left
      have hlen := length_filter_of_lookup hopen.formed.nodup hc
      have hdegree := hopen.degree
      rw [if_pos hij] at hi ⊢
      apply List.eq_nil_of_length_eq_zero
      simp only
      omega
    · rw [if_neg hij] at hi ⊢
      exact h.closed i hi
  · intro i hi
    obtain ⟨sk, d, hd, hsk, hzero, hunit⟩ := h.unit i hi
    have hne : sk ≠ sj := by
      rintro rfl
      exact hdeg hzero
    refine ⟨sk, d, hd, by simpa [Peel.substitute] using hsk, ?_, ?_⟩
    · rw [deg_substitute hlt, if_neg hne]
      exact hzero
    · rw [sym_substitute hsj, if_neg hne]
      exact hunit

theorem known_put (ht : t < st.revealed.length) (htk : t < k) (i : Nat) :
    Known k k (st.put t x) i ↔ Known k t st i := by
  rw [known_self, value_put ht, Known]
  split_ifs with hi
  · simp [hi, htk]
  · simp [hi]

theorem History.put (h : History k syms₀ t st) (ht : t < st.revealed.length) (htk : t < k)
    (x : List UInt8) : History k syms₀ k (st.put t x) := by
  have hknown := fun i => known_put (x := x) ht htk i
  refine ⟨h.span, ?_, ?_⟩
  · intro i hi
    refine (h.closed i hi).imp_right ?_
    rintro ⟨e, he, hne, hpay, hek⟩
    exact ⟨e, he, hne, hpay, (hknown e.1).mpr hek⟩
  · exact fun i hi => h.unit i ((hknown i).mp hi)

theorem History.pop {queue : List Nat} (h : History k syms₀ k st) (hinv : Inv k s k [] st)
    (hq : st.queue = si :: queue) : History k syms₀ k (st.pop si queue) := by
  obtain ⟨-, heq⟩ | ⟨hdeg, t, c, hcover, ht, hc, -, heq⟩ := hinv.pop_cases hq
  · rw [heq]
    exact ⟨h.span, h.closed, h.unit⟩
  · obtain ⟨st', hinv', hhist, hst'⟩ := hinv.resolve hq hdeg
      (h.close (hinv.lt_length hdeg) (lt_length_of_getD_ne hdeg) hdeg hcover hc ht)
      fun st sj rest c hst _ _ hsj hlook hhist => hhist.substitute hst ht hsj hlook
    rw [heq, hst']
    exact hhist.put (hinv'.sources ▸ ht) ht _

theorem history_init (syms : List ParsedSym) : History k syms k (init syms k) := by
  refine ⟨rfl, ?_, ?_⟩
  · intro si hi
    left
    apply List.eq_nil_of_length_eq_zero
    rw [← deg_init, hi]
  · intro i hi
    rw [known_self] at hi
    simp [value, init] at hi

/-! ## What the loop leaves -/

/-- The state when the queue is empty. -/
structure Peeled (k s : Nat) (syms₀ : List ParsedSym) (st : Peel) : Prop where
  inv : Inv k s k [] st
  history : History k syms₀ k st
  queue : st.queue = []

theorem peeled_run {syms : List ParsedSym} (hformed : ∀ sym ∈ syms, sym.WellFormed k)
    (hsize : ∀ sym ∈ syms, sym.payload.length = s ∨ sym.cover.length ≤ 1) :
    Peeled k s syms (run (init syms k).work (init syms k)) := by
  obtain ⟨hinv, hhist⟩ := (inv_init hformed hsize).run_rule (history_init syms)
    (fun _ _ _ hst hq hhist => hhist.pop hst hq) (init syms k).work
  exact ⟨hinv, hhist, run_queue_eq_nil _ _ le_rfl⟩

/-- The sources that are still unknown. -/
def unknowns (st : Peel) (k : Nat) : List Nat :=
  (List.range k).filter fun i => (st.value i).isNone

theorem mem_unknowns {i : Nat} : i ∈ st.unknowns k ↔ i < k ∧ st.value i = none := by
  simp [unknowns]

theorem nodup_unknowns (st : Peel) (k : Nat) : (st.unknowns k).Nodup :=
  List.nodup_range.filter _

/-- An equation that is still open has its payload and is about unknown sources. -/
theorem Peeled.of_open (h : Peeled k s syms₀ st) (hdeg : st.deg si ≠ 0) :
    (st.sym si).payload.length = s ∧ (st.sym si).cover ≠ [] ∧
      ∀ e ∈ (st.sym si).cover, e.1 ∈ st.unknowns k := by
  have hopen := h.inv.isOpen si hdeg
  have hone : st.deg si ≠ 1 := by
    intro hone
    have hmem := h.inv.queued si hone
    rw [h.queue] at hmem
    cases hmem
  have hdegree := hopen.degree
  refine ⟨hopen.size.resolve_right (by omega), ?_, ?_⟩
  · intro hnil
    rw [hnil] at hdegree
    exact hdeg hdegree
  · exact fun e he => mem_unknowns.mpr ⟨hopen.formed.lt e he, hopen.unrevealed e he⟩

/-- An equation is about known sources only, or it is open. -/
theorem Peeled.sym_cases (h : Peeled k s syms₀ st) {sym : ParsedSym} (hsym : sym ∈ st.syms) :
    (∀ e ∈ sym.cover, st.value e.1 ≠ none) ∨ ∃ si, st.deg si ≠ 0 ∧ sym = st.sym si := by
  obtain ⟨si, hlt, rfl⟩ := List.getElem_of_mem hsym
  have hget : st.syms[si] = st.sym si := (List.getD_eq_getElem _ _ hlt).symm
  by_cases hdeg : st.deg si = 0
  · left
    rw [hget]
    rcases h.history.closed si hdeg with hnil | ⟨e, he, -, -, hknown⟩
    · simp [hnil]
    · rw [he]
      simpa using known_self.mp hknown
  · exact Or.inr ⟨si, hdeg, hget⟩

/-- The unit rows of the sources that are not unknown are at hand. -/
theorem Peeled.unit_mem (h : Peeled k s syms₀ st) {i : Nat} (hi : i < k)
    (hnot : i ∉ st.unknowns k) : (Pi.single i 1 : Nat → Gf256) ∈ coverSpace st.syms := by
  have hval : st.value i ≠ none := fun hnone => hnot (mem_unknowns.mpr ⟨hi, hnone⟩)
  obtain ⟨si, c, hc, hlt, -, hcover⟩ := h.history.unit i (known_self.mpr hval)
  apply single_mem_of_cover hc
  rw [← hcover]
  apply mem_rowSpace
  exact List.mem_map_of_mem (f := fun sym => coverVec sym.cover)
    (List.mem_of_getElem? (getElem?_syms hlt))

/-! ## The residual system -/

section Residual

variable {us : List Nat}

/-- The coefficients of an equation, in the columns of the unknowns. -/
def residualHead (us : List Nat) (entries : List (Nat × UInt8)) (row : List UInt8) : List UInt8 :=
  entries.foldl (fun row e => row.modify (us.idxOf e.1) (· ^^^ e.2)) row

@[simp] theorem length_residualHead (entries : List (Nat × UInt8)) (row : List UInt8) :
    (residualHead us entries row).length = row.length := by
  induction entries generalizing row with
  | nil => rfl
  | cons e rest ih =>
      rw [residualHead, List.foldl_cons]
      exact (ih _).trans (List.length_modify _ _ _)

theorem vec_modify (row : List UInt8) {i : Nat} (hi : i < row.length) (b : UInt8) (c : Nat) :
    vec (row.modify i (· ^^^ b)) c = vec row c + if c = i then ⟨b⟩ else 0 := by
  apply Gf256.ext
  simp only [vec_apply, List.getD_eq_getElem?_getD, List.getElem?_modify, Gf256.byte_add]
  by_cases hci : c = i
  · subst hci
    simp [hi]
  · simp [hci, Ne.symm hci]

/-- Column `c` of the coefficients is the coefficient of the unknown in that column. -/
theorem vec_residualHead (hnodup : us.Nodup) {entries : List (Nat × UInt8)}
    (hmem : ∀ e ∈ entries, e.1 ∈ us) {row : List UInt8} (hlen : row.length = us.length)
    (c : Fin us.length) :
    vec (residualHead us entries row) c = vec row c + coverVec entries (us.get c) := by
  induction entries generalizing row with
  | nil => simp [residualHead]
  | cons e rest ih =>
      have hidx : us.idxOf e.1 < row.length := by
        rw [hlen, List.idxOf_lt_length_iff]
        exact hmem e List.mem_cons_self
      have hcol : (c.val = us.idxOf e.1) ↔ us.get c = e.1 := by
        constructor
        · intro heq
          rw [List.get_eq_getElem, List.getElem_eq_iff, heq]
          exact List.getElem?_idxOf (hmem e List.mem_cons_self)
        · intro heq
          rw [← heq, List.get_eq_getElem, hnodup.idxOf_getElem]
      have hrest := ih (fun e' he' => hmem e' (List.mem_cons_of_mem _ he'))
        (by rw [List.length_modify]; exact hlen : (row.modify (us.idxOf e.1) (· ^^^ e.2)).length = _)
      have hstep : residualHead us (e :: rest) row =
          residualHead us rest (row.modify (us.idxOf e.1) (· ^^^ e.2)) := rfl
      rw [hstep, hrest, vec_modify row hidx, coverVec_cons, Pi.add_apply, Pi.single_apply, add_assoc]
      simp only [hcol]

/-- The coefficients in the columns of the unknowns, applied to values of the unknowns. -/
theorem sum_residualHead {entries : List (Nat × UInt8)} (hmem : ∀ e ∈ entries, e.1 ∈ us)
    {row : List UInt8} (hlen : row.length = us.length) (y : Nat → Gf256) :
    ∑ j ∈ Finset.range us.length, vec (residualHead us entries row) j * y j =
      ∑ j ∈ Finset.range us.length, vec row j * y j +
        (entries.map fun e => (⟨e.2⟩ : Gf256) * y (us.idxOf e.1)).sum := by
  induction entries generalizing row with
  | nil => simp [residualHead]
  | cons e rest ih =>
      have hidx : us.idxOf e.1 < us.length :=
        List.idxOf_lt_length_iff.mpr (hmem e List.mem_cons_self)
      have hrest := ih (fun e' he' => hmem e' (List.mem_cons_of_mem _ he'))
        (by rw [List.length_modify]; exact hlen : (row.modify (us.idxOf e.1) (· ^^^ e.2)).length = _)
      have hstep : residualHead us (e :: rest) row =
          residualHead us rest (row.modify (us.idxOf e.1) (· ^^^ e.2)) := rfl
      rw [hstep, hrest, List.map_cons, List.sum_cons, ← add_assoc]
      congr 1
      simp only [vec_modify row (hlen ▸ hidx), add_mul, Finset.sum_add_distrib, ite_mul, zero_mul,
        Finset.sum_ite_eq', Finset.mem_range, hidx, if_true]

/-- An equation about known sources gives no row. -/
theorem residualRow_known {sym : ParsedSym} (h : ∀ e ∈ sym.cover, st.value e.1 ≠ none) :
    st.residualRow us sym = none := by
  have hnil : sym.cover.filter (fun e => (st.value e.1).isNone) = [] := by
    apply List.filter_eq_nil_iff.mpr
    intro e he
    simpa [Option.isNone_iff_eq_none] using h e he
  simp [residualRow, hnil]

/-- An equation about unknown sources gives the row of its coefficients and its payload. -/
theorem residualRow_unknown {sym : ParsedSym} (hpay : sym.payload ≠ []) (hne : sym.cover ≠ [])
    (h : ∀ e ∈ sym.cover, st.value e.1 = none) :
    st.residualRow us sym =
      some (residualHead us sym.cover (List.replicate us.length 0) ++ sym.payload) := by
  have hall : sym.cover.filter (fun e => (st.value e.1).isNone) = sym.cover := by
    apply List.filter_eq_self.mpr
    intro e he
    simp [h e he]
  simp only [residualRow, hall]
  rw [if_neg (not_or.mpr ⟨hpay, hne⟩)]
  rfl

/-- The matrix of the residual system. -/
def residualMatrix (st : Peel) (us : List Nat) : List (List UInt8) :=
  st.syms.filterMap (st.residualRow us)

/-- The rows of the residual system are those of the open equations. -/
theorem Peeled.mem_residualMatrix (h : Peeled k s syms₀ st) (hs : 0 < s) {row : List UInt8} :
    row ∈ st.residualMatrix us ↔ ∃ si, st.deg si ≠ 0 ∧
      row = residualHead us (st.sym si).cover (List.replicate us.length 0) ++
        (st.sym si).payload := by
  have hrow : ∀ si, st.deg si ≠ 0 → st.residualRow us (st.sym si) =
      some (residualHead us (st.sym si).cover (List.replicate us.length 0) ++
        (st.sym si).payload) := by
    intro si hdeg
    obtain ⟨hsize, hne, hunknown⟩ := h.of_open hdeg
    apply residualRow_unknown _ hne fun e he => (mem_unknowns.mp (hunknown e he)).2
    intro hnil
    rw [hnil, List.length_nil] at hsize
    omega
  rw [residualMatrix, List.mem_filterMap]
  constructor
  · rintro ⟨sym, hsym, hsome⟩
    rcases h.sym_cases hsym with hknown | ⟨si, hdeg, rfl⟩
    · rw [residualRow_known hknown] at hsome
      cases hsome
    · rw [hrow si hdeg] at hsome
      exact ⟨si, hdeg, (Option.some.inj hsome).symm⟩
  · rintro ⟨si, hdeg, rfl⟩
    exact ⟨st.sym si, List.mem_of_getElem? (getElem?_syms (h.inv.lt_length hdeg)), hrow si hdeg⟩

theorem Peeled.length_residualMatrix (h : Peeled k s syms₀ st) (hs : 0 < s) :
    ∀ row ∈ st.residualMatrix us, row.length = us.length + s := by
  intro row hrow
  obtain ⟨si, hdeg, rfl⟩ := (h.mem_residualMatrix hs).mp hrow
  rw [List.length_append, length_residualHead, List.length_replicate, (h.of_open hdeg).1]

/-- On the columns of the unknowns, the residual system spans what the equations span. -/
theorem Peeled.map_residual (h : Peeled k s syms₀ st) (hs : 0 < s) :
    (rowSpace ((st.residualMatrix (st.unknowns k)).map vec)).map
        (LinearMap.funLeft Gf256 Gf256 (Fin.val : Fin (st.unknowns k).length → Nat)) =
      (coverSpace syms₀).map (LinearMap.funLeft Gf256 Gf256 (st.unknowns k).get) := by
  have hhead : ∀ sym : ParsedSym, (∀ e ∈ sym.cover, e.1 ∈ st.unknowns k) →
      vec (residualHead (st.unknowns k) sym.cover (List.replicate (st.unknowns k).length 0) ++
        sym.payload) ∘ Fin.val = coverVec sym.cover ∘ (st.unknowns k).get := by
    intro sym hmem
    ext1 c
    rw [Function.comp_apply, vec_append (k := (st.unknowns k).length) (by simp), if_pos c.isLt,
      vec_residualHead (nodup_unknowns st k) hmem (by simp), vec_replicate_zero, Pi.zero_apply,
      zero_add, Function.comp_apply]
  rw [← h.history.span, coverSpace, map_rowSpace, map_rowSpace, List.map_map, List.map_map]
  apply le_antisymm
  · rw [rowSpace_le]
    intro v hv
    obtain ⟨row, hrow, rfl⟩ := List.mem_map.mp hv
    obtain ⟨si, hdeg, rfl⟩ := (h.mem_residualMatrix hs).mp hrow
    apply mem_rowSpace
    refine List.mem_map.mpr ⟨st.sym si,
      List.mem_of_getElem? (getElem?_syms (h.inv.lt_length hdeg)), ?_⟩
    exact (hhead (st.sym si) (h.of_open hdeg).2.2).symm
  · rw [rowSpace_le]
    intro v hv
    obtain ⟨sym, hsym, rfl⟩ := List.mem_map.mp hv
    rcases h.sym_cases hsym with hknown | ⟨si, hdeg, rfl⟩
    · have hzero : coverVec sym.cover ∘ (st.unknowns k).get = 0 := by
        ext1 c
        apply coverVec_of_not_mem
        intro hin
        obtain ⟨e, he, heq⟩ := List.mem_map.mp hin
        have hnone := (mem_unknowns.mp (List.get_mem (st.unknowns k) c)).2
        exact hknown e he (heq ▸ hnone)
      rw [Function.comp_apply, hzero]
      exact Submodule.zero_mem _
    · apply mem_rowSpace
      refine List.mem_map.mpr ⟨_, (h.mem_residualMatrix hs).mpr ⟨si, hdeg, rfl⟩, ?_⟩
      exact hhead (st.sym si) (h.of_open hdeg).2.2

/-- The equations span everything exactly when they do on the unknowns. -/
theorem Peeled.spans_iff (h : Peeled k s syms₀ st) :
    Spans k (syms₀.map fun sym => coverVec sym.cover) ↔
      (coverSpace syms₀).map (LinearMap.funLeft Gf256 Gf256 (st.unknowns k).get) = ⊤ := by
  rw [← h.history.span]
  unfold Spans
  rw [show rowSpace (syms₀.map fun sym => coverVec sym.cover) = coverSpace st.syms from
    h.history.span.symm]
  exact spans_iff_of_units (fun c hc => (mem_unknowns.mp hc).1) (nodup_unknowns st k)
    fun i hi hnot => h.unit_mem hi hnot

/-- The rank that the unknowns have in the equations. -/
noncomputable def residualRank (syms : List ParsedSym) (us : List Nat) : Nat :=
  Module.finrank Gf256 ((coverSpace syms).map (LinearMap.funLeft Gf256 Gf256 us.get))

theorem residualRank_le (syms : List ParsedSym) (us : List Nat) :
    residualRank syms us ≤ us.length := by
  have hle := Submodule.finrank_le
    ((coverSpace syms).map (LinearMap.funLeft Gf256 Gf256 us.get))
  rwa [Module.finrank_fin_fun] at hle

theorem Peeled.spans_iff_rank (h : Peeled k s syms₀ st) :
    Spans k (syms₀.map fun sym => coverVec sym.cover) ↔
      residualRank syms₀ (st.unknowns k) = (st.unknowns k).length := by
  rw [h.spans_iff, residualRank]
  constructor
  · intro htop
    rw [htop, finrank_top, Module.finrank_fin_fun]
  · intro hfull
    apply Submodule.eq_top_of_finrank_eq
    rw [hfull, Module.finrank_fin_fun]

/-- The elimination of the residual system finds the rank of the unknowns. -/
theorem Peeled.eliminated (h : Peeled k s syms₀ st) (hs : 0 < s) :
    ∃ pivots, Eliminated (st.residualMatrix (st.unknowns k)) (st.unknowns k).length
        (residualRank syms₀ (st.unknowns k))
        (gfGaussEliminate (st.residualMatrix (st.unknowns k)) ((st.unknowns k).length + s)
          (st.unknowns k).length).2 pivots ∧
      (gfGaussEliminate (st.residualMatrix (st.unknowns k)) ((st.unknowns k).length + s)
        (st.unknowns k).length).1 = residualRank syms₀ (st.unknowns k) := by
  obtain ⟨pivots, helim⟩ := gfGaussEliminate_spec (h.length_residualMatrix hs)
    (Nat.le_add_right (st.unknowns k).length s)
  have hrank : (gfGaussEliminate (st.residualMatrix (st.unknowns k)) ((st.unknowns k).length + s)
      (st.unknowns k).length).1 = residualRank syms₀ (st.unknowns k) := by
    rw [residualRank, ← h.map_residual hs, ← helim.rowSpace, helim.echelon.finrank_eq, helim.rank]
  exact ⟨pivots, hrank ▸ helim, hrank⟩

/-! ## Writing the solution back -/

/-- What a row of the solved system says about one source. -/
def solved (us : List Nat) (row : List UInt8) : Option (Nat × Option (List UInt8)) :=
  ((List.range us.length).find? fun c => row.getD c 0 ≠ 0).map fun piv =>
    (us.getD piv 0, some (row.drop us.length))

theorem foldl_publish (us : List Nat) (mat : List (List UInt8))
    (revealed : List (Option (List UInt8))) :
    mat.foldl (fun revealed row => publish revealed us row) revealed =
      (mat.filterMap (solved us)).foldl (fun out e => out.set e.1 e.2) revealed := by
  induction mat generalizing revealed with
  | nil => rfl
  | cons row rest ih =>
      rw [List.foldl_cons, ih, List.filterMap_cons]
      unfold publish solved
      cases (List.range us.length).find? fun c => row.getD c 0 ≠ 0 with
      | none => rfl
      | some piv => rfl

/-- With a pivot in every column, the rows with a pivot start with it and the others are empty. -/
theorem find_pivot {mat₀ mat : List (List UInt8)} {r rank : Nat} {pivots : List Nat}
    (h : Eliminated mat₀ r rank mat pivots) (hfull : pivots.length = r) {j : Nat}
    {row : List UInt8} (hrow : mat[j]? = some row) :
    ((List.range r).find? fun c => row.getD c 0 ≠ 0) = pivots[j]? := by
  have hvec : (mat.map vec)[j]? = some (vec row) := by rw [List.getElem?_map, hrow]; rfl
  have hbyte : ∀ c, row.getD c 0 ≠ 0 ↔ vec row c ≠ 0 := by
    intro c
    rw [not_iff_not]
    exact ⟨fun hzero => Gf256.ext hzero, congrArg Gf256.byte⟩
  cases hp : pivots[j]? with
  | none =>
      have hj := List.getElem?_eq_none_iff.mp hp
      apply List.find?_eq_none.mpr
      intro c hc
      rw [decide_eq_true_eq, hbyte, not_not]
      exact h.echelon.rest j (vec row) hj hvec c (List.mem_range.mp hc)
  | some p =>
      have hbound : ∀ q ∈ pivots, q < pivots.length := fun q hq => hfull ▸ h.echelon.lt_done q hq
      have hunit : ∀ c < r, vec row c = if c = p then 1 else 0 := fun c hc =>
        h.echelon.unit_row hbound hp hvec (hfull ▸ hc)
      have hpr : p < r := h.echelon.lt_done p (List.mem_of_getElem? hp)
      rw [List.find?_range_eq_some]
      refine ⟨?_, List.mem_range.mpr hpr, ?_⟩
      · rw [decide_eq_true_eq, hbyte, hunit p hpr, if_pos rfl]
        exact one_ne_zero
      · intro c hc
        rw [Bool.not_eq_true', decide_eq_false_iff_not, hbyte, not_not, hunit c (hc.trans hpr),
          if_neg (by omega)]

/-- What the rows of the solved system say. -/
def solvedEntries (st : Peel) (k s : Nat) : List (Nat × Option (List UInt8)) :=
  (gfGaussEliminate (st.residualMatrix (st.unknowns k)) ((st.unknowns k).length + s)
    (st.unknowns k).length).2.filterMap (solved (st.unknowns k))

/-- The sources after the residual system has been solved. -/
def solution (st : Peel) (k s : Nat) : List (Option (List UInt8)) :=
  (st.solvedEntries k s).foldl (fun out e => out.set e.1 e.2) st.revealed

/-- Without unknowns there is nothing to solve. -/
theorem solution_of_nil (h : st.unknowns k = []) : st.solution k s = st.revealed := by
  have hnone : ∀ row, solved [] row = none := fun _ => rfl
  rw [solution, solvedEntries, h, List.filterMap_eq_nil_iff.mpr fun row _ => hnone row]
  rfl

/-- The residual system fails when the unknowns do not have full rank. -/
theorem Peeled.residual_eq (h : Peeled k s syms₀ st) (hs : 0 < s) :
    st.residual k s (st.unknowns k) =
      if residualRank syms₀ (st.unknowns k) < (st.unknowns k).length then
        .error (.underdetermined (residualRank syms₀ (st.unknowns k)) (st.unknowns k).length)
      else if (st.solution k s).any Option.isNone then
        .error (.underdetermined (residualRank syms₀ (st.unknowns k)) k)
      else .ok ((st.solution k s).map fun o => o.getD []) := by
  obtain ⟨-, -, hrank⟩ := h.eliminated hs
  unfold residual solution solvedEntries
  simp only [foldl_publish]
  rw [← hrank]
  rfl

section FullRank

variable (h : Peeled k s syms₀ st) (hs : 0 < s)
  (hfull : residualRank syms₀ (st.unknowns k) = (st.unknowns k).length)

include h hs hfull

/-- A solved row stands for one unknown, and is a combination of the rows of the system. -/
theorem Peeled.of_mem_solvedEntries {e : Nat × Option (List UInt8)}
    (he : e ∈ st.solvedEntries k s) :
    ∃ (p : Nat) (hp : p < (st.unknowns k).length) (row : List UInt8),
      e = ((st.unknowns k)[p], some (row.drop (st.unknowns k).length)) ∧
      row.length = (st.unknowns k).length + s ∧
      vec row ∈ rowSpace ((st.residualMatrix (st.unknowns k)).map vec) ∧
      ∀ c < (st.unknowns k).length, vec row c = if c = p then 1 else 0 := by
  obtain ⟨pivots, helim, -⟩ := h.eliminated hs
  have hcount : pivots.length = (st.unknowns k).length := helim.rank.symm.trans hfull
  have hbound : ∀ q ∈ pivots, q < pivots.length := fun q hq => hcount ▸ helim.echelon.lt_done q hq
  obtain ⟨row, hmem, hsome⟩ := List.mem_filterMap.mp he
  obtain ⟨j, hj⟩ := List.getElem?_of_mem hmem
  rw [solved, find_pivot helim hcount hj] at hsome
  obtain ⟨p, hp, rfl⟩ := Option.map_eq_some_iff.mp hsome
  have hlt : p < (st.unknowns k).length := helim.echelon.lt_done p (List.mem_of_getElem? hp)
  refine ⟨p, hlt, row, by rw [List.getD_eq_getElem _ _ hlt],
    helim.rows _ (h.length_residualMatrix hs) row hmem, ?_, ?_⟩
  · rw [← helim.rowSpace]
    exact mem_rowSpace (List.mem_map_of_mem hmem)
  · intro c hc
    apply helim.echelon.unit_row hbound hp _ (hcount ▸ hc)
    rw [List.getElem?_map, hj]
    rfl

/-- Every unknown has a solved row. -/
theorem Peeled.mem_map_solvedEntries {u : Nat} (hu : u ∈ st.unknowns k) :
    u ∈ (st.solvedEntries k s).map Prod.fst := by
  obtain ⟨pivots, helim, -⟩ := h.eliminated hs
  have hcount : pivots.length = (st.unknowns k).length := helim.rank.symm.trans hfull
  have hbound : ∀ q ∈ pivots, q < pivots.length := fun q hq => hcount ▸ helim.echelon.lt_done q hq
  obtain ⟨p, hp, rfl⟩ := List.getElem_of_mem hu
  obtain ⟨j, hj⟩ := List.getElem?_of_mem (helim.echelon.mem_of_lt hbound (hcount ▸ hp))
  have hjlt := (List.getElem?_eq_some_iff.mp hj).1.trans_le helim.echelon.length_le
  rw [List.length_map] at hjlt
  obtain ⟨row, hrow⟩ : ∃ row, (gfGaussEliminate (st.residualMatrix (st.unknowns k))
      ((st.unknowns k).length + s) (st.unknowns k).length).2[j]? = some row :=
    ⟨_, List.getElem?_eq_getElem hjlt⟩
  have hentry : solved (st.unknowns k) row =
      some ((st.unknowns k)[p], some (row.drop (st.unknowns k).length)) := by
    rw [solved, find_pivot helim hcount hrow, hj, Option.map_some, List.getD_eq_getElem _ _ hp]
  exact List.mem_map.mpr
    ⟨_, List.mem_filterMap.mpr ⟨row, List.mem_of_getElem? hrow, hentry⟩, rfl⟩

/-- No source stays unknown. -/
theorem Peeled.solution_isSome {i : Nat} (hi : i < k) :
    ∃ x, (st.solution k s)[i]? = some (some x) := by
  have hlt : i < st.revealed.length := by rw [h.inv.sources]; exact hi
  unfold solution
  rcases getElem?_foldl_set (st.solvedEntries k s) st.revealed hlt with
    ⟨hnot, hsame⟩ | ⟨e, he, -, hset⟩
  · obtain ⟨x, hx⟩ := Option.ne_none_iff_exists'.mp fun hnone : st.value i = none =>
      hnot (h.mem_map_solvedEntries hs hfull (mem_unknowns.mpr ⟨hi, hnone⟩))
    rw [value, List.getD_eq_getElem _ _ hlt] at hx
    exact ⟨x, by rw [hsame, List.getElem?_eq_getElem hlt, hx]⟩
  · obtain ⟨p, hp, row, rfl, -⟩ := h.of_mem_solvedEntries hs hfull he
    exact ⟨_, hset⟩

/-- What peeling has revealed stays in the solution. -/
theorem Peeled.solution_of_value {i : Nat} {y : List UInt8}
    (hval : st.value i = some y) : (st.solution k s)[i]? = some (some y) := by
  have hlt : i < st.revealed.length := by
    by_contra hge
    rw [value, List.getD_eq_default _ _ (by omega)] at hval
    cases hval
  unfold solution
  rcases getElem?_foldl_set (st.solvedEntries k s) st.revealed hlt with
    ⟨-, hsame⟩ | ⟨e, he, rfl, -⟩
  · rw [value, List.getD_eq_getElem _ _ hlt] at hval
    rw [hsame, List.getElem?_eq_getElem hlt, hval]
  · obtain ⟨p, hp, row, rfl, -⟩ := h.of_mem_solvedEntries hs hfull he
    have hnone := (mem_unknowns.mp (List.getElem_mem hp)).2
    rw [hnone] at hval
    cases hval

theorem Peeled.solution_any_isNone : (st.solution k s).any Option.isNone = false := by
  rw [List.any_eq_false]
  intro o ho
  obtain ⟨i, hi⟩ := List.getElem?_of_mem ho
  have hik := (List.getElem?_eq_some_iff.mp hi).1
  rw [solution, length_foldl_set, h.inv.sources] at hik
  obtain ⟨x, hx⟩ := h.solution_isSome hs hfull hik
  obtain rfl := Option.some.inj (hi.symm.trans hx)
  simp

end FullRank

/-! ## The solution of equations that hold -/

section Values

variable {X : Nat → List UInt8}

/-- The value of an equation that holds, source by source. -/
theorem vec_payload {sym : ParsedSym} (h : sym.Holds X k s) (p : Nat) :
    vec sym.payload p = (sym.cover.map fun e => (⟨e.2⟩ : Gf256) * vec (X e.1) p).sum := by
  have hcomb : ∀ cover : List (Nat × UInt8), (⟨comb X cover p⟩ : Gf256) =
      (cover.map fun e => (⟨e.2⟩ : Gf256) * vec (X e.1) p).sum := by
    intro cover
    induction cover with
    | nil => rfl
    | cons e rest ih =>
        rw [List.map_cons, List.sum_cons, ← ih]
        rfl
  rw [vec_apply, h.value, hcomb]

/-- The rows of the residual system are true equations about the unknowns. -/
theorem Peeled.residual_equations (h : Peeled k s syms₀ st) (hs : 0 < s)
    (hcorrect : Correct X k s st) :
    rowSpace ((st.residualMatrix (st.unknowns k)).map vec) ≤
      equations (st.unknowns k).length ((st.unknowns k).map X) := by
  rw [rowSpace_le]
  intro v hv
  obtain ⟨row, hrow, rfl⟩ := List.mem_map.mp hv
  obtain ⟨si, hdeg, rfl⟩ := (h.mem_residualMatrix hs).mp hrow
  have hmem := (h.of_open hdeg).2.2
  apply append_mem_equations (by simp)
  ext1 p
  rw [Finset.sum_apply]
  simp only [Pi.smul_apply, smul_eq_mul]
  rw [sum_residualHead hmem (by simp), vec_replicate_zero, vec_payload (hcorrect.holds si hdeg)]
  simp only [Pi.zero_apply, zero_mul, Finset.sum_const_zero, zero_add]
  congr 1
  apply List.map_congr_left
  intro e he
  have hidx := List.idxOf_lt_length_iff.mpr (hmem e he)
  rw [List.getD_eq_getElem _ _ (by simpa using hidx), List.getElem_map, List.getElem_idxOf hidx]

/-- With full rank the solution is the sources. -/
theorem Peeled.solution_eq (h : Peeled k s syms₀ st) (hs : 0 < s)
    (hfull : residualRank syms₀ (st.unknowns k) = (st.unknowns k).length)
    (hcorrect : Correct X k s st) (hX : ∀ i < k, (X i).length = s) :
    st.solution k s = (List.range k).map fun i => some (X i) := by
  apply foldl_set_eq
  · rw [h.inv.sources, List.length_map, List.length_range]
  · intro e he
    obtain ⟨p, hp, row, rfl, hlen, hspan, hunit⟩ := h.of_mem_solvedEntries hs hfull he
    have huk := (mem_unknowns.mp (List.getElem_mem hp)).1
    have hget : ((st.unknowns k).map X).getD p [] = X (st.unknowns k)[p] := by
      rw [List.getD_eq_getElem _ _ (by simpa using hp), List.getElem_map]
    have hdrop : row.drop (st.unknowns k).length = X (st.unknowns k)[p] := by
      rw [← hget]
      apply drop_of_unit _ hp hunit (h.residual_equations hs hcorrect hspan)
      rw [hget, hX _ huk, hlen]
    rw [hdrop, List.getElem?_map, List.getElem?_range huk]
    rfl
  · intro i hi
    rw [List.length_map, List.length_range] at hi
    by_cases hu : i ∈ st.unknowns k
    · exact Or.inl (h.mem_map_solvedEntries hs hfull hu)
    · right
      have hlt : i < st.revealed.length := by rw [h.inv.sources]; exact hi
      obtain ⟨x, hx⟩ := Option.ne_none_iff_exists'.mp
        fun hnone => hu (mem_unknowns.mpr ⟨hi, hnone⟩)
      have hval := hcorrect.value i x hx
      rw [value, List.getD_eq_getElem _ _ hlt] at hx
      rw [List.getElem?_eq_getElem hlt, hx, hval, List.getElem?_map, List.getElem?_range hi]
      rfl

end Values

end Residual

end Peel

/-! ## The decoder as a solver -/

section Solver

variable {k s : Nat} {syms : List ParsedSym}

/-- The state in which peeling stops. -/
def peel (k : Nat) (syms : List ParsedSym) : Peel :=
  (Peel.init syms k).run (Peel.init syms k).work

variable (hformed : ∀ sym ∈ syms, sym.WellFormed k)
  (hsize : ∀ sym ∈ syms, sym.payload.length = s ∨ sym.cover.length ≤ 1) (hs : 0 < s)

include hformed hsize hs

omit hformed hsize hs in
theorem peelSymbols_snd (syms : List ParsedSym) (k s : Nat) :
    (peelSymbols syms k s).2 = (peel k syms).syms := by
  unfold peelSymbols
  simp only
  split_ifs
  all_goals rfl

/-- Covers that span everything give a solution, right or wrong as the payloads are. -/
theorem peelSymbols_of_spans (hspan : Spans k (syms.map fun sym => coverVec sym.cover)) :
    (peelSymbols syms k s).1 = .ok (((peel k syms).solution k s).map fun o => o.getD []) := by
  have hpeeled : Peel.Peeled k s syms (peel k syms) := Peel.peeled_run hformed hsize
  have hfull := hpeeled.spans_iff_rank.mp hspan
  unfold peelSymbols
  simp only
  split_ifs with hnil
  · rw [Peel.solution_of_nil (show (peel k syms).unknowns k = [] from hnil)]
    rfl
  · change (peel k syms).residual k s ((peel k syms).unknowns k) = _
    rw [hpeeled.residual_eq hs, if_neg (by omega),
      if_neg (by rw [hpeeled.solution_any_isNone hs hfull]; decide)]

/-- Covers that do not span everything are reported with the rank of the sources that peeling
does not reveal. -/
theorem peelSymbols_of_not_spans (hspan : ¬ Spans k (syms.map fun sym => coverVec sym.cover)) :
    (peelSymbols syms k s).1 = .error (.underdetermined
      (Peel.residualRank syms ((peel k syms).unknowns k)) ((peel k syms).unknowns k).length) := by
  have hpeeled : Peel.Peeled k s syms (peel k syms) := Peel.peeled_run hformed hsize
  have hlt : Peel.residualRank syms ((peel k syms).unknowns k) <
      ((peel k syms).unknowns k).length :=
    lt_of_le_of_ne (Peel.residualRank_le _ _) fun heq => hspan (hpeeled.spans_iff_rank.mpr heq)
  unfold peelSymbols
  simp only
  split_ifs with hnil
  · rw [show (peel k syms).unknowns k = [] from hnil] at hlt
    exact absurd hlt (Nat.not_lt_zero _)
  · change (peel k syms).residual k s ((peel k syms).unknowns k) = _
    rw [hpeeled.residual_eq hs, if_pos hlt]

end Solver

section Exact

variable {X : Nat → List UInt8} {k s : Nat} {syms : List ParsedSym}

/-- On equations that hold the solution is the sources. -/
theorem peelSymbols_of_holds (hs : 0 < s) (hX : ∀ i < k, (X i).length = s)
    (hsyms : ∀ sym ∈ syms, sym.Holds X k s)
    (hspan : Spans k (syms.map fun sym => coverVec sym.cover)) :
    (peelSymbols syms k s).1 = .ok ((List.range k).map X) := by
  have hformed := fun sym hsym => (hsyms sym hsym).formed
  have hsize : ∀ sym ∈ syms, sym.payload.length = s ∨ sym.cover.length ≤ 1 :=
    fun sym hsym => Or.inl (hsyms sym hsym).size
  have hpeeled := Peel.peeled_run hformed hsize
  obtain ⟨-, hcorrect⟩ := (Peel.inv_init hformed hsize).run_rule (Peel.correct_init hsyms)
    (fun _ _ _ hst hq hcorrect => hcorrect.pop hX hst hq) (Peel.init syms k).work
  have hfull := hpeeled.spans_iff_rank.mp hspan
  rw [peelSymbols_of_spans hformed hsize hs hspan, peel,
    hpeeled.solution_eq hs hfull hcorrect hX, List.map_map]
  rfl

/-- With an equation of its own for every source, the decoder returns the sources. -/
theorem peelSymbols_of_own (hs : 0 < s) (hsyms : ∀ sym ∈ syms, sym.Holds X k s)
    (hown : ∀ i < k, ∃ sym ∈ syms, sym.cover.map Prod.fst = [i])
    (hX : ∀ i < k, (X i).length = s) :
    (peelSymbols syms k s).1 = .ok ((List.range k).map X) := by
  apply peelSymbols_of_holds hs hX hsyms
  apply spans_of_units
  intro i hi
  obtain ⟨sym, hsym, hkeys⟩ := hown i hi
  obtain ⟨⟨j, c⟩, hcover, rfl⟩ := List.map_eq_singleton_iff.mp hkeys
  have hc := (hsyms sym hsym).coeff (j, c) (by simp [hcover])
  have hrow := mem_rowSpace (List.mem_map_of_mem (f := fun sym => coverVec sym.cover) hsym)
  rw [hcover] at hrow
  exact single_mem_of_cover hc hrow

theorem length_getD_of_forall {x : List (List UInt8)} (hx : x.length = k)
    (hsize : ∀ y ∈ x, y.length = s) {i : Nat} (hi : i < k) : (x.getD i []).length = s := by
  rw [List.getD_eq_getElem _ _ (hx ▸ hi)]
  exact hsize _ (List.getElem_mem _)

theorem range_map_getD {x : List (List UInt8)} (hx : x.length = k) :
    ((List.range k).map fun i => x.getD i []) = x := by
  apply List.ext_getElem
  · simp [hx]
  · intro i hi hi'
    simp [hi']

/-- The peeling decoder is an exact solver: on equations that hold of the sources it returns the
sources when the covers span everything, and reports an underdetermined system otherwise. -/
theorem peeling_is_exact {x : List (List UInt8)} (hs : 0 < s) (hx : x.length = k)
    (hsize : ∀ y ∈ x, y.length = s)
    (hsyms : ∀ sym ∈ syms, sym.Holds (fun i => x.getD i []) k s) :
    (Spans k (syms.map fun sym => coverVec sym.cover) → (peelSymbols syms k s).1 = .ok x) ∧
      (¬ Spans k (syms.map fun sym => coverVec sym.cover) →
        ∃ got need, (peelSymbols syms k s).1 = .error (.underdetermined got need)) := by
  constructor
  · intro hspan
    rw [peelSymbols_of_holds hs (fun _ hi => length_getD_of_forall hx hsize hi) hsyms hspan, range_map_getD hx]
  · intro hspan
    exact ⟨_, _, peelSymbols_of_not_spans (fun sym hsym => (hsyms sym hsym).formed)
      (fun sym hsym => Or.inl (hsyms sym hsym).size) hs hspan⟩

/-- Two equations in two unknowns each, which peeling alone cannot solve. -/
theorem peeling_is_exact_dense :
    (peelSymbols [⟨[(0, 1), (1, 1)], [14]⟩, ⟨[(1, 2), (0, 1)], [21]⟩] 2 1).1 =
      .ok [[7], [9]] := by
  have hholds : ∀ sym ∈ ([⟨[(0, 1), (1, 1)], [14]⟩, ⟨[(1, 2), (0, 1)], [21]⟩] : List ParsedSym),
      sym.Holds (fun i => ([[7], [9]] : List (List UInt8)).getD i []) 2 1 := by
    intro sym hsym
    rw [List.mem_cons, List.mem_singleton] at hsym
    obtain rfl | rfl := hsym
    all_goals
      refine ⟨by decide, by decide, by decide, by decide, ?_⟩
      intro p
      cases p with
      | zero => decide +kernel
      | succ p => simp [comb, gfMul_zero]
  apply (peeling_is_exact (k := 2) Nat.one_pos rfl (by decide) hholds).1
  set mat := [⟨[(0, 1), (1, 1)], [14]⟩, ⟨[(1, 2), (0, 1)], [21]⟩].map
    fun sym : ParsedSym => coverVec sym.cover with hmat
  have hfirst : coverVec [(0, 1), (1, 1)] ∈ rowSpace mat := mem_rowSpace (by simp [hmat])
  have hsecond : coverVec [(1, 2), (0, 1)] ∈ rowSpace mat := mem_rowSpace (by simp [hmat])
  -- the sum of the rows has only the second unknown
  have hone : (Pi.single 1 1 : Nat → Gf256) ∈ rowSpace mat := by
    apply single_mem_of_cover (c := 3) (by decide)
    have hsum : coverVec [(1, 3)] = coverVec [(0, 1), (1, 1)] + coverVec [(1, 2), (0, 1)] := by
      simp only [coverVec_cons, coverVec_nil, add_zero]
      calc (Pi.single 1 ⟨3⟩ : Nat → Gf256)
          = Pi.single 0 (⟨1⟩ + ⟨1⟩) + Pi.single 1 (⟨1⟩ + ⟨2⟩) := by
            rw [Gf256.add_self, Pi.single_zero, zero_add]
            rfl
        _ = Pi.single 0 ⟨1⟩ + Pi.single 1 ⟨1⟩ + (Pi.single 1 ⟨2⟩ + Pi.single 0 ⟨1⟩) := by
            rw [Pi.single_add, Pi.single_add]
            abel
    rw [hsum]
    exact Submodule.add_mem _ hfirst hsecond
  have hzero : (Pi.single 0 1 : Nat → Gf256) ∈ rowSpace mat := by
    have hleft := Submodule.sub_mem _ hfirst hone
    rwa [coverVec_cons, coverVec_cons, coverVec_nil, add_zero,
      show (⟨1⟩ : Gf256) = 1 from rfl, add_sub_cancel_right] at hleft
  apply spans_of_units
  intro i hi
  obtain rfl | rfl : i = 0 ∨ i = 1 := by omega
  · exact hzero
  · exact hone

end Exact

end Dlr.Coding
