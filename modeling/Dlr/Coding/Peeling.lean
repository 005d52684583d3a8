import Dlr.Coding.Fountain

/-!
# The peeling loop

The loop drains its queue within the bound it is started with. An equation in the queue has one
unknown left, and revealing that unknown takes it out of every other equation. When the equations
hold of the sources, every value that is revealed is the source.

## Implementation notes

While a revealed value is being substituted, the equations that still cover its source are among
the dependents left. `Inv` carries that source and the dependents left; outside a substitution it
is used at the source `k`, which no equation covers. `Inv` says nothing about the values: a decoder
that is asked again after a failed attempt has lost the payloads of the equations it has used.
-/

namespace Dlr.Coding

theorem getD_set {α : Type*} (l : List α) (i j : Nat) (v d : α) :
    (l.set i v).getD j d = if i = j ∧ j < l.length then v else l.getD j d := by
  simp only [List.getD_eq_getElem?_getD, List.getElem?_set]
  by_cases hij : i = j
  · subst hij
    by_cases hi : i < l.length <;> simp [hi]
  · simp [hij]

theorem sum_set (l : List Nat) (i v : Nat) (h : i < l.length) :
    (l.set i v).sum + l.getD i 0 = l.sum + v := by
  induction l generalizing i with
  | nil => simp at h
  | cons x rest ih =>
      cases i with
      | zero => simp; omega
      | succ i =>
          have hrest := ih i (by simpa using h)
          simp only [List.set_cons_succ, List.sum_cons, List.getD_cons_succ]
          omega

theorem lt_length_of_getD_ne {l : List Nat} {i : Nat} (h : l.getD i 0 ≠ 0) : i < l.length := by
  by_contra hge
  exact h (List.getD_eq_default _ _ (by omega))

namespace Peel

/-! ## Termination -/

theorem work_substitute_le (st : Peel) (sj target : Nat) (c : UInt8) (x : List UInt8)
    (h : st.deg sj ≠ 0) : (st.substitute sj target c x).work ≤ st.work := by
  have hsum : (st.degree.set sj (st.deg sj - 1)).sum + st.deg sj =
      st.degree.sum + (st.deg sj - 1) := sum_set _ _ _ (lt_length_of_getD_ne h)
  have hqueue : (if st.deg sj - 1 = 1 then st.queue ++ [sj] else st.queue).length ≤
      st.queue.length + 1 := by
    split <;> simp
  simp only [substitute, work]
  omega

theorem work_ripple_le (si target : Nat) (x : List UInt8) (st : Peel) (sj : Nat) :
    (ripple si target x st sj).work ≤ st.work := by
  unfold ripple
  split
  · exact le_rfl
  · rename_i hskip
    split
    · exact le_rfl
    · exact work_substitute_le st sj target _ x fun h0 => hskip (Or.inr h0)

theorem work_foldl_ripple_le (si target : Nat) (x : List UInt8) (rest : List Nat) (st : Peel) :
    (rest.foldl (ripple si target x) st).work ≤ st.work := by
  induction rest generalizing st with
  | nil => exact le_rfl
  | cons sj rest ih => exact (ih _).trans (work_ripple_le si target x st sj)

theorem work_reveal_lt (st : Peel) (si target : Nat) (coeff : UInt8) (h : st.deg si ≠ 0) :
    (st.reveal si target coeff).work < st.work := by
  have hsum := sum_set st.degree si 0 (lt_length_of_getD_ne h)
  refine lt_of_le_of_lt (work_foldl_ripple_le si target _ _ _) ?_
  simp only [work, deg] at *
  omega

/-- Every pop lowers the remaining work. -/
theorem work_pop_lt (st : Peel) {si : Nat} {queue : List Nat} (hq : st.queue = si :: queue) :
    (st.pop si queue).work < st.work := by
  have hbase : ({ st with queue } : Peel).work < st.work := by
    simp only [work, hq, List.length_cons]
    omega
  unfold pop
  simp only
  split_ifs with hdeg
  · exact hbase
  · split
    · have hsum := sum_set st.degree si 0 (lt_length_of_getD_ne hdeg)
      simp only [work, hq, List.length_cons] at hsum ⊢
      omega
    · exact (work_reveal_lt _ _ _ _ hdeg).trans hbase

/-- The bound the loop is started with is enough to empty the queue. -/
theorem run_queue_eq_nil (fuel : Nat) (st : Peel) (h : st.work ≤ fuel) :
    (run fuel st).queue = [] := by
  induction fuel generalizing st with
  | zero =>
      have hlen : st.queue.length = 0 := by
        simp only [work] at h
        omega
      exact List.eq_nil_of_length_eq_zero hlen
  | succ fuel ih =>
      cases hq : st.queue with
      | nil => simp [run, hq]
      | cons si queue =>
          simp only [run, hq]
          have hlt := work_pop_lt st hq
          exact ih _ (by omega)

/-! ## Equations over the sources -/

end Peel

section Equations

variable (X : Nat → List UInt8) (k s : Nat)

/-- Byte `p` of the combination of the sources that a cover describes. -/
def comb (cover : List (Nat × UInt8)) (p : Nat) : UInt8 :=
  cover.foldr (fun e acc => gfMul e.2 ((X e.1).getD p 0) ^^^ acc) 0

/-- A well-formed cover whose combination of the sources is the payload. -/
structure ParsedSym.Holds (sym : ParsedSym) : Prop where
  nodup : (sym.cover.map Prod.fst).Nodup
  lt : ∀ e ∈ sym.cover, e.1 < k
  coeff : ∀ e ∈ sym.cover, e.2 ≠ 0
  size : sym.payload.length = s
  value : ∀ p, sym.payload.getD p 0 = comb X sym.cover p

variable {X k s}

theorem filter_of_not_mem {rest : List (Nat × UInt8)} {t : Nat}
    (h : t ∉ rest.map Prod.fst) : rest.filter (fun e => e.1 ≠ t) = rest := by
  refine List.filter_eq_self.mpr fun e he => ?_
  have hne : e.1 ≠ t := fun heq => h (heq ▸ List.mem_map_of_mem he)
  simpa using hne

/-- A cover is the source that is looked up and the rest of it, up to order. -/
theorem perm_of_lookup {cover : List (Nat × UInt8)} {t : Nat} {c : UInt8}
    (hnodup : (cover.map Prod.fst).Nodup) (h : cover.lookup t = some c) :
    cover.Perm ((t, c) :: cover.filter fun e => e.1 ≠ t) := by
  induction cover with
  | nil => simp at h
  | cons e rest ih =>
      obtain ⟨i, d⟩ := e
      simp only [List.map_cons, List.nodup_cons] at hnodup
      by_cases hi : t = i
      · subst hi
        simp only [List.lookup_cons, beq_self_eq_true, Option.some.injEq] at h
        subst h
        rw [List.filter_cons_of_neg (by simp), filter_of_not_mem hnodup.1]
      · have hbeq : (t == i) = false := by simpa using hi
        have hi' : i ≠ t := fun heq => hi heq.symm
        simp only [List.lookup_cons, hbeq] at h
        rw [List.filter_cons_of_pos (by simpa using hi')]
        exact ((ih hnodup.2 h).cons (i, d)).trans (List.Perm.swap _ _ _)

theorem comb_filter {cover : List (Nat × UInt8)} {t : Nat} {c : UInt8}
    (hnodup : (cover.map Prod.fst).Nodup) (h : cover.lookup t = some c) (p : Nat) :
    comb X cover p = comb X (cover.filter fun e => e.1 ≠ t) p ^^^ gfMul c ((X t).getD p 0) := by
  have hcomm : LeftCommutative fun (e : Nat × UInt8) acc =>
      gfMul e.2 ((X e.1).getD p 0) ^^^ acc := by
    refine ⟨fun a b acc => ?_⟩
    rw [← UInt8.xor_assoc, ← UInt8.xor_assoc, UInt8.xor_comm (gfMul a.2 _)]
  calc
    comb X cover p = comb X ((t, c) :: cover.filter fun e => e.1 ≠ t) p :=
      (perm_of_lookup hnodup h).foldr_eq 0
    _ = comb X (cover.filter fun e => e.1 ≠ t) p ^^^ gfMul c ((X t).getD p 0) :=
      UInt8.xor_comm _ _

theorem length_filter_of_lookup {cover : List (Nat × UInt8)} {t : Nat} {c : UInt8}
    (hnodup : (cover.map Prod.fst).Nodup) (h : cover.lookup t = some c) :
    (cover.filter fun e => e.1 ≠ t).length + 1 = cover.length :=
  (perm_of_lookup hnodup h).length_eq.symm

/-- A cover that names distinct sources with nonzero coefficients. -/
structure ParsedSym.WellFormed (k : Nat) (sym : ParsedSym) : Prop where
  nodup : (sym.cover.map Prod.fst).Nodup
  lt : ∀ e ∈ sym.cover, e.1 < k
  coeff : ∀ e ∈ sym.cover, e.2 ≠ 0

theorem ParsedSym.Holds.formed {sym : ParsedSym} (h : sym.Holds X k s) : sym.WellFormed k :=
  ⟨h.nodup, h.lt, h.coeff⟩

theorem ParsedSym.WellFormed.filter {sym : ParsedSym} (h : sym.WellFormed k) (t : Nat)
    (payload : List UInt8) :
    (⟨sym.cover.filter fun e => e.1 ≠ t, payload⟩ : ParsedSym).WellFormed k where
  nodup := (List.filter_sublist.map Prod.fst).nodup h.nodup
  lt := fun e he => h.lt e (List.mem_of_mem_filter he)
  coeff := fun e he => h.coeff e (List.mem_of_mem_filter he)

/-- Substituting the value of a source keeps an equation true. -/
theorem ParsedSym.Holds.substitute {sym : ParsedSym} (h : sym.Holds X k s) {t : Nat} {c : UInt8}
    (hc : sym.cover.lookup t = some c) (hX : (X t).length = s) :
    (⟨sym.cover.filter fun e => e.1 ≠ t, axpy sym.payload c (X t)⟩ : ParsedSym).Holds X k s where
  nodup := (h.formed.filter t []).nodup
  lt := (h.formed.filter t []).lt
  coeff := (h.formed.filter t []).coeff
  size := by simp [h.size]
  value := by
    intro p
    rw [getD_axpy _ _ _ _ (by rw [hX, h.size]), h.value, comb_filter h.nodup hc,
      UInt8.xor_assoc, UInt8.xor_self, UInt8.xor_zero]

/-- An equation in one unknown gives that source. -/
theorem ParsedSym.Holds.solve {sym : ParsedSym} (h : sym.Holds X k s) {t : Nat} {c : UInt8}
    (hcover : sym.cover = [(t, c)]) (hX : (X t).length = s) :
    scalInplace sym.payload (gfInv c) = X t := by
  have hc : c ≠ 0 := h.coeff (t, c) (by simp [hcover])
  refine List.ext_getElem (by simp [h.size, hX]) fun p hp hp' => ?_
  have hbyte := getD_scalInplace sym.payload (gfInv c) p
  rw [h.value, hcover] at hbyte
  simp only [comb, List.foldr_cons, List.foldr_nil, UInt8.xor_zero, gfInv_gfMul hc] at hbyte
  rwa [List.getD_eq_getElem _ _ hp, List.getD_eq_getElem _ _ hp'] at hbyte

end Equations

namespace Peel

/-! ## The three parts of a reveal -/

/-- The equation that reveals its unknown is used up, and its unknown has no dependents left. -/
def close (st : Peel) (si target : Nat) : Peel :=
  { st with
    syms := st.syms.set si { st.sym si with payload := [] }
    degree := st.degree.set si 0
    covers := st.covers.set target [] }

/-- The value of a source is published. -/
def put (st : Peel) (target : Nat) (x : List UInt8) : Peel :=
  { st with revealed := st.revealed.set target (some x) }

/-- The rest of the queue. -/
def dequeue (st : Peel) (queue : List Nat) : Peel := { st with queue }

@[simp] theorem deg_dequeue (st : Peel) (queue : List Nat) (i : Nat) :
    (st.dequeue queue).deg i = st.deg i := rfl

@[simp] theorem sym_dequeue (st : Peel) (queue : List Nat) (i : Nat) :
    (st.dequeue queue).sym i = st.sym i := rfl

@[simp] theorem value_dequeue (st : Peel) (queue : List Nat) (i : Nat) :
    (st.dequeue queue).value i = st.value i := rfl

@[simp] theorem coverers_dequeue (st : Peel) (queue : List Nat) (i : Nat) :
    (st.dequeue queue).coverers i = st.coverers i := rfl

/-- Use up the equation at the head of the queue, substitute the value `x` of its unknown
everywhere, and publish it. -/
def resolve (st : Peel) (si : Nat) (queue : List Nat) (target : Nat) (x : List UInt8) : Peel :=
  ((st.coverers target).foldl (ripple si target x) ((st.close si target).dequeue queue)).put target x

section Steps

variable {st : Peel} {si sj t : Nat} {c : UInt8} {x : List UInt8}

theorem deg_close (hsi : si < st.degree.length) (i : Nat) :
    (st.close si t).deg i = if i = si then 0 else st.deg i := by
  simp only [deg, close, getD_set]
  by_cases hi : i = si
  · simp [hi, hsi]
  · simp [hi, Ne.symm hi]

theorem sym_close (hsi : si < st.syms.length) (i : Nat) :
    (st.close si t).sym i = if i = si then ⟨(st.sym si).cover, []⟩ else st.sym i := by
  simp only [sym, close, getD_set]
  by_cases hi : i = si
  · simp [hi, hsi]
  · simp [hi, Ne.symm hi]

theorem coverers_close {i : Nat} (hi : i ≠ t) :
    (st.close si t).coverers i = st.coverers i := by
  simp [coverers, close, Ne.symm hi]

theorem value_put (ht : t < st.revealed.length) (i : Nat) :
    (st.put t x).value i = if i = t then some x else st.value i := by
  simp only [value, put, getD_set]
  by_cases hi : i = t
  · simp [hi, ht]
  · simp [hi, Ne.symm hi]

theorem deg_substitute (hsj : sj < st.degree.length) (i : Nat) :
    (st.substitute sj t c x).deg i = if i = sj then st.deg sj - 1 else st.deg i := by
  simp only [deg, substitute, getD_set]
  by_cases hi : i = sj
  · simp [hi, hsj]
  · simp [hi, Ne.symm hi]

theorem sym_substitute (hsj : sj < st.syms.length) (i : Nat) :
    (st.substitute sj t c x).sym i =
      if i = sj then ⟨(st.sym sj).cover.filter fun e => e.1 ≠ t, axpy (st.sym sj).payload c x⟩
      else st.sym i := by
  simp only [sym, substitute, getD_set]
  by_cases hi : i = sj
  · simp [hi, hsj]
  · simp [hi, Ne.symm hi]

theorem mem_queue_substitute {i : Nat} :
    i ∈ (st.substitute sj t c x).queue ↔ i ∈ st.queue ∨ (st.deg sj - 1 = 1 ∧ i = sj) := by
  simp only [substitute]
  split_ifs with h1 <;> simp [h1]

end Steps

/-! ## The invariant of the loop -/

section Invariant

variable (k s : Nat)

/-- An equation with open degree: its degree is the size of its cover, and every source it covers
is unrevealed and knows about it. Only an equation in one unknown may have lost its payload. -/
structure Open (t : Nat) (rest : List Nat) (st : Peel) (si : Nat) : Prop where
  formed : (st.sym si).WellFormed k
  size : (st.sym si).payload.length = s ∨ (st.sym si).cover.length ≤ 1
  degree : st.deg si = (st.sym si).cover.length
  unrevealed : ∀ e ∈ (st.sym si).cover, st.value e.1 = none
  covered : ∀ e ∈ (st.sym si).cover, si ∈ if e.1 = t then rest else st.coverers e.1

/-- The invariant of the loop while source `t` is being substituted into the equations of
`rest`. -/
structure Inv (t : Nat) (rest : List Nat) (st : Peel) : Prop where
  degrees : st.degree.length = st.syms.length
  sources : st.revealed.length = k
  coverLists : st.covers.length = k
  isOpen : ∀ si, st.deg si ≠ 0 → Open k s t rest st si
  queued : ∀ si, st.deg si = 1 → si ∈ st.queue
  queue_le : ∀ si ∈ st.queue, st.deg si ≤ 1

variable {k s} {t si sj : Nat} {rest : List Nat} {st : Peel}

/-- An equation with open degree is one of the equations. -/
theorem Inv.lt_length (h : Inv k s t rest st) (hdeg : st.deg si ≠ 0) : si < st.syms.length :=
  h.degrees ▸ lt_length_of_getD_ne hdeg

/-- An equation that does not cover the source leaves the list of dependents. -/
theorem Inv.drop (h : Inv k s t (sj :: rest) st)
    (hsj : st.deg sj ≠ 0 → t ∉ (st.sym sj).cover.map Prod.fst) : Inv k s t rest st where
  degrees := h.degrees
  sources := h.sources
  coverLists := h.coverLists
  isOpen := by
    intro i hi
    have hopen := h.isOpen i hi
    refine ⟨hopen.formed, hopen.size, hopen.degree, hopen.unrevealed, fun e he => ?_⟩
    have hcov := hopen.covered e he
    split_ifs at hcov ⊢ with het
    · rcases List.mem_cons.mp hcov with rfl | hmem
      · exact absurd (List.mem_map.mpr ⟨e, he, het⟩) (hsj hi)
      · exact hmem
    · exact hcov
  queued := h.queued
  queue_le := h.queue_le

section Substitute

variable {c : UInt8} {x : List UInt8}

variable (h : Inv k s t (sj :: rest) st) (hdeg : st.deg sj ≠ 0)
  (hc : (st.sym sj).cover.lookup t = some c)

include h hdeg hc in
/-- The equation that lost a source and still has one is one degree lower. -/
theorem Inv.open_substitute_self (hleft : st.deg sj - 1 ≠ 0) :
    Open k s t rest (st.substitute sj t c x) sj := by
  have hopen := h.isOpen sj hdeg
  have hlt : sj < st.degree.length := lt_length_of_getD_ne hdeg
  have hlen := length_filter_of_lookup hopen.formed.nodup hc
  have hdegree := hopen.degree
  refine ⟨?_, ?_, ?_, ?_, ?_⟩
  all_goals rw [sym_substitute (h.lt_length hdeg), if_pos rfl]
  · exact hopen.formed.filter t _
  · left
    rw [length_axpy]
    exact hopen.size.resolve_right (by omega)
  · rw [deg_substitute hlt, if_pos rfl, hopen.degree]
    simp only
    omega
  · intro e he
    exact hopen.unrevealed e (List.mem_of_mem_filter he)
  · intro e he
    have het : e.1 ≠ t := by simpa using List.of_mem_filter he
    have hcov := hopen.covered e (List.mem_of_mem_filter he)
    rw [if_neg het] at hcov ⊢
    exact hcov

include h hdeg in
/-- Every other equation is untouched. -/
theorem Inv.open_substitute_of_ne {i : Nat} (hi : st.deg i ≠ 0) (hij : i ≠ sj) :
    Open k s t rest (st.substitute sj t c x) i := by
  have hopen := h.isOpen i hi
  have hlt : sj < st.degree.length := lt_length_of_getD_ne hdeg
  refine ⟨?_, ?_, ?_, ?_, ?_⟩
  all_goals rw [sym_substitute (h.lt_length hdeg), if_neg hij]
  · exact hopen.formed
  · exact hopen.size
  · rw [deg_substitute hlt, if_neg hij]
    exact hopen.degree
  · exact hopen.unrevealed
  · intro e he
    have hcov := hopen.covered e he
    by_cases het : e.1 = t
    · rw [if_pos het] at hcov ⊢
      exact (List.mem_cons.mp hcov).resolve_left hij
    · rw [if_neg het] at hcov ⊢
      exact hcov

include h hdeg hc in
/-- Substituting a source keeps the invariant, whatever its value. -/
theorem Inv.substitute : Inv k s t rest (st.substitute sj t c x) := by
  have hlt : sj < st.degree.length := lt_length_of_getD_ne hdeg
  refine ⟨by simp [Peel.substitute, h.degrees], h.sources, h.coverLists, ?_, ?_, ?_⟩
  · intro i hi
    rw [deg_substitute hlt] at hi
    by_cases hij : i = sj
    · rw [if_pos hij] at hi
      exact hij ▸ h.open_substitute_self hdeg hc hi
    · rw [if_neg hij] at hi
      exact h.open_substitute_of_ne hdeg hi hij
  · intro i hi
    rw [deg_substitute hlt] at hi
    rw [mem_queue_substitute]
    by_cases hij : i = sj
    · rw [if_pos hij] at hi
      exact Or.inr ⟨hi, hij⟩
    · rw [if_neg hij] at hi
      exact Or.inl (h.queued i hi)
  · intro i hi
    rw [deg_substitute hlt]
    rcases mem_queue_substitute.mp hi with hmem | ⟨h1, rfl⟩
    · have hle := h.queue_le i hmem
      split_ifs with hij
      · rw [hij] at hle
        omega
      · exact hle
    · rw [if_pos rfl]
      omega

end Substitute

/-! ## Rules for the loop -/

/-- To carry a property through a substitution, carry it through each equation that loses the
source. -/
theorem Inv.foldl_ripple {x : List UInt8} {Q : Peel → Prop} (h : Inv k s t rest st)
    (hsi : st.deg si = 0) (hQ : Q st)
    (hstep : ∀ (st : Peel) (sj : Nat) (rest : List Nat) (c : UInt8), Inv k s t (sj :: rest) st →
      st.deg si = 0 → sj ≠ si → st.deg sj ≠ 0 → (st.sym sj).cover.lookup t = some c → Q st →
      Q (st.substitute sj t c x)) :
    Inv k s t [] (rest.foldl (ripple si t x) st) ∧ Q (rest.foldl (ripple si t x) st) := by
  induction rest generalizing st with
  | nil => exact ⟨h, hQ⟩
  | cons sj rest ih =>
      rw [List.foldl_cons]
      unfold ripple
      by_cases hskip : sj = si ∨ st.deg sj = 0
      · rw [if_pos hskip]
        apply ih (h.drop _) hsi hQ
        intro hdeg
        rcases hskip with rfl | hzero
        · exact absurd hsi hdeg
        · exact absurd hzero hdeg
      · rw [if_neg hskip]
        push Not at hskip
        obtain ⟨hne, hdeg⟩ := hskip
        cases hc : (st.sym sj).cover.lookup t with
        | none =>
            apply ih (h.drop _) hsi hQ
            intro _ hmem
            obtain ⟨e, he, het⟩ := List.mem_map.mp hmem
            have hbeq := List.lookup_eq_none_iff.mp hc e he
            simp [het] at hbeq
        | some c =>
            apply ih (h.substitute hdeg hc) _ (hstep st sj rest c h hsi hne hdeg hc hQ)
            rw [deg_substitute (lt_length_of_getD_ne hdeg), if_neg (Ne.symm hne)]
            exact hsi

section Reveal

variable {c : UInt8} {queue : List Nat}

/-- Taking the head equation out of the queue to reveal its one source: the equation is closed
and the source's dependents are still to be updated. -/
theorem Inv.close (h : Inv k s k [] st) (hq : st.queue = si :: queue) (hdeg : st.deg si ≠ 0) :
    Inv k s t (st.coverers t) ((st.close si t).dequeue queue) := by
  have hlt : si < st.degree.length := lt_length_of_getD_ne hdeg
  refine ⟨by simp [dequeue, Peel.close, h.degrees], h.sources,
    by simp [dequeue, Peel.close, h.coverLists], ?_, ?_, ?_⟩
  · intro i hi
    rw [deg_dequeue, deg_close hlt] at hi
    have hij : i ≠ si := fun heq => hi (if_pos heq)
    rw [if_neg hij] at hi
    have hopen := h.isOpen i hi
    refine ⟨?_, ?_, ?_, ?_, ?_⟩
    all_goals rw [sym_dequeue, sym_close (h.lt_length hdeg), if_neg hij]
    · exact hopen.formed
    · exact hopen.size
    · rw [deg_dequeue, deg_close hlt, if_neg hij]
      exact hopen.degree
    · exact hopen.unrevealed
    · intro e he
      have hmem := hopen.covered e he
      rw [if_neg (Nat.ne_of_lt (hopen.formed.lt e he))] at hmem
      split_ifs with het
      · exact het ▸ hmem
      · rw [coverers_dequeue, coverers_close het]
        exact hmem
  · intro i hi
    rw [deg_dequeue, deg_close hlt] at hi
    have hij : i ≠ si := fun heq => by simp [heq] at hi
    rw [if_neg hij] at hi
    have hmem := h.queued i hi
    rw [hq] at hmem
    exact (List.mem_cons.mp hmem).resolve_left hij
  · intro i hi
    rw [deg_dequeue, deg_close hlt]
    split_ifs
    · omega
    · exact h.queue_le i (hq ▸ List.mem_cons_of_mem _ hi)

/-- Once no open equation covers `t` any more, its value is published. -/
theorem Inv.put (h : Inv k s t [] st) (ht : t < k) (x : List UInt8) :
    Inv k s k [] (st.put t x) := by
  refine ⟨h.degrees, by simp [Peel.put, h.sources], h.coverLists, ?_, h.queued, h.queue_le⟩
  intro i hi
  have hopen := h.isOpen i hi
  have hne : ∀ e ∈ (st.sym i).cover, e.1 ≠ t := by
    intro e he het
    simpa [het] using hopen.covered e he
  refine ⟨hopen.formed, hopen.size, hopen.degree, fun e he => ?_, fun e he => ?_⟩
  · rw [value_put (h.sources ▸ ht), if_neg (hne e he)]
    exact hopen.unrevealed e he
  · have hmem := hopen.covered e he
    rw [if_neg (hne e he)] at hmem
    rw [if_neg (Nat.ne_of_lt (hopen.formed.lt e he))]
    exact hmem

/-- To carry a property through the use of an equation, carry it through its closing and through
each substitution. What is left is to publish the value. -/
theorem Inv.resolve {x : List UInt8} {Q : Peel → Prop} (h : Inv k s k [] st)
    (hq : st.queue = si :: queue) (hdeg : st.deg si ≠ 0)
    (hQ : Q ((st.close si t).dequeue queue))
    (hstep : ∀ (st : Peel) (sj : Nat) (rest : List Nat) (c : UInt8), Inv k s t (sj :: rest) st →
      st.deg si = 0 → sj ≠ si → st.deg sj ≠ 0 → (st.sym sj).cover.lookup t = some c → Q st →
      Q (st.substitute sj t c x)) :
    ∃ st', Inv k s t [] st' ∧ Q st' ∧ st.resolve si queue t x = st'.put t x := by
  have hzero : ((st.close si t).dequeue queue).deg si = 0 := by
    rw [deg_dequeue, deg_close (lt_length_of_getD_ne hdeg), if_pos rfl]
  obtain ⟨hinv, hafter⟩ := (h.close hq hdeg).foldl_ripple hzero hQ hstep
  exact ⟨_, hinv, hafter, rfl⟩

/-- A pop finds an equation that is already used up, or resolves the one unknown of an
equation. -/
theorem Inv.pop_cases (h : Inv k s k [] st) (hq : st.queue = si :: queue) :
    (st.deg si = 0 ∧ st.pop si queue = st.dequeue queue) ∨
      (st.deg si ≠ 0 ∧ ∃ t c, (st.sym si).cover = [(t, c)] ∧ t < k ∧ c ≠ 0 ∧
        st.value t = none ∧
        st.pop si queue = st.resolve si queue t (scalInplace (st.sym si).payload (gfInv c))) := by
  unfold Peel.pop
  simp only
  by_cases hdeg : st.deg si = 0
  · rw [if_pos (show ({ st with queue } : Peel).deg si = 0 from hdeg)]
    exact Or.inl ⟨hdeg, rfl⟩
  · rw [if_neg (show ¬({ st with queue } : Peel).deg si = 0 from hdeg)]
    have hopen := h.isOpen si hdeg
    have hone : (st.sym si).cover.length = 1 := by
      have hle := h.queue_le si (by rw [hq]; exact List.mem_cons_self)
      rw [← hopen.degree]
      omega
    obtain ⟨⟨t, c⟩, hcover⟩ := List.length_eq_one_iff.mp hone
    have hmem : (t, c) ∈ (st.sym si).cover := by simp [hcover]
    have hnone : st.value t = none := hopen.unrevealed _ hmem
    have hfind : ((({ st with queue } : Peel).sym si).cover.find? fun e =>
        (({ st with queue } : Peel).value e.1).isNone) = some (t, c) := by
      change ((st.sym si).cover.find? fun e => (st.value e.1).isNone) = some (t, c)
      simp [hcover, hnone]
    refine Or.inr ⟨hdeg, t, c, hcover, hopen.formed.lt _ hmem, hopen.formed.coeff _ hmem, hnone, ?_⟩
    rw [hfind]
    rfl

/-- One pop of the queue keeps the invariant. -/
theorem Inv.pop (h : Inv k s k [] st) (hq : st.queue = si :: queue) :
    Inv k s k [] (st.pop si queue) := by
  obtain ⟨hdeg, heq⟩ | ⟨hdeg, t, c, -, ht, -, -, heq⟩ := h.pop_cases hq
  · rw [heq]
    refine ⟨h.degrees, h.sources, h.coverLists,
      fun i hi => ⟨(h.isOpen i hi).formed, (h.isOpen i hi).size, (h.isOpen i hi).degree,
        (h.isOpen i hi).unrevealed, (h.isOpen i hi).covered⟩, fun i hi => ?_,
      fun i hi => h.queue_le i (hq ▸ List.mem_cons_of_mem _ hi)⟩
    have hmem := h.queued i hi
    rw [hq] at hmem
    have hij : i ≠ si := by
      rintro rfl
      rw [show st.deg i = 1 from hi] at hdeg
      cases hdeg
    exact (List.mem_cons.mp hmem).resolve_left hij
  · obtain ⟨st', hinv, -, hst'⟩ := h.resolve (Q := fun _ => True) hq hdeg trivial
      fun _ _ _ _ _ _ _ _ _ _ => trivial
    rw [heq, hst']
    exact hinv.put ht _

/-- To carry a property through the loop, carry it through each pop. -/
theorem Inv.run_rule {P : Peel → Prop} (h : Inv k s k [] st) (hP : P st)
    (hpop : ∀ (st : Peel) (si : Nat) (queue : List Nat), Inv k s k [] st → st.queue = si :: queue →
      P st → P (st.pop si queue)) (fuel : Nat) :
    Inv k s k [] (run fuel st) ∧ P (run fuel st) := by
  induction fuel generalizing st with
  | zero => exact ⟨h, hP⟩
  | succ fuel ih =>
      cases hq : st.queue with
      | nil => simpa [Peel.run, hq] using ⟨h, hP⟩
      | cons si queue =>
          simp only [Peel.run, hq]
          exact ih (h.pop hq) (hpop st si queue h hq hP)

end Reveal

theorem deg_init (syms : List ParsedSym) (k i : Nat) :
    (init syms k).deg i = ((init syms k).sym i).cover.length := by
  simp only [deg, sym, init, List.getD_eq_getElem?_getD, List.getElem?_map]
  cases syms[i]? <;> simp

/-- The initial state satisfies the invariant. -/
theorem inv_init {syms : List ParsedSym} (hformed : ∀ sym ∈ syms, sym.WellFormed k)
    (hsize : ∀ sym ∈ syms, sym.payload.length = s ∨ sym.cover.length ≤ 1) :
    Inv k s k [] (init syms k) := by
  have hmem : ∀ i, (init syms k).deg i ≠ 0 → i < syms.length ∧ (init syms k).sym i ∈ syms := by
    intro i hi
    have hlt : i < syms.length := by simpa [init] using lt_length_of_getD_ne hi
    refine ⟨hlt, ?_⟩
    simp only [sym, init, List.getD_eq_getElem _ _ hlt]
    exact List.getElem_mem hlt
  have hnone : ∀ i, (init syms k).value i = none := fun i => by simp [value, init]
  refine ⟨by simp [init], by simp [init], by simp [init], ?_, ?_, ?_⟩
  · intro i hi
    obtain ⟨hlt, hsym⟩ := hmem i hi
    have hwell := hformed _ hsym
    refine ⟨hwell, hsize _ hsym, deg_init syms k i, fun e _ => hnone e.1, fun e he => ?_⟩
    have hek := hwell.lt e he
    rw [if_neg (Nat.ne_of_lt hek)]
    simp only [coverers, init]
    rw [List.getD_eq_getElem _ _ (by simpa using hek)]
    simp only [List.getElem_map, List.getElem_range, List.mem_filter, List.mem_range,
      decide_eq_true_eq]
    exact ⟨hlt, List.mem_map_of_mem he⟩
  · intro i hi
    have hlt := (hmem i (by omega)).1
    simp only [init, List.mem_filter, List.mem_range, decide_eq_true_eq]
    exact ⟨hlt, hi⟩
  · intro i hi
    simp only [init, List.mem_filter, List.mem_range, decide_eq_true_eq] at hi
    exact le_of_eq hi.2

end Invariant

/-! ## True equations reveal the sources -/

section Values

variable (X : Nat → List UInt8) (k s : Nat)

/-- What has been revealed are the sources, and the open equations hold of them. -/
structure Correct (st : Peel) : Prop where
  value : ∀ i x, st.value i = some x → x = X i
  holds : ∀ si, st.deg si ≠ 0 → (st.sym si).Holds X k s

variable {X k s} {st : Peel}

theorem Correct.substitute {t sj : Nat} {rest : List Nat} {c : UInt8} (h : Correct X k s st)
    (hinv : Inv k s t (sj :: rest) st) (hdeg : st.deg sj ≠ 0)
    (hc : (st.sym sj).cover.lookup t = some c) (hX : (X t).length = s) :
    Correct X k s (st.substitute sj t c (X t)) := by
  refine ⟨h.value, ?_⟩
  intro i hi
  rw [deg_substitute (lt_length_of_getD_ne hdeg)] at hi
  rw [sym_substitute (hinv.lt_length hdeg)]
  by_cases hij : i = sj
  · rw [if_pos hij]
    exact (h.holds sj hdeg).substitute hc hX
  · rw [if_neg hij] at hi ⊢
    exact h.holds i hi

theorem Correct.pop {si : Nat} {queue : List Nat} (h : Correct X k s st)
    (hX : ∀ i < k, (X i).length = s) (hinv : Inv k s k [] st) (hq : st.queue = si :: queue) :
    Correct X k s (st.pop si queue) := by
  obtain ⟨-, heq⟩ | ⟨hdeg, t, c, hcover, ht, -, -, heq⟩ := hinv.pop_cases hq
  · rw [heq]
    exact ⟨h.value, h.holds⟩
  · have hclose : Correct X k s ((st.close si t).dequeue queue) := by
      refine ⟨h.value, ?_⟩
      intro i hi
      rw [deg_dequeue, deg_close (lt_length_of_getD_ne hdeg)] at hi
      have hij : i ≠ si := fun hsame => hi (if_pos hsame)
      rw [if_neg hij] at hi
      rw [sym_dequeue, sym_close (hinv.lt_length hdeg), if_neg hij]
      exact h.holds i hi
    obtain ⟨st', hinv', hcorrect, hst'⟩ := hinv.resolve hq hdeg hclose
      fun st sj rest c hst _ _ hsj hc hcorrect => hcorrect.substitute hst hsj hc (hX t ht)
    rw [heq, (h.holds si hdeg).solve hcover (hX t ht), hst']
    refine ⟨?_, hcorrect.holds⟩
    intro i x hi
    rw [value_put (hinv'.sources ▸ ht)] at hi
    split_ifs at hi with hit
    · exact hit ▸ (Option.some.inj hi).symm
    · exact hcorrect.value i x hi

theorem correct_init {syms : List ParsedSym} (hsyms : ∀ sym ∈ syms, sym.Holds X k s) :
    Correct X k s (init syms k) := by
  refine ⟨fun i x hx => by simp [value, init] at hx, ?_⟩
  intro i hi
  have hlt : i < syms.length := by simpa [init] using lt_length_of_getD_ne hi
  simp only [sym, init, List.getD_eq_getElem _ _ hlt]
  exact hsyms _ (List.getElem_mem hlt)

end Values

end Peel

end Dlr.Coding
