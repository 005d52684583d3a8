import Dlr.Receiver.Steps

/-!
# A rejected APPEND

An APPEND resolves its blocks and checks its references before it changes anything. The check
promises that no entry fails later: a reference is to a block that is stored, or that an earlier
entry of the frame will have stored by then. Blocks are never removed, so the promise is kept
whatever other requests do in between, and a request that has begun to write is never refused.

## Implementation notes

The steps of other requests are those of any APPEND or BULK in any phase, and whole RESYNCs. This
is more than the locks of the program let happen.
-/

namespace Dlr

open Dlr.Core Coding Compress Lib

/-- The APPEND has passed its checks. -/
def AppendPhase.admitted : AppendPhase → Bool
  | resolving => false
  | validating _ _ _ => false
  | refused _ => false
  | _ => true

namespace Receiver

/-! ## The reference check -/

/-- The ids that entries make available, on top of some that already are. -/
def inlined : List BlockId → List Resolved → List BlockId
  | available, [] => available
  | available, .inline id _ :: rest => inlined (id :: available) rest
  | available, .ref _ :: rest => inlined available rest

theorem refsAvailable_append (store : ContentStore) (available : List BlockId)
    (first second : List Resolved) :
    refsAvailable store available (first ++ second) =
      (refsAvailable store available first &&
        refsAvailable store (inlined available first) second) := by
  induction first generalizing available with
  | nil => rfl
  | cons x rest ih =>
      cases x with
      | inline id block => exact ih (id :: available)
      | ref id =>
          rw [List.cons_append, refsAvailable, refsAvailable, ih, inlined, Bool.and_assoc]

theorem inlined_append (available : List BlockId) (first second : List Resolved) :
    inlined available (first ++ second) = inlined (inlined available first) second := by
  induction first generalizing available with
  | nil => rfl
  | cons x rest ih =>
      cases x with
      | inline id block => exact ih (id :: available)
      | ref id => exact ih available

/-- References stay available when the available blocks become more. -/
theorem refsAvailable_mono {store store' : ContentStore} {available available' : List BlockId}
    {entries : List Resolved}
    (hmore : ∀ id, store.contains id = true ∨ id ∈ available →
      store'.contains id = true ∨ id ∈ available')
    (h : refsAvailable store available entries = true) :
    refsAvailable store' available' entries = true := by
  induction entries generalizing available available' with
  | nil => rfl
  | cons x rest ih =>
      cases x with
      | inline id block =>
          apply ih _ h
          intro k hk
          rcases hk with hstored | hmem
          · exact (hmore k (Or.inl hstored)).imp_right (List.mem_cons_of_mem _)
          · rcases List.mem_cons.mp hmem with rfl | hold
            · exact Or.inr List.mem_cons_self
            · exact (hmore k (Or.inr hold)).imp_right (List.mem_cons_of_mem _)
      | ref id =>
          rw [refsAvailable, Bool.and_eq_true, Bool.or_eq_true, decide_eq_true_eq] at h ⊢
          exact ⟨hmore id h.1, ih hmore h.2⟩

/-! ## What other requests do in between -/

variable [Blake3] [Zstd]

/-- A step of another request. -/
inductive OtherStep : Receiver → Receiver → Prop
  | append (sync : Bool) (frame : AppendFrame) (r : Receiver) (phase : AppendPhase) :
      OtherStep r (stepAppend sync frame r phase).1
  | bulk (sync : Bool) (frame : BulkFrame) (locked : Bool) (r : Receiver) (phase : BulkPhase) :
      OtherStep r (stepBulk sync frame locked r phase).1
  | resync (frame : ResyncFrame) (r : Receiver) : OtherStep r (r.handleResync frame).2

/-- Every stored block stays. -/
def Grows (r r' : Receiver) : Prop :=
  ∀ id, r.store.contains id = true → r'.store.contains id = true

omit [Blake3] [Zstd] in
theorem Grows.refl (r : Receiver) : Grows r r := fun _ hid => hid

omit [Blake3] [Zstd] in
theorem grows_of_blocks {r r' : Receiver} (h : r'.store.blocks = r.store.blocks) : Grows r r' := by
  intro id hid
  rw [ContentStore.contains, h]
  exact hid

omit [Blake3] [Zstd] in
theorem grows_storeBlock (r : Receiver) (block : Block) (id : BlockId) :
    Grows r { r with store := (r.store.storeBlock block id).1 } := by
  intro k hk
  obtain ⟨b, hb⟩ := ContentStore.contains_iff.mp hk
  apply ContentStore.contains_iff.mpr
  refine ⟨b, ?_⟩
  rw [ContentStore.storeBlock_blocks]
  exact putBlock_preserves _ _ hb

omit [Zstd] in
theorem push_blocks (sid : SessionId) (store : ContentStore) (x : Resolved) :
    (x.push sid store).blocks = store.blocks := by
  cases x with
  | inline id block =>
      simp only [Resolved.push, ContentStore.pushInserted]
      split_ifs
      all_goals rfl
  | ref id => rfl

theorem stepAppend_grows (sync : Bool) (frame : AppendFrame) (r : Receiver)
    (phase : AppendPhase) : Grows r (stepAppend sync frame r phase).1 := by
  cases phase with
  | resolving =>
      simp only [stepAppend]
      split
      all_goals exact Grows.refl _
  | validating available rest resolved =>
      cases rest with
      | nil =>
          simp only [stepAppend, lockAppend]
          split_ifs
          all_goals exact Grows.refl _
      | cons x rest =>
          cases x with
          | inline id block => exact Grows.refl _
          | ref id =>
              simp only [stepAppend]
              split_ifs
              all_goals exact Grows.refl _
  | applying rest =>
      cases rest with
      | nil => exact Grows.refl _
      | cons x rest =>
          cases x with
          | inline id block => exact grows_storeBlock r block id
          | ref id =>
              simp only [stepAppend]
              split_ifs
              all_goals exact Grows.refl _
  | pushing item newly rest => exact grows_of_blocks (push_blocks _ _ _)
  | logging item newly rest => exact grows_of_blocks (ContentStore.logWal_blocks _ _)
  | flushing root =>
      have hblocks := ContentStore.flushWal_blocks r.store sync
      simp only [stepAppend]
      split
      all_goals
        rename_i hflush
        rw [hflush] at hblocks
        exact grows_of_blocks hblocks
  | exposed root => exact Grows.refl _
  | refused e => exact Grows.refl _
  | unflushed e => exact Grows.refl _

theorem decodeGeneration_blocks (r : Receiver) (frame : BulkFrame) :
    (r.decodeGeneration frame).1.store = r.store := by
  unfold decodeGeneration
  split
  · rfl
  · split
    · rfl
    · rfl
    · split
      all_goals rfl

theorem stepBulk_grows (sync : Bool) (frame : BulkFrame) (locked : Bool) (r : Receiver)
    (phase : BulkPhase) : Grows r (stepBulk sync frame locked r phase).1 := by
  cases phase with
  | fetching =>
      simp only [stepBulk]
      split_ifs
      all_goals exact Grows.refl _
  | decoding => exact grows_of_blocks (by rw [stepBulk, decodeGeneration_blocks])
  | storing ids rest =>
      cases rest with
      | nil =>
          simp only [stepBulk]
          split_ifs
          · exact Grows.refl _
          · simp only [retireGeneration]
            split_ifs
            all_goals exact Grows.refl _
      | cons b rest => exact grows_storeBlock r b.1 b.2
  | logging ids block id rest => exact grows_of_blocks (ContentStore.logWal_blocks _ _)
  | flushing completion =>
      have hblocks := ContentStore.flushWal_blocks r.store sync
      simp only [stepBulk]
      split
      all_goals
        rename_i hflush
        rw [hflush] at hblocks
        exact grows_of_blocks hblocks
  | answered completion => exact Grows.refl _
  | refused e => exact Grows.refl _
  | unflushed e => exact Grows.refl _

theorem OtherStep.grows {r r' : Receiver} (h : OtherStep r r') : Grows r r' := by
  cases h with
  | append sync frame _ phase => exact stepAppend_grows sync frame r phase
  | bulk sync frame locked _ phase => exact stepBulk_grows sync frame locked r phase
  | resync frame => exact grows_of_blocks (ContentStore.seedSession_blocks _ _ _ _)

/-! ## The run of an APPEND beside other requests -/

/-- The store and the bookkeeping of every session are the same. -/
def Unchanged (r r' : Receiver) : Prop :=
  r'.store = r.store ∧ ∀ sid, r'.session sid = r.session sid

/-- A step of the APPEND or of another request. -/
def Beside (sync : Bool) (frame : AppendFrame) (p q : Receiver × AppendPhase) : Prop :=
  stepAppend sync frame p.1 p.2 = q ∨ (OtherStep p.1 q.1 ∧ q.2 = p.2)

/-- The same, with a step of the APPEND that changes nothing. -/
def QuietBeside (sync : Bool) (frame : AppendFrame) (p q : Receiver × AppendPhase) : Prop :=
  (stepAppend sync frame p.1 p.2 = q ∧ Unchanged p.1 q.1) ∨ (OtherStep p.1 q.1 ∧ q.2 = p.2)

/-- The references that are still to be checked or applied. -/
def Promised (store : ContentStore) : AppendPhase → Prop
  | .validating available rest resolved => ∃ done, resolved = done ++ rest ∧
      refsAvailable store [] done = true ∧ available = inlined [] done
  | .applying rest => refsAvailable store [] rest = true
  | .pushing _ _ rest => refsAvailable store [] rest = true
  | .logging _ _ rest => refsAvailable store [] rest = true
  | _ => True

omit [Blake3] [Zstd] in
theorem Promised.grows {r r' : Receiver} {phase : AppendPhase} (h : Promised r.store phase)
    (hgrows : Grows r r') : Promised r'.store phase := by
  have hmono : ∀ {entries : List Resolved}, refsAvailable r.store [] entries = true →
      refsAvailable r'.store [] entries = true :=
    fun hentries => refsAvailable_mono (fun id hid => hid.imp_left (hgrows id)) hentries
  cases phase with
  | validating available rest resolved =>
      obtain ⟨done, hsplit, hdone, havailable⟩ := h
      exact ⟨done, hsplit, hmono hdone, havailable⟩
  | applying rest => exact hmono h
  | pushing item newly rest => exact hmono h
  | logging item newly rest => exact hmono h
  | resolving => trivial
  | flushing root => trivial
  | exposed root => trivial
  | refused e => trivial
  | unflushed e => trivial

omit [Blake3] [Zstd] in
theorem Unchanged.refl (r : Receiver) : Unchanged r r := ⟨rfl, fun _ => rfl⟩

omit [Blake3] [Zstd] in
theorem unchanged_touch (r : Receiver) (sid : SessionId) : Unchanged r (r.touch sid) :=
  ⟨rfl, r.touch_session sid⟩

omit [Zstd] in
/-- What the checks under the sessions mutex lead to. -/
theorem lockAppend_spec (r : Receiver) (frame : AppendFrame) {resolved : List Resolved}
    (h : refsAvailable r.store [] resolved = true) :
    Unchanged r (r.lockAppend frame resolved).1 ∧
      Promised (r.lockAppend frame resolved).1.store (r.lockAppend frame resolved).2 := by
  unfold lockAppend
  simp only
  split_ifs
  · exact ⟨unchanged_touch r _, trivial⟩
  · exact ⟨unchanged_touch r _, trivial⟩
  · exact ⟨unchanged_touch r _, trivial⟩
  · exact ⟨unchanged_touch r _, h⟩

/-- One step of the APPEND keeps the promise. Before the checks are passed it changes nothing, and
afterwards it is not refused. -/
theorem stepAppend_spec (sync : Bool) (frame : AppendFrame) {r : Receiver} {phase : AppendPhase}
    (h : Promised r.store phase) :
    Promised (stepAppend sync frame r phase).1.store (stepAppend sync frame r phase).2 ∧
      (phase.admitted = false → Unchanged r (stepAppend sync frame r phase).1) ∧
      (phase.admitted = true → (stepAppend sync frame r phase).2.admitted = true) := by
  cases phase with
  | resolving =>
      simp only [stepAppend]
      split
      · exact ⟨trivial, fun _ => Unchanged.refl r, Bool.false_ne_true.elim⟩
      · exact ⟨⟨[], rfl, rfl, rfl⟩, fun _ => Unchanged.refl r, Bool.false_ne_true.elim⟩
  | validating available rest resolved =>
      obtain ⟨done, rfl, hdone, rfl⟩ := h
      cases rest with
      | nil =>
          rw [List.append_nil]
          obtain ⟨hsame, hpromised⟩ := lockAppend_spec r frame hdone
          exact ⟨hpromised, fun _ => hsame, Bool.false_ne_true.elim⟩
      | cons x rest =>
          have hnext : refsAvailable r.store (inlined [] done) [x] = true →
              Promised r.store (.validating (inlined [] (done ++ [x])) rest
                (done ++ x :: rest)) := by
            intro hx
            refine ⟨done ++ [x], by simp, ?_, rfl⟩
            rw [refsAvailable_append, hdone, hx]
            rfl
          rw [inlined_append] at hnext
          cases x with
          | inline id block => exact ⟨hnext rfl, fun _ => Unchanged.refl r, Bool.false_ne_true.elim⟩
          | ref id =>
              simp only [stepAppend]
              split_ifs with hid
              · refine ⟨hnext ?_, fun _ => Unchanged.refl r, Bool.false_ne_true.elim⟩
                rw [refsAvailable, hid]
                rfl
              · exact ⟨trivial, fun _ => Unchanged.refl r, Bool.false_ne_true.elim⟩
  | applying rest =>
      cases rest with
      | nil => exact ⟨trivial, Bool.false_ne_true.symm.elim, fun _ => rfl⟩
      | cons x rest =>
          cases x with
          | inline id block =>
              refine ⟨?_, Bool.false_ne_true.symm.elim, fun _ => rfl⟩
              -- the block is stored now, so it need not come from the frame
              apply refsAvailable_mono _ (show refsAvailable r.store [id] rest = true from h)
              intro k hk
              left
              rcases hk with hstored | hmem
              · exact grows_storeBlock r block id k hstored
              · obtain rfl := List.mem_singleton.mp hmem
                change (r.store.storeBlock block k).1.contains k = true
                rw [ContentStore.contains, ContentStore.storeBlock_blocks]
                exact putBlock_self_isSome _ _ _
          | ref id =>
              rw [Promised, refsAvailable, Bool.and_eq_true] at h
              have hid : r.store.contains id = true := by simpa using h.1
              simp only [stepAppend, hid, if_true]
              exact ⟨h.2, Bool.false_ne_true.symm.elim, fun _ => rfl⟩
  | pushing item newly rest =>
      refine ⟨?_, Bool.false_ne_true.symm.elim, fun _ => rfl⟩
      exact @Promised.grows r _ (.logging item newly rest) h (grows_of_blocks (push_blocks _ _ _))
  | logging item newly rest =>
      refine ⟨?_, Bool.false_ne_true.symm.elim, fun _ => rfl⟩
      exact @Promised.grows r _ (.applying rest) h
        (grows_of_blocks (ContentStore.logWal_blocks _ _))
  | flushing root =>
      simp only [stepAppend]
      split
      all_goals exact ⟨trivial, Bool.false_ne_true.symm.elim, fun _ => rfl⟩
  | exposed root => exact ⟨trivial, Bool.false_ne_true.symm.elim, fun _ => rfl⟩
  | refused e => exact ⟨trivial, fun _ => Unchanged.refl r, Bool.false_ne_true.elim⟩
  | unflushed e => exact ⟨trivial, Bool.false_ne_true.symm.elim, fun _ => rfl⟩

/-- The run so far: the promise holds, and the APPEND has changed nothing before its checks were
passed. -/
theorem beside_spec {sync : Bool} {frame : AppendFrame} {r : Receiver}
    {q : Receiver × AppendPhase}
    (h : Relation.ReflTransGen (Beside sync frame) (r, .resolving) q) :
    Promised q.1.store q.2 ∧ (q.2.admitted = false →
      Relation.ReflTransGen (QuietBeside sync frame) (r, .resolving) q) := by
  induction h with
  | refl => exact ⟨trivial, fun _ => .refl⟩
  | @tail p q _ hstep ih =>
      obtain ⟨hpromised, hquiet⟩ := ih
      rcases hstep with rfl | ⟨hother, hphase⟩
      · obtain ⟨hnext, hsame, hadmitted⟩ := stepAppend_spec sync frame hpromised
        refine ⟨hnext, ?_⟩
        intro hnot
        cases hp : p.2.admitted with
        | true =>
            rw [hadmitted hp] at hnot
            cases hnot
        | false => exact (hquiet hp).tail (Or.inl ⟨rfl, hsame hp⟩)
      · constructor
        · rw [hphase]
          exact hpromised.grows hother.grows
        · intro hnot
          rw [hphase] at hnot
          exact (hquiet hnot).tail (Or.inr ⟨hother, hphase⟩)

/-- A rejected APPEND leaves the store with its block map, session logs and log file as they were,
and the bookkeeping of every session. No reference is missing once the entries are applied, also
not when other requests run in between, and then a rejected APPEND has not changed anything
either. -/
theorem rejected_append_changes_nothing (r : Receiver) (frame : AppendFrame) :
    (∀ e r', r.handleAppend frame = (.error e, r') →
      r'.store = r.store ∧ ∀ sid, r'.session sid = r.session sid) ∧
    (∀ resolved, frame.blocks.mapM (resolveBlock r.compressor) = .ok resolved →
      refsAvailable r.store [] resolved = true →
      (applyResolved frame.sessionId resolved r.store).1 = .ok ()) ∧
    ∀ sync q, Relation.ReflTransGen (Beside sync frame) (r, .resolving) q →
      (∀ id rest, q.2 = .applying (.ref id :: rest) → q.1.store.contains id = true) ∧
      ∀ e, q.2 = .refused e → Relation.ReflTransGen (QuietBeside sync frame) (r, .resolving) q := by
  refine ⟨?_, ?_, ?_⟩
  · intro e r' herr
    obtain ⟨_, _, heq, hsame⟩ | ⟨_, -, -, -, ⟨-, -, heq⟩ | ⟨-, heq⟩⟩ := r.handleAppend_cases frame
    · rw [heq] at herr
      cases herr
      rcases hsame with rfl | rfl
      · exact Unchanged.refl _
      · exact unchanged_touch _ _
    · rw [heq] at herr
      cases herr
    · rw [heq] at herr
      cases herr
  · intro resolved hres havail
    have hspec := applyResolved_spec frame.sessionId r.store (resolve_addressed hres)
      (fun id hid => by simpa using hid) havail
    rw [hspec.1]
  · intro sync q hrun
    obtain ⟨hpromised, hquiet⟩ := beside_spec hrun
    constructor
    · intro id rest hphase
      rw [hphase, Promised, refsAvailable, Bool.and_eq_true] at hpromised
      simpa using hpromised.1
    · intro e hphase
      exact hquiet (by rw [hphase]; rfl)

omit [Blake3] [Zstd] in
/-- An inline block in front of a reference that is missing. -/
theorem rejected_append_changes_nothing_missing :
    letI := prefixHash
    letI := storedZstd
    let inline : Block := ⟨.message, 1, 0 :: canonicalBytes ⟨.message, 1, [7]⟩⟩
    let frame : AppendFrame := ⟨7, rootZero, [.inline inline, .ref rootZero]⟩
    let start := Receiver.new ContentStore.new Compressor.default
    (start.handleAppend frame).1 = .error .missingRef ∧
      (start.handleAppend frame).2.store = start.store := by
  let _ := prefixHash
  let _ := storedZstd
  intro inline frame start
  have herr : (start.handleAppend frame).1 = .error .missingRef := by decide +kernel
  refine ⟨herr, ((rejected_append_changes_nothing start frame).1 .missingRef
    (start.handleAppend frame).2 ?_).1⟩
  rw [← herr]

end Receiver

end Dlr
