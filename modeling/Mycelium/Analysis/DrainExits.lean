import Mycelium.Lib.StepSystem
import Mycelium.Model.QueueDrain

/-!
# How a claimed item leaves the drain

`process_next_for_user` classifies what can go wrong with an item and marks its row from
it, with two kinds of exceptions. The deterministic fallback reads the payload again and,
for a maintenance item, lists the concepts before and after the repair; an error in one of
these leaves through `?` before any row is marked, and the row stays `running` until the
next boot (`leavesRunning`). And the cleanup of the staging note is awaited with `?` after
the row is marked, so an item that is settled still fails its call (`failsCleanup`). Either
error reaches `run_pending`, whose own `?` ends the pass for every other user.

`pass_settles_and_goes_on_iff` is the exact condition: a pass leaves no claimed row running
and passes over nobody's due item, if and only if no visit takes one of these exits, a
failed cleanup being harmless where no other user has a due item.
-/

set_option autoImplicit false

namespace Mycelium.Analysis.DrainExits

open Mycelium.Model.MutationQueue Mycelium.Model.QueueDrain Fallible StepSystem
open Mycelium.Model.QueueWorker (AgentOutcome MutationPayload QueueLimits agePast)

/-! ## The property and the condition -/

/-- The fallback of a maintenance item cannot list the concepts or cannot repair them. -/
def integrationAborts (o : Outcomes) (payload : MutationPayload) : Bool :=
  payload.tool == .maintain && !(o.listBefore.isOk && o.maintain.isOk && o.listAfter.isOk)

/-- How a claimed item leaves its call. -/
inductive Way
  /-- Its row is marked, and nothing that follows can fail. -/
  | marked
  /-- Its row is marked, then its staging note is cleaned up. -/
  | cleaned
  /-- The call leaves before any row is marked. -/
  | aborted
  deriving DecidableEq, Repr

/-- The way out of the fallback. -/
def fallbackWay (o : Outcomes) : Way :=
  match o.fallbackRead with
  | .error _ => .aborted
  | .ok none => .marked
  | .ok (some payload) => if integrationAborts o payload then .aborted else .cleaned

/-- The way out of a finished agent run. -/
def runWay (lim : QueueLimits) (o : Outcomes) (item : MutationQueueItem) : AgentOutcome → Way
  | .ok _ _ => .cleaned
  | .err e => if retries lim o item e then .marked else fallbackWay o

/-- The way out of a claimed item, from what the environment answers. -/
def way (lim : QueueLimits) (o : Outcomes) (item : MutationQueueItem) : Way :=
  match o.key with
  | .error _ => .marked
  | .ok () =>
    match o.read with
    | .ok none | .error _ => .marked
    | .ok (some _) =>
      if lim.ageDeadlineSecs ≤ agePast o.atAge item then fallbackWay o
      else runWay lim o item o.run.result

/-- The staging note cannot be looked up, or is there and cannot be deleted. -/
def noteFails (o : Outcomes) : Bool :=
  match o.noteGet with
  | .ok () => !o.noteDelete.isOk
  | .error .notFound => false
  | .error (.other _) => true

/-- The item's row is marked and its call fails all the same. -/
def failsCleanup (lim : QueueLimits) (o : Outcomes) (item : MutationQueueItem) : Prop :=
  way lim o item = .cleaned ∧ noteFails o = true

/-- The item a visit claims, as the claim leaves its row. -/
def claimedItem (o : Outcomes) (uid : Uuid) (t : Table) : Option MutationQueueItem :=
  (claimedBy o uid t).bind fun id => lookup (claim t id o.atClaim) id

/-- A row of another user is due. -/
def OtherDue (t : Table) (uid : Uuid) (now : Instant) : Prop :=
  ∃ id r, lookup t id = some r ∧ isDue now r = true ∧ r.userId ≠ uid

/-- No row the pass has claimed is running, and the pass has not ended on an item's failure
while another user had a due item. -/
def SettledAndGoesOn (p : Pass) : Prop :=
  (∀ id ∈ p.claimed, statusOf p.storage.table id ≠ some .running) ∧
    ∀ e uid now, p.pc = .returnedErr e uid now → ¬ OtherDue p.storage.table uid now

/-- A visit reads back the row it claims and does not leave it before it is marked, and
where the cleanup of the staging note fails no other user has a due item. -/
def leavesCleanly (lim : QueueLimits) (p : Pass) (o : Outcomes) : Prop :=
  match p.pc with
  | .round (uid :: _) _ _ =>
    ∀ item, claimedItem o uid p.storage.table = some item →
      o.rereadError = none ∧ way lim o item ≠ .aborted ∧
        (failsCleanup lim o item → ¬ OtherDue p.storage.table uid o.atMark)
  | _ => True

/-! ## The rows under a statement -/

/-- The primary key of the queue. -/
def PrimaryKey (t : Table) : Prop := (t.map (·.id)).Nodup

/-- INTERNAL: an `UPDATE` keeps the identifiers. -/
theorem ids_updateWhere (t : Table) (id : Uuid) (p : MutationQueueItem → Bool)
    (f : MutationQueueItem → MutationQueueItem) (hf : ∀ r, (f r).id = r.id) :
    (updateWhere t id p f).map (·.id) = t.map (·.id) := by
  unfold updateWhere
  rw [List.map_map]
  apply List.map_congr_left
  intro r _
  simp only [Function.comp]
  split
  · exact hf r
  · rfl

/-- INTERNAL: by the primary key every row is the one found under its identifier. -/
theorem lookup_of_mem {t : Table} (hkey : PrimaryKey t) {r : MutationQueueItem} (h : r ∈ t) :
    lookup t r.id = some r := by
  induction t with
  | nil => cases h
  | cons a t ih =>
    unfold PrimaryKey at hkey
    rw [List.map_cons, List.nodup_cons] at hkey
    unfold lookup
    rw [List.find?_cons]
    rcases List.mem_cons.mp h with rfl | hmem
    · simp
    · have hne : a.id ≠ r.id := by
        intro he
        apply hkey.1
        rw [he]
        exact List.mem_map_of_mem hmem
      simp only [hne, decide_false]
      exact ih hkey.2 hmem

/-- An update that takes the row of its identifier out of `running` and touches nothing
else of what the pass looks at. -/
structure Marks (f : Table → Table) (id : Uuid) : Prop where
  ids : ∀ t, (f t).map (·.id) = t.map (·.id)
  frame : ∀ t id', id' ≠ id → lookup (f t) id' = lookup t id'
  user : ∀ t r', lookup (f t) id = some r' → ∃ r, lookup t id = some r ∧ r'.userId = r.userId
  left : ∀ t, statusOf (f t) id ≠ some .running

/-- INTERNAL: an unconditional `UPDATE` to another status marks its row. -/
theorem marks_updateWhere (id : Uuid) (f : MutationQueueItem → MutationQueueItem)
    (hid : ∀ r, (f r).id = r.id) (huser : ∀ r, (f r).userId = r.userId)
    (hstatus : ∀ r, (f r).status ≠ .running) :
    Marks (fun t => updateWhere t id (fun _ => true) f) id where
  ids t := ids_updateWhere t id _ f hid
  frame t id' hne := by
    rw [lookup_updateWhere t id id' _ f hid]
    simp [hne]
  user t r' h := by
    rw [lookup_updateWhere t id id _ f hid] at h
    obtain ⟨r, hr, hr'⟩ := Option.map_eq_some_iff.mp h
    refine ⟨r, hr, ?_⟩
    rw [← hr']
    simp [huser]
  left t := by
    unfold statusOf
    rw [lookup_updateWhere t id id _ f hid]
    cases lookup t id with
    | none => simp
    | some r => simp [hstatus]

theorem marks_markDone (id : Uuid) (paths : List String) (detail : Detail) (now : Instant) :
    Marks (markDone · id paths detail now) id :=
  marks_updateWhere id _ (fun _ => rfl) (fun _ => rfl) (fun _ => nofun)

theorem marks_markFailed (id : Uuid) (next : Instant) (detail : Detail) (now : Instant) :
    Marks (markFailed · id next detail now) id :=
  marks_updateWhere id _ (fun _ => rfl) (fun _ => rfl) (fun _ => nofun)

theorem marks_markDead (id : Uuid) (detail : Detail) (now : Instant) :
    Marks (markDead · id detail now) id :=
  marks_updateWhere id _ (fun _ => rfl) (fun _ => rfl) (fun _ => nofun)

/-! ## What a program does to the rows -/

/-- The program leaves the rows alone, and fails when `failed` says so. -/
def KeepsRows (m : Drain Unit) (failed : Bool) : Prop :=
  ∀ st, (outcome m st).2.table = st.table ∧ (outcome m st).1.isOk = !failed

/-- INTERNAL: bookkeeping off the rows never fails. -/
theorem keepsRows_modify {f : Storage → Storage} (h : ∀ st, (f st).table = st.table) :
    KeepsRows (modify f) false :=
  fun st => ⟨h st, rfl⟩

/-- INTERNAL: a part that never fails leaves the rest to decide. -/
theorem keepsRows_bind {m m' : Drain Unit} {failed : Bool} (h : KeepsRows m false)
    (h' : KeepsRows m' failed) : KeepsRows (m >>= fun _ => m') failed := by
  intro st
  obtain ⟨htable, hok⟩ := h st
  cases hm : outcome m st with
  | mk r st' =>
    rw [hm] at htable hok
    cases r with
    | error e => cases hok
    | ok a =>
      rw [outcome_bind_ok hm]
      obtain ⟨htable', hok'⟩ := h' st'
      exact ⟨htable'.trans htable, hok'⟩

/-- INTERNAL: a part that may fail decides when the rest cannot. -/
theorem keepsRows_bind_last {m m' : Drain Unit} {failed : Bool} (h : KeepsRows m failed)
    (h' : KeepsRows m' false) : KeepsRows (m >>= fun _ => m') failed := by
  intro st
  obtain ⟨htable, hok⟩ := h st
  cases hm : outcome m st with
  | mk r st' =>
    rw [hm] at htable hok
    cases r with
    | error e =>
      rw [outcome_bind_error hm]
      exact ⟨htable, hok⟩
    | ok a =>
      rw [outcome_bind_ok hm]
      obtain ⟨htable', hok'⟩ := h' st'
      refine ⟨htable'.trans htable, ?_⟩
      rw [hok', ← hok]
      rfl

/-- INTERNAL: a payload is dropped without touching the rows. -/
theorem keepsRows_deletePayload (o : Outcomes) (id : Uuid) : KeepsRows (deletePayload o id) false := by
  apply keepsRows_modify
  intro st
  split
  · rfl
  · rfl

/-- INTERNAL: so is a staging note, which may fail. -/
theorem keepsRows_deleteStagingNote (o : Outcomes) (id : Uuid) :
    KeepsRows (deleteStagingNote o id) (noteFails o) := by
  unfold deleteStagingNote noteFails
  cases o.noteGet with
  | ok u =>
    cases o.noteDelete with
    | ok v => exact fun st => ⟨rfl, rfl⟩
    | error e => exact fun st => ⟨rfl, rfl⟩
  | error e =>
    cases e with
    | notFound => exact fun st => ⟨rfl, rfl⟩
    | other e => exact fun st => ⟨rfl, rfl⟩

/-- INTERNAL: the end every item with a note goes through. -/
theorem keepsRows_cleanup (o : Outcomes) (id : Uuid) {count : Storage → Storage}
    (hcount : ∀ st, (count st).table = st.table) :
    KeepsRows (do deletePayload o id; deleteStagingNote o id; modify count) (noteFails o) :=
  keepsRows_bind (keepsRows_deletePayload o id)
    (keepsRows_bind_last (keepsRows_deleteStagingNote o id) (keepsRows_modify hcount))

/-- What a program does to the rows when the row it works on is `id` and it leaves this
way. -/
structure Exits (o : Outcomes) (m : Drain Unit) (id : Uuid) (w : Way) : Prop where
  ids : ∀ st, (outcome m st).2.table.map (·.id) = st.table.map (·.id)
  frame : ∀ st id', id' ≠ id → lookup (outcome m st).2.table id' = lookup st.table id'
  user : ∀ st r', lookup (outcome m st).2.table id = some r' →
    ∃ r, lookup st.table id = some r ∧ r'.userId = r.userId
  left : w ≠ .aborted → ∀ st, statusOf (outcome m st).2.table id ≠ some .running
  stays : w = .aborted → ∀ st, (outcome m st).2.table = st.table
  fails : ∀ st, (outcome m st).1.isOk = false ↔ w = .aborted ∨ w = .cleaned ∧ noteFails o = true

@[simp] theorem outcome_updateRows (f : Table → Table) (st : Storage) :
    outcome (updateRows f) st = (.ok (), { st with table := f st.table }) := rfl

/-- INTERNAL: a program that marks its row, then cleans up. -/
theorem exits_of_marks {o : Outcomes} {f : Table → Table} {rest : Drain Unit} {id : Uuid} {w : Way}
    {failed : Bool} (hf : Marks f id) (hrest : KeepsRows rest failed) (hw : w ≠ .aborted)
    (hfailed : failed = true ↔ w = .cleaned ∧ noteFails o = true) :
    Exits o (updateRows f >>= fun _ => rest) id w := by
  have htable : ∀ st, (outcome (updateRows f >>= fun _ => rest) st).2.table = f st.table := by
    intro st
    rw [outcome_bind_ok (outcome_updateRows f st), (hrest _).1]
  have hok : ∀ st, (outcome (updateRows f >>= fun _ => rest) st).1.isOk = !failed := by
    intro st
    rw [outcome_bind_ok (outcome_updateRows f st), (hrest _).2]
  constructor
  · intro st
    rw [htable]
    exact hf.ids st.table
  · intro st id' hne
    rw [htable]
    exact hf.frame st.table id' hne
  · intro st r' hr
    rw [htable] at hr
    exact hf.user st.table r' hr
  · intro _ st
    rw [htable]
    exact hf.left st.table
  · intro habort
    exact absurd habort hw
  · intro st
    rw [hok, Bool.not_eq_false', hfailed]
    constructor
    · exact Or.inr
    · rintro (habort | h)
      · exact absurd habort hw
      · exact h

/-- INTERNAL: nothing that can fail follows the mark. -/
theorem exits_marked {o : Outcomes} {f : Table → Table} {rest : Drain Unit} {id : Uuid}
    (hf : Marks f id) (hrest : KeepsRows rest false) :
    Exits o (updateRows f >>= fun _ => rest) id .marked := by
  have hne : Way.marked ≠ .aborted := nofun
  apply exits_of_marks hf hrest hne
  constructor
  · nofun
  · rintro ⟨h, _⟩
    cases h

/-- INTERNAL: the note's cleanup follows the mark. -/
theorem exits_cleaned {o : Outcomes} {f : Table → Table} {id : Uuid} {count : Storage → Storage}
    (hf : Marks f id) (hcount : ∀ st, (count st).table = st.table) :
    Exits o (do updateRows f; deletePayload o id; deleteStagingNote o id; modify count) id
      .cleaned := by
  have hne : Way.cleaned ≠ .aborted := nofun
  apply exits_of_marks hf (keepsRows_cleanup o id hcount) hne
  constructor
  · intro h
    exact ⟨rfl, h⟩
  · intro h
    exact h.2

/-- INTERNAL: the mark is the last statement. -/
theorem exits_updateRows {o : Outcomes} {f : Table → Table} {id : Uuid} (hf : Marks f id) :
    Exits o (updateRows f) id .marked := by
  have hnothing : KeepsRows (pure ()) false := fun st => ⟨rfl, rfl⟩
  have h : Exits o (updateRows f >>= fun _ => pure ()) id .marked := exits_marked hf hnothing
  rwa [bind_pure_unit] at h

/-- INTERNAL: a program that leaves before it has written anything. -/
theorem exits_aborted {o : Outcomes} {m : Drain Unit} {e : QueueWorkerError} (id : Uuid)
    (h : ∀ st, outcome m st = (.error e, st)) : Exits o m id .aborted := by
  constructor
  · intro st
    rw [h]
  · intro st id' _
    rw [h]
  · intro st r' hr
    rw [h] at hr
    exact ⟨r', hr, rfl⟩
  · intro hne
    exact absurd rfl hne
  · intro _ st
    rw [h]
  · intro st
    rw [h]
    constructor
    · intro _
      exact Or.inl rfl
    · intro _
      rfl

/-- INTERNAL: a program that starts by evaluating something that is there. -/
theorem exits_bind_ok {α : Type} {o : Outcomes} {m : Drain α} {f : α → Drain Unit} {a : α}
    {id : Uuid} {w : Way} (hm : ∀ st, outcome m st = (.ok a, st)) (h : Exits o (f a) id w) :
    Exits o (m >>= f) id w := by
  have hout : ∀ st, outcome (m >>= f) st = outcome (f a) st := fun st => outcome_bind_ok (hm st)
  constructor
  · intro st
    rw [hout]
    exact h.ids st
  · intro st id' hne
    rw [hout]
    exact h.frame st id' hne
  · intro st r' hr
    rw [hout] at hr
    exact h.user st r' hr
  · intro hw st
    rw [hout]
    exact h.left hw st
  · intro hw st
    rw [hout]
    exact h.stays hw st
  · intro st
    rw [hout]
    exact h.fails st

/-! ## The ways out, function by function -/

/-- INTERNAL: the fallback marks the row from the outcome and cleans up. -/
theorem exits_finishFallback (o : Outcomes) (item : MutationQueueItem) (provenance : String)
    (result : Except String (List String)) :
    Exits o (finishFallback o item provenance result) item.id .cleaned := by
  cases result with
  | ok paths => exact exits_cleaned (marks_markDone _ _ _ _) (fun _ => rfl)
  | error e => exact exits_cleaned (marks_markDead _ _ _) (fun _ => rfl)

/-- INTERNAL: a payload is integrated, or the call leaves on a listing or the repair. -/
theorem outcome_integratePayload (o : Outcomes) (payload : MutationPayload) :
    (∃ e, integrationAborts o payload = true ∧
      ∀ st, outcome (integratePayload o payload) st = (.error e, st)) ∨
    ∃ result, integrationAborts o payload = false ∧
      ∀ st, outcome (integratePayload o payload) st = (.ok result, st) := by
  unfold integratePayload integrationAborts
  cases payload.tool with
  | add => exact Or.inr ⟨_, rfl, fun st => rfl⟩
  | update => exact Or.inr ⟨_, rfl, fun st => rfl⟩
  | maintain =>
    cases o.listBefore with
    | error e => exact Or.inl ⟨.store e, rfl, fun st => rfl⟩
    | ok before =>
      cases o.maintain with
      | error e => exact Or.inl ⟨.store e, rfl, fun st => rfl⟩
      | ok summary =>
        cases o.listAfter with
        | error e => exact Or.inl ⟨.store e, rfl, fun st => rfl⟩
        | ok after => exact Or.inr ⟨_, rfl, fun st => rfl⟩

/-- The ways out of the fallback with the key at hand. -/
theorem exits_runFallback (o : Outcomes) (item : MutationQueueItem) (provenance : String) :
    Exits o (runFallback o item true provenance) item.id (fallbackWay o) := by
  unfold runFallback fallbackWay
  rw [if_pos rfl]
  cases o.fallbackRead with
  | error e => exact exits_aborted item.id fun st => rfl
  | ok payload? =>
    apply exits_bind_ok (fun st => outcome_ofExcept_ok _ payload? st)
    cases payload? with
    | none =>
      apply exits_marked (marks_markDead _ _ _)
      exact keepsRows_bind (keepsRows_deletePayload o item.id) (keepsRows_modify fun _ => rfl)
    | some payload =>
      rcases outcome_integratePayload o payload with ⟨e, haborts, hout⟩ | ⟨result, haborts, hout⟩
      · simp only [haborts, if_true]
        exact exits_aborted item.id fun st => outcome_bind_error (hout st)
      · simp only [haborts, Bool.false_eq_true, if_false]
        exact exits_bind_ok hout (exits_finishFallback o item provenance result)

/-- INTERNAL: the ways out of a finished run. -/
theorem exits_afterRun (lim : QueueLimits) (o : Outcomes) (item : MutationQueueItem)
    (result : AgentOutcome) : Exits o (afterRun lim o item result) item.id (runWay lim o item result) := by
  cases result with
  | ok files summary => exact exits_cleaned (marks_markDone _ _ _ _) (fun _ => rfl)
  | err e =>
    simp only [afterRun, runWay]
    by_cases hretry : retries lim o item e = true
    · rw [if_pos hretry, if_pos hretry]
      exact exits_updateRows (marks_markFailed _ _ _ _)
    · rw [if_neg hretry, if_neg hretry]
      exact exits_runFallback o item _

/-- INTERNAL: a payload that is not there or not readable. -/
theorem exits_payloadDead (o : Outcomes) (item : MutationQueueItem) (detail : Detail) :
    Exits o (payloadDead o item detail) item.id .marked := by
  apply exits_marked (marks_markDead _ _ _)
  apply keepsRows_bind (keepsRows_deletePayload o item.id)
  apply keepsRows_modify
  intro st
  unfold reconcileNotes
  split
  · rfl
  · rfl

/-- **The ways out of a claimed item**: the call marks its row unless it aborts, touches no
other row, and fails when it aborts or when the note's cleanup does. -/
theorem exits_processItem (lim : QueueLimits) (o : Outcomes) (item : MutationQueueItem) :
    Exits o (processItem lim o item) item.id (way lim o item) := by
  unfold processItem way
  cases o.key with
  | error e =>
    by_cases hage : lim.ageDeadlineSecs + 300 ≤ agePast o.atAge item
    · simp only [hage, if_true]
      exact exits_marked (marks_markDead _ _ _) (keepsRows_modify fun _ => rfl)
    · simp only [hage, if_false]
      exact exits_updateRows (marks_markFailed _ _ _ _)
  | ok u =>
    cases o.read with
    | error e => exact exits_payloadDead o item _
    | ok payload? =>
      cases payload? with
      | none => exact exits_payloadDead o item _
      | some payload =>
        by_cases hage : lim.ageDeadlineSecs ≤ agePast o.atAge item
        · simp only [hage, if_true]
          exact exits_runFallback o item _
        · simp only [hage, if_false]
          exact exits_afterRun lim o item _

/-! ## The claim -/

/-- INTERNAL: the notes are reconciled without touching the rows. -/
theorem reconcileNotes_table (o : Outcomes) (uid : Uuid) (st : Storage) :
    (reconcileNotes o uid st).table = st.table := by
  unfold reconcileNotes
  split
  · rfl
  · rfl

/-- INTERNAL: the storage once the row is claimed. -/
def claimedStorage (o : Outcomes) (st : Storage) (id : Uuid) : Storage :=
  { st with table := claim st.table id o.atClaim }

/-- The claim takes the first candidate that is still pending. -/
theorem outcome_claimFirst (o : Outcomes) (uid : Uuid) (candidates : List Uuid) (st : Storage) :
    outcome (claimFirst o uid candidates) st =
      match candidates.find? (claimable st.table ·) with
      | none => (.ok none, st)
      | some id =>
        match o.rereadError with
        | some e => (.error (.queue e), claimedStorage o st id)
        | none =>
          (.ok ((lookup (claim st.table id o.atClaim) id).filter fun r => decide (r.userId = uid)),
            claimedStorage o st id) := by
  induction candidates with
  | nil => rfl
  | cons id candidates ih =>
    unfold claimFirst
    rw [outcome_bind_ok (outcome_get st), List.find?_cons]
    cases hclaim : claimable st.table id with
    | true =>
      simp only [if_true]
      rw [outcome_bind_ok (outcome_updateRows _ st)]
      cases o.rereadError with
      | some e => rfl
      | none => rfl
    | false =>
      simp only [Bool.false_eq_true, if_false]
      exact ih

/-- INTERNAL: a candidate of the claim is a due row of the user. -/
theorem due_of_mem_dueCandidates {t : Table} {uid id : Uuid} {now : Instant}
    (h : id ∈ dueCandidates t uid now) :
    ∃ r ∈ t, r.id = id ∧ r.userId = uid ∧ isDue now r = true := by
  unfold dueCandidates at h
  obtain ⟨r, hr, hid⟩ := List.mem_map.mp h
  have hr' := List.mem_of_mem_take hr
  unfold byAge at hr'
  rw [List.mem_insertionSort, List.mem_filter, Bool.and_eq_true, decide_eq_true_eq] at hr'
  exact ⟨r, hr'.1, hid, hr'.2.1, hr'.2.2⟩

/-- The row a visit claims is a pending row of its user. -/
theorem claimedBy_row {o : Outcomes} {uid id : Uuid} {t : Table} (hkey : PrimaryKey t)
    (h : claimedBy o uid t = some id) :
    ∃ r, lookup t id = some r ∧ r.status = .pending ∧ r.userId = uid := by
  unfold claimedBy at h
  split at h
  · cases h
  · have hclaim := List.find?_some h
    obtain ⟨r, hr, hid, huser, _⟩ := due_of_mem_dueCandidates (List.mem_of_find?_eq_some h)
    have hrow : lookup t id = some r := hid ▸ lookup_of_mem hkey hr
    refine ⟨r, hrow, ?_, huser⟩
    simp only [claimable, hrow, Option.any_some] at hclaim
    exact eq_of_beq hclaim

/-- INTERNAL: and the claim leaves it running. -/
theorem claimedBy_item {o : Outcomes} {uid id : Uuid} {t : Table} (hkey : PrimaryKey t)
    (h : claimedBy o uid t = some id) :
    ∃ item, lookup (claim t id o.atClaim) id = some item ∧ item.status = .running ∧
      item.userId = uid := by
  obtain ⟨r, hr, hpending, huser⟩ := claimedBy_row hkey h
  rw [lookup_claim, hr]
  simp only [Option.map_some, hpending, and_self, if_true]
  exact ⟨_, rfl, rfl, huser⟩

/-- INTERNAL: an item is claimed exactly when a row is. -/
theorem claimedBy_of_claimedItem {o : Outcomes} {uid : Uuid} {t : Table} {item : MutationQueueItem}
    (h : claimedItem o uid t = some item) :
    claimedBy o uid t = some item.id ∧ lookup (claim t item.id o.atClaim) item.id = some item := by
  unfold claimedItem at h
  obtain ⟨id, hid, hrow⟩ := Option.bind_eq_some_iff.mp h
  have hitem : item.id = id := id_of_lookup hrow
  subst hitem
  exact ⟨hid, hrow⟩

/-- INTERNAL: and then the item is there. -/
theorem exists_claimedItem {o : Outcomes} {uid id : Uuid} {t : Table} (hkey : PrimaryKey t)
    (h : claimedBy o uid t = some id) : ∃ item, claimedItem o uid t = some item := by
  obtain ⟨item, hrow, _, _⟩ := claimedBy_item hkey h
  refine ⟨item, ?_⟩
  unfold claimedItem
  rw [h, Option.bind_some, hrow]

/-- INTERNAL: a visit that claims nothing changes nothing. -/
theorem outcome_process_none {lim : QueueLimits} {o : Outcomes} {uid : Uuid} {st : Storage}
    (h : claimedBy o uid st.table = none) :
    outcome (processNextForUser lim o uid) st = (.ok false, st) := by
  unfold claimedBy at h
  unfold processNextForUser
  split
  · rfl
  · rename_i hred
    split
    · rfl
    · rename_i hpermit
      rw [if_neg (by simp_all)] at h
      have hclaim : outcome (claimDueForUser o uid) st = (.ok none, st) := by
        unfold claimDueForUser
        rw [outcome_bind_ok (outcome_get st), outcome_claimFirst, h]
      rw [outcome_bind_ok hclaim]
      rfl

/-- INTERNAL: a visit that claims a row reads it back and processes the item. -/
theorem outcome_process_some {lim : QueueLimits} {o : Outcomes} {uid : Uuid} {st : Storage}
    {item : MutationQueueItem} (hkey : PrimaryKey st.table)
    (h : claimedItem o uid st.table = some item) :
    outcome (processNextForUser lim o uid) st =
      match o.rereadError with
      | some e => (.error (.queue e), claimedStorage o st item.id)
      | none => outcome (processItem lim o item >>= fun _ => pure true)
          (claimedStorage o st item.id) := by
  obtain ⟨hid, hrow⟩ := claimedBy_of_claimedItem h
  obtain ⟨item', hrow', _, huser⟩ := claimedBy_item hkey hid
  have hsame : item' = item := by
    rw [hrow] at hrow'
    exact (Option.some.inj hrow').symm
  subst hsame
  unfold claimedBy at hid
  unfold processNextForUser
  split at hid
  · cases hid
  · rename_i hgo
    simp only [not_or, Bool.not_eq_true] at hgo
    simp only [hgo.1, hgo.2, Bool.not_true, Bool.false_eq_true, if_false]
    have hclaim := outcome_claimFirst o uid (dueCandidates st.table uid o.atClaim) st
    rw [hid] at hclaim
    cases hreread : o.rereadError with
    | some e =>
      simp only [hreread] at hclaim
      rw [outcome_bind_error (m := claimDueForUser o uid) hclaim]
    | none =>
      simp only [hreread, hrow, Option.filter_some, huser, decide_true, if_true] at hclaim
      rw [outcome_bind_ok (m := claimDueForUser o uid) hclaim]

/-! ## A visit -/

/-- INTERNAL: the claim keeps the identifiers. -/
theorem ids_claim (t : Table) (id : Uuid) (now : Instant) :
    (claim t id now).map (·.id) = t.map (·.id) :=
  ids_updateWhere t id _ _ fun _ => rfl

/-- What a visit that claims `item` leaves behind. -/
structure VisitEnds (lim : QueueLimits) (o : Outcomes) (uid : Uuid) (item : MutationQueueItem)
    (p p' : Pass) : Prop where
  claimed : p'.claimed = item.id :: p.claimed
  ids : p'.storage.table.map (·.id) = p.storage.table.map (·.id)
  frame : ∀ id, id ≠ item.id → lookup p'.storage.table id = lookup p.storage.table id
  user : ∀ r, lookup p'.storage.table item.id = some r → r.userId = uid
  left : statusOf p'.storage.table item.id ≠ some .running ↔
    o.rereadError = none ∧ way lim o item ≠ .aborted
  ended : ∀ e uid' now, p'.pc = .returnedErr e uid' now → uid' = uid ∧ now = o.atMark
  fails : (∃ e, p'.pc = .returnedErr e uid o.atMark) ↔
    o.rereadError ≠ none ∨ way lim o item = .aborted ∨ failsCleanup lim o item

/-- INTERNAL: where the pass stands after a visit. -/
def afterVisit (o : Outcomes) (uid : Uuid) (users : List Uuid) (progress processed : ℕ) :
    Except QueueWorkerError Bool → PassPc
  | .ok true => .round users (progress + 1) (processed + 1)
  | .ok false => .round users progress processed
  | .error e => .returnedErr e uid o.atMark

/-- INTERNAL: a visit is its call and the move that follows from the result. -/
theorem visit_eq (lim : QueueLimits) (p : Pass) (o : Outcomes) (uid : Uuid) (users : List Uuid)
    (progress processed : ℕ) :
    visit lim p o uid users progress processed =
      { storage := (outcome (processNextForUser lim o uid) (reconcileNotes o uid p.storage)).2
        pc := afterVisit o uid users progress processed
          (outcome (processNextForUser lim o uid) (reconcileNotes o uid p.storage)).1
        claimed := (claimedBy o uid p.storage.table).toList ++ p.claimed } := by
  simp only [visit, reconcileNotes_table]
  cases hout : outcome (processNextForUser lim o uid) (reconcileNotes o uid p.storage) with
  | mk result storage =>
    cases result with
    | error e => rfl
    | ok processed? =>
      cases processed? with
      | true => rfl
      | false => rfl

/-- INTERNAL: the pass ends with the call that fails. -/
theorem afterVisit_returnedErr {o : Outcomes} {uid : Uuid} {users : List Uuid}
    {progress processed : ℕ} {result : Except QueueWorkerError Bool} :
    (∃ e, afterVisit o uid users progress processed result = .returnedErr e uid o.atMark) ↔
      result.isOk = false := by
  cases result with
  | error e => exact ⟨fun _ => rfl, fun _ => ⟨e, rfl⟩⟩
  | ok processed? =>
    cases processed? with
    | true => exact ⟨nofun, nofun⟩
    | false => exact ⟨nofun, nofun⟩

/-- INTERNAL: and names the user it was for. -/
theorem user_of_afterVisit {o : Outcomes} {uid uid' : Uuid} {users : List Uuid}
    {progress processed : ℕ} {result : Except QueueWorkerError Bool} {e : QueueWorkerError}
    {now : Instant}
    (h : afterVisit o uid users progress processed result = .returnedErr e uid' now) :
    uid' = uid ∧ now = o.atMark := by
  cases result with
  | error e' =>
    cases h
    exact ⟨rfl, rfl⟩
  | ok processed? =>
    cases processed? with
    | true => cases h
    | false => cases h

/-- INTERNAL: processing an item fails its call when it leaves by `?`. -/
theorem outcome_then_true (m : Drain Unit) (st : Storage) :
    (outcome (m >>= fun _ => (pure true : Drain Bool)) st).2 = (outcome m st).2 ∧
      (outcome (m >>= fun _ => (pure true : Drain Bool)) st).1.isOk = (outcome m st).1.isOk := by
  cases hm : outcome m st with
  | mk r st' =>
    cases r with
    | ok a =>
      rw [outcome_bind_ok hm]
      exact ⟨rfl, rfl⟩
    | error e =>
      rw [outcome_bind_error hm]
      exact ⟨rfl, rfl⟩

/-- INTERNAL: the call of a visit that claims `item`: what it leaves in the rows, and
whether it fails. -/
theorem process_ends (lim : QueueLimits) {o : Outcomes} {uid : Uuid} {st : Storage}
    {item : MutationQueueItem} (hkey : PrimaryKey st.table)
    (hitem : claimedItem o uid st.table = some item) :
    let st' := (outcome (processNextForUser lim o uid) st).2
    st'.table.map (·.id) = st.table.map (·.id) ∧
      (∀ id, id ≠ item.id → lookup st'.table id = lookup st.table id) ∧
      (∀ r, lookup st'.table item.id = some r → r.userId = uid) ∧
      (statusOf st'.table item.id ≠ some .running ↔
        o.rereadError = none ∧ way lim o item ≠ .aborted) ∧
      ((outcome (processNextForUser lim o uid) st).1.isOk = false ↔
        o.rereadError ≠ none ∨ way lim o item = .aborted ∨ failsCleanup lim o item) := by
  obtain ⟨hid, hrow⟩ := claimedBy_of_claimedItem hitem
  obtain ⟨item', hrow', hrunning, huser⟩ := claimedBy_item hkey hid
  have hsame : item' = item := by
    rw [hrow] at hrow'
    exact (Option.some.inj hrow').symm
  subst hsame
  have hids : (claimedStorage o st item'.id).table.map (·.id) = st.table.map (·.id) :=
    ids_claim _ _ _
  have hframe : ∀ id, id ≠ item'.id →
      lookup (claimedStorage o st item'.id).table id = lookup st.table id := by
    intro id hne
    show lookup (claim st.table item'.id o.atClaim) id = _
    rw [lookup_claim]
    simp [hne]
  have hstatus : statusOf (claimedStorage o st item'.id).table item'.id = some .running := by
    show statusOf (claim st.table item'.id o.atClaim) item'.id = _
    unfold statusOf
    rw [hrow, Option.map_some, hrunning]
  have huser' : ∀ r, lookup (claimedStorage o st item'.id).table item'.id = some r →
      r.userId = uid := by
    intro r hr
    have hr' : lookup (claim st.table item'.id o.atClaim) item'.id = some r := hr
    rw [hrow, Option.some.injEq] at hr'
    rw [← hr', huser]
  rw [outcome_process_some hkey hitem]
  cases hreread : o.rereadError with
  | some e =>
    refine ⟨hids, hframe, huser', ?_, ?_⟩
    · simp only [hstatus, ne_eq, not_true, false_iff, not_and, reduceCtorEq, IsEmpty.forall_iff]
    · exact ⟨fun _ => Or.inl nofun, fun _ => rfl⟩
  | none =>
    have hexits := exits_processItem lim o item'
    obtain ⟨hsnd, hfst⟩ := outcome_then_true (processItem lim o item') (claimedStorage o st item'.id)
    simp only [hsnd, hfst]
    refine ⟨?_, ?_, ?_, ?_, ?_⟩
    · rw [hexits.ids, hids]
    · intro id hne
      rw [hexits.frame _ _ hne, hframe id hne]
    · intro r hr
      obtain ⟨r₀, hr₀, hru⟩ := hexits.user _ _ hr
      rw [hru, huser' r₀ hr₀]
    · by_cases haborted : way lim o item' = .aborted
      · rw [hexits.stays haborted, hstatus]
        simp [haborted]
      · exact ⟨fun _ => ⟨trivial, haborted⟩, fun _ => hexits.left haborted _⟩
    · rw [hexits.fails]
      simp only [ne_eq, not_true, false_or, failsCleanup]

/-- **One visit**: what it leaves of the row it claims, of the other rows and of the pass. -/
theorem visit_ends (lim : QueueLimits) {p : Pass} {o : Outcomes} {uid : Uuid}
    {item : MutationQueueItem} (hkey : PrimaryKey p.storage.table)
    (hitem : claimedItem o uid p.storage.table = some item) (users : List Uuid)
    (progress processed : ℕ) :
    VisitEnds lim o uid item p (visit lim p o uid users progress processed) := by
  have htable := reconcileNotes_table o uid p.storage
  have hkey' : PrimaryKey (reconcileNotes o uid p.storage).table := by rw [htable]; exact hkey
  have hitem' : claimedItem o uid (reconcileNotes o uid p.storage).table = some item := by
    rw [htable]
    exact hitem
  obtain ⟨hids, hframe, huser, hleft, hfails⟩ := process_ends lim hkey' hitem'
  rw [htable] at hids
  rw [visit_eq]
  constructor
  · show (claimedBy o uid p.storage.table).toList ++ p.claimed = _
    rw [(claimedBy_of_claimedItem hitem).1]
    rfl
  · exact hids
  · intro id hne
    have h := hframe id hne
    rwa [htable] at h
  · exact huser
  · exact hleft
  · intro e uid' now h
    exact user_of_afterVisit h
  · rw [← hfails]
    exact afterVisit_returnedErr

/-- INTERNAL: a visit that claims nothing leaves the rows, and the pass goes on. -/
theorem visit_unclaimed (lim : QueueLimits) {p : Pass} {o : Outcomes} {uid : Uuid}
    (h : claimedBy o uid p.storage.table = none) (users : List Uuid) (progress processed : ℕ) :
    (visit lim p o uid users progress processed).storage.table = p.storage.table ∧
      (visit lim p o uid users progress processed).claimed = p.claimed ∧
      (visit lim p o uid users progress processed).pc = .round users progress processed := by
  have htable := reconcileNotes_table o uid p.storage
  have h' : claimedBy o uid (reconcileNotes o uid p.storage).table = none := by rw [htable]; exact h
  rw [visit_eq, outcome_process_none h', h]
  exact ⟨htable, rfl, rfl⟩

/-! ## The pass -/

/-- INTERNAL: the staging reconciliation keeps the identifiers. -/
theorem ids_recoverStaging (o : Outcomes) (st : Storage) :
    (recoverStaging o st).table.map (·.id) = st.table.map (·.id) := by
  unfold recoverStaging
  generalize stagingRows st.table = todo
  induction todo generalizing st with
  | nil => rfl
  | cons item todo ih =>
    rw [List.foldl_cons, ih]
    unfold recoverStagingRow
    split
    · split
      · exact ids_updateWhere _ _ _ _ fun _ => rfl
      · exact ids_updateWhere _ _ _ _ fun _ => rfl
    · rfl

/-- What holds in every pass: the primary key, and no row claimed before the first visit. -/
structure Inv (p : Pass) : Prop where
  key : PrimaryKey p.storage.table
  start : p.pc = .start → p.claimed = []

/-- INTERNAL: no step leads back to the start. -/
theorem afterVisit_ne_start {o : Outcomes} {uid : Uuid} {users : List Uuid}
    {progress processed : ℕ} (result : Except QueueWorkerError Bool) :
    afterVisit o uid users progress processed result ≠ .start := by
  cases result with
  | error e => nofun
  | ok processed? =>
    cases processed? with
    | true => nofun
    | false => nofun

theorem inv_step {lim : QueueLimits} {p p' : Pass} {o : Outcomes} (h : Inv p)
    (hstep : step lim p o = some p') : Inv p' := by
  unfold step at hstep
  split at hstep
  · cases hstep
    refine ⟨?_, nofun⟩
    unfold PrimaryKey
    rw [ids_recoverStaging]
    exact h.key
  · split at hstep
    · cases hstep
      exact ⟨h.key, nofun⟩
    · cases hstep
      exact ⟨h.key, nofun⟩
  · cases hstep
    refine ⟨h.key, ?_⟩
    intro hstart
    split at hstart
    · cases hstart
    · cases hstart
  · rename_i uid users progress processed hpc
    cases hstep
    constructor
    · cases hclaim : claimedBy o uid p.storage.table with
      | none =>
        rw [(visit_unclaimed lim hclaim users progress processed).1]
        exact h.key
      | some id =>
        obtain ⟨item, hitem⟩ := exists_claimedItem h.key hclaim
        unfold PrimaryKey
        rw [(visit_ends lim h.key hitem users progress processed).ids]
        exact h.key
    · rw [visit_eq]
      intro hstart
      exact absurd hstart (afterVisit_ne_start _)
  · cases hstep
  · cases hstep

/-- INTERNAL: the due rows of the other users are those they were. -/
theorem otherDue_visit {lim : QueueLimits} {o : Outcomes} {uid : Uuid} {item : MutationQueueItem}
    {p p' : Pass} (hkey : PrimaryKey p.storage.table)
    (hitem : claimedItem o uid p.storage.table = some item) (h : VisitEnds lim o uid item p p')
    (now : Instant) : OtherDue p'.storage.table uid now ↔ OtherDue p.storage.table uid now := by
  obtain ⟨r₀, hr₀, _, huser⟩ := claimedBy_row hkey (claimedBy_of_claimedItem hitem).1
  constructor
  · rintro ⟨id, r, hr, hdue, hne⟩
    have hid : id ≠ item.id := by
      rintro rfl
      exact hne (h.user r hr)
    exact ⟨id, r, (h.frame id hid) ▸ hr, hdue, hne⟩
  · rintro ⟨id, r, hr, hdue, hne⟩
    have hid : id ≠ item.id := by
      rintro rfl
      rw [hr₀, Option.some.injEq] at hr
      exact hne (hr ▸ huser)
    refine ⟨id, r, ?_, hdue, hne⟩
    rw [h.frame id hid]
    exact hr

/-- INTERNAL: the status of a row found is the one of the row. -/
theorem statusOf_congr {t t' : Table} {id : Uuid} (h : lookup t' id = lookup t id) :
    statusOf t' id = statusOf t id := by
  unfold statusOf
  rw [h]

/-- A visit that meets the condition keeps the pass as it should be. -/
theorem settled_visit {lim : QueueLimits} {o : Outcomes} {uid : Uuid} {item : MutationQueueItem}
    {p p' : Pass} (hkey : PrimaryKey p.storage.table)
    (hitem : claimedItem o uid p.storage.table = some item) (h : VisitEnds lim o uid item p p')
    (hread : o.rereadError = none) (hway : way lim o item ≠ .aborted)
    (hcleanup : failsCleanup lim o item → ¬ OtherDue p.storage.table uid o.atMark)
    (hgood : SettledAndGoesOn p) : SettledAndGoesOn p' := by
  constructor
  · intro id hid
    rw [h.claimed] at hid
    by_cases he : id = item.id
    · rw [he]
      exact h.left.mpr ⟨hread, hway⟩
    · rw [statusOf_congr (h.frame id he)]
      rcases List.mem_cons.mp hid with he' | hmem
      · exact absurd he' he
      · exact hgood.1 id hmem
  · intro e uid' now hpc
    obtain ⟨rfl, rfl⟩ := h.ended e uid' now hpc
    rw [otherDue_visit hkey hitem h]
    rcases h.fails.mp ⟨e, hpc⟩ with hne | haborted | hfails
    · exact absurd hread hne
    · exact absurd haborted hway
    · exact hcleanup hfails

/-- One step that meets the condition keeps the pass as it should be. -/
theorem settled_step {lim : QueueLimits} {p p' : Pass} {o : Outcomes} (hinv : Inv p)
    (hok : leavesCleanly lim p o) (hgood : SettledAndGoesOn p) (hstep : step lim p o = some p') :
    SettledAndGoesOn p' := by
  unfold step at hstep
  split at hstep
  · rename_i hpc
    cases hstep
    refine ⟨?_, nofun⟩
    intro id hid
    rw [hinv.start hpc] at hid
    cases hid
  · split at hstep
    · cases hstep
      exact ⟨hgood.1, nofun⟩
    · cases hstep
      exact ⟨hgood.1, nofun⟩
  · cases hstep
    refine ⟨hgood.1, ?_⟩
    intro e uid now hpc
    split at hpc
    · cases hpc
    · cases hpc
  · rename_i uid users progress processed hpc
    cases hstep
    unfold leavesCleanly at hok
    rw [hpc] at hok
    cases hclaim : claimedBy o uid p.storage.table with
    | none =>
      obtain ⟨htable, hclaimed, hnext⟩ := visit_unclaimed lim hclaim users progress processed
      refine ⟨?_, ?_⟩
      · rw [htable, hclaimed]
        exact hgood.1
      · intro e uid' now h
        rw [hnext] at h
        cases h
    | some id =>
      obtain ⟨item, hitem⟩ := exists_claimedItem hinv.key hclaim
      obtain ⟨hread, hway, hcleanup⟩ := hok item hitem
      have hends := visit_ends lim hinv.key hitem users progress processed
      exact settled_visit hinv.key hitem hends hread hway hcleanup hgood
  · cases hstep
  · cases hstep

/-- A step against the condition leaves the claimed row running, or ends the pass while
another user has a due item. -/
theorem unsettled_step {lim : QueueLimits} {p : Pass} {o : Outcomes} (hinv : Inv p)
    (hbad : ¬ leavesCleanly lim p o) : ∃ p', step lim p o = some p' ∧ ¬ SettledAndGoesOn p' := by
  unfold leavesCleanly at hbad
  split at hbad
  · rename_i uid users progress processed hpc
    push Not at hbad
    obtain ⟨item, hitem, hwrong⟩ := hbad
    have hends := visit_ends lim hinv.key hitem users progress processed
    refine ⟨visit lim p o uid users progress processed, ?_, ?_⟩
    · unfold step
      rw [hpc]
    · rintro ⟨hsettled, hgoes⟩
      have hmem : item.id ∈ (visit lim p o uid users progress processed).claimed := by
        rw [hends.claimed]
        exact List.mem_cons_self
      obtain ⟨hread, hway⟩ := hends.left.mp (hsettled item.id hmem)
      obtain ⟨hfails, hdue⟩ := hwrong hread hway
      obtain ⟨e, he⟩ := hends.fails.mpr (Or.inr (Or.inr hfails))
      apply hgoes e uid o.atMark he
      rw [otherDue_visit hinv.key hitem hends]
      exact hdue
  · exact absurd trivial hbad

/-- **Every claimed item is settled and no user is passed over**, in every state a pass
reaches, if and only if each visit of it leaves cleanly. -/
theorem pass_settles_and_goes_on_iff (lim : QueueLimits) (st : Storage)
    (hkey : PrimaryKey st.table) (os : List Outcomes) :
    (∀ n p, exec (step lim) (Pass.begin st) (os.take n) = some p → SettledAndGoesOn p) ↔
      Meets (step lim) (leavesCleanly lim) (Pass.begin st) os := by
  have h0 : Inv (Pass.begin st) := ⟨hkey, fun _ => rfl⟩
  constructor
  · intro hgood
    apply meets_of_forall_take_of_invariant Inv SettledAndGoesOn _ _ h0 hgood
    · intro p o p' hinv hstep
      exact inv_step hinv hstep
    · intro p o hinv hbad
      exact unsettled_step hinv hbad
  · intro hmeets n p hrun
    have hbegin : SettledAndGoesOn (Pass.begin st) := ⟨nofun, nofun⟩
    have hboth : Inv p ∧ SettledAndGoesOn p := by
      apply exec_invariant_of_meets (fun p => Inv p ∧ SettledAndGoesOn p) _ ⟨h0, hbegin⟩ hrun
        (meets_take hmeets n)
      intro p o p' h hok hstep
      exact ⟨inv_step h.1 hstep, settled_step h.1 hok h.2 hstep⟩
    exact hboth.2

/-- A due row. -/
def dueRow (id userId : Uuid) (tool : QueueTool) : MutationQueueItem where
  id := id
  userId := userId
  tool := tool
  status := .pending
  attempts := 0
  detail := .empty
  createdAt := id
  updatedAt := id
  nextRetryAt := none
  finalPaths := none
  source := "mcp:laptop"

/-- A due maintenance run of user 1 and a due addition of user 2. -/
def twoUsersDue : Storage where
  table := [dueRow 7 1 .maintain, dueRow 8 2 .add]
  blob _ := some { tool := .maintain, argsJson := "null", content := "" }
  notes := []

/-- The payload is read and the agent integrates it. -/
def integrated : Outcomes :=
  { atClaim := 10, atAge := 10, atMark := 10
    read := .ok (some { tool := .maintain, argsJson := "null", content := "" }) }

/-- INTERNAL: a visit with these answers leaves cleanly, whatever it claims. -/
theorem leavesCleanly_integrated (lim : QueueLimits) (p : Pass) :
    leavesCleanly lim p integrated := by
  have hway : ∀ item, way lim integrated item ≠ .aborted := by
    intro item
    show (if lim.ageDeadlineSecs ≤ agePast 10 item then Way.marked else Way.cleaned) ≠ .aborted
    split
    · exact nofun
    · exact nofun
  unfold leavesCleanly
  split
  · intro item _
    refine ⟨rfl, hway item, ?_⟩
    rintro ⟨_, hfails⟩
    cases hfails
  · trivial

/-- The condition is met where both items are integrated: both are claimed, and neither is
left running. -/
theorem pass_settles_and_goes_on_integrated :
    PrimaryKey twoUsersDue.table ∧
      ∃ p, exec (step {}) (Pass.begin twoUsersDue) (List.replicate 4 integrated) = some p ∧
        p.claimed = [8, 7] ∧ SettledAndGoesOn p := by
  have hkey : PrimaryKey twoUsersDue.table := by
    show List.Nodup [7, 8]
    decide
  have hmeets : Meets (step {}) (leavesCleanly {}) (Pass.begin twoUsersDue)
      (List.replicate 4 integrated) := by
    have hall : Meets (step {}) (fun _ _ => True) (Pass.begin twoUsersDue)
        (List.replicate 4 integrated) := meets_of_forall (fun _ _ => trivial) _ _
    apply meets_mono _ (meets_and_of_forall (p := (· = integrated)) hall _)
    · rintro p o ⟨_, rfl⟩
      exact leavesCleanly_integrated {} p
    · intro o ho
      exact List.eq_of_mem_replicate ho
  refine ⟨hkey, ?_⟩
  obtain ⟨p, hrun, hclaimed⟩ : ∃ p, exec (step {}) (Pass.begin twoUsersDue)
      (List.replicate 4 integrated) = some p ∧ p.claimed = [8, 7] :=
    Option.map_eq_some_iff.mp (by decide)
  have hgood := (pass_settles_and_goes_on_iff {} twoUsersDue hkey
    (List.replicate 4 integrated)).mpr hmeets 4 p hrun
  exact ⟨p, hrun, hclaimed, hgood⟩

/-- The age deadline has passed, and the fallback cannot list the user's concepts. -/
def listingFails : Outcomes :=
  { integrated with
    atAge := 1000
    fallbackRead := .ok (some { tool := .maintain, argsJson := "null", content := "" })
    listBefore := .error "database is locked" }

/-- The maintenance run is left running, and the pass ends before the other user's item. -/
theorem failed_listing_leaves_running :
    ∃ p, exec (step {}) (Pass.begin twoUsersDue) [integrated, integrated, listingFails] = some p ∧
      7 ∈ p.claimed ∧ statusOf p.storage.table 7 = some .running ∧
      p.pc = .returnedErr (.store "database is locked") 1 10 ∧ OtherDue p.storage.table 1 10 ∧
      ¬ SettledAndGoesOn p := by
  obtain ⟨p, hrun, hp⟩ : ∃ p, exec (step {}) (Pass.begin twoUsersDue)
      [integrated, integrated, listingFails] = some p ∧
        (p.claimed, statusOf p.storage.table 7, p.pc, lookup p.storage.table 8) =
          ([7], some .running, .returnedErr (.store "database is locked") 1 10,
            some (dueRow 8 2 .add)) :=
    Option.map_eq_some_iff.mp (by decide)
  obtain ⟨hclaimed, hp⟩ := Prod.mk.inj hp
  obtain ⟨hstatus, hp⟩ := Prod.mk.inj hp
  obtain ⟨hpc, hother⟩ := Prod.mk.inj hp
  have hmem : 7 ∈ p.claimed := by
    rw [hclaimed]
    exact List.mem_singleton_self 7
  have hdue : OtherDue p.storage.table 1 10 := ⟨8, _, hother, rfl, by decide⟩
  refine ⟨p, hrun, hmem, hstatus, hpc, hdue, ?_⟩
  rintro ⟨hsettled, _⟩
  exact hsettled 7 hmem hstatus

end Mycelium.Analysis.DrainExits
