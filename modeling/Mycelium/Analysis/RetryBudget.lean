import Mycelium.Analysis.DrainExits

/-!
# What the retry budget counts

1. *Visits.* A visit of a claimed row runs the agent, puts the row off for want of a key, or
   settles it (`runsAgent`, `putsOff`, `open_after_visit`).
2. *The ledger.* A row that may still be claimed has one attempt for each run of the agent and
   one for each time it was put off (`ledger_exec`).
3. *The budget.* The attempts that decide between retry and fallback are the runs of the agent,
   exactly where none of them follows a visit that put the row off (`budget_kept_iff`).
-/

set_option autoImplicit false

namespace Mycelium.Analysis.RetryBudget

open Mycelium.Model.MutationQueue Mycelium.Model.QueueDrain Fallible StepSystem
open Mycelium.Model.QueueWorker (AgentOutcome QueueLimits agePast isTransient)
open Mycelium.Analysis.DrainExits

/-! ## The queue over time -/

/-- What happens to the queue: a visit of a user by a drain pass, or a step of an enqueuer. -/
inductive Event
  | visit (uid : Uuid) (o : Outcomes)
  | enqueue (id uid : Uuid) (tool : QueueTool) (source : String) (now : Instant)
  | activate (id : Uuid) (now : Instant)

/-- The queue before the first item. -/
def emptyQueue : Storage := { table := [], blob := fun _ => none, notes := [] }

def queueStep (lim : QueueLimits) (st : Storage) : Event → Option Storage
  | .visit uid o => some (outcome (processNextForUser lim o uid) (reconcileNotes o uid st)).2
  | .enqueue id uid tool source now =>
    -- `Uuid::new_v4` never repeats an identifier
    if lookup st.table id = none then
      some { st with table := Mycelium.Model.MutationQueue.enqueue st.table id uid tool source now }
    else none
  | .activate id now => some { st with table := Mycelium.Model.MutationQueue.activate st.table id now }

/-! ## Visits -/

/-- The item gets a run of the agent: the key is there, the payload opens, and the item is not
too old. -/
def runsAgent (lim : QueueLimits) (o : Outcomes) (item : MutationQueueItem) : Bool :=
  match o.key, o.read with
  | .ok (), .ok (some _) => agePast o.atAge item < lim.ageDeadlineSecs
  | _, _ => false

/-- The item is put off: there is no key, and it is not too old. -/
def putsOff (lim : QueueLimits) (o : Outcomes) (item : MutationQueueItem) : Bool :=
  match o.key with
  | .error _ => agePast o.atAge item < lim.ageDeadlineSecs + 300
  | .ok () => false

/-- The visit claims the row and deals with its item in this way. -/
def deals (way : Outcomes → MutationQueueItem → Bool) (id : Uuid) (st : Storage) : Event → Bool
  | .visit uid o =>
    match claimedItem o uid st.table with
    | some item => item.id = id && o.rereadError.isNone && way o item
    | none => false
  | _ => false

/-- The visits so far that ran the agent on the row. -/
def agentRuns (lim : QueueLimits) (id : Uuid) (es : List Event) : ℕ :=
  countAlong (queueStep lim) (deals (runsAgent lim) id) emptyQueue es

/-- The visits so far that put the row off. -/
def deferrals (lim : QueueLimits) (id : Uuid) (es : List Event) : ℕ :=
  countAlong (queueStep lim) (deals (putsOff lim) id) emptyQueue es

/-- The row may still be claimed. -/
def Open (id : Uuid) (st : Storage) : Prop :=
  ∃ r, lookup st.table id = some r ∧ (r.status = .staging ∨ r.status = .pending)

/-- INTERNAL: a statement that sets another status of the row closes it. -/
theorem keeps_updateRows_of_marks {f : Table → Table} {id : Uuid}
    (hf : ∀ t r', lookup (f t) id = some r' → r'.status ≠ .staging ∧ r'.status ≠ .pending) :
    Keeps (fun st => ¬ Open id st) (updateRows f) := by
  rintro st - ⟨r', hr', hstatus⟩
  obtain ⟨hstaging, hpending⟩ := hf st.table r' hr'
  obtain h | h := hstatus
  · exact hstaging h
  · exact hpending h

theorem keeps_markDone (id : Uuid) (paths : List String) (detail : Detail) (now : Instant) :
    Keeps (fun st => ¬ Open id st) (updateRows (markDone · id paths detail now)) := by
  apply keeps_updateRows_of_marks
  intro t r' hr'
  rw [lookup_markDone] at hr'
  obtain ⟨r, -, rfl⟩ := Option.map_eq_some_iff.mp hr'
  simp

theorem keeps_markDead (id : Uuid) (detail : Detail) (now : Instant) :
    Keeps (fun st => ¬ Open id st) (updateRows (markDead · id detail now)) := by
  apply keeps_updateRows_of_marks
  intro t r' hr'
  rw [lookup_markDead] at hr'
  obtain ⟨r, -, rfl⟩ := Option.map_eq_some_iff.mp hr'
  simp

/-- INTERNAL: what does not touch the rows leaves a row closed. -/
theorem keeps_of_keepsRows {m : Drain Unit} {failed : Bool} (h : KeepsRows m failed) (id : Uuid) :
    Keeps (fun st => ¬ Open id st) m := by
  rintro st hst ⟨r, hr, hstatus⟩
  rw [(h st).1] at hr
  exact hst ⟨r, hr, hstatus⟩

theorem keeps_modify_rows {f : Storage → Storage} (id : Uuid)
    (hf : ∀ st, (f st).table = st.table) :
    Keeps (fun st => ¬ Open id st) (modify f : Drain Unit) :=
  keeps_of_keepsRows (keepsRows_modify hf) id

theorem keeps_cleanup (o : Outcomes) (id : Uuid) {count : Storage → Storage}
    (hcount : ∀ st, (count st).table = st.table) :
    Keeps (fun st => ¬ Open id st)
      (do deletePayload o id; deleteStagingNote o id; modify count : Drain Unit) :=
  keeps_of_keepsRows (keepsRows_cleanup o id hcount) id

/-- INTERNAL: the payload is integrated off the rows. -/
theorem keeps_integratePayload (P : Storage → Prop) (o : Outcomes)
    (payload : Mycelium.Model.QueueWorker.MutationPayload) : Keeps P (integratePayload o payload) := by
  unfold integratePayload
  cases payload.tool with
  | add => exact keeps_pure _ _
  | update => exact keeps_pure _ _
  | maintain =>
    refine keeps_bind (keeps_ofExcept _ _ _) fun before => ?_
    refine keeps_bind (keeps_ofExcept _ _ _) fun summary => ?_
    exact keeps_bind (keeps_ofExcept _ _ _) fun after => keeps_pure _ _

/-- INTERNAL: the fallback leaves a row closed, whether it marks it or not. -/
theorem keeps_runFallback (o : Outcomes) (item : MutationQueueItem) (keyed : Bool)
    (provenance : String) :
    Keeps (fun st => ¬ Open item.id st) (runFallback o item keyed provenance) := by
  unfold runFallback
  split
  · refine keeps_bind (keeps_ofExcept _ _ _) fun payload? => ?_
    cases payload? with
    | none =>
      refine keeps_bind (keeps_markDead _ _ _) fun _ => ?_
      exact keeps_bind (keeps_of_keepsRows (keepsRows_deletePayload o item.id) _)
        fun _ => keeps_modify_rows _ fun _ => rfl
    | some payload =>
      refine keeps_bind (keeps_integratePayload _ o payload) fun result => ?_
      cases result with
      | ok paths =>
        exact keeps_bind (keeps_markDone _ _ _ _) fun _ => keeps_cleanup o _ fun _ => rfl
      | error e =>
        exact keeps_bind (keeps_markDead _ _ _) fun _ => keeps_cleanup o _ fun _ => rfl
  · exact keeps_bind (keeps_markDead _ _ _) fun _ => keeps_modify_rows _ fun _ => rfl

theorem keeps_payloadDead (o : Outcomes) (item : MutationQueueItem) (detail : Detail) :
    Keeps (fun st => ¬ Open item.id st) (payloadDead o item detail) := by
  refine keeps_bind (keeps_markDead _ _ _) fun _ => ?_
  refine keeps_bind (keeps_of_keepsRows (keepsRows_deletePayload o item.id) _) fun _ => ?_
  exact keeps_modify_rows _ fun st => reconcileNotes_table o item.userId st

/-- INTERNAL: a retry timer leaves the row open with its attempts. -/
theorem attempts_markFailed {st : Storage} {item : MutationQueueItem} {next now : Instant}
    {detail : Detail} (hrow : lookup st.table item.id = some item) :
    ∀ r, lookup (outcome (updateRows (markFailed · item.id next detail now)) st).2.table item.id =
      some r → r.attempts = item.attempts := by
  intro r hr
  rw [outcome_updateRows] at hr
  have hr' : lookup (markFailed st.table item.id next detail now) item.id = some r := hr
  rw [lookup_markFailed, hrow, Option.map_some, if_pos rfl] at hr'
  rw [← Option.some.inj hr']

/-- What a claimed item leaves of its row: where it is still open, the agent ran on it or it was
put off, and it has the attempts of the claim. -/
theorem open_after_item (lim : QueueLimits) (o : Outcomes) {st : Storage}
    {item : MutationQueueItem} (hrow : lookup st.table item.id = some item)
    (hrunning : item.status = .running)
    (hopen : Open item.id (outcome (processItem lim o item) st).2) :
    (runsAgent lim o item).toNat + (putsOff lim o item).toNat = 1 ∧
      ∀ r, lookup (outcome (processItem lim o item) st).2.table item.id = some r →
        r.attempts = item.attempts := by
  have hclosed : ¬ Open item.id st := by
    rintro ⟨r, hr, hstatus⟩
    rw [hrow, Option.some.injEq] at hr
    rw [← hr, hrunning] at hstatus
    obtain h | h := hstatus
    · cases h
    · cases h
  unfold processItem at hopen ⊢
  unfold runsAgent putsOff
  cases hkey : o.key with
  | error e =>
    simp only [hkey] at hopen ⊢
    by_cases hage : lim.ageDeadlineSecs + 300 ≤ agePast o.atAge item
    · rw [if_pos hage] at hopen
      exact absurd hopen (keeps_runFallback o item false _ st hclosed)
    · rw [if_neg hage]
      refine ⟨?_, attempts_markFailed hrow⟩
      simpa using hage
  | ok u =>
    simp only [hkey] at hopen ⊢
    cases hread : o.read with
    | error e =>
      simp only [hread] at hopen
      exact absurd hopen (keeps_payloadDead o item _ st hclosed)
    | ok payload? =>
      cases payload? with
      | none =>
        simp only [hread] at hopen
        exact absurd hopen (keeps_payloadDead o item _ st hclosed)
      | some payload =>
        simp only [hread] at hopen ⊢
        by_cases hage : lim.ageDeadlineSecs ≤ agePast o.atAge item
        · rw [if_pos hage] at hopen
          exact absurd hopen (keeps_runFallback o item true _ st hclosed)
        · rw [if_neg hage] at hopen ⊢
          cases hresult : o.run.result with
          | ok files summary =>
            rw [hresult] at hopen
            have hdone := keeps_bind (keeps_markDone item.id files (.summary summary) o.atMark)
              fun _ => @keeps_cleanup o item.id
                (fun st => { st with integratedCount := st.integratedCount + 1 }) fun _ => rfl
            exact absurd hopen (hdone st hclosed)
          | err e =>
            rw [hresult] at hopen
            unfold afterRun at hopen ⊢
            dsimp only at hopen ⊢
            by_cases hretry : retries lim o item e = true
            · rw [if_pos hretry]
              refine ⟨?_, attempts_markFailed hrow⟩
              simpa using hage
            · rw [if_neg hretry] at hopen
              exact absurd hopen (keeps_runFallback o item true _ st hclosed)

/-! ## The ledger -/

/-- A row that may still be claimed has one attempt for each run of the agent and one for each
time it was put off. -/
structure Ledger (lim : QueueLimits) (id : Uuid) (es : List Event) (st : Storage) : Prop where
  key : PrimaryKey st.table
  fresh : lookup st.table id = none → agentRuns lim id es = 0 ∧ deferrals lim id es = 0
  attempts : ∀ r, lookup st.table id = some r → r.status = .staging ∨ r.status = .pending →
    r.attempts = agentRuns lim id es + deferrals lim id es

/-- INTERNAL: the counts after one more event. -/
theorem counts_snoc {lim : QueueLimits} {id : Uuid} {es : List Event} {st : Storage}
    (hrun : exec (queueStep lim) emptyQueue es = some st) (e : Event) :
    agentRuns lim id (es ++ [e]) = agentRuns lim id es + (deals (runsAgent lim) id st e).toNat ∧
      deferrals lim id (es ++ [e]) =
        deferrals lim id es + (deals (putsOff lim) id st e).toNat :=
  ⟨countAlong_snoc _ e hrun, countAlong_snoc _ e hrun⟩

/-- INTERNAL: an event that leaves a row alone and deals with no item of it. -/
theorem ledger_frame {lim : QueueLimits} {id : Uuid} {es : List Event} {st st' : Storage}
    {e : Event} (h : Ledger lim id es st) (hrun : exec (queueStep lim) emptyQueue es = some st)
    (hkey : PrimaryKey st'.table)
    (hrows : ∀ r', lookup st'.table id = some r' → r'.status = .staging ∨ r'.status = .pending →
      ∃ r, lookup st.table id = some r ∧ (r.status = .staging ∨ r.status = .pending) ∧
        r'.attempts = r.attempts)
    (hnone : lookup st'.table id = none → lookup st.table id = none)
    (hdeals : ∀ way, deals way id st e = false) : Ledger lim id (es ++ [e]) st' := by
  obtain ⟨hruns, hdeferrals⟩ := @counts_snoc lim id es st hrun e
  rw [hdeals, Bool.toNat_false, Nat.add_zero] at hruns hdeferrals
  refine ⟨hkey, ?_, ?_⟩
  · rw [hruns, hdeferrals]
    exact fun hmissing => h.fresh (hnone hmissing)
  · intro r' hr' hstatus'
    obtain ⟨r, hr, hstatus, hattempts⟩ := hrows r' hr' hstatus'
    rw [hruns, hdeferrals, hattempts]
    exact h.attempts r hr hstatus

/-- INTERNAL: the item of a visit is its row with one more attempt. -/
theorem claimedItem_row {o : Outcomes} {uid : Uuid} {t : Table} {item : MutationQueueItem}
    (hkey : PrimaryKey t) (h : claimedItem o uid t = some item) :
    ∃ r, lookup t item.id = some r ∧ r.status = .pending ∧ item.attempts = r.attempts + 1 ∧
      item.status = .running := by
  obtain ⟨hclaimed, hrow⟩ := claimedBy_of_claimedItem h
  obtain ⟨r, hr, hpending, -⟩ := claimedBy_row hkey hclaimed
  refine ⟨r, hr, hpending, ?_⟩
  rw [lookup_claim, hr, Option.map_some, if_pos ⟨rfl, hpending⟩] at hrow
  rw [← Option.some.inj hrow]
  exact ⟨rfl, rfl⟩

theorem lookup_eq_none_iff {t : Table} {id : Uuid} : lookup t id = none ↔ id ∉ t.map (·.id) := by
  unfold lookup
  rw [List.find?_eq_none, List.mem_map]
  constructor
  · rintro h ⟨r, hr, rfl⟩
    exact h r hr (decide_eq_true rfl)
  · intro h r hr hid
    exact h ⟨r, hr, of_decide_eq_true hid⟩

/-- INTERNAL: a claimed row that is still open after the visit. -/
theorem open_after_visit (lim : QueueLimits) {o : Outcomes} {uid : Uuid} {st : Storage}
    {item r : MutationQueueItem} (hkey : PrimaryKey st.table)
    (hitem : claimedItem o uid st.table = some item)
    (hr : lookup (outcome (processNextForUser lim o uid) st).2.table item.id = some r)
    (hstatus : r.status = .staging ∨ r.status = .pending) :
    r.attempts = item.attempts ∧ o.rereadError = none ∧
      (runsAgent lim o item).toNat + (putsOff lim o item).toNat = 1 := by
  obtain ⟨-, hrow⟩ := claimedBy_of_claimedItem hitem
  obtain ⟨-, -, -, -, hrunning⟩ := claimedItem_row hkey hitem
  have hclaimed : lookup (claimedStorage o st item.id).table item.id = some item := hrow
  rw [outcome_process_some hkey hitem] at hr
  cases hreread : o.rereadError with
  | some e =>
    simp only [hreread] at hr
    rw [hclaimed, Option.some.injEq] at hr
    rw [← hr, hrunning] at hstatus
    obtain h | h := hstatus
    · cases h
    · cases h
  | none =>
    simp only [hreread] at hr
    rw [(outcome_then_true _ _).1] at hr
    obtain ⟨hone, hattempts⟩ := open_after_item lim o hclaimed hrunning ⟨r, hr, hstatus⟩
    exact ⟨hattempts r hr, rfl, hone⟩

/-- A visit of the row keeps the ledger. -/
theorem ledger_visit {lim : QueueLimits} {id : Uuid} {es : List Event} {st : Storage} {uid : Uuid}
    {o : Outcomes} (h : Ledger lim id es st)
    (hrun : exec (queueStep lim) emptyQueue es = some st) :
    Ledger lim id (es ++ [.visit uid o])
      (outcome (processNextForUser lim o uid) (reconcileNotes o uid st)).2 := by
  have htable := reconcileNotes_table o uid st
  have hkey : PrimaryKey (reconcileNotes o uid st).table := by
    rw [htable]
    exact h.key
  cases hitem : claimedItem o uid st.table with
  | none =>
    have hclaimed : claimedBy o uid st.table = none := by
      cases hc : claimedBy o uid st.table with
      | none => rfl
      | some id' =>
        obtain ⟨item, hsome⟩ := exists_claimedItem h.key hc
        rw [hitem] at hsome
        cases hsome
    rw [outcome_process_none (by rw [htable]; exact hclaimed)]
    refine ledger_frame h hrun hkey ?_ ?_ ?_
    · intro r' hr' hstatus
      rw [htable] at hr'
      exact ⟨r', hr', hstatus, rfl⟩
    · rw [htable]
      exact fun hmissing => hmissing
    · intro way
      simp [deals, hitem]
  | some item =>
    have hitem' : claimedItem o uid (reconcileNotes o uid st).table = some item := by
      rw [htable]
      exact hitem
    obtain ⟨hids, hframe, -, -, -⟩ := process_ends lim hkey hitem'
    have hkey' : PrimaryKey
        (outcome (processNextForUser lim o uid) (reconcileNotes o uid st)).2.table := by
      unfold PrimaryKey
      rw [hids]
      exact hkey
    by_cases hid : item.id = id
    · subst hid
      obtain ⟨r, hr, hpending, hattempts, hrunning⟩ := claimedItem_row h.key hitem
      have hledger := h.attempts r hr (Or.inr hpending)
      obtain ⟨hruns, hdeferrals⟩ := @counts_snoc lim item.id es st hrun (.visit uid o)
      refine ⟨hkey', ?_, ?_⟩
      · intro hmissing
        rw [lookup_eq_none_iff, hids, htable, ← lookup_eq_none_iff, hr] at hmissing
        cases hmissing
      · intro r' hr' hstatus
        obtain ⟨hsame, hreread, hone⟩ := open_after_visit lim hkey hitem' hr' hstatus
        have hdeals (way : Outcomes → MutationQueueItem → Bool) :
            deals way item.id st (.visit uid o) = way o item := by
          simp [deals, hitem, hreread]
        rw [hdeals] at hruns hdeferrals
        omega
    · refine ledger_frame h hrun hkey' ?_ ?_ ?_
      · intro r' hr' hstatus
        rw [hframe id (Ne.symm hid), htable] at hr'
        exact ⟨r', hr', hstatus, rfl⟩
      · rw [hframe id (Ne.symm hid), htable]
        exact fun hmissing => hmissing
      · intro way
        simp [deals, hitem, hid]

theorem ledger_step {lim : QueueLimits} {id : Uuid} {es : List Event} {st st' : Storage}
    {e : Event} (h : Ledger lim id es st) (hrun : exec (queueStep lim) emptyQueue es = some st)
    (hstep : queueStep lim st e = some st') : Ledger lim id (es ++ [e]) st' := by
  cases e with
  | visit uid o =>
    cases hstep
    exact ledger_visit h hrun
  | enqueue id' uid tool source now =>
    dsimp only [queueStep] at hstep
    split at hstep
    · rename_i hfresh
      cases hstep
      have hlookup := lookup_enqueue st.table id' id uid tool source now hfresh
      obtain ⟨hruns, hdeferrals⟩ :=
        @counts_snoc lim id es st hrun (.enqueue id' uid tool source now)
      simp only [deals, Bool.toNat_false, Nat.add_zero] at hruns hdeferrals
      refine ⟨?_, ?_, ?_⟩
      · show (List.map _ (st.table ++ [stagingRow id' uid tool source now])).Nodup
        rw [List.map_append, List.nodup_append]
        refine ⟨h.key, by simp, ?_⟩
        rintro a ha b hb rfl
        rw [List.map_singleton, List.mem_singleton] at hb
        rw [hb] at ha
        exact lookup_eq_none_iff.mp hfresh ha
      · rw [hruns, hdeferrals]
        intro hmissing
        apply h.fresh
        by_cases hid : id = id'
        · rw [hid]
          exact hfresh
        · rw [if_neg hid] at hlookup
          rw [← hlookup]
          exact hmissing
      · intro r hr hstatus
        rw [hruns, hdeferrals]
        have hr' := hlookup.symm.trans hr
        by_cases hid : id = id'
        · subst hid
          rw [if_pos rfl, Option.some.injEq] at hr'
          obtain ⟨hzero, hzero'⟩ := h.fresh hfresh
          rw [hzero, hzero', ← hr']
          rfl
        · rw [if_neg hid] at hr'
          exact h.attempts r hr' hstatus
    · cases hstep
  | activate id' now =>
    cases hstep
    have hlookup := lookup_activate st.table id' id now
    refine ledger_frame h hrun ?_ ?_ ?_ fun _ => rfl
    · have hids : (Mycelium.Model.MutationQueue.activate st.table id' now).map (·.id) =
          st.table.map (·.id) := ids_updateWhere _ _ _ _ fun _ => rfl
      show (List.map _ (Mycelium.Model.MutationQueue.activate st.table id' now)).Nodup
      rw [hids]
      exact h.key
    · intro r' hr' hstatus
      obtain ⟨r, hr, rfl⟩ := Option.map_eq_some_iff.mp (hlookup.symm.trans hr')
      refine ⟨r, hr, ?_⟩
      by_cases hopen : id = id' ∧ (r.status = .staging ∨ r.status = .pending)
      · rw [if_pos hopen]
        exact ⟨hopen.2, rfl⟩
      · rw [if_neg hopen] at hstatus ⊢
        exact ⟨hstatus, rfl⟩
    · intro hmissing
      exact Option.map_eq_none_iff.mp (hlookup.symm.trans hmissing)

theorem ledger_exec {lim : QueueLimits} (id : Uuid) {es : List Event} {st : Storage}
    (hrun : exec (queueStep lim) emptyQueue es = some st) : Ledger lim id es st := by
  refine exec_trace_invariant (Ledger lim id) ?_ ?_ hrun
  · refine ⟨List.nodup_nil, fun _ => ⟨rfl, rfl⟩, ?_⟩
    intro r hr
    cases hr
  · intro es st e st' hrun h hstep
    exact ledger_step h hrun hstep

/-! ## The budget -/

/-- A visit of the row that runs the agent on the item. -/
def RunsOn (lim : QueueLimits) (id uid : Uuid) (o : Outcomes) (st : Storage)
    (item : MutationQueueItem) : Prop :=
  claimedItem o uid st.table = some item ∧ item.id = id ∧ o.rereadError = none ∧
    runsAgent lim o item = true

/-- Whenever the agent runs on the row, the attempts that decide what follows are its runs so
far, this one included; and it goes on to the fallback after a transient failure only with as
many runs as there are attempts, or past the deadline. -/
def BudgetKept (lim : QueueLimits) (id : Uuid) (es : List Event) : Prop :=
  ∀ before uid o after, es = before ++ .visit uid o :: after →
    ∀ st, exec (queueStep lim) emptyQueue before = some st → ∀ item, RunsOn lim id uid o st item →
      item.attempts = agentRuns lim id before + 1 ∧
      ∀ e, o.run.result = .err e → isTransient e = true → retries lim o item e = false →
        agePast o.atRetry item < lim.ageDeadlineSecs →
        lim.maxAttempts ≤ agentRuns lim id before + 1

/-- No run of the agent on the row comes after a visit that put it off. -/
def NeverPutOff (lim : QueueLimits) (id : Uuid) (es : List Event) : Prop :=
  ∀ before uid o after, es = before ++ .visit uid o :: after →
    ∀ st, exec (queueStep lim) emptyQueue before = some st → ∀ item, RunsOn lim id uid o st item →
      deferrals lim id before = 0

/-- **The retry budget.** In every run of the queue: the attempts of a row count its runs of the
agent alone exactly where no such run comes after a visit that put the row off.
SOURCE: queue_worker.rs:356-372, 457-507, 811-824, mutation_queue.rs:138-208 -/
theorem budget_kept_iff (lim : QueueLimits) (id : Uuid) (es : List Event) :
    BudgetKept lim id es ↔ NeverPutOff lim id es := by
  have hattempts (before : List Event) (uid : Uuid) (o : Outcomes) (st : Storage)
      (hrun : exec (queueStep lim) emptyQueue before = some st) (item : MutationQueueItem)
      (hruns : RunsOn lim id uid o st item) :
      item.attempts = agentRuns lim id before + deferrals lim id before + 1 := by
    obtain ⟨hitem, rfl, -, -⟩ := hruns
    have hledger := ledger_exec item.id hrun
    obtain ⟨r, hr, hpending, hone, -⟩ := claimedItem_row hledger.key hitem
    rw [hone, hledger.attempts r hr (Or.inr hpending)]
  constructor
  · intro hkept before uid o after hes st hrun item hruns
    have hcount := hattempts before uid o st hrun item hruns
    have hhonest := (hkept before uid o after hes st hrun item hruns).1
    omega
  · intro hnever before uid o after hes st hrun item hruns
    have hcount := hattempts before uid o st hrun item hruns
    have hzero := hnever before uid o after hes st hrun item hruns
    refine ⟨by omega, ?_⟩
    intro e _ htransient hretries hage
    have hspent : ¬ item.attempts < lim.maxAttempts := by
      intro hlt
      rw [retries, htransient, decide_eq_true hlt, decide_eq_true hage] at hretries
      cases hretries
    omega

/-- An item whose key is out of reach at its first two visits. -/
def lockedTwice : List Event :=
  [.enqueue 1 7 .add "chat" 0, .activate 1 0,
    .visit 7 { atClaim := 10, atAge := 10, atRetry := 10, key := .error "locked" },
    .visit 7 { atClaim := 50, atAge := 50, atRetry := 50, key := .error "locked" }]

/-- A visit whose run of the agent fails transiently. -/
def failedRun : Outcomes :=
  { atClaim := 90, atAge := 90, atRetry := 90, read := .ok (some ⟨.add, "", "note"⟩)
    run := .returned (.err .llmEmptyResponse) }

/-- The third visit runs the agent for the first time, and goes on to the fallback. -/
theorem budget_spent_by_deferrals : ¬ ∀ lim id es, BudgetKept lim id es := by
  intro hall
  have hkept := hall {} 1 (lockedTwice ++ [.visit 7 failedRun]) lockedTwice 7 failedRun [] rfl _ rfl
    _ ⟨rfl, rfl, rfl, rfl⟩
  exact absurd hkept.1 (by decide)

end Mycelium.Analysis.RetryBudget
