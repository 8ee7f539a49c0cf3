import Mycelium.Analysis.SessionExpiry
import Mycelium.Analysis.TimestampReader
import Mycelium.Model.QueueLifecycle
import Mycelium.Model.TimeColumns

/-!
# Statements over columns of timestamps

A statement that compares the times of a column selects and orders the same rows when the
times are written in another form that keeps their order (`selectsAlike`), and the rows
themselves are those of the instants, in whatever order the statements that write come
(`foldl_apply_mapTime`). With the order of the texts of instants, and with the session table,
this is `timestamps_order`.

At numbers of seconds the statements over the queue are those of
`Mycelium.Model.MutationQueue` (`apply_ofItem`, `dueCandidates_ofItem` and below).
-/

set_option autoImplicit false

namespace Mycelium.Analysis.TimestampColumns

open Grouping
open Mycelium.Model Mycelium.Model.TimeColumns
open Mycelium.Model.MutationQueue (QueueStatus MutationQueueItem QueueTool Detail)
open Mycelium.Model.Timestamps (Instant)
open Mycelium.Analysis.TimestampOrder (toRfc3339_strictMono toRfc3339_injective)
open Mycelium.Analysis.TimestampReader (readRfc3339 readRfc3339_toRfc3339)

variable {τ κ : Type}

/-! ## Writing -/

theorem updateWhere_mapTime (f : τ → κ) {set : QueueRow τ → QueueRow τ}
    {set' : QueueRow κ → QueueRow κ} (hset : ∀ row, set' (row.mapTime f) = (set row).mapTime f)
    (rows : List (QueueRow τ)) (id : ℕ) (status : QueueStatus → Bool) :
    updateWhere (rows.map (QueueRow.mapTime f)) id status set' =
      (updateWhere rows id status set).map (QueueRow.mapTime f) := by
  unfold updateWhere
  rw [List.map_map, List.map_map]
  apply List.map_congr_left
  intro row _
  show (if row.id = id ∧ status row.status then set' (row.mapTime f) else row.mapTime f) = _
  rw [hset, Function.comp, apply_ite (QueueRow.mapTime f)]

theorem apply_mapTime (f : τ → κ) (write : QueueWrite τ) (rows : List (QueueRow τ)) :
    (write.mapTime f).apply (rows.map (QueueRow.mapTime f)) =
      (write.apply rows).map (QueueRow.mapTime f) := by
  cases write with
  | enqueue id userId now =>
    rw [QueueWrite.mapTime, QueueWrite.apply, QueueWrite.apply, List.map_append]
    rfl
  | activate id now =>
    rw [QueueWrite.mapTime, QueueWrite.apply, QueueWrite.apply]
    exact updateWhere_mapTime f (fun _ => rfl) rows id _
  | claim id now =>
    rw [QueueWrite.mapTime, QueueWrite.apply, QueueWrite.apply]
    exact updateWhere_mapTime f (fun _ => rfl) rows id _
  | markDone id now =>
    rw [QueueWrite.mapTime, QueueWrite.apply, QueueWrite.apply]
    exact updateWhere_mapTime f (fun _ => rfl) rows id _
  | markFailed id nextRetryAt now =>
    rw [QueueWrite.mapTime, QueueWrite.apply, QueueWrite.apply]
    exact updateWhere_mapTime f (fun _ => rfl) rows id _
  | markDead id now =>
    rw [QueueWrite.mapTime, QueueWrite.apply, QueueWrite.apply]
    exact updateWhere_mapTime f (fun _ => rfl) rows id _
  | repairRunning id now =>
    rw [QueueWrite.mapTime, QueueWrite.apply, QueueWrite.apply]
    exact updateWhere_mapTime f (fun _ => rfl) rows id _

theorem foldl_apply_mapTime (f : τ → κ) (writes : List (QueueWrite τ)) (rows : List (QueueRow τ)) :
    (writes.map (QueueWrite.mapTime f)).foldl QueueWrite.apply (rows.map (QueueRow.mapTime f)) =
      (writes.foldl QueueWrite.apply rows).map (QueueRow.mapTime f) := by
  induction writes generalizing rows with
  | nil => rfl
  | cons write writes ih =>
    rw [List.map_cons, List.foldl_cons, List.foldl_cons, apply_mapTime]
    exact ih (write.apply rows)

/-! ## Selecting -/

section Select

variable [LinearOrder τ] [LinearOrder κ] {f : τ → κ}

/-- With the times written by `f`, statements select the same rows in the same order. -/
structure SelectsAlike (f : τ → κ) : Prop where
  whereLe : ∀ {α : Type} (column : α → τ) (rows : List α) (now : τ),
    rows.filter (fun a => f (column a) ≤ f now) = rows.filter fun a => column a ≤ now
  whereLt : ∀ {α : Type} (column : α → τ) (rows : List α) (now : τ),
    rows.filter (fun a => f (column a) < f now) = rows.filter fun a => column a < now
  orderBy : ∀ {α : Type} (column : α → τ) (rows : List α),
    sort (fun a => f (column a)) rows = sort column rows
  orderByDesc : ∀ {α : Type} (column : α → τ) (rows : List α),
    sortDesc (fun a => f (column a)) rows = sortDesc column rows
  orderByThen : ∀ {α ρ : Type} [LinearOrder ρ] (column : α → τ) (next : α → ρ) (rows : List α),
    sort (fun a => toLex (f (column a), next a)) rows =
      sort (fun a => toLex (column a, next a)) rows
  orderByDescThen : ∀ {α ρ : Type} [LinearOrder ρ] (column : α → τ) (next : α → ρ)
    (rows : List α),
    sortDesc (fun a => toLex (f (column a), next a)) rows =
      sortDesc (fun a => toLex (column a, next a)) rows
  due : ∀ (rows : List (QueueRow τ)) (userId : ℕ) (now : τ),
    dueCandidates (rows.map (QueueRow.mapTime f)) userId (f now) = dueCandidates rows userId now
  retry : ∀ (rows : List (QueueRow κ)) (id : ℕ) (next now t : τ),
    ∀ row ∈ (QueueWrite.markFailed id (f next) (f now)).apply rows, row.id = id →
      (isDue (f t) row = true ↔ next ≤ t)
  usersWithDue : ∀ (rows : List (QueueRow τ)) (now : τ),
    queueUsersWithDue (rows.map (QueueRow.mapTime f)) (f now) = queueUsersWithDue rows now
  withStatus : ∀ (rows : List (QueueRow τ)) (status : QueueStatus),
    rowsWithStatus (rows.map (QueueRow.mapTime f)) status =
      (rowsWithStatus rows status).map (QueueRow.mapTime f)
  waiting : ∀ rows : List (QueueRow τ),
    queueWaitingRows (rows.map (QueueRow.mapTime f)) =
      (queueWaitingRows rows).map (QueueRow.mapTime f)
  recent : ∀ (rows : List (QueueRow τ)) (limit : ℕ),
    queueRecentRows (rows.map (QueueRow.mapTime f)) limit =
      (queueRecentRows rows limit).map (QueueRow.mapTime f)
  pruned : ∀ (owes : ℕ → Bool) (rows : List (ChatSessionRow τ)) (userId limit : ℕ),
    prunedSessions owes (rows.map (ChatSessionRow.mapTime f)) userId limit =
      prunedSessions owes rows userId limit
  listed : ∀ (rows : List (ChatSessionRow τ)) (userId : ℕ),
    listSessions (rows.map (ChatSessionRow.mapTime f)) userId = listSessions rows userId

theorem isDue_mapTime (hf : StrictMono f) (now : τ) (row : QueueRow τ) :
    isDue (f now) (row.mapTime f) = isDue now row := by
  unfold isDue QueueRow.mapTime
  cases row.nextRetryAt with
  | none => rfl
  | some next => simp only [Option.map_some, Option.all_some, hf.le_iff_le]

theorem sort_createdAt (hf : StrictMono f) (rows : List (QueueRow τ)) :
    sort QueueRow.createdAt (rows.map (QueueRow.mapTime f)) =
      (sort QueueRow.createdAt rows).map (QueueRow.mapTime f) :=
  sort_map QueueRow.createdAt QueueRow.createdAt (QueueRow.mapTime f) hf (fun _ => rfl) rows

theorem dueCandidates_mapTime (hf : StrictMono f) (rows : List (QueueRow τ)) (userId : ℕ)
    (now : τ) :
    dueCandidates (rows.map (QueueRow.mapTime f)) userId (f now) = dueCandidates rows userId now := by
  unfold dueCandidates
  rw [List.filter_map]
  have hdue : ((fun row => decide (row.userId = userId) && isDue (f now) row) ∘
      QueueRow.mapTime f) = fun row => decide (row.userId = userId) && isDue now row := by
    funext row
    rw [Function.comp, isDue_mapTime hf]
    rfl
  rw [hdue, sort_createdAt hf, ← List.map_take, List.map_map]
  rfl

/-- A row that goes back to pending is due from its retry time on. -/
theorem isDue_markFailed (hf : StrictMono f) (rows : List (QueueRow κ)) (id : ℕ)
    (next now t : τ) {row : QueueRow κ} (hrow : row ∈ (QueueWrite.markFailed id (f next) (f now)).apply rows)
    (hid : row.id = id) : isDue (f t) row = true ↔ next ≤ t := by
  unfold QueueWrite.apply updateWhere at hrow
  obtain ⟨old, -, rfl⟩ := List.mem_map.mp hrow
  by_cases hold : old.id = id
  · simp [isDue, hold, hf.le_iff_le]
  · simp [hold] at hid

theorem queueUsersWithDue_mapTime (hf : StrictMono f) (rows : List (QueueRow τ)) (now : τ) :
    queueUsersWithDue (rows.map (QueueRow.mapTime f)) (f now) = queueUsersWithDue rows now := by
  unfold queueUsersWithDue
  have hdue : isDue (f now) ∘ QueueRow.mapTime f = isDue now := funext (isDue_mapTime hf now)
  rw [List.filter_map, hdue, sort_createdAt hf, List.map_map]
  rfl

theorem rowsWithStatus_mapTime (hf : StrictMono f) (rows : List (QueueRow τ))
    (status : QueueStatus) :
    rowsWithStatus (rows.map (QueueRow.mapTime f)) status =
      (rowsWithStatus rows status).map (QueueRow.mapTime f) := by
  unfold rowsWithStatus
  rw [List.filter_map, sort_createdAt hf]
  rfl

theorem queueWaitingRows_mapTime (hf : StrictMono f) (rows : List (QueueRow τ)) :
    queueWaitingRows (rows.map (QueueRow.mapTime f)) =
      (queueWaitingRows rows).map (QueueRow.mapTime f) := by
  unfold queueWaitingRows
  rw [List.filter_map, sort_createdAt hf]
  rfl

theorem queueRecentRows_mapTime (hf : StrictMono f) (rows : List (QueueRow τ)) (limit : ℕ) :
    queueRecentRows (rows.map (QueueRow.mapTime f)) limit =
      (queueRecentRows rows limit).map (QueueRow.mapTime f) := by
  unfold queueRecentRows
  rw [sortDesc_map QueueRow.createdAt QueueRow.createdAt (QueueRow.mapTime f) hf fun _ => rfl,
    List.map_take]

theorem prunedSessions_mapTime (hf : StrictMono f) (owes : ℕ → Bool)
    (rows : List (ChatSessionRow τ)) (userId limit : ℕ) :
    prunedSessions owes (rows.map (ChatSessionRow.mapTime f)) userId limit =
      prunedSessions owes rows userId limit := by
  unfold prunedSessions
  rw [List.filter_map, sort_map ChatSessionRow.updatedAt ChatSessionRow.updatedAt
    (ChatSessionRow.mapTime f) hf fun _ => rfl, ← List.map_take, List.map_map]
  rfl

theorem listSessions_mapTime (hf : StrictMono f) (rows : List (ChatSessionRow τ)) (userId : ℕ) :
    listSessions (rows.map (ChatSessionRow.mapTime f)) userId = listSessions rows userId := by
  unfold listSessions
  rw [List.filter_map, sortDesc_map ChatSessionRow.updatedAt ChatSessionRow.updatedAt
    (ChatSessionRow.mapTime f) hf fun _ => rfl, List.map_map]
  rfl

theorem selectsAlike (hf : StrictMono f) : SelectsAlike f where
  whereLe column rows now := by simp only [hf.le_iff_le]
  whereLt column rows now := by simp only [hf.lt_iff_lt]
  orderBy column rows := sort_comp column hf rows
  orderByDesc column rows := sortDesc_comp column hf rows
  orderByThen column next rows :=
    sort_comp (fun a => toLex (column a, next a)) (strictMono_lex hf) rows
  orderByDescThen column next rows :=
    sortDesc_comp (fun a => toLex (column a, next a)) (strictMono_lex hf) rows
  due := dueCandidates_mapTime hf
  retry rows id next now t _ hrow hid := isDue_markFailed hf rows id next now t hrow hid
  usersWithDue := queueUsersWithDue_mapTime hf
  withStatus := rowsWithStatus_mapTime hf
  waiting := queueWaitingRows_mapTime hf
  recent := queueRecentRows_mapTime hf
  pruned := prunedSessions_mapTime hf
  listed := listSessions_mapTime hf

end Select

/-! ## Seconds -/

section Seconds

def ofItem (item : MutationQueueItem) : QueueRow ℕ where
  id := item.id
  userId := item.userId
  status := item.status
  attempts := item.attempts
  createdAt := item.createdAt
  updatedAt := item.updatedAt
  nextRetryAt := item.nextRetryAt

/-- The statements that write, with the columns that are not kept. -/
def writeItem (tool : QueueTool) (source : String) (paths : List String) (detail : Detail)
    (t : MutationQueue.Table) : QueueWrite ℕ → MutationQueue.Table
  | .enqueue id userId now => MutationQueue.enqueue t id userId tool source now
  | .activate id now => MutationQueue.activate t id now
  | .claim id now => MutationQueue.claim t id now
  | .markDone id now => MutationQueue.markDone t id paths detail now
  | .markFailed id nextRetryAt now => MutationQueue.markFailed t id nextRetryAt detail now
  | .markDead id now => MutationQueue.markDead t id detail now
  | .repairRunning id now => QueueLifecycle.repairRunning t id now

variable (t : MutationQueue.Table)

theorem updateWhere_ofItem {set : MutationQueueItem → MutationQueueItem}
    {set' : QueueRow ℕ → QueueRow ℕ} (hset : ∀ item, set' (ofItem item) = ofItem (set item))
    (id : ℕ) (status : QueueStatus → Bool) :
    updateWhere (t.map ofItem) id status set' =
      (MutationQueue.updateWhere t id (fun item => status item.status) set).map ofItem := by
  unfold updateWhere MutationQueue.updateWhere
  rw [List.map_map, List.map_map]
  apply List.map_congr_left
  intro item _
  show (if item.id = id ∧ status item.status then set' (ofItem item) else ofItem item) = _
  rw [hset, Function.comp, apply_ite ofItem]

theorem apply_ofItem (tool : QueueTool) (source : String) (paths : List String) (detail : Detail)
    (write : QueueWrite ℕ) :
    write.apply (t.map ofItem) = (writeItem tool source paths detail t write).map ofItem := by
  cases write with
  | enqueue id userId now =>
    rw [QueueWrite.apply, writeItem, MutationQueue.enqueue, List.map_append]
    rfl
  | activate id now =>
    rw [QueueWrite.apply, writeItem]
    exact updateWhere_ofItem t (fun _ => rfl) id _
  | claim id now =>
    rw [QueueWrite.apply, writeItem]
    exact updateWhere_ofItem t (fun _ => rfl) id _
  | markDone id now =>
    rw [QueueWrite.apply, writeItem]
    exact updateWhere_ofItem t (fun _ => rfl) id _
  | markFailed id nextRetryAt now =>
    rw [QueueWrite.apply, writeItem]
    exact updateWhere_ofItem t (fun _ => rfl) id _
  | markDead id now =>
    rw [QueueWrite.apply, writeItem]
    exact updateWhere_ofItem t (fun _ => rfl) id _
  | repairRunning id now =>
    rw [QueueWrite.apply, writeItem]
    exact updateWhere_ofItem t (fun _ => rfl) id _

theorem sort_ofItem :
    sort QueueRow.createdAt (t.map ofItem) = (MutationQueue.byAge t).map ofItem :=
  sort_map MutationQueueItem.createdAt QueueRow.createdAt ofItem strictMono_id (fun _ => rfl) t

theorem dueCandidates_ofItem (userId now : ℕ) :
    dueCandidates (t.map ofItem) userId now = MutationQueue.dueCandidates t userId now := by
  unfold dueCandidates MutationQueue.dueCandidates
  rw [List.filter_map, sort_ofItem, ← List.map_take, List.map_map]
  rfl

theorem queueUsersWithDue_ofItem (now : ℕ) :
    queueUsersWithDue (t.map ofItem) now = MutationQueue.queueUsersWithDue t now := by
  unfold queueUsersWithDue MutationQueue.queueUsersWithDue
  rw [List.filter_map, sort_ofItem, List.map_map]
  rfl

theorem rowsWithStatus_ofItem (status : QueueStatus) :
    rowsWithStatus (t.map ofItem) status =
      (MutationQueue.rowsWithStatus t status).map ofItem := by
  unfold rowsWithStatus MutationQueue.rowsWithStatus
  rw [List.filter_map, sort_ofItem]
  rfl

end Seconds

/-! ## Timestamps -/

open Mycelium.Model.Sessions in
/-- **Timestamps order like time.** The texts of instants compare as the instants; with them in
their columns the statements select and order as by the instants, and the rows of the queue are
always those of the instants; and the maintenance deletes the sessions of a table that a lookup
at the same instant reports as not found. -/
theorem timestamps_order (X : Crates)
    (hparse : ∀ i : Instant, X.parseFromRfc3339 i.toRfc3339 = some i) :
    (∀ i j : Instant, (i.toRfc3339 < j.toRfc3339 ↔ i < j) ∧ (i.toRfc3339 = j.toRfc3339 ↔ i = j)) ∧
    SelectsAlike Instant.toRfc3339 ∧
    (∀ writes : List (QueueWrite Instant),
      (writes.map (QueueWrite.mapTime Instant.toRfc3339)).foldl QueueWrite.apply [] =
        (writes.foldl QueueWrite.apply []).map (QueueRow.mapTime Instant.toRfc3339)) ∧
    ∀ calls t, StepSystem.exec (step X) [] calls = some t → ∀ now,
      (purgeExpired t now).2.Sublist t ∧
      (purgeExpired t now).1 + (purgeExpired t now).2.length = t.length ∧
      ∀ r ∈ t,
        (∃ expires : Instant, r.expiresAt = expires.toRfc3339 ∧
          (r ∉ (purgeExpired t now).2 ↔ expires < now)) ∧
        (∃ sessionId, r.id = X.hashSessionId sessionId) ∧
        ∀ sessionId deletes, r.id = X.hashSessionId sessionId →
          (r ∉ (purgeExpired t now).2 ↔ (get X t sessionId now deletes).1 = .error .notFound) := by
  refine ⟨fun i j => ⟨toRfc3339_strictMono.lt_iff_lt, toRfc3339_injective.eq_iff⟩,
    selectsAlike toRfc3339_strictMono, fun writes => foldl_apply_mapTime _ writes [], ?_⟩
  intro calls t hrun now
  have hinv := SessionExpiry.inv_of_exec hrun
  refine ⟨List.filter_sublist, SessionExpiry.purged_add_left t now, ?_⟩
  intro r hr
  refine ⟨?_, hinv.hashed r hr, ?_⟩
  · obtain ⟨expires, hexpires⟩ := hinv.expiry r hr
    refine ⟨expires, hexpires, ?_⟩
    rw [SessionExpiry.mem_purged_iff hr hexpires, not_not]
  · intro sessionId deletes hid
    exact SessionExpiry.purged_iff hparse hinv hr hid now deletes

/-- One instant and half a second later, and a session that expires at the first of them. -/
theorem timestamps_order_half_second :
    let second : Instant := ⟨63871977599, 0, by decide, by decide⟩
    let later : Instant := ⟨63871977599, 500000000, by decide, by decide⟩
    let X : Sessions.Crates := ⟨fun id => String.ofList (Decimal.pad 64 id), readRfc3339⟩
    let row : Sessions.SessionRow :=
      { id := X.hashSessionId 1, userId := 7, csrfToken := "myc2-csrf-" ++ "token"
        createdAt := second.toRfc3339, expiresAt := second.toRfc3339 }
    second.toRfc3339 < later.toRfc3339 ∧
      StepSystem.exec (Sessions.step X) [] [.create 7 0 1 "token" second] = some [row] ∧
      row ∉ (Sessions.purgeExpired [row] later).2 ∧
      (Sessions.get X [row] 1 later true).1 = .error .notFound := by
  intro second later X row
  obtain ⟨horder, -, -, hsessions⟩ := timestamps_order X readRfc3339_toRfc3339
  have hinstants : second < later := by decide
  have hlt : second.toRfc3339 < later.toRfc3339 := (horder second later).1.mpr hinstants
  have hrun : StepSystem.exec (Sessions.step X) [] [.create 7 0 1 "token" second] = some [row] := by
    have hplus : second.plus 0 = some second := by decide
    rw [StepSystem.exec, Sessions.step, Sessions.createWithTtl, hplus]
    rfl
  obtain ⟨-, -, hrows⟩ := hsessions _ _ hrun later
  obtain ⟨⟨expires, hexpires, hpurged⟩, -, hget⟩ := hrows row List.mem_cons_self
  have hsecond : second = expires := toRfc3339_injective hexpires
  rw [← hsecond] at hpurged
  have hmem := hpurged.mpr hinstants
  exact ⟨hlt, hrun, hmem, (hget 1 true rfl).mp hmem⟩

end Mycelium.Analysis.TimestampColumns
