import Mycelium.Lib.StepSystem
import Mycelium.Model.ChatRunner
import Mycelium.Analysis.ChatTables

/-!
# Running chat turns and their runners

A turn is set running by a store call that commits before its runner exists; from then on
it is the runner, or the guard that outlives it, which must end the turn. `HasRunner` says
of a state that every running turn has a registered runner or guard that has yet to end
it, or belongs to a submit or a claim that is about to spawn one.

Two steps break it. A request that is dropped between its commit and the spawn leaves a
running turn that nobody will end. And a run that has ended its turn takes the registry
entry of the turn away in a step of its own: when the turn was claimed again in between,
the entry is that of the new runner, whose guard is then defused. `keepsRunner` leaves
these out, and is exact.

SOURCE: crates/mycelium-web/src/chat_runner.rs, crates/mycelium-web/src/chat_api.rs
-/

set_option autoImplicit false

namespace Mycelium.Analysis.ChatRunners

open StepSystem Mycelium.Model.ChatStore Mycelium.Model.ChatRunner
open Mycelium.Analysis.ChatTables

/-! ## Statements -/

def running (db : ChatDb) (turn : ℕ) : Bool :=
  match db.turns.get? turn with
  | some row => row.status = .running
  | none => false

def isSpawn : Pc → Bool
  | .spawn => true
  | _ => false

/-- The run has yet to end its turn. -/
def owes : Pc → Bool
  | .history | .admission | .persist _ _ _ _ | .finish _ _ | .park _ | .guardFinalize => true
  | _ => false

/-- The run is a registered runner that owes the end of the turn, or a call that has yet
to spawn it. -/
def covers (s : State) (i turn : ℕ) : Bool :=
  match s.runs i with
  | some r => r.turn = turn && (isSpawn r.pc || (owes r.pc && decide (turn ∈ s.registry)))
  | none => false

def HasRunner (s : State) : Prop := ∀ turn, running s.db turn = true → ∃ i, covers s i turn = true

/-- The store answers: no store call fails and the boot sweep goes through. -/
def workingStore : Action → Bool
  | .step _ ch => ch.storeOk
  | .claim _ _ storeOk _ => storeOk
  | .crash sweepOk _ => sweepOk
  | _ => true

/-- A call is not dropped before its spawn, and a registry entry is not removed, while the
turn is running and nothing else covers it. -/
def keepsRunner (s : State) : Action → Prop
  | .abort i => ∀ r, s.runs i = some r → isSpawn r.pc = true → running s.db r.turn = true →
      ∃ j, j ≠ i ∧ covers s j r.turn = true
  | .step i _ => ∀ r, s.runs i = some r → r.pc = .leave → running s.db r.turn = true →
      ∃ j q, s.runs j = some q ∧ q.turn = r.turn ∧ isSpawn q.pc = true
  | _ => True

/-! ## The tables under the runs -/

theorem running_iff {db : ChatDb} {turn : ℕ} :
    running db turn = true ↔ ∃ row, db.turns.get? turn = some row ∧ row.status = .running := by
  unfold running
  split
  · rename_i row hget
    simp [hget]
  · rename_i hget
    simp [hget]

/-- The end a run is about to write is not `running`. -/
def EndsTurn : Pc → Prop
  | .finish status _ => status ≠ .running
  | _ => True

/-- The row of the run's turn is in a session of its user. -/
def RowOwned (db : ChatDb) (r : Run) : Prop :=
  ∃ row, db.turns.get? r.turn = some row ∧ db.owned r.user row.sessionId = true

structure Inv (s : State) : Prop where
  owned : ∀ i r, s.runs i = some r → RowOwned s.db r
  ends : ∀ i r, s.runs i = some r → EndsTurn r.pc
  parked : ∀ turn row, s.db.turns.get? turn = some row → row.parkState ≠ .running

/-- What a step may do to the tables: rows stay in their sessions, the sessions keep their
owners, and no row comes to park in `running`. -/
structure Keeps (db db' : ChatDb) : Prop where
  rows : ∀ turn row, db.turns.get? turn = some row →
    ∃ row', db'.turns.get? turn = some row' ∧ row'.sessionId = row.sessionId
  owned : ∀ user session, db'.owned user session = db.owned user session
  parked : (∀ turn row, db.turns.get? turn = some row → row.parkState ≠ .running) →
    ∀ turn row, db'.turns.get? turn = some row → row.parkState ≠ .running

theorem keeps_refl (db : ChatDb) : Keeps db db :=
  ⟨fun _ row hget => ⟨row, hget, rfl⟩, fun _ _ => rfl, id⟩

theorem rowOwned_keeps {db db' : ChatDb} (h : Keeps db db') {r : Run} (hr : RowOwned db r) :
    RowOwned db' r := by
  obtain ⟨row, hget, hown⟩ := hr
  obtain ⟨row', hget', hsession⟩ := h.rows r.turn row hget
  refine ⟨row', hget', ?_⟩
  rw [hsession, h.owned]
  exact hown

theorem keeps_setTurn {db : ChatDb} {turn : ℕ} {row row' : TurnRow}
    (hget : db.turns.get? turn = some row) (hsession : row'.sessionId = row.sessionId)
    (hpark : row.parkState ≠ .running → row'.parkState ≠ .running) :
    Keeps db (setTurn db turn row') := by
  refine ⟨?_, fun _ _ => rfl, ?_⟩
  · intro turn' row₁ hget₁
    rw [get?_setTurn]
    by_cases ht : turn' = turn
    · rw [if_pos ht]
      rw [ht, hget] at hget₁
      cases hget₁
      exact ⟨row', rfl, hsession⟩
    · rw [if_neg ht]
      exact ⟨row₁, hget₁, rfl⟩
  · intro hparked turn' row₁ hget₁
    rw [get?_setTurn] at hget₁
    by_cases ht : turn' = turn
    · rw [if_pos ht] at hget₁
      cases hget₁
      exact hpark (hparked turn row hget)
    · rw [if_neg ht] at hget₁
      exact hparked turn' row₁ hget₁

theorem keeps_appended (db : ChatDb) (m : MessageRow) (now : ℕ) : Keeps db (appended db m now) := by
  refine ⟨?_, ?_, ?_⟩
  · intro turn row hget
    rw [appended, touch_turns]
    exact ⟨row, hget, rfl⟩
  · intro user session
    exact owned_touch db m.sessionId now user session
  · intro hparked turn row hget
    rw [appended, touch_turns] at hget
    exact hparked turn row hget

/-! ## Store calls of a run -/

/-- INTERNAL: an append writes a message or nothing. -/
theorem append_eq (db : ChatDb) (r : Run) (ch : Choice) (role : ChatRole) (content : String) :
    append db r ch role content = db ∨
      ∃ m : MessageRow, append db r ch role content = appended db m ch.now := by
  unfold append
  split
  · split
    · rename_i db' seq h
      obtain ⟨m, -, heq⟩ := appendMessage_eq_ok h
      exact Or.inr ⟨m, heq⟩
    · exact Or.inl rfl
  · exact Or.inl rfl

/-- INTERNAL: with a working store the end of a run sets the row of its turn when that is
running. -/
theorem endRun_owned {db : ChatDb} {r : Run} (set : TurnRow → TurnRow) (h : RowOwned db r) :
    ∃ row, db.turns.get? r.turn = some row ∧
      db.endRun r.user r.turn set =
        .ok (if row.status = .running then setTurn db r.turn (set row) else db) := by
  obtain ⟨row, hget, hown⟩ := h
  refine ⟨row, hget, ?_⟩
  unfold ChatDb.endRun
  rw [hget]
  simp only [hown, if_true]
  split <;> rfl

/-- What ends a turn leaves its row with a status that is not `running`. -/
structure Ended (db db' : ChatDb) (turn : ℕ) : Prop where
  keeps : Keeps db db'
  own : running db' turn = false
  others : ∀ turn', running db' turn' = true → running db turn' = true

theorem ended_of_set {db : ChatDb} {turn : ℕ} {row row' : TurnRow}
    (hget : db.turns.get? turn = some row) (hstatus : row'.status ≠ .running)
    (hsession : row'.sessionId = row.sessionId) (hpark : row'.parkState = row.parkState) :
    Ended db (if row.status = .running then setTurn db turn row' else db) turn := by
  by_cases hrun : row.status = .running
  · rw [if_pos hrun]
    refine ⟨keeps_setTurn hget hsession (fun h => hpark ▸ h), ?_, ?_⟩
    · rw [Bool.eq_false_iff]
      intro h
      obtain ⟨row₁, hget₁, hrun₁⟩ := running_iff.mp h
      rw [get?_setTurn, if_pos rfl] at hget₁
      cases hget₁
      exact hstatus hrun₁
    · intro turn' h
      obtain ⟨row₁, hget₁, hrun₁⟩ := running_iff.mp h
      rw [get?_setTurn] at hget₁
      by_cases ht : turn' = turn
      · rw [if_pos ht] at hget₁
        cases hget₁
        exact absurd hrun₁ hstatus
      · rw [if_neg ht] at hget₁
        exact running_iff.mpr ⟨row₁, hget₁, hrun₁⟩
  · rw [if_neg hrun]
    refine ⟨keeps_refl db, ?_, fun _ h => h⟩
    rw [Bool.eq_false_iff]
    intro h
    obtain ⟨row₁, hget₁, hrun₁⟩ := running_iff.mp h
    rw [hget] at hget₁
    cases hget₁
    exact hrun hrun₁

theorem ended_finalize {db : ChatDb} {r : Run} {ch : Choice} {status : ChatTurnStatus}
    (h : RowOwned db r) (hok : ch.storeOk = true) (hstatus : status ≠ .running) :
    Ended db (finalize db r ch status) r.turn := by
  obtain ⟨row, hget, heq⟩ := endRun_owned (fun row => { row with status, updatedAt := ch.now }) h
  unfold finalize ChatDb.finalizeTurn
  rw [if_pos hok, heq]
  exact ended_of_set hget hstatus rfl rfl

theorem ended_parkTurn {db : ChatDb} {r : Run} {ch : Choice} {why : String}
    (h : RowOwned db r) (hok : ch.storeOk = true) : Ended db (parkTurn db r ch why) r.turn := by
  obtain ⟨row, hget, heq⟩ := endRun_owned
    (fun row => { row with
      status := .waitingBackend, lastError := some why, updatedAt := ch.now }) h
  unfold parkTurn ChatDb.parkWaiting
  rw [if_pos hok, heq]
  exact ended_of_set hget nofun rfl rfl

theorem keeps_append (db : ChatDb) (r : Run) (ch : Choice) (role : ChatRole) (content : String) :
    Keeps db (append db r ch role content) := by
  rcases append_eq db r ch role content with heq | ⟨m, heq⟩
  · rw [heq]
    exact keeps_refl db
  · rw [heq]
    exact keeps_appended db m ch.now

theorem running_append (db : ChatDb) (r : Run) (ch : Choice) (role : ChatRole) (content : String)
    (turn : ℕ) : running (append db r ch role content) turn = running db turn := by
  rcases append_eq db r ch role content with heq | ⟨m, heq⟩
  · rw [heq]
  · rw [heq]
    unfold running
    rw [appended, touch_turns]

/-! ## Steps of a run -/

/-- What a step of a spawned run does: no turn is set running, and a run that owes the end
of its turn still does, or has ended it. -/
structure RunStep (db : ChatDb) (r : Run) (db' : ChatDb) (pc : Pc) : Prop where
  keeps : Keeps db db'
  ends : EndsTurn pc
  spawned : isSpawn pc = false
  running : ∀ turn, running db' turn = true → running db turn = true
  owes : owes r.pc = true → owes pc = true ∨ ChatRunners.running db' r.turn = false

theorem runStep_same {db : ChatDb} {r : Run} {pc : Pc} (hends : EndsTurn pc)
    (hspawned : isSpawn pc = false) (howes : ChatRunners.owes r.pc = true → ChatRunners.owes pc = true) :
    RunStep db r db pc :=
  ⟨keeps_refl db, hends, hspawned, fun _ h => h, fun h => Or.inl (howes h)⟩

theorem runStep_append {db : ChatDb} {r : Run} {pc : Pc} (ch : Choice) (role : ChatRole)
    (content : String) (hends : EndsTurn pc) (hspawned : isSpawn pc = false)
    (howes : ChatRunners.owes r.pc = true → ChatRunners.owes pc = true) :
    RunStep db r (append db r ch role content) pc :=
  ⟨keeps_append db r ch role content, hends, hspawned,
    fun turn h => (running_append db r ch role content turn).symm.trans h,
    fun h => Or.inl (howes h)⟩

theorem runStep_ended {db db' : ChatDb} {r : Run} {pc : Pc} (h : Ended db db' r.turn)
    (hends : EndsTurn pc) (hspawned : isSpawn pc = false) : RunStep db r db' pc :=
  ⟨h.keeps, hends, hspawned, h.others, fun _ => Or.inr h.own⟩

theorem brokenStatus_ne_running (resumed : Bool) : brokenStatus resumed ≠ .running := by
  cases resumed <;> nofun

/-- INTERNAL: what follows the agent owes the end of the turn. -/
theorem afterAgent_owes (short : String → String) (resumed d f : Bool) (backend : BackendState)
    (result : Except AgentError String) :
    EndsTurn (afterAgent short resumed d f backend result) ∧
      isSpawn (afterAgent short resumed d f backend result) = false ∧
      owes (afterAgent short resumed d f backend result) = true := by
  cases result with
  | ok reply =>
    simp only [afterAgent]
    split
    · exact ⟨nofun, rfl, rfl⟩
    · exact ⟨trivial, rfl, rfl⟩
  | error e =>
    cases e with
    | llm e =>
      simp only [afterAgent]
      split
      · exact ⟨trivial, rfl, rfl⟩
      · exact ⟨brokenStatus_ne_running resumed, rfl, rfl⟩
    | store m => exact ⟨nofun, rfl, rfl⟩
    | stepCapExceeded => exact ⟨nofun, rfl, rfl⟩
    | badToolArgs name reason => exact ⟨nofun, rfl, rfl⟩

theorem runStep_spec (fmt : Format) {db : ChatDb} {r : Run} {ch : Choice}
    (hok : ch.storeOk = true) (hown : RowOwned db r) (hends : EndsTurn r.pc) :
    RunStep db r (runStep fmt db r ch).1 (runStep fmt db r ch).2 := by
  obtain ⟨user, session, turn, resumed, pc⟩ := r
  cases pc with
  | spawn => exact runStep_same trivial rfl fun _ => rfl
  | history =>
    simp only [runStep, hok, if_true]
    exact runStep_same trivial rfl fun _ => rfl
  | admission =>
    simp only [runStep]
    split
    · exact runStep_same trivial rfl fun _ => rfl
    · split
      · exact runStep_same trivial rfl fun _ => rfl
      · exact runStep_same nofun rfl fun _ => rfl
      · exact runStep_same nofun rfl fun _ => rfl
  | persist pending doneSeen failedSeen result =>
    cases pending with
    | nil =>
      obtain ⟨hends', hspawned, howes⟩ :=
        afterAgent_owes fmt.short resumed doneSeen failedSeen ch.health result
      exact runStep_same hends' hspawned fun _ => howes
    | cons event pending => exact runStep_append ch _ _ trivial rfl fun _ => rfl
  | finish status errorRow =>
    cases errorRow with
    | some message => exact runStep_append ch _ _ hends rfl fun _ => rfl
    | none => exact runStep_ended (ended_finalize hown hok hends) trivial rfl
  | park why => exact runStep_ended (ended_parkTurn hown hok) trivial rfl
  | guardFinalize =>
    exact runStep_ended (ended_finalize hown hok (brokenStatus_ne_running resumed)) trivial rfl
  | guardAppend => exact runStep_append ch _ _ trivial rfl nofun
  | leave => exact runStep_same trivial rfl nofun

/-! ## Steps of the system -/

theorem covers_iff {s : State} {i turn : ℕ} :
    covers s i turn = true ↔ ∃ r, s.runs i = some r ∧ r.turn = turn ∧
      (isSpawn r.pc = true ∨ owes r.pc = true ∧ turn ∈ s.registry) := by
  unfold covers
  split
  · rename_i r hr
    simp [hr]
  · rename_i hr
    simp [hr]

/-- INTERNAL: a run that another step does not concern goes on covering. -/
theorem covers_setRun_ne {s : State} {db : ChatDb} {registry : List ℕ} {i j turn : ℕ}
    {r : Option Run} (hj : j ≠ i) (hreg : turn ∈ s.registry → turn ∈ registry)
    (h : covers s j turn = true) :
    covers ({ s with db, registry }.setRun i r) j turn = true := by
  obtain ⟨q, hq, hturn, hcov⟩ := covers_iff.mp h
  refine covers_iff.mpr ⟨q, ?_, hturn, ?_⟩
  · simp only [State.setRun, if_neg hj]
    exact hq
  · rcases hcov with hspawn | ⟨howes, hmem⟩
    · exact Or.inl hspawn
    · exact Or.inr ⟨howes, hreg hmem⟩

theorem covers_setRun_self {s : State} {db : ChatDb} {registry : List ℕ} {i : ℕ} {r : Run}
    (h : isSpawn r.pc = true ∨ owes r.pc = true ∧ r.turn ∈ registry) :
    covers ({ s with db, registry }.setRun i (some r)) i r.turn = true := by
  refine covers_iff.mpr ⟨r, ?_, rfl, h⟩
  simp only [State.setRun, if_true]

/-- INTERNAL: tables with no new running turn, and one run that moved on. -/
theorem hasRunner_setRun {s : State} (h : HasRunner s) {db : ChatDb} {registry : List ℕ} {i : ℕ}
    {r : Option Run} (hreg : ∀ turn, turn ∈ s.registry → turn ∈ registry)
    (hruns : ∀ turn, running db turn = true →
      running s.db turn = true ∨ covers ({ s with db, registry }.setRun i r) i turn = true)
    (hown : ∀ turn, running db turn = true → covers s i turn = true →
      ∃ j, covers ({ s with db, registry }.setRun i r) j turn = true) :
    HasRunner ({ s with db, registry }.setRun i r) := by
  intro turn hrun
  rcases hruns turn hrun with hold | hnew
  · obtain ⟨j, hj⟩ := h turn hold
    by_cases hji : j = i
    · exact hown turn hrun (hji ▸ hj)
    · exact ⟨j, covers_setRun_ne hji (hreg turn) hj⟩
  · exact ⟨i, hnew⟩

theorem inv_setRun {s : State} (h : Inv s) {db : ChatDb} {registry : List ℕ} {i : ℕ}
    {r : Option Run} (hkeeps : Keeps s.db db) (hnew : ∀ q, r = some q → RowOwned db q ∧ EndsTurn q.pc) :
    Inv ({ s with db, registry }.setRun i r) := by
  refine ⟨?_, ?_, hkeeps.parked h.parked⟩
  · intro j q hq
    simp only [State.setRun] at hq
    by_cases hj : j = i
    · rw [if_pos hj] at hq
      exact (hnew q hq).1
    · rw [if_neg hj] at hq
      exact rowOwned_keeps hkeeps (h.owned j q hq)
  · intro j q hq
    simp only [State.setRun] at hq
    by_cases hj : j = i
    · rw [if_pos hj] at hq
      exact (hnew q hq).2
    · rw [if_neg hj] at hq
      exact h.ends j q hq

/-- What the two parts of the proof carry along a run. -/
def Ok (s : State) : Prop := Inv s ∧ HasRunner s

theorem keeps_submitted {db : ChatDb} {session turn now : ℕ} {message : String}
    (hnew : db.turns.get? turn = none) : Keeps db (submitted db session turn message now) := by
  refine ⟨?_, ?_, ?_⟩
  · intro turn' row hget
    have hne : turn' ≠ turn := by
      rintro rfl
      rw [hnew] at hget
      cases hget
    refine ⟨abandon session now row, ?_, abandon_sessionId session now row⟩
    simp only [submitted, Dict.get?_insert, Dict.get?_mapValues, if_neg hne, hget, Option.map_some]
  · intro user session'
    exact owned_touch db session now user session'
  · intro hparked turn' row hget
    rcases get?_submitted hget with ⟨-, rfl⟩ | ⟨-, row₀, hget₀, rfl⟩
    · intro hrow
      cases hrow
    · rw [abandon_parkState]
      exact hparked turn' row₀ hget₀

/-- INTERNAL: a new run of a turn that a store call has set running. -/
theorem ok_spawn {s : State} (h : Ok s) {db : ChatDb} {i user session turn : ℕ} {resumed : Bool}
    (hfree : s.runs i = none) (hkeeps : Keeps s.db db)
    (hown : RowOwned db ⟨user, session, turn, resumed, .spawn⟩)
    (hruns : ∀ turn', running db turn' = true → turn' = turn ∨ running s.db turn' = true) :
    Ok ({ s with db }.setRun i (some ⟨user, session, turn, resumed, .spawn⟩)) := by
  refine ⟨inv_setRun h.1 hkeeps ?_, ?_⟩
  · intro q hq
    cases hq
    exact ⟨hown, trivial⟩
  · refine hasRunner_setRun h.2 (fun _ hmem => hmem) ?_ ?_
    · intro turn' hrun
      rcases hruns turn' hrun with rfl | hold
      · exact Or.inr (covers_setRun_self (Or.inl rfl))
      · exact Or.inl hold
    · intro turn' _ hcov
      obtain ⟨q, hq, -⟩ := covers_iff.mp hcov
      rw [hfree] at hq
      cases hq

theorem ok_submit (fmt : Format) {s s' : State} (h : Ok s) {i user session turn now : ℕ}
    {message : String} (hs : step fmt s (.submit i user session turn message now) = some s') :
    Ok s' := by
  simp only [step] at hs
  split at hs
  · cases hs
  · rename_i hfree
    rw [createTurn_eq, createTurnStatements_eq] at hs
    by_cases hown : s.db.owned user session = false
    · simp only [if_pos hown, Option.some.injEq] at hs
      exact hs ▸ h
    · by_cases hbusy : (s.db.runningIn session || (s.db.turns.get? turn).isSome) = true
      · simp only [if_neg hown, if_pos hbusy, Option.some.injEq] at hs
        exact hs ▸ h
      · simp only [if_neg hown, if_neg hbusy, Option.some.injEq] at hs
        subst hs
        rw [Bool.not_eq_true, Bool.or_eq_false_iff] at hbusy
        have hnew : s.db.turns.get? turn = none := by simpa using hbusy.2
        apply ok_spawn h hfree (keeps_submitted hnew)
        · refine ⟨turnRow s.db session now, ?_, ?_⟩
          · simp only [submitted, Dict.get?_insert, if_true]
          · exact (owned_touch s.db session now user session).trans (by simpa using hown)
        · intro turn' hrun
          obtain ⟨row, hget, hstatus⟩ := running_iff.mp hrun
          rcases get?_submitted hget with ⟨ht, -⟩ | ⟨-, row₀, hget₀, rfl⟩
          · exact Or.inl ht
          · exact Or.inr (running_iff.mpr ⟨row₀, hget₀, (abandon_running _ _ _).mp hstatus⟩)

/-- INTERNAL: a won claim. -/
theorem ok_claimed {s : State} (h : Ok s) {db : ChatDb} {i user session turn : ℕ}
    {ready : TurnRow → Bool} {set : TurnRow → TurnRow} (hfree : s.runs i = none)
    (hclaim : s.db.claim user session turn ready set = .ok (db, true))
    (hset : ∀ row, (set row).sessionId = row.sessionId ∧ (set row).parkState ≠ .running) :
    Ok ({ s with db }.setRun i (some ⟨user, session, turn, true, .spawn⟩)) := by
  obtain ⟨row, hget, hsession, -, hown, -, rfl⟩ := claim_eq_true hclaim
  apply ok_spawn h hfree (keeps_setTurn hget (hset row).1 fun _ => (hset row).2)
  · refine ⟨set row, ?_, ?_⟩
    · rw [get?_setTurn, if_pos rfl]
    · rw [(hset row).1, hsession]
      exact hown
  · intro turn' hrun
    obtain ⟨row₁, hget₁, hstatus⟩ := running_iff.mp hrun
    rw [get?_setTurn] at hget₁
    by_cases ht : turn' = turn
    · exact Or.inl ht
    · rw [if_neg ht] at hget₁
      exact Or.inr (running_iff.mpr ⟨row₁, hget₁, hstatus⟩)

theorem ok_supply {s : State} (h : Ok s) (supply : List Listed) : Ok { s with supply } :=
  ⟨⟨h.1.owned, h.1.ends, h.1.parked⟩, h.2⟩

theorem ok_claimNext {s : State} (h : Ok s) {i now : ℕ} {l : Listed} {rest : List Listed}
    {ready storeOk : Bool} (hfree : s.runs i = none) : Ok (s.claimNext i l rest ready storeOk now) := by
  unfold State.claimNext
  split
  · exact ok_supply h rest
  · split
    · exact ok_supply h []
    · split
      · exact ok_supply h []
      · exact ok_supply h rest
      · rename_i db hclaim
        unfold claimListed at hclaim
        split at hclaim
        · exact ok_claimed (ok_supply h rest) hfree hclaim fun row => ⟨rfl, nofun⟩
        · exact ok_claimed (ok_supply h rest) hfree hclaim fun row => ⟨rfl, nofun⟩

/-- INTERNAL: a registered run that only moves. -/
theorem ok_moved {s : State} (h : Ok s) {i : ℕ} {r : Run} (hr : s.runs i = some r) (pc : Pc)
    (hends : EndsTurn pc)
    (hcov : isSpawn r.pc = true ∨ owes r.pc = true → owes pc = true)
    (registry : List ℕ) (hreg : ∀ turn, turn ∈ s.registry → turn ∈ registry)
    (hmem : isSpawn r.pc = true → r.turn ∈ registry) :
    Ok ({ s with registry }.setRun i (some { r with pc })) := by
  refine ⟨inv_setRun h.1 (keeps_refl s.db) ?_, ?_⟩
  · intro q hq
    cases hq
    exact ⟨h.1.owned i r hr, hends⟩
  · refine hasRunner_setRun h.2 hreg (fun _ hrun => Or.inl hrun) ?_
    intro turn _ hc
    obtain ⟨q, hq, rfl, hcase⟩ := covers_iff.mp hc
    rw [hr] at hq
    cases hq
    refine ⟨i, covers_setRun_self (r := { r with pc }) (Or.inr ?_)⟩
    rcases hcase with hspawn | ⟨howes, hin⟩
    · exact ⟨hcov (Or.inl hspawn), hmem hspawn⟩
    · exact ⟨hcov (Or.inr howes), hreg r.turn hin⟩

theorem ok_runStep (fmt : Format) {s : State} (h : Ok s) {i : ℕ} {r : Run} {ch : Choice}
    (hr : s.runs i = some r) (hspawn : isSpawn r.pc = false) (hok : ch.storeOk = true) :
    Ok ({ s with db := (runStep fmt s.db r ch).1 }.setRun i
      (some { r with pc := (runStep fmt s.db r ch).2 })) := by
  have hspec := runStep_spec fmt hok (h.1.owned i r hr) (h.1.ends i r hr)
  refine ⟨inv_setRun h.1 hspec.keeps ?_, ?_⟩
  · intro q hq
    cases hq
    exact ⟨rowOwned_keeps hspec.keeps (h.1.owned i r hr), hspec.ends⟩
  · refine hasRunner_setRun h.2 (fun _ hmem => hmem) (fun turn hrun => Or.inl (hspec.running turn hrun)) ?_
    intro turn hrun hc
    obtain ⟨q, hq, rfl, hcase⟩ := covers_iff.mp hc
    rw [hr] at hq
    cases hq
    rcases hcase with hs | ⟨howes, hin⟩
    · rw [hspawn] at hs
      cases hs
    · rcases hspec.owes howes with hstill | hended
      · exact ⟨i, covers_setRun_self (r := { r with pc := (runStep fmt s.db r ch).2 })
          (Or.inr ⟨hstill, hin⟩)⟩
      · rw [hended] at hrun
        cases hrun

/-- INTERNAL: a run that goes, with or without the registry entry of its turn. -/
theorem ok_gone {s : State} (h : Ok s) (i : ℕ) (registry : List ℕ)
    (hcov : ∀ turn, running s.db turn = true →
      ∃ j, j ≠ i ∧ covers { s with registry } j turn = true) :
    Ok ({ s with registry }.setRun i none) := by
  refine ⟨inv_setRun h.1 (keeps_refl s.db) nofun, ?_⟩
  intro turn hrun
  obtain ⟨j, hj, hc⟩ := hcov turn hrun
  exact ⟨j, covers_setRun_ne (s := { s with registry }) hj (fun hmem => hmem) hc⟩

theorem isSpawn_iff {pc : Pc} : isSpawn pc = true ↔ pc = .spawn := by
  cases pc <;> simp [isSpawn]

/-- INTERNAL: a run that leaves takes the entry of its turn with it. -/
theorem ok_leave {s : State} (h : Ok s) {i : ℕ} {r : Run} (hr : s.runs i = some r)
    (hpc : r.pc = .leave)
    (hkeep : running s.db r.turn = true →
      ∃ j q, s.runs j = some q ∧ q.turn = r.turn ∧ isSpawn q.pc = true) :
    Ok ({ s with registry := s.registry.erase r.turn }.setRun i none) := by
  apply ok_gone h
  intro turn hrun
  by_cases ht : turn = r.turn
  · subst ht
    obtain ⟨j, q, hq, hturn, hspawn⟩ := hkeep hrun
    refine ⟨j, ?_, covers_iff.mpr ⟨q, hq, hturn, Or.inl hspawn⟩⟩
    rintro rfl
    rw [hr] at hq
    cases hq
    rw [hpc] at hspawn
    cases hspawn
  · obtain ⟨j, hj⟩ := h.2 turn hrun
    obtain ⟨q, hq, hturn, hcase⟩ := covers_iff.mp hj
    refine ⟨j, ?_, covers_iff.mpr ⟨q, hq, hturn, ?_⟩⟩
    · rintro rfl
      rw [hr] at hq
      cases hq
      exact ht hturn.symm
    · rcases hcase with hspawn | ⟨howes, hin⟩
      · exact Or.inl hspawn
      · exact Or.inr ⟨howes, (List.mem_erase_of_ne ht).mpr hin⟩

theorem ok_dropRun {s s' : State} (h : Ok s) {i : ℕ} {r : Run} (hr : s.runs i = some r)
    (hs : s.dropRun i r = some s')
    (hkeep : isSpawn r.pc = true → running s.db r.turn = true →
      ∃ j, j ≠ i ∧ covers s j r.turn = true) : Ok s' := by
  -- the run goes when nothing needs it
  have hgone : (∀ turn, running s.db turn = true → covers s i turn = true →
      ∃ j, j ≠ i ∧ covers s j turn = true) → Ok (s.setRun i none) := by
    intro hneed
    apply ok_gone h i s.registry
    intro turn hrun
    obtain ⟨j, hj⟩ := h.2 turn hrun
    by_cases hji : j = i
    · exact hneed turn hrun (hji ▸ hj)
    · exact ⟨j, hji, hj⟩
  by_cases hspawn : isSpawn r.pc = true
  · rw [isSpawn_iff] at hspawn
    simp only [State.dropRun, hspawn, Option.some.injEq] at hs
    subst hs
    apply hgone
    intro turn hrun hc
    obtain ⟨q, hq, rfl, -⟩ := covers_iff.mp hc
    rw [hr] at hq
    cases hq
    exact hkeep (isSpawn_iff.mpr hspawn) hrun
  · have hcases : s' = s.setRun i (some { r with pc := .guardFinalize }) ∨
        r.turn ∉ s.registry ∧ s' = s.setRun i none := by
      unfold State.dropRun at hs
      split at hs
      · rename_i hpc
        rw [hpc] at hspawn
        exact absurd rfl hspawn
      · cases hs
      · cases hs
      · split at hs
        · cases hs
          exact Or.inl rfl
        · rename_i hnot
          cases hs
          exact Or.inr ⟨hnot, rfl⟩
    rcases hcases with rfl | ⟨hnot, rfl⟩
    · exact ok_moved h hr .guardFinalize trivial (fun _ => rfl) s.registry (fun _ hmem => hmem)
        (fun hs => absurd hs hspawn)
    · apply hgone
      intro turn _ hc
      obtain ⟨q, hq, rfl, hcase⟩ := covers_iff.mp hc
      rw [hr] at hq
      cases hq
      rcases hcase with hs | ⟨-, hin⟩
      · exact absurd hs hspawn
      · exact absurd hin hnot

/-- INTERNAL: after the boot sweep no turn is running. -/
theorem ok_crash {s : State} (h : Ok s) (now : ℕ) :
    Ok { db := s.db.bootSweep now, registry := [], runs := fun _ => none, supply := [] } := by
  have hpark : ∀ row, (sweptRow now row).parkState = row.parkState := by
    intro row
    unfold sweptRow
    split <;> rfl
  refine ⟨⟨nofun, nofun, ?_⟩, ?_⟩
  · intro turn row hget
    rw [get?_bootSweep] at hget
    obtain ⟨row₀, hget₀, rfl⟩ := Option.map_eq_some_iff.mp hget
    rw [hpark]
    exact h.1.parked turn row₀ hget₀
  · intro turn hrun
    obtain ⟨row, hget, hstatus⟩ := running_iff.mp hrun
    rw [get?_bootSweep] at hget
    obtain ⟨row₀, hget₀, rfl⟩ := Option.map_eq_some_iff.mp hget
    unfold sweptRow at hstatus
    by_cases hrun₀ : row₀.status = .running
    · rw [if_pos hrun₀] at hstatus
      exact absurd hstatus (h.1.parked turn row₀ hget₀)
    · rw [if_neg hrun₀] at hstatus
      exact absurd hstatus hrun₀

/-- INTERNAL: a step of a run, by where the run stands. -/
theorem step_run_cases {fmt : Format} {s s' : State} {i : ℕ} {ch : Choice}
    (hs : step fmt s (.step i ch) = some s') : ∃ r, s.runs i = some r ∧
      (r.pc = .spawn ∧ s' = { s with registry := r.turn :: s.registry.erase r.turn }.setRun i
          (some { r with pc := .history }) ∨
        r.pc = .leave ∧ s' = { s with registry := s.registry.erase r.turn }.setRun i none ∨
        isSpawn r.pc = false ∧ s' = { s with db := (runStep fmt s.db r ch).1 }.setRun i
          (some { r with pc := (runStep fmt s.db r ch).2 })) := by
  simp only [step] at hs
  split at hs
  · cases hs
  · rename_i r hr
    refine ⟨r, hr, ?_⟩
    split at hs
    · rename_i hpc
      cases hs
      exact Or.inl ⟨hpc, rfl⟩
    · rename_i hpc
      cases hs
      exact Or.inr (Or.inl ⟨hpc, rfl⟩)
    · rename_i hspawn hleave
      cases hs
      refine Or.inr (Or.inr ⟨?_, rfl⟩)
      rw [Bool.eq_false_iff]
      exact fun h => hspawn (isSpawn_iff.mp h)

theorem ok_step (fmt : Format) {s s' : State} {a : Action} (h : Ok s) (hkeep : keepsRunner s a)
    (hstore : workingStore a = true) (hs : step fmt s a = some s') : Ok s' := by
  cases a with
  | submit i user session turn message now => exact ok_submit fmt h hs
  | pass health =>
    simp only [step] at hs
    split at hs
    · cases hs
      exact h
    · cases hs
      exact ok_supply h _
  | claim i ready storeOk now =>
    simp only [step] at hs
    split at hs
    · rename_i hfree _
      cases hs
      exact ok_claimNext h hfree
    · cases hs
  | step i ch =>
    obtain ⟨r, hr, ⟨hpc, rfl⟩ | ⟨hpc, rfl⟩ | ⟨hspawn, rfl⟩⟩ := step_run_cases hs
    · refine ok_moved h hr .history trivial (fun _ => rfl) _ ?_ (fun _ => List.mem_cons_self)
      intro turn hin
      by_cases ht : turn = r.turn
      · rw [ht]
        exact List.mem_cons_self
      · exact List.mem_cons_of_mem _ ((List.mem_erase_of_ne ht).mpr hin)
    · exact ok_leave h hr hpc (hkeep r hr hpc)
    · exact ok_runStep fmt h hr hspawn hstore
  | abort i =>
    simp only [step] at hs
    split at hs
    · cases hs
    · rename_i r hr
      exact ok_dropRun h hr hs (hkeep r hr)
  | crash sweepOk now =>
    have hsweep : sweepOk = true := hstore
    subst hsweep
    cases hs
    exact ok_crash h now

theorem ok_init (sessions : Dict ℕ SessionRow) : Ok (State.init sessions) := by
  refine ⟨⟨nofun, nofun, ?_⟩, ?_⟩
  · intro turn row hget
    cases hget
  · intro turn hrun
    cases hrun

/-! ## Exactness -/

theorem nodup_step (fmt : Format) {s s' : State} {a : Action} (h : s.registry.Nodup)
    (hs : step fmt s a = some s') : s'.registry.Nodup := by
  cases a with
  | submit i user session turn message now =>
    simp only [step] at hs
    split at hs
    · cases hs
    · split at hs
      · cases hs
        exact h
      · cases hs
        exact h
  | pass health =>
    simp only [step] at hs
    split at hs <;> cases hs <;> exact h
  | claim i ready storeOk now =>
    simp only [step] at hs
    split at hs
    · cases hs
      unfold State.claimNext
      split
      · exact h
      · split
        · exact h
        · split <;> exact h
    · cases hs
  | step i ch =>
    obtain ⟨r, hr, ⟨hpc, rfl⟩ | ⟨hpc, rfl⟩ | ⟨hspawn, rfl⟩⟩ := step_run_cases hs
    · exact List.nodup_cons.mpr ⟨h.not_mem_erase, h.erase r.turn⟩
    · exact h.erase r.turn
    · exact h
  | abort i =>
    simp only [step] at hs
    split at hs
    · cases hs
    · rename_i r hr
      unfold State.dropRun at hs
      split at hs
      · cases hs
        exact h
      · cases hs
      · cases hs
      · split at hs <;> cases hs <;> exact h
  | crash sweepOk now =>
    cases hs
    exact List.nodup_nil

theorem uncovered_step (fmt : Format) {s : State} {a : Action} (h : s.registry.Nodup)
    (hnot : ¬ keepsRunner s a) : ∃ s', step fmt s a = some s' ∧ ¬ HasRunner s' := by
  cases a with
  | submit | pass | claim | crash => exact absurd trivial hnot
  | abort i =>
    simp only [keepsRunner, not_forall, not_exists, not_and] at hnot
    obtain ⟨r, hr, hspawn, hrun, hnone⟩ := hnot
    rw [isSpawn_iff] at hspawn
    refine ⟨s.setRun i none, by simp only [step, hr, State.dropRun, hspawn], ?_⟩
    intro hgood
    obtain ⟨j, hj⟩ := hgood r.turn hrun
    obtain ⟨q, hq, hcase⟩ := covers_iff.mp hj
    simp only [State.setRun] at hq
    by_cases hji : j = i
    · rw [if_pos hji] at hq
      cases hq
    · rw [if_neg hji] at hq
      exact hnone j hji (covers_iff.mpr ⟨q, hq, hcase⟩)
  | step i ch =>
    simp only [keepsRunner, not_forall, not_exists, not_and] at hnot
    obtain ⟨r, hr, hpc, hrun, hnone⟩ := hnot
    refine ⟨{ s with registry := s.registry.erase r.turn }.setRun i none,
      by simp only [step, hr, hpc], ?_⟩
    intro hgood
    obtain ⟨j, hj⟩ := hgood r.turn hrun
    obtain ⟨q, hq, hturn, hcase⟩ := covers_iff.mp hj
    simp only [State.setRun] at hq
    by_cases hji : j = i
    · rw [if_pos hji] at hq
      cases hq
    · rw [if_neg hji] at hq
      rcases hcase with hspawn | ⟨-, hin⟩
      · exact hnone j q hq hturn hspawn
      · exact h.not_mem_erase hin

/-- When every running turn has a runner. In a run with a working store, with runners that
panic and requests that are dropped at any await and with restarts anywhere, every running
turn of every state has a registered runner or guard that has yet to end it, or belongs to
a call that is about to spawn one, iff no call is dropped between its commit and its spawn
and no registry entry is removed while its turn is running and nothing else covers it.
SOURCE: chat_api.rs:272-321, chat_runner.rs:288-384, 745-793, 846-916 -/
theorem running_turn_has_runner_iff (fmt : Format) (sessions : Dict ℕ SessionRow)
    (as : List Action) (hstore : ∀ a ∈ as, workingStore a = true) :
    (∀ n t, exec (step fmt) (State.init sessions) (as.take n) = some t → HasRunner t) ↔
      Meets (step fmt) keepsRunner (State.init sessions) as := by
  constructor
  · intro hgood
    exact meets_of_forall_take_of_invariant (fun s : State => s.registry.Nodup) HasRunner
      (fun s a s' h hs => nodup_step fmt h hs) (fun s a h hnot => uncovered_step fmt h hnot)
      List.nodup_nil hgood
  · intro hmeets n t hrun
    have hboth := meets_take (meets_and_of_forall hmeets hstore) n
    have hok : Ok t := exec_invariant_of_meets Ok
      (fun s a s' h hok hs => ok_step fmt h hok.1 hok.2 hs) (ok_init sessions) hrun hboth
    exact hok.2

/-! ## Runs that keep their runners and runs that do not -/

def plainFormat : Format where
  short := id
  json := fun name detail => name ++ ":" ++ detail

def oneSession : Dict ℕ SessionRow := (∅ : Dict ℕ SessionRow).insert 7 ⟨1, 0⟩

/-- A submit whose request is served, and its run to the end. -/
def servedTurn : List Action :=
  .submit 0 1 7 11 "hello" 1 :: List.replicate 7 (.step 0 {})

/-- No call is dropped before its spawn, and a run leaves a turn that is not running. -/
def leavesEnded (s : State) : Action → Bool
  | .abort i => (s.runs i).all fun r => !isSpawn r.pc
  | .step i _ => (s.runs i).all fun r => isSpawn r.pc || owes r.pc || !running s.db r.turn
  | _ => true

theorem keepsRunner_of_leavesEnded (s : State) (a : Action) (h : leavesEnded s a = true) :
    keepsRunner s a := by
  cases a with
  | submit | pass | claim | crash => trivial
  | abort i =>
    intro r hr hspawn
    simp only [leavesEnded, hr, Option.all_some, hspawn] at h
    cases h
  | step i ch =>
    intro r hr hpc hrun
    simp only [leavesEnded, hr, Option.all_some, hpc, hrun] at h
    cases h

theorem running_turn_has_runner_iff_served :
    ∃ t, exec (step plainFormat) (State.init oneSession) servedTurn = some t ∧
      (t.db.turns.get? 11).map TurnRow.status = some .done ∧
      ∀ n t, exec (step plainFormat) (State.init oneSession) (servedTurn.take n) = some t →
        HasRunner t := by
  refine ⟨_, rfl, by decide, ?_⟩
  refine (running_turn_has_runner_iff plainFormat oneSession servedTurn (by decide)).mpr ?_
  apply meets_mono keepsRunner_of_leavesEnded
  decide

/-- A submit whose request is dropped while it looks up the visible books. -/
def droppedSubmit : List Action := [.submit 0 1 7 11 "hello" 1, .abort 0]

/-- The dropped request leaves a running turn without any runner. -/
theorem dropped_submit_leaves_running_turn :
    ∃ t, exec (step plainFormat) (State.init oneSession) droppedSubmit = some t ∧
      running t.db 11 = true ∧ ∀ i, t.runs i = none := by
  refine ⟨_, rfl, by decide, ?_⟩
  intro i
  by_cases hi : i = 0
  · simp [State.setRun, hi]
  · simp [State.setRun, State.init, hi]

/-- A run parks its turn, which is resumed before the run takes the entry away; then the
resumed runner panics, with its guard defused. -/
def resumedWhileLeaving : List Action :=
  [.submit 0 1 7 11 "hello" 1, .step 0 {}, .step 0 {}, .step 0 { health := .red }, .step 0 {},
    .pass .green, .claim 1 true true 2, .step 1 {}, .step 0 {}, .abort 1]

example : ∃ t, exec (step plainFormat) (State.init oneSession) resumedWhileLeaving = some t ∧
    running t.db 11 = true ∧ t.runs 0 = none ∧ t.runs 1 = none :=
  ⟨_, rfl, by decide, rfl, rfl⟩

end Mycelium.Analysis.ChatRunners
