import Mycelium.Lib.FoldMax
import Mycelium.Lib.StepSystem
import Mycelium.Model.ChatSessions

/-!
# What the chat store operations do to their tables

One lemma for each operation, and `Effect`, which says once what a step of the system of
chat operations can do. The invariants of the chat tables are all proved by cases on it.

SOURCE: crates/mycelium-store/src/chat.rs
-/

set_option autoImplicit false

namespace Mycelium.Analysis.ChatTables

open Mycelium.Model.ChatStore Mycelium.Model.ChatSessions
open FoldMax

/-! ## Reading the tables -/

theorem runningIn_iff {db : ChatDb} {session : ℕ} :
    db.runningIn session = true ↔
      ∃ turn row, db.turns.get? turn = some row ∧ row.sessionId = session ∧
        row.status = .running := by
  simp only [ChatDb.runningIn, List.any_eq_true, Bool.and_eq_true, decide_eq_true_eq]
  constructor
  · rintro ⟨⟨turn, row⟩, hmem, hsession, hrun⟩
    exact ⟨turn, row, Dict.mem_entries.mp hmem, hsession, hrun⟩
  · rintro ⟨turn, row, hget, hsession, hrun⟩
    exact ⟨⟨turn, row⟩, Dict.mem_entries.mpr hget, hsession, hrun⟩

theorem not_running_of_runningIn {db : ChatDb} {session : ℕ} (h : db.runningIn session = false)
    {turn : ℕ} {row : TurnRow} (hget : db.turns.get? turn = some row)
    (hsession : row.sessionId = session) : row.status ≠ .running := by
  intro hrun
  have htrue := runningIn_iff.mpr ⟨turn, row, hget, hsession, hrun⟩
  rw [h] at htrue
  cases htrue

/-- INTERNAL: the sessions that hold a running turn, by the rows alone. -/
theorem runningIn_congr {db db' : ChatDb} {session : ℕ}
    (h : ∀ turn, (∃ row, db'.turns.get? turn = some row ∧ row.sessionId = session ∧
        row.status = .running) ↔
      ∃ row, db.turns.get? turn = some row ∧ row.sessionId = session ∧ row.status = .running) :
    db'.runningIn session = db.runningIn session := by
  rw [Bool.eq_iff_iff, runningIn_iff, runningIn_iff]
  exact exists_congr h

@[simp] theorem touch_turns (db : ChatDb) (session now : ℕ) :
    (db.touch session now).turns = db.turns := by
  unfold ChatDb.touch
  split <;> rfl

/-- INTERNAL: a session keeps its owner when it is touched. -/
theorem owned_touch (db : ChatDb) (session now user session' : ℕ) :
    (db.touch session now).owned user session' = db.owned user session' := by
  unfold ChatDb.touch
  split
  · rename_i row hrow
    unfold ChatDb.owned
    rw [Dict.get?_insert]
    by_cases hs : session' = session
    · rw [if_pos hs, hs, hrow]
    · rw [if_neg hs]
  · rfl

theorem touch_of_rows (db : ChatDb) (turns : Dict ℕ TurnRow) (messages : List MessageRow)
    (session now : ℕ) :
    ChatDb.touch { db with turns := turns, messages := messages } session now =
      { db.touch session now with turns := turns, messages := messages } := by
  unfold ChatDb.touch
  dsimp only
  split <;> rfl

@[simp] theorem abandon_sessionId (session now : ℕ) (row : TurnRow) :
    (abandon session now row).sessionId = row.sessionId := by
  unfold abandon
  split <;> rfl

@[simp] theorem abandon_userSeq (session now : ℕ) (row : TurnRow) :
    (abandon session now row).userSeq = row.userSeq := by
  unfold abandon
  split <;> rfl

@[simp] theorem abandon_attempts (session now : ℕ) (row : TurnRow) :
    (abandon session now row).attempts = row.attempts := by
  unfold abandon
  split <;> rfl

@[simp] theorem abandon_parkState (session now : ℕ) (row : TurnRow) :
    (abandon session now row).parkState = row.parkState := by
  unfold abandon
  split <;> rfl

/-- INTERNAL: an abandoned row was parked in the session, the others keep their status. -/
theorem abandon_status (session now : ℕ) (row : TurnRow) :
    (abandon session now row).status = row.status ∨
      row.sessionId = session ∧ (abandon session now row).status = .abandoned := by
  unfold abandon
  split
  · rename_i h
    exact Or.inr ⟨h.1, rfl⟩
  · exact Or.inl rfl

theorem abandon_running (session now : ℕ) (row : TurnRow) :
    (abandon session now row).status = .running ↔ row.status = .running := by
  unfold abandon
  split
  · rename_i h
    rcases h.2 with hs | hs <;> simp [hs]
  · exact Iff.rfl

/-! ## Numbers of messages -/

/-- The numbers of a session's messages, in the order of insertion. -/
def seqsOf (db : ChatDb) (session : ℕ) : List ℕ :=
  (db.messages.filter fun m => m.sessionId = session).map MessageRow.seq

theorem nextSeq_eq (db : ChatDb) (session : ℕ) :
    db.nextSeq session = (seqsOf db session).foldl max 0 + 1 := rfl

/-- INTERNAL: the next number is above every number of the session. -/
theorem seq_lt_nextSeq {db : ChatDb} {session : ℕ} {m : MessageRow} (hm : m ∈ db.messages)
    (hsession : m.sessionId = session) : m.seq < db.nextSeq session := by
  have hmem : m.seq ∈ seqsOf db session := by
    apply List.mem_map_of_mem
    rw [List.mem_filter]
    exact ⟨hm, by simpa using hsession⟩
  have hle : m.seq ≤ (seqsOf db session).foldl max 0 := le_foldl_max (Or.inl hmem)
  rw [nextSeq_eq]
  omega

/-! ## The transaction of a submit -/

/-- The user message of a submit. -/
def askRow (db : ChatDb) (session turn : ℕ) (message : String) (now : ℕ) : MessageRow where
  sessionId := session
  seq := db.nextSeq session
  role := .user
  content := message
  createdAt := now
  turn := turn

/-- The turn of a submit. -/
def turnRow (db : ChatDb) (session now : ℕ) : TurnRow where
  sessionId := session
  userSeq := db.nextSeq session
  createdAt := now
  updatedAt := now

/-- The tables after a submit. -/
def submitted (db : ChatDb) (session turn : ℕ) (message : String) (now : ℕ) : ChatDb :=
  { db.touch session now with
    turns := (db.turns.mapValues (abandon session now)).insert turn (turnRow db session now)
    messages := db.messages ++ [askRow db session turn message now] }

theorem runningIn_abandon (db : ChatDb) (session now session' : ℕ) :
    ChatDb.runningIn { db with turns := db.turns.mapValues (abandon session now) } session' =
      db.runningIn session' := by
  apply runningIn_congr
  intro turn
  simp only [Dict.get?_mapValues]
  constructor
  · rintro ⟨row, hget, hsession, hrun⟩
    obtain ⟨row₀, hget₀, rfl⟩ := Option.map_eq_some_iff.mp hget
    exact ⟨row₀, hget₀, by simpa using hsession, (abandon_running _ _ _).mp hrun⟩
  · rintro ⟨row, hget, hsession, hrun⟩
    refine ⟨abandon session now row, ?_, by simpa using hsession, ?_⟩
    · rw [hget]
      rfl
    · exact (abandon_running _ _ _).mpr hrun

theorem insertMessage_nextSeq {db : ChatDb} (m : MessageRow) (h : m.seq = db.nextSeq m.sessionId) :
    db.insertMessage m = .ok { db with messages := db.messages ++ [m] } := by
  unfold ChatDb.insertMessage
  rw [if_neg]
  intro hany
  obtain ⟨m', hm', heq⟩ := List.any_eq_true.mp hany
  rw [Bool.and_eq_true, decide_eq_true_eq, decide_eq_true_eq] at heq
  have hlt := seq_lt_nextSeq hm' heq.1
  omega

theorem insertTurn_eq (db db' : ChatDb) (session turn : ℕ) (row : TurnRow)
    (hstatus : row.status = .running) (hsession : row.sessionId = session)
    (hrun : db'.runningIn session = db.runningIn session)
    (hget : (db'.turns.get? turn).isSome = (db.turns.get? turn).isSome) :
    db'.insertTurn turn row =
      if db.runningIn session || (db.turns.get? turn).isSome then .error .conflict
      else .ok { db' with turns := db'.turns.insert turn row } := by
  unfold ChatDb.insertTurn
  simp only [hstatus, hsession, hrun, hget, decide_true, Bool.true_and]

/-- The statements of a submit end as its one-step reading says. -/
theorem createTurnStatements_eq (db : ChatDb) (user session turn : ℕ) (message : String)
    (now : ℕ) :
    createTurnStatements user session turn message now db =
      if db.owned user session = false then .error .notFound
      else if db.runningIn session || (db.turns.get? turn).isSome then .error .conflict
      else .ok (submitted db session turn message now, turnRow db session now) := by
  unfold createTurnStatements
  by_cases hown : db.owned user session = false
  · simp only [hown, if_true]
    rfl
  · simp only [if_neg hown]
    have hask := insertMessage_nextSeq
      (askRow { db with turns := db.turns.mapValues (abandon session now) } session turn message now)
      rfl
    have hturn := insertTurn_eq db
      { db.touch session now with
        turns := db.turns.mapValues (abandon session now)
        messages := db.messages ++ [askRow db session turn message now] }
      session turn (turnRow db session now) rfl rfl (runningIn_abandon db session now session)
      (by rw [Dict.get?_mapValues, Option.isSome_map])
    rw [← touch_of_rows] at hturn
    simp only [bind, Except.bind, pure, Except.pure]
    erw [hask]
    dsimp only
    erw [hturn]
    by_cases hbusy : (db.runningIn session || (db.turns.get? turn).isSome) = true
    · rw [if_pos hbusy, if_pos hbusy]
    · rw [if_neg hbusy, if_neg hbusy, touch_of_rows]
      rfl

theorem createTurn_eq (db : ChatDb) (user session turn : ℕ) (message : String) (now : ℕ) :
    db.createTurn user session turn message now =
      createTurnStatements user session turn message now db := by
  rw [createTurnStatements_eq]
  rfl

/-- INTERNAL: a row of a submit's tables is that of its own turn or an older one. -/
theorem get?_submitted {db : ChatDb} {session turn now turn' : ℕ} {message : String}
    {row : TurnRow} (h : (submitted db session turn message now).turns.get? turn' = some row) :
    turn' = turn ∧ row = turnRow db session now ∨
      turn' ≠ turn ∧ ∃ row₀, db.turns.get? turn' = some row₀ ∧ row = abandon session now row₀ := by
  simp only [submitted, Dict.get?_insert, Dict.get?_mapValues] at h
  by_cases ht : turn' = turn
  · rw [if_pos ht] at h
    cases h
    exact Or.inl ⟨ht, rfl⟩
  · rw [if_neg ht] at h
    obtain ⟨row₀, hget₀, rfl⟩ := Option.map_eq_some_iff.mp h
    exact Or.inr ⟨ht, row₀, hget₀, rfl⟩

/-! ## The other operations -/

theorem get?_dropSession (db : ChatDb) (session turn : ℕ) :
    (db.dropSession session).turns.get? turn =
      (db.turns.get? turn).filter fun row => row.sessionId ≠ session :=
  Dict.get?_retain db.turns _ turn

theorem mem_dropSession {db : ChatDb} {session turn : ℕ} {row : TurnRow}
    (h : (db.dropSession session).turns.get? turn = some row) :
    db.turns.get? turn = some row ∧ row.sessionId ≠ session := by
  rw [get?_dropSession, Option.filter_eq_some_iff] at h
  exact ⟨h.1, by simpa using h.2⟩

/-- A message of a session, which is touched with it. -/
def appended (db : ChatDb) (m : MessageRow) (now : ℕ) : ChatDb :=
  { db.touch m.sessionId now with messages := db.messages ++ [m] }

theorem appendMessage_eq_ok {db db' : ChatDb} {user session now turn seq : ℕ} {role : ChatRole}
    {content : String}
    (h : db.appendMessage user session role content now turn = .ok (db', seq)) :
    ∃ m : MessageRow, m.seq = db.nextSeq m.sessionId ∧ db' = appended db m now := by
  unfold ChatDb.appendMessage at h
  split at h
  · cases h
  · cases h
    exact ⟨⟨session, db.nextSeq session, role, content, now, turn⟩, rfl, rfl⟩

def setTurn (db : ChatDb) (turn : ℕ) (row : TurnRow) : ChatDb :=
  { db with turns := db.turns.insert turn row }

theorem get?_setTurn (db : ChatDb) (turn turn' : ℕ) (row : TurnRow) :
    (setTurn db turn row).turns.get? turn' = if turn' = turn then some row else db.turns.get? turn' :=
  Dict.get?_insert db.turns turn turn' row

/-- INTERNAL: a claim that changed a row found it ready in its session, which had no
running turn. -/
theorem claim_eq_true {db db' : ChatDb} {user session turn : ℕ} {ready : TurnRow → Bool}
    {set : TurnRow → TurnRow} (h : db.claim user session turn ready set = .ok (db', true)) :
    ∃ row, db.turns.get? turn = some row ∧ row.sessionId = session ∧ ready row = true ∧
      db.owned user session = true ∧ db.runningIn session = false ∧
      db' = setTurn db turn (set row) := by
  unfold ChatDb.claim at h
  split at h
  · cases h
  · rename_i row hrow
    split at h
    · rename_i hready
      simp only [Bool.and_eq_true, decide_eq_true_eq] at hready
      split at h
      · cases h
      · rename_i hrun
        cases h
        exact ⟨row, hrow, hready.1.1, hready.1.2, hready.2, by simpa using hrun, rfl⟩
    · cases h

theorem claim_eq_error {db : ChatDb} {user session turn : ℕ} {ready : TurnRow → Bool}
    {set : TurnRow → TurnRow} {e : ChatError} (h : db.claim user session turn ready set = .error e) :
    ∃ row, db.turns.get? turn = some row ∧ row.sessionId = session ∧ ready row = true ∧
      db.runningIn session = true := by
  unfold ChatDb.claim at h
  split at h
  · cases h
  · rename_i row hrow
    split at h
    · rename_i hready
      simp only [Bool.and_eq_true, decide_eq_true_eq] at hready
      split at h
      · rename_i hrun
        exact ⟨row, hrow, hready.1.1, hready.1.2, hrun⟩
      · cases h
    · cases h

/-- INTERNAL: the end of a run sets the row of a running turn, or changes nothing. -/
theorem endRun_eq_ok {db db' : ChatDb} {user turn : ℕ} {set : TurnRow → TurnRow}
    (h : db.endRun user turn set = .ok db') :
    db' = db ∨ ∃ row, db.turns.get? turn = some row ∧ row.status = .running ∧
      db' = setTurn db turn (set row) := by
  unfold ChatDb.endRun at h
  split at h
  · cases h
  · rename_i row hrow
    split at h
    · split at h
      · rename_i hrun
        cases h
        exact Or.inr ⟨row, hrow, hrun, rfl⟩
      · cases h
        exact Or.inl rfl
    · cases h

/-- Where the boot sweep sends a turn. -/
def sweptRow (now : ℕ) (row : TurnRow) : TurnRow :=
  if row.status = .running then { row with status := row.parkState, updatedAt := now } else row

theorem get?_bootSweep (db : ChatDb) (now turn : ℕ) :
    (db.bootSweep now).turns.get? turn = (db.turns.get? turn).map (sweptRow now) :=
  Dict.get?_mapValues db.turns (sweptRow now) turn

/-- The tables with a new session. -/
def opened (db : ChatDb) (user session now : ℕ) : ChatDb :=
  { db with sessions := db.sessions.insert session ⟨user, now⟩ }

theorem createSession_eq_ok {db db' : ChatDb} {user session now id : ℕ}
    (h : ChatDb.createSession user session now db = .ok (db', id)) :
    ∃ dropped : List ℕ, (dropped.foldl ChatDb.dropSession db).sessions.get? session = none ∧
      db' = opened (dropped.foldl ChatDb.dropSession db) user session now := by
  unfold ChatDb.createSession at h
  dsimp only at h
  by_cases hcap : maxSessionsPerUser ≤ (db.sessions.entries.filter fun e => e.2.userId = user).length
  · simp only [if_pos hcap] at h
    split at h
    · cases h
    · rename_i hnone
      cases h
      exact ⟨_, by simpa using hnone, rfl⟩
  · simp only [if_neg hcap] at h
    split at h
    · cases h
    · rename_i hnone
      cases h
      exact ⟨[], by simpa using hnone, rfl⟩

/-! ## Steps of the system -/

/-- What a step can do. The first constructor is an operation that failed or found
nothing to change. -/
inductive Effect (s : State) : Action → State → Prop where
  | same {a : Action} : Effect s a s
  | opened {a : Action} (dropped : List ℕ) (user session now : ℕ)
      (hnew : (dropped.foldl ChatDb.dropSession s.db).sessions.get? session = none) :
      Effect s a { s with db := opened (dropped.foldl ChatDb.dropSession s.db) user session now }
  | submitted (user session turn : ℕ) (message : String) (now : ℕ)
      (hown : s.db.owned user session = true) (hidle : s.db.runningIn session = false)
      (hnew : s.db.turns.get? turn = none) :
      Effect s (.createTurn user session turn message now)
        ({ s with db := submitted s.db session turn message now }.noteRunning session turn [])
  | appended {a : Action} (m : MessageRow) (now : ℕ) (hseq : m.seq = s.db.nextSeq m.sessionId) :
      Effect s a { s with db := appended s.db m now }
  | ended {a : Action} (turn : ℕ) (row : TurnRow) (status : ChatTurnStatus)
      (lastError : Option String) (now : ℕ) (hget : s.db.turns.get? turn = some row) (hrun : row.status = .running) :
      Effect s a { s with
        db := setTurn s.db turn { row with status, lastError, updatedAt := now } }
  | resumed (user turn : ℕ) (row : TurnRow) (now : ℕ) (hget : s.db.turns.get? turn = some row)
      (hready : row.status = .interrupted) (hattempts : row.attempts = 0)
      (hidle : s.db.runningIn row.sessionId = false) :
      Effect s (.claimResumable user row.sessionId turn now)
        ({ s with db := setTurn s.db turn { row with
          status := .running, attempts := row.attempts + 1, parkState := .interrupted
          updatedAt := now } }.noteRunning row.sessionId turn (.resumable :: s.claims turn))
  | weathered (user turn : ℕ) (row : TurnRow) (now : ℕ) (hget : s.db.turns.get? turn = some row)
      (hready : row.status = .waitingBackend) (hidle : s.db.runningIn row.sessionId = false) :
      Effect s (.claimWaiting user row.sessionId turn now)
        ({ s with db := setTurn s.db turn { row with
          status := .running, parkState := .waitingBackend
          updatedAt := now } }.noteRunning row.sessionId turn (.waiting :: s.claims turn))
  | refused {a : Action} (i : ℕ) (e : ChatError) : Effect s a (s.setDelete i (.finished (.error e)))
  | checked {a : Action} (i user session : ℕ)
      (hfree : s.db.owned user session = true → s.db.runningIn session = false) :
      Effect s a (s.setDelete i (.checked user session []))
  | dropped {a : Action} (i user session : ℕ) (started : List ℕ)
      (hpc : s.deletes i = .checked user session started)
      (hown : s.db.owned user session = true) :
      Effect s a ({ s with db := s.db.dropSession session }.setDelete i (.finished (.ok ())))
  | swept {a : Action} (now : ℕ) : Effect s a { s with db := s.db.bootSweep now }
  | crashed {a : Action} : Effect s a { s with deletes := fun _ => .idle }

theorem effect_createTurn {s s' : State} {user session turn now : ℕ} {message : String}
    (hs : step s (.createTurn user session turn message now) = some s') :
    Effect s (.createTurn user session turn message now) s' := by
  simp only [step, ChatDb.transaction, createTurnStatements_eq] at hs
  by_cases hown : s.db.owned user session = false
  · simp only [hown, if_true, Option.some.injEq] at hs
    exact hs ▸ .same
  · by_cases hbusy : (s.db.runningIn session || (s.db.turns.get? turn).isSome) = true
    · simp only [if_neg hown, if_pos hbusy, Option.some.injEq] at hs
      exact hs ▸ .same
    · simp only [if_neg hown, if_neg hbusy, Option.some.injEq] at hs
      rw [Bool.not_eq_true, Bool.or_eq_false_iff] at hbusy
      have hnew : s.db.turns.get? turn = none := by simpa using hbusy.2
      exact hs ▸ .submitted user session turn message now (by simpa using hown) hbusy.1 hnew

theorem effect_of_step {s s' : State} {a : Action} (hs : step s a = some s') :
    Effect s a s' := by
  cases a with
  | createSession user session now =>
    cases hs
    cases hc : ChatDb.createSession user session now s.db with
    | error e =>
      simp only [ChatDb.transaction, hc]
      exact .same
    | ok r =>
      obtain ⟨db', id⟩ := r
      obtain ⟨dropped, hnew, rfl⟩ := createSession_eq_ok hc
      simp only [ChatDb.transaction, hc]
      exact .opened dropped user session now hnew
  | createTurn user session turn message now => exact effect_createTurn hs
  | appendMessage user session role content now turn =>
    cases hs
    cases ha : s.db.appendMessage user session role content now turn with
    | error e => exact .same
    | ok r =>
      obtain ⟨db', seq⟩ := r
      obtain ⟨m, hseq, rfl⟩ := appendMessage_eq_ok ha
      exact .appended m now hseq
  | finalizeTurn user turn status now =>
    cases hs
    cases he : s.db.finalizeTurn user turn status now with
    | error e => exact .same
    | ok db' =>
      rcases endRun_eq_ok he with rfl | ⟨row, hget, hrun, rfl⟩
      · exact .same
      · exact .ended turn row status row.lastError now hget hrun
  | parkWaiting user turn lastError now =>
    cases hs
    cases he : s.db.parkWaiting user turn lastError now with
    | error e => exact .same
    | ok db' =>
      rcases endRun_eq_ok he with rfl | ⟨row, hget, hrun, rfl⟩
      · exact .same
      · exact .ended turn row .waitingBackend lastError now hget hrun
  | claimResumable user session turn now =>
    cases hs
    cases hc : s.db.claimResumable user session turn now with
    | error e => exact .same
    | ok r =>
      obtain ⟨db', won⟩ := r
      cases won with
      | false => exact .same
      | true =>
        obtain ⟨row, hget, rfl, hready, -, hidle, rfl⟩ := claim_eq_true hc
        rw [Bool.and_eq_true, decide_eq_true_eq, decide_eq_true_eq] at hready
        exact .resumed user turn row now hget hready.1 hready.2 hidle
  | claimWaiting user session turn now =>
    cases hs
    cases hc : s.db.claimWaiting user session turn now with
    | error e => exact .same
    | ok r =>
      obtain ⟨db', won⟩ := r
      cases won with
      | false => exact .same
      | true =>
        obtain ⟨row, hget, rfl, hready, -, hidle, rfl⟩ := claim_eq_true hc
        exact .weathered user turn row now hget (by simpa using hready) hidle
  | deleteCheck i user session =>
    have hgo : (if s.db.owned user session && s.db.runningIn session then
        some (s.setDelete i (.finished (.error .conflict)))
        else some (s.setDelete i (.checked user session []))) = some s' := by
      simp only [step] at hs
      split at hs
      · cases hs
      · exact hs
    split at hgo
    · cases hgo
      exact .refused i .conflict
    · rename_i hfree
      cases hgo
      apply Effect.checked
      intro hown
      simpa [hown] using hfree
  | deleteRows i =>
    simp only [step] at hs
    split at hs
    · rename_i user session started hpc
      split at hs
      · rename_i hown
        cases hs
        exact .dropped i user session started hpc hown
      · cases hs
        exact .refused i .notFound
    · cases hs
  | bootSweep now =>
    cases hs
    exact .swept now
  | crash =>
    cases hs
    exact .crashed

end Mycelium.Analysis.ChatTables
