import Mycelium.Analysis.ChatLiveTurns
import Mycelium.Analysis.ChatTranscript
import Mycelium.Analysis.ChatTurnRows
import Mycelium.Model.ChatStream

/-!
# What a chat runner writes and sends

The runner persists a row before it broadcasts the row's event, and it removes its entry
last. Everything one of its steps can do is said once (`runnerStep_cases`): a broadcast, the
removal of the entry, a row with its event (`Writes`), or a store call that writes no row
(`Rests`). Over whole runs this gives the invariant of the runner, its turn and its entry
(`RunOk`): a turn that is no longer running has nothing left to broadcast, an entry stands
from the spawn to the removal, and an event that waits for its broadcast shows a row.
-/

set_option autoImplicit false

namespace Mycelium.Analysis.ChatEmissions

open Mycelium.Model.ChatStore Mycelium.Model.ChatStream StepSystem
open Mycelium.Model.ChatRunner hiding State Action step
open Mycelium.Analysis.ChatTables (appended setTurn touch_turns owned_touch)
open Mycelium.Analysis.ChatTranscript (Transcript transcript_appended transcript_setTurn
  transcript_exec)
open Mycelium.Analysis.ChatLiveTurns (OneLive oneLive_exec live_of_running)
open Mycelium.Analysis.ChatTurnRows (finalize_cases parkTurn_cases)

/-! ## Rows and their events -/

/-- The event shows the row: replayed from it, or broadcast when it was written. -/
def Shows (env : Env) (ev : ChatSseEvent) (m : MessageRow) : Prop :=
  ev.seq = m.seq ∧ (replayEvent env.parse ⟨m.seq, m.role, m.content⟩ = some ev ∨
    ∃ event, ev.kind = liveKind event ∧ rowOf env.fmt.json event = (m.role, m.content))

/-- An agent row of the turn's session. -/
def AgentRow (s : State) (m : MessageRow) : Prop :=
  m ∈ s.db.messages ∧ m.sessionId = s.run.session ∧ m.role ≠ .user

/-- The turn is running in tables the store's operations have led to, and its runner is
about to be spawned. -/
structure Started (db : ChatDb) (r : Run) : Prop where
  reached : ∃ ops t, exec Model.ChatSessions.step .init ops = some t ∧ t.db = db
  running : ∃ row, db.turns.get? r.turn = some row ∧ row.sessionId = r.session ∧
    row.status = .running
  owned : db.owned r.user r.session = true
  pc : r.pc = .spawn

/-! ## The runner -/

/-- No row is written from here on. -/
def Silent : Pc → Prop
  | .finish _ none | .park _ | .leave => True
  | .persist [] doneSeen _ (.ok _) => doneSeen = true
  | .persist [] _ failedSeen (.error e) => failedSeen = true ∧ ∀ e', e ≠ .llm e'
  | _ => False

/-- What a run still has to persist: the rest of what its agent sent, or nothing once the
terminal event is out. -/
def Shape : Pc → Prop
  | .persist pending doneSeen failedSeen result =>
    (∃ tools, pending = (AgentRun.mk tools result).events ∧ doneSeen = false ∧
        failedSeen = false) ∨
      pending = [] ∧ Silent (.persist [] doneSeen failedSeen result)
  | .guardFinalize | .guardAppend => False
  | _ => True

/-- The step writes the row `m` and has its event to broadcast. -/
structure Writes (env : Env) (s s' : State) (m : MessageRow) (ev : ChatSseEvent) : Prop where
  db : ∃ now, s'.db = appended s.db m now
  session : m.sessionId = s.run.session
  seq : m.seq = s.db.nextSeq m.sessionId
  role : m.role ≠ .user
  turn : m.turn = s.run.turn
  shows : Shows env ev m
  row : ev.isRow = true
  loud : ¬ Silent s.run.pc
  terminal : ev.terminal = true → Silent s'.run.pc
  later : s'.run.pc ≠ .admission
  outbox : s'.outbox = some ev

/-- The step leaves the transcript as it is: at most it ends the turn. -/
structure Rests (s s' : State) : Prop where
  db : s'.db = s.db ∨ ∃ row row', s.db.turns.get? s.run.turn = some row ∧
    row'.sessionId = row.sessionId ∧ row'.userSeq = row.userSeq ∧
    s'.db = setTurn s.db s.run.turn row' ∧ s'.run.pc = .leave
  silent : Silent s.run.pc → Silent s'.run.pc
  outbox : s'.outbox = none

/-- INTERNAL: a step that neither writes nor ends the turn, before the last row. -/
theorem rests_of_loud {s s' : State} (hdb : s'.db = s.db) (hbox : s'.outbox = none)
    (hloud : ¬ Silent s.run.pc) : Rests s s' where
  db := Or.inl hdb
  silent hsilent := absurd hsilent hloud
  outbox := hbox

/-- INTERNAL: the rest of what an agent sent, event by event. -/
theorem shape_tail {event : AgentEvent} {pending : List AgentEvent} {doneSeen failedSeen : Bool}
    {result : Except AgentError String}
    (h : Shape (.persist (event :: pending) doneSeen failedSeen result)) :
    let pc' := Pc.persist pending (sawDone doneSeen event) (sawFailed failedSeen event) result
    Shape pc' ∧ (ChatSseEvent.terminal ⟨liveKind event, 0⟩ = true → Silent pc') := by
  rcases h with ⟨tools, hpending, rfl, rfl⟩ | ⟨hnil, _⟩
  · cases tools with
    | cons tool tools =>
      obtain ⟨name, detail⟩ := tool
      simp only [AgentRun.events, List.map_cons, List.cons_append, List.cons.injEq] at hpending
      obtain ⟨rfl, rfl⟩ := hpending
      refine ⟨Or.inl ⟨tools, rfl, rfl, rfl⟩, ?_⟩
      intro hterminal
      cases hterminal
    | nil =>
      simp only [AgentRun.events, List.map_nil, List.nil_append] at hpending
      cases result with
      | ok reply =>
        simp only [List.cons.injEq] at hpending
        obtain ⟨rfl, rfl⟩ := hpending
        have hsilent : Silent (.persist [] true false (.ok reply)) := rfl
        exact ⟨Or.inr ⟨rfl, hsilent⟩, fun _ => hsilent⟩
      | error e =>
        cases e with
        | stepCapExceeded =>
          simp only [List.cons.injEq] at hpending
          obtain ⟨rfl, rfl⟩ := hpending
          have hsilent : Silent (.persist [] false true (.error .stepCapExceeded)) :=
            ⟨rfl, fun e' => nofun⟩
          exact ⟨Or.inr ⟨rfl, hsilent⟩, fun _ => hsilent⟩
        | store message => cases hpending
        | llm e => cases hpending
        | badToolArgs name reason => cases hpending
  · cases hnil

/-- INTERNAL: what follows the last event of the agent. -/
theorem shape_afterAgent (short : String → String) (resumed : Bool) {doneSeen failedSeen : Bool}
    (backend : BackendState) {result : Except AgentError String}
    (h : Shape (.persist [] doneSeen failedSeen result)) :
    let pc' := afterAgent short resumed doneSeen failedSeen backend result
    Shape pc' ∧ pc' ≠ .spawn ∧ (Silent (.persist [] doneSeen failedSeen result) → Silent pc') := by
  cases result with
  | ok reply =>
    have hdone : doneSeen = true := by
      rcases h with ⟨tools, hpending, _, _⟩ | ⟨_, hsilent⟩
      · cases tools <;> cases hpending
      · exact hsilent
    subst hdone
    exact ⟨trivial, by simp [afterAgent], fun _ => trivial⟩
  | error e =>
    cases e with
    | llm e =>
      simp only [afterAgent]
      split
      · exact ⟨trivial, by simp, fun _ => trivial⟩
      · refine ⟨trivial, by simp, ?_⟩
        intro hsilent
        exact absurd rfl (hsilent.2 e)
    | store message =>
      refine ⟨trivial, by simp [afterAgent], ?_⟩
      intro hsilent
      simp only [afterAgent, hsilent.1, if_true]
      trivial
    | stepCapExceeded =>
      refine ⟨trivial, by simp [afterAgent], ?_⟩
      intro hsilent
      simp only [afterAgent, hsilent.1, if_true]
      trivial
    | badToolArgs name reason =>
      refine ⟨trivial, by simp [afterAgent], ?_⟩
      intro hsilent
      simp only [afterAgent, hsilent.1, if_true]
      trivial

/-- INTERNAL: a row and its event come together or not at all. -/
theorem append_persisted (db : ChatDb) (r : Run) (ch : Choice) (role : ChatRole) (content : String)
    (kind : ChatSseKind) :
    append db r ch role content = db ∧ persisted db r ch role content kind = none ∨
      let m : MessageRow := ⟨r.session, db.nextSeq r.session, role, content, ch.now, r.turn⟩
      append db r ch role content = appended db m ch.now ∧
        persisted db r ch role content kind = some ⟨kind, m.seq⟩ := by
  unfold append persisted ChatDb.appendMessage
  cases ch.storeOk with
  | false => exact Or.inl ⟨rfl, rfl⟩
  | true =>
    by_cases hown : db.owned r.user r.session = false
    · simp only [hown, if_true]
      exact Or.inl ⟨trivial, trivial⟩
    · simp only [hown, if_true]
      exact Or.inr ⟨rfl, rfl⟩

/-- INTERNAL: the row of an agent event is no user row, and its live form shows it. -/
theorem rowOf_ne_user (json : String → String → String) (event : AgentEvent) :
    (rowOf json event).1 ≠ .user ∧ ChatSseEvent.isRow ⟨liveKind event, 0⟩ = true := by
  cases event with
  | tool name detail => exact ⟨nofun, rfl⟩
  | done reply => exact ⟨nofun, rfl⟩
  | failed message => exact ⟨nofun, rfl⟩

/-- What stays the same in a store call of the runner. -/
structure Kept (s s' : State) : Prop where
  streams : s'.streams = s.streams
  registered : s'.registered = s.registered
  left : s'.left = s.left
  run : s'.run = { s.run with pc := s'.run.pc }

/-- A store call of the runner writes a row, or leaves the transcript alone. -/
theorem storeCall_cases (env : Env) {s s' : State} {ch : Choice} (hshape : Shape s.run.pc)
    (hspawn : s.run.pc ≠ .spawn) (hleave : s.run.pc ≠ .leave)
    (h : s' = { s with
      db := (runStep env.fmt s.db s.run ch).1
      run := { s.run with pc := (runStep env.fmt s.db s.run ch).2 }
      outbox := emitted env.fmt s.db s.run ch }) :
    Shape s'.run.pc ∧ s'.run.pc ≠ .spawn ∧ (Rests s s' ∨ ∃ m ev, Writes env s s' m ev) := by
  subst h
  cases hpc : s.run.pc with
  | spawn => exact absurd hpc hspawn
  | leave => exact absurd hpc hleave
  | guardFinalize =>
    rw [hpc] at hshape
    exact hshape.elim
  | guardAppend =>
    rw [hpc] at hshape
    exact hshape.elim
  | history =>
    have hloud : ¬ Silent s.run.pc := by
      rw [hpc]
      exact id
    simp only [runStep, emitted, hpc]
    split
    · exact ⟨trivial, by simp, Or.inl (rests_of_loud rfl rfl hloud)⟩
    · exact ⟨trivial, by simp, Or.inl (rests_of_loud rfl rfl hloud)⟩
  | admission =>
    have hloud : ¬ Silent s.run.pc := by
      rw [hpc]
      exact id
    simp only [runStep, emitted, hpc]
    split
    · exact ⟨trivial, by simp, Or.inl (rests_of_loud rfl rfl hloud)⟩
    · split
      · refine ⟨?_, by simp, Or.inl (rests_of_loud rfl rfl hloud)⟩
        exact Or.inl ⟨ch.agent.tools, rfl, rfl, rfl⟩
      · exact ⟨trivial, by simp, Or.inl (rests_of_loud rfl rfl hloud)⟩
      · exact ⟨trivial, by simp, Or.inl (rests_of_loud rfl rfl hloud)⟩
  | persist pending doneSeen failedSeen result =>
    rw [hpc] at hshape
    cases pending with
    | nil =>
      obtain ⟨hshape', hne, hsilent⟩ :=
        shape_afterAgent env.fmt.short s.run.resumed ch.health hshape
      simp only [runStep, emitted, hpc]
      exact ⟨hshape', hne, Or.inl ⟨Or.inl rfl, by rw [hpc]; exact hsilent, rfl⟩⟩
    | cons event pending =>
      obtain ⟨hshape', hterminal⟩ := shape_tail hshape
      obtain ⟨hrole, hrow⟩ := rowOf_ne_user env.fmt.json event
      have hloud : ¬ Silent s.run.pc := by
        rw [hpc]
        exact id
      simp only [runStep, emitted, hpc]
      refine ⟨hshape', by simp, ?_⟩
      rcases append_persisted s.db s.run ch (rowOf env.fmt.json event).1
        (rowOf env.fmt.json event).2 (liveKind event) with ⟨hdb, hbox⟩ | ⟨hdb, hbox⟩
      · exact Or.inl (rests_of_loud hdb hbox hloud)
      · refine Or.inr ⟨_, ⟨liveKind event, s.db.nextSeq s.run.session⟩,
          ⟨⟨ch.now, hdb⟩, rfl, rfl, hrole, rfl, ?_, hrow, hloud, hterminal, by simp, hbox⟩⟩
        exact ⟨rfl, Or.inr ⟨event, rfl, rfl⟩⟩
  | finish status errorRow =>
    cases errorRow with
    | none =>
      simp only [runStep, emitted, hpc]
      refine ⟨trivial, by simp, Or.inl ⟨?_, fun _ => trivial, rfl⟩⟩
      rcases finalize_cases s.db s.run ch status with hdb | ⟨row, hrow, _, hdb⟩
      · exact Or.inl hdb
      · exact Or.inr ⟨row, { row with status, updatedAt := ch.now }, hrow, rfl, rfl, hdb, rfl⟩
    | some message =>
      have hloud : ¬ Silent s.run.pc := by
        rw [hpc]
        exact id
      simp only [runStep, emitted, hpc]
      refine ⟨trivial, by simp, ?_⟩
      rcases append_persisted s.db s.run ch .error message (.error message) with
        ⟨hdb, hbox⟩ | ⟨hdb, hbox⟩
      · exact Or.inl (rests_of_loud hdb hbox hloud)
      · refine Or.inr ⟨_, _, ⟨⟨ch.now, hdb⟩, rfl, rfl, by simp, rfl, ?_, rfl, hloud, fun _ => trivial,
          by simp, hbox⟩⟩
        exact ⟨rfl, Or.inr ⟨.failed message, rfl, rfl⟩⟩
  | park why =>
    simp only [runStep, emitted, hpc]
    refine ⟨trivial, by simp, Or.inl ⟨?_, fun _ => trivial, rfl⟩⟩
    rcases parkTurn_cases s.db s.run ch why with hdb | ⟨row, hrow, _, hdb⟩
    · exact Or.inl hdb
    · let row' := { row with
        status := .waitingBackend
        lastError := some why
        updatedAt := ch.now }
      exact Or.inr ⟨row, row', hrow, rfl, rfl, hdb, rfl⟩

/-- Everything a step of the runner can do. -/
theorem runnerStep_cases {env : Env} {s s' : State} {ch : Choice} (hshape : Shape s.run.pc)
    (h : runnerStep env s ch = some s') :
    (∃ ev, s.outbox = some ev ∧ s' = { s.sendBroadcast ev with outbox := none }) ∨
      s.outbox = none ∧ s.run.pc = .leave ∧ s.left = false ∧
        s' = { s with registered := false, left := true } ∨
      s.outbox = none ∧ s.run.pc ≠ .spawn ∧ s.run.pc ≠ .leave ∧ Kept s s' ∧ Shape s'.run.pc ∧
        s'.run.pc ≠ .spawn ∧ (Rests s s' ∨ ∃ m ev, Writes env s s' m ev) := by
  unfold runnerStep at h
  cases hbox : s.outbox with
  | some ev =>
    rw [hbox] at h
    cases h
    exact Or.inl ⟨ev, rfl, rfl⟩
  | none =>
    rw [hbox] at h
    right
    by_cases hleave : s.run.pc = .leave
    · rw [hleave] at h
      simp only at h
      split at h
      · cases h
      · rename_i hleft
        cases h
        exact Or.inl ⟨rfl, hleave, by simpa using hleft, rfl⟩
    · right
      have hspawn : s.run.pc ≠ .spawn := by
        intro hspawn
        rw [hspawn] at h
        cases h
      have hs' : s' = { s with
          db := (runStep env.fmt s.db s.run ch).1
          run := { s.run with pc := (runStep env.fmt s.db s.run ch).2 }
          outbox := emitted env.fmt s.db s.run ch } := by
        cases hpc : s.run.pc with
        | spawn => exact absurd hpc hspawn
        | leave => exact absurd hpc hleave
        | guardFinalize =>
          rw [hpc] at h
          cases h
        | guardAppend =>
          rw [hpc] at h
          cases h
        | _ =>
          simp only [hpc] at h
          cases h
          rfl
      obtain ⟨hshape', hne, heffect⟩ := storeCall_cases env hshape hspawn hleave hs'
      refine ⟨rfl, hspawn, hleave, ?_, hshape', hne, heffect⟩
      subst hs'
      exact ⟨rfl, rfl, rfl, rfl⟩

/-! ## The invariant of the runner -/

/-- The runner has written its last row, and nothing is left to broadcast. -/
def Muted (s : State) : Prop := Silent s.run.pc ∧ s.outbox = none

/-- The runner has nothing left to do but to remove its entry. -/
def Complete (s : State) : Prop := s.run.pc = .leave ∧ s.outbox = none

theorem muted_of_complete {s : State} (h : Complete s) : Muted s := by
  refine ⟨?_, h.2⟩
  rw [h.1]
  trivial

/-- What holds of the runner, its turn and its entry in every run. -/
structure RunOk (env : Env) (s : State) : Prop where
  transcript : Transcript s.db
  owned : s.db.owned s.run.user s.run.session = true
  shape : Shape s.run.pc
  unique : ∀ turn row, s.db.turns.get? turn = some row → row.sessionId = s.run.session →
    row.status = .running → turn = s.run.turn
  running : (∃ row, s.db.turns.get? s.run.turn = some row ∧ row.sessionId = s.run.session ∧
    row.status = .running) ∨ Complete s
  entry : s.registered = true ↔ s.run.pc ≠ .spawn ∧ s.left = false
  gone : s.left = true → s.run.pc = .leave
  box : ∀ ev, s.outbox = some ev → ev.isRow = true ∧ s.registered = true ∧
    (ev.terminal = true → Silent s.run.pc) ∧ s.run.pc ≠ .admission ∧
    ∃ m, AgentRow s m ∧ Shows env ev m

theorem runOk_begin (env : Env) {db : ChatDb} {r : Run} (h : Started db r) :
    RunOk env (State.begin db r) := by
  obtain ⟨ops, t, hops, rfl⟩ := h.reached
  have hlive : OneLive t.db := oneLive_exec hops
  obtain ⟨row, hrow, hsession, hrun⟩ := h.running
  constructor
  · exact transcript_exec hops
  · exact h.owned
  · show Shape r.pc
    rw [h.pc]
    trivial
  · intro turn row' hrow' hsession' hrun'
    exact hlive r.session turn r.turn ⟨row', hrow', hsession', live_of_running hrun'⟩
      ⟨row, hrow, hsession, live_of_running hrun⟩
  · exact Or.inl ⟨row, hrow, hsession, hrun⟩
  · constructor
    · intro hfalse
      cases hfalse
    · intro hne
      exact absurd h.pc hne.1
  · intro hfalse
    cases hfalse
  · intro ev hev
    cases hev

/-- INTERNAL: the entry is there until the last step. -/
theorem left_eq_false {env : Env} {s : State} (h : RunOk env s) (hleave : s.run.pc ≠ .leave) :
    s.left = false := by
  cases hl : s.left with
  | false => rfl
  | true => exact absurd (h.gone hl) hleave

/-- INTERNAL: a store call leaves the entry alone. -/
theorem entry_of_kept {env : Env} {s s' : State} (h : RunOk env s) (hkept : Kept s s')
    (hspawn : s.run.pc ≠ .spawn) (hspawn' : s'.run.pc ≠ .spawn) (hleave : s.run.pc ≠ .leave) :
    s'.registered = true ∧ s'.left = false ∧
      (s'.registered = true ↔ s'.run.pc ≠ .spawn ∧ s'.left = false) := by
  have hleft : s'.left = false := hkept.left.trans (left_eq_false h hleave)
  have hregistered : s'.registered = true := by
    rw [hkept.registered, h.entry]
    exact ⟨hspawn, left_eq_false h hleave⟩
  refine ⟨hregistered, hleft, ?_⟩
  constructor
  · intro _
    exact ⟨hspawn', hleft⟩
  · intro _
    exact hregistered

/-- INTERNAL: the tables of a step that rests. -/
theorem rests_tables {s s' : State} (hrests : Rests s s') (h : Transcript s.db) :
    Transcript s'.db ∧ s'.db.messages = s.db.messages ∧ s'.db.sessions = s.db.sessions := by
  rcases hrests.db with hdb | ⟨row, row', hrow, hsession, hseq, hdb, _⟩
  · rw [hdb]
    exact ⟨h, rfl, rfl⟩
  · rw [hdb]
    exact ⟨transcript_setTurn h hrow hsession hseq, rfl, rfl⟩

/-- INTERNAL: a session keeps its owner as long as its row is kept. -/
theorem owned_congr {db db' : ChatDb} (h : db'.sessions = db.sessions) (user session : ℕ) :
    db'.owned user session = db.owned user session := by
  unfold ChatDb.owned
  rw [h]

/-- INTERNAL: a step that rests keeps the invariant of the runner. -/
theorem runOk_rests {env : Env} {s s' : State} (h : RunOk env s) (hkept : Kept s s')
    (hshape : Shape s'.run.pc) (hspawn : s.run.pc ≠ .spawn) (hspawn' : s'.run.pc ≠ .spawn)
    (hleave : s.run.pc ≠ .leave) (hrests : Rests s s') : RunOk env s' := by
  have hrun := hkept.run
  have hsession : s'.run.session = s.run.session := by rw [hrun]
  have huser : s'.run.user = s.run.user := by rw [hrun]
  have hturn : s'.run.turn = s.run.turn := by rw [hrun]
  obtain ⟨htranscript, hmessages, hsessions⟩ := rests_tables hrests h.transcript
  obtain ⟨-, hleft, hentry⟩ := entry_of_kept h hkept hspawn hspawn' hleave
  constructor
  · exact htranscript
  · rw [owned_congr hsessions, huser, hsession]
    exact h.owned
  · exact hshape
  · intro turn row hget hs hr
    rw [hsession] at hs
    rw [hturn]
    rcases hrests.db with hdb | ⟨row₀, row', hrow, _, _, hdb, _⟩
    · rw [hdb] at hget
      exact h.unique turn row hget hs hr
    · by_cases ht : turn = s.run.turn
      · exact ht
      · rw [hdb, ChatTables.get?_setTurn, if_neg ht] at hget
        exact h.unique turn row hget hs hr
  · rcases hrests.db with hdb | ⟨row₀, row', hrow, _, _, hdb, hpc⟩
    · rcases h.running with hr | hcomplete
      · rw [hdb, hsession, hturn]
        exact Or.inl hr
      · exact absurd hcomplete.1 hleave
    · exact Or.inr ⟨hpc, hrests.outbox⟩
  · exact hentry
  · intro hl
    rw [hleft] at hl
    cases hl
  · intro ev hev
    rw [hrests.outbox] at hev
    cases hev

/-- INTERNAL: the rows after a write. -/
theorem agentRow_writes {env : Env} {s s' : State} {m₀ : MessageRow} {ev : ChatSseEvent}
    (hkept : Kept s s') (hwrites : Writes env s s' m₀ ev) (m : MessageRow) :
    AgentRow s' m ↔ AgentRow s m ∨ m = m₀ := by
  obtain ⟨now, hdb⟩ := hwrites.db
  have hsession : s'.run.session = s.run.session := by rw [hkept.run]
  unfold AgentRow
  rw [hdb, hsession]
  show m ∈ s.db.messages ++ [m₀] ∧ _ ↔ _
  rw [List.mem_append, List.mem_singleton]
  constructor
  · rintro ⟨hm | rfl, hrest⟩
    · exact Or.inl ⟨hm, hrest⟩
    · exact Or.inr rfl
  · rintro (⟨hm, hrest⟩ | rfl)
    · exact ⟨Or.inl hm, hrest⟩
    · exact ⟨Or.inr rfl, hwrites.session, hwrites.role⟩

/-- INTERNAL: a write keeps the invariant of the runner. -/
theorem runOk_writes {env : Env} {s s' : State} {m : MessageRow} {ev : ChatSseEvent}
    (h : RunOk env s) (hkept : Kept s s') (hshape : Shape s'.run.pc) (hspawn : s.run.pc ≠ .spawn)
    (hspawn' : s'.run.pc ≠ .spawn) (hleave : s.run.pc ≠ .leave)
    (hwrites : Writes env s s' m ev) : RunOk env s' := by
  have hrun := hkept.run
  have hsession : s'.run.session = s.run.session := by rw [hrun]
  have huser : s'.run.user = s.run.user := by rw [hrun]
  have hturn : s'.run.turn = s.run.turn := by rw [hrun]
  obtain ⟨now, hdb⟩ := hwrites.db
  have hturns : s'.db.turns = s.db.turns := by
    rw [hdb]
    exact touch_turns s.db _ _
  obtain ⟨hregistered, hleft, hentry⟩ := entry_of_kept h hkept hspawn hspawn' hleave
  constructor
  · rw [hdb]
    exact transcript_appended h.transcript now hwrites.seq
  · rw [hdb, huser, hsession]
    show (s.db.touch m.sessionId now).owned s.run.user s.run.session = true
    rw [owned_touch]
    exact h.owned
  · exact hshape
  · intro turn row hget hs hr
    rw [hturns] at hget
    rw [hsession] at hs
    rw [hturn]
    exact h.unique turn row hget hs hr
  · rcases h.running with hr | hcomplete
    · rw [hturns, hsession, hturn]
      exact Or.inl hr
    · exact absurd hcomplete.1 hleave
  · exact hentry
  · intro hl
    rw [hleft] at hl
    cases hl
  · intro ev' hev
    rw [hwrites.outbox, Option.some.injEq] at hev
    subst hev
    refine ⟨hwrites.row, hregistered, hwrites.terminal, hwrites.later, m, ?_, hwrites.shows⟩
    rw [agentRow_writes hkept hwrites]
    exact Or.inr rfl

/-- INTERNAL: which rows there are depends on the tables and the run's session. -/
theorem agentRow_congr {s s' : State} (hdb : s'.db = s.db) (hrun : s'.run.session = s.run.session)
    (m : MessageRow) : AgentRow s' m ↔ AgentRow s m := by
  unfold AgentRow
  rw [hdb, hrun]

/-- INTERNAL: a step of the streams, with or without the broadcast of the event that waits,
keeps the invariant of the runner. -/
theorem runOk_congr {env : Env} {s s' : State} (h : RunOk env s) (hdb : s'.db = s.db)
    (hrun : s'.run = s.run) (hregistered : s'.registered = s.registered)
    (hleft : s'.left = s.left) (hbox : s'.outbox = s.outbox ∨ s'.outbox = none) :
    RunOk env s' := by
  constructor
  · rw [hdb]
    exact h.transcript
  · rw [hdb, hrun]
    exact h.owned
  · rw [hrun]
    exact h.shape
  · rw [hdb, hrun]
    exact h.unique
  · rw [hdb, hrun]
    apply h.running.imp_right
    rintro ⟨hpc, hnone⟩
    refine ⟨by rw [hrun, hpc], ?_⟩
    rcases hbox with hbox | hbox
    · exact hbox.trans hnone
    · exact hbox
  · rw [hregistered, hrun, hleft]
    exact h.entry
  · rw [hrun, hleft]
    exact h.gone
  · intro ev hev
    rcases hbox with hbox | hbox
    · rw [hbox] at hev
      obtain ⟨hrow, hreg, hterminal, hadmission, m, hm, hshows⟩ := h.box ev hev
      rw [hregistered, hrun]
      have hm' : AgentRow s' m := (agentRow_congr hdb (by rw [hrun]) m).mpr hm
      exact ⟨hrow, hreg, hterminal, hadmission, m, hm', hshows⟩
    · rw [hbox] at hev
      cases hev

/-- INTERNAL: the removal of the entry keeps the invariant of the runner. -/
theorem runOk_leave {env : Env} {s : State} (h : RunOk env s) (hpc : s.run.pc = .leave)
    (hbox : s.outbox = none) : RunOk env { s with registered := false, left := true } where
  transcript := h.transcript
  owned := h.owned
  shape := h.shape
  unique := h.unique
  running := Or.inr ⟨hpc, hbox⟩
  entry := by
    constructor
    · intro hfalse
      cases hfalse
    · intro hfalse
      cases hfalse.2
  gone _ := hpc
  box ev hev := by
    rw [show s.outbox = some ev from hev] at hbox
    cases hbox

/-- INTERNAL: so does the spawn. -/
theorem runOk_spawn {env : Env} {s : State} (h : RunOk env s) (hpc : s.run.pc = .spawn) :
    RunOk env { s with run := { s.run with pc := .history }, registered := true } := by
  have hbox : s.outbox = none := by
    cases hb : s.outbox with
    | none => rfl
    | some ev => exact absurd hpc (h.entry.mp (h.box ev hb).2.1).1
  have hleft : s.left = false := by
    apply left_eq_false h
    rw [hpc]
    exact nofun
  refine ⟨h.transcript, h.owned, trivial, h.unique, ?_, ?_, ?_, ?_⟩
  · apply h.running.imp_right
    intro hcomplete
    rw [hcomplete.1] at hpc
    cases hpc
  · constructor
    · intro _
      exact ⟨nofun, hleft⟩
    · intro _
      rfl
  · intro hl
    rw [show s.left = true from hl] at hleft
    cases hleft
  · intro ev hev
    rw [show s.outbox = some ev from hev] at hbox
    cases hbox

/-- A turn's entry is gone for good once its runner has removed it. -/
theorem complete_of_unregistered {env : Env} {s : State} (h : RunOk env s)
    (hspawn : s.run.pc ≠ .spawn) (hregistered : s.registered = false) : Complete s := by
  have hleft : s.left = true := by
    cases hl : s.left with
    | true => rfl
    | false =>
      rw [h.entry.mpr ⟨hspawn, hl⟩] at hregistered
      cases hregistered
  refine ⟨h.gone hleft, ?_⟩
  cases hb : s.outbox with
  | none => rfl
  | some ev =>
    rw [(h.box ev hb).2.1] at hregistered
    cases hregistered

end Mycelium.Analysis.ChatEmissions
