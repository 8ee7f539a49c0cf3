import Mycelium.Lib.StepSystem
import Mycelium.Model.ChatRunner

/-!
# One terminal row per chat turn

A turn ends with one row of its transcript: the reply of the assistant or an error. The
invariant `Inv` says, of every turn, that it has at most one such row, that a turn with its
row can not be claimed, and that it has at most one run under way, which owes the row only
while there is none (`PcOk`).

Two ends of a run break it, and `settles` leaves them out. A process that dies between the
row and the finalize hands a turn with a row to the boot sweep. And a run that was resumed
from `waiting_backend` has not spent the attempt of its turn, so that an LLM failure
leaves the turn with its error row and claimable. The guard of a dropped runner has both
defects. With them `one_terminal_row` holds on every run; without, `second_terminal_row`
is a run that writes two.
-/

set_option autoImplicit false

namespace Mycelium.Analysis.ChatTurnRows

open StepSystem Mycelium.Model.ChatStore Mycelium.Model.ChatRunner

/-! ## Statements -/

def isTerminal (role : ChatRole) : Bool := role = .assistant || role = .error

/-- The assistant and error rows of a turn. -/
def terminalRows (db : ChatDb) (t : ℕ) : ℕ :=
  db.messages.countP fun m => m.turn = t && isTerminal m.role

/-- One of the two claims takes the turn. -/
def claimable (row : TurnRow) : Bool :=
  row.status = .waitingBackend || (row.status = .interrupted && row.attempts = 0)

def attemptsOf (db : ChatDb) (t : ℕ) : ℕ :=
  match db.turns.get? t with
  | some row => row.attempts
  | none => 0

def Pc.isLeave : Pc → Bool
  | .leave => true
  | _ => false

/-- The step does not leave a turn with its row to another run: no LLM failure of a
resumed run whose turn has its attempt left, no drop of a runner after its row, after its
last store call or with the attempt left, no death of the process while a turn with its row
is running, except one that would come back as `interrupted` with its attempt spent. -/
def settles (s : State) : Action → Bool
  | .step i ch =>
    match s.runs i with
    | some ⟨_, _, turn, true, .persist [] _ _ (.error (.llm e))⟩ =>
      parks e ch.health || attemptsOf s.db turn ≠ 0
    | _ => true
  | .abort i =>
    match s.runs i with
    | some ⟨_, _, _, _, .spawn⟩ => true
    | some r =>
      decide (r.turn ∉ s.registry) ||
        (!Pc.isLeave r.pc && terminalRows s.db r.turn = 0 &&
          (r.resumed = false || attemptsOf s.db r.turn ≠ 0))
    | none => true
  | .crash sweepOk _ =>
    !sweepOk || s.db.turns.entries.all fun e =>
      !(e.2.status = .running && terminalRows s.db e.1 ≠ 0) ||
        (e.2.parkState = .interrupted && e.2.attempts ≠ 0)
  | _ => true

/-! ## The invariant -/

def doneCount (l : List AgentEvent) : ℕ := l.countP fun
  | .done _ => true
  | _ => false

def failedCount (l : List AgentEvent) : ℕ := l.countP fun
  | .failed _ => true
  | _ => false

/-- The events still to persist and the flags belong to a run of the agent: one terminal
event at most, of the kind of the result. -/
structure EventsOk (pending : List AgentEvent) (doneSeen failedSeen : Bool)
    (result : Except AgentError String) : Prop where
  once : doneCount pending + failedCount pending + doneSeen.toNat + failedSeen.toNat ≤ 1
  ok : ∀ reply, result = .ok reply → failedCount pending = 0 ∧ failedSeen = false
  error : ∀ e, result = .error e → doneCount pending = 0 ∧ doneSeen = false
  llm : ∀ e, result = .error (.llm e) → failedCount pending = 0 ∧ failedSeen = false

/-- What holds of a run: with `rows` terminal rows and the attempts of its turn, it may
still write its row, or end the turn without one. -/
def PcOk (rows attempts : ℕ) (resumed : Bool) : Pc → Prop
  | .spawn | .history | .admission | .park _ | .guardAppend => rows = 0
  | .persist pending doneSeen failedSeen result =>
    EventsOk pending doneSeen failedSeen result ∧ rows ≤ doneSeen.toNat + failedSeen.toNat
  | .finish status (some _) =>
    rows = 0 ∧ status ≠ .waitingBackend ∧ (status = .interrupted → attempts ≠ 0)
  | .finish status none =>
    rows ≤ 1 ∧ status ≠ .waitingBackend ∧ (status = .interrupted → rows = 0 ∨ attempts ≠ 0)
  | .guardFinalize => rows = 0 ∧ (resumed = true → attempts ≠ 0)
  | .leave => True

/-- A run under way holds its turn: the turn is running, or the guard has ended it. -/
def Held (row : TurnRow) : Pc → Prop
  | .guardAppend => claimable row = false
  | .leave => True
  | _ => row.status = .running

structure Inv (s : State) : Prop where
  rows_le : ∀ t, terminalRows s.db t ≤ 1
  settled : ∀ t row, s.db.turns.get? t = some row → terminalRows s.db t ≠ 0 →
    claimable row = false
  messages_known : ∀ m ∈ s.db.messages, (s.db.turns.get? m.turn).isSome = true
  runs_known : ∀ i r, s.runs i = some r → (s.db.turns.get? r.turn).isSome = true
  run_ok : ∀ i r, s.runs i = some r → ∀ row, s.db.turns.get? r.turn = some row →
    PcOk (terminalRows s.db r.turn) row.attempts r.resumed r.pc ∧ Held row r.pc
  alone : ∀ i j r r', s.runs i = some r → s.runs j = some r' → r.turn = r'.turn →
    Pc.isLeave r.pc = false → Pc.isLeave r'.pc = false → i = j

theorem inv_init (sessions : Dict ℕ SessionRow) : Inv (State.init sessions) := by
  refine ⟨?_, ?_, ?_, ?_, ?_, ?_⟩
  · intro t
    exact Nat.zero_le 1
  · intro t row h
    cases h
  · intro m hm
    cases hm
  · intro i r h
    cases h
  · intro i r h
    cases h
  · intro i j r r' h
    cases h

/-! ## Store calls -/

theorem claimable_of_running {row : TurnRow} (h : row.status = .running) :
    claimable row = false := by
  simp [claimable, h]

theorem claimable_of_held {row : TurnRow} {pc : Pc} (hlive : Pc.isLeave pc = false)
    (h : Held row pc) : claimable row = false := by
  cases pc with
  | guardAppend => exact h
  | leave => cases hlive
  | _ => exact claimable_of_running h

theorem messages_touch (db : ChatDb) (session now : ℕ) :
    (db.touch session now).messages = db.messages := by
  unfold ChatDb.touch
  split <;> rfl

theorem terminalRows_touch (db : ChatDb) (session now t : ℕ) :
    terminalRows (db.touch session now) t = terminalRows db t := by
  unfold terminalRows
  rw [messages_touch]

theorem turns_touch (db : ChatDb) (session now : ℕ) :
    (db.touch session now).turns = db.turns := by
  unfold ChatDb.touch
  split <;> rfl

/-- INTERNAL: an append adds one row of the run's turn, or nothing. -/
theorem append_cases (db : ChatDb) (r : Run) (ch : Choice) (role : ChatRole) (content : String) :
    (append db r ch role content).turns = db.turns ∧
      ((append db r ch role content).messages = db.messages ∨
        ∃ m : MessageRow, m.turn = r.turn ∧ m.role = role ∧
          (append db r ch role content).messages = db.messages ++ [m]) := by
  unfold append ChatDb.appendMessage
  split
  · by_cases hown : db.owned r.user r.session = false
    · simp [hown]
    · simp only [hown]
      refine ⟨turns_touch db r.session ch.now, Or.inr ⟨_, ?_, ?_, rfl⟩⟩
      · rfl
      · rfl
  · exact ⟨rfl, Or.inl rfl⟩

/-- INTERNAL: the end of a run sets the row of a running turn, or changes nothing. -/
theorem endRun_cases {db db' : ChatDb} {user turn : ℕ} {set : TurnRow → TurnRow}
    (h : db.endRun user turn set = .ok db') :
    db' = db ∨ ∃ row, db.turns.get? turn = some row ∧ row.status = .running ∧
      db' = { db with turns := db.turns.insert turn (set row) } := by
  unfold ChatDb.endRun at h
  split at h
  · cases h
  · rename_i row hrow
    split at h
    · split at h
      · rename_i hrun
        cases h
        exact Or.inr ⟨row, hrow, hrun, rfl⟩
      · cases h
        exact Or.inl rfl
    · cases h

theorem finalize_cases (db : ChatDb) (r : Run) (ch : Choice) (status : ChatTurnStatus) :
    finalize db r ch status = db ∨
      ∃ row, db.turns.get? r.turn = some row ∧ row.status = .running ∧
        finalize db r ch status =
          { db with turns := db.turns.insert r.turn { row with status, updatedAt := ch.now } } := by
  unfold finalize
  split
  · split
    · rename_i db' h
      exact endRun_cases h
    · exact Or.inl rfl
  · exact Or.inl rfl

theorem parkTurn_cases (db : ChatDb) (r : Run) (ch : Choice) (why : String) :
    parkTurn db r ch why = db ∨
      ∃ row, db.turns.get? r.turn = some row ∧ row.status = .running ∧
        parkTurn db r ch why =
          { db with turns := db.turns.insert r.turn { row with
              status := .waitingBackend, lastError := some why, updatedAt := ch.now } } := by
  unfold parkTurn
  split
  · split
    · rename_i db' h
      exact endRun_cases h
    · exact Or.inl rfl
  · exact Or.inl rfl

/-! ## Steps of a run -/

/-- What a step of a run may do to the tables: other turns keep their rows. -/
structure Local (db db' : ChatDb) (t : ℕ) : Prop where
  turns : ∀ t', t' ≠ t → db'.turns.get? t' = db.turns.get? t'
  known : (db'.turns.get? t).isSome = true
  messages : ∀ m ∈ db'.messages, m ∈ db.messages ∨ m.turn = t
  rows : ∀ t', t' ≠ t → terminalRows db' t' = terminalRows db t'

theorem local_refl {db : ChatDb} {t : ℕ} (h : (db.turns.get? t).isSome = true) : Local db db t :=
  ⟨fun _ _ => rfl, h, fun _ hm => Or.inl hm, fun _ _ => rfl⟩

theorem local_append {db : ChatDb} {r : Run} (ch : Choice) (role : ChatRole) (content : String)
    (h : (db.turns.get? r.turn).isSome = true) : Local db (append db r ch role content) r.turn := by
  obtain ⟨hturns, hmsgs⟩ := append_cases db r ch role content
  refine ⟨?_, ?_, ?_, ?_⟩
  · intro t' _
    rw [hturns]
  · rw [hturns]
    exact h
  · rcases hmsgs with heq | ⟨m, hm, -, heq⟩
    · rw [heq]
      exact fun m hm => Or.inl hm
    · rw [heq]
      intro m' hm'
      rcases List.mem_append.mp hm' with hold | hnew
      · exact Or.inl hold
      · rw [List.mem_singleton.mp hnew]
        exact Or.inr hm
  · intro t' hne
    unfold terminalRows
    rcases hmsgs with heq | ⟨m, hm, -, heq⟩
    · rw [heq]
    · have hother : ¬ m.turn = t' := fun h => hne (h.symm.trans hm)
      rw [heq, List.countP_append]
      simp [hother]

theorem local_insert {db : ChatDb} {t : ℕ} (row : TurnRow) :
    Local db { db with turns := db.turns.insert t row } t := by
  refine ⟨?_, ?_, ?_, ?_⟩
  · intro t' hne
    simp [Dict.get?_insert, hne]
  · simp [Dict.get?_insert]
  · exact fun m hm => Or.inl hm
  · exact fun _ _ => rfl

/-- INTERNAL: the rows of the run's turn after an append. -/
theorem terminalRows_append_le (db : ChatDb) (r : Run) (ch : Choice) (role : ChatRole)
    (content : String) :
    terminalRows (append db r ch role content) r.turn ≤
      terminalRows db r.turn + (isTerminal role).toNat := by
  unfold terminalRows
  rcases (append_cases db r ch role content).2 with heq | ⟨m, hm, hrole, heq⟩
  · rw [heq]
    omega
  · rw [heq, List.countP_append]
    cases hterm : isTerminal role with
    | true =>
      have hone : [m].countP (fun m => m.turn = r.turn && isTerminal m.role) ≤ 1 :=
        List.countP_le_length
      simpa using hone
    | false => simp [hrole, hterm]

/-- INTERNAL: the tables after a change to one turn, when that turn is in order. -/
theorem local_tables {s : State} (h : Inv s) {t : ℕ} {db' : ChatDb} (hlocal : Local s.db db' t)
    (hown : ∀ row, db'.turns.get? t = some row →
      terminalRows db' t ≤ 1 ∧ (terminalRows db' t ≠ 0 → claimable row = false)) :
    (∀ t', terminalRows db' t' ≤ 1) ∧
      (∀ t' row, db'.turns.get? t' = some row → terminalRows db' t' ≠ 0 → claimable row = false) ∧
      ∀ m ∈ db'.messages, (db'.turns.get? m.turn).isSome = true := by
  obtain ⟨row, hrow⟩ := Option.isSome_iff_exists.mp hlocal.known
  refine ⟨?_, ?_, ?_⟩
  · intro t'
    by_cases ht : t' = t
    · subst ht
      exact (hown row hrow).1
    · exact (hlocal.rows t' ht).trans_le (h.rows_le t')
  · intro t' row' hrow' hne
    by_cases ht : t' = t
    · subst ht
      exact (hown row' hrow').2 hne
    · have hrow'' : s.db.turns.get? t' = some row' := (hlocal.turns t' ht).symm.trans hrow'
      have hne' : terminalRows s.db t' ≠ 0 := by
        rw [← hlocal.rows t' ht]
        exact hne
      exact h.settled t' row' hrow'' hne'
  · intro m hm
    by_cases ht : m.turn = t
    · rw [ht]
      exact hlocal.known
    · rcases hlocal.messages m hm with hold | hnew
      · exact (congrArg Option.isSome (hlocal.turns m.turn ht)).trans (h.messages_known m hold)
      · exact absurd hnew ht

/-- INTERNAL: a run of another turn, or one that is leaving, after a change to one turn. -/
theorem local_run {s : State} (h : Inv s) {t : ℕ} {db' : ChatDb} (hlocal : Local s.db db' t)
    {j : ℕ} {q : Run} (hq : s.runs j = some q) (hleave : q.turn = t → Pc.isLeave q.pc = true) :
    (db'.turns.get? q.turn).isSome = true ∧ ∀ row, db'.turns.get? q.turn = some row →
      PcOk (terminalRows db' q.turn) row.attempts q.resumed q.pc ∧ Held row q.pc := by
  by_cases ht : q.turn = t
  · refine ⟨?_, ?_⟩
    · rw [ht]
      exact hlocal.known
    · intro row hrow
      have hleaves := hleave ht
      cases hpc : q.pc with
      | leave => exact ⟨trivial, trivial⟩
      | _ => simp [hpc, Pc.isLeave] at hleaves
  · refine ⟨(congrArg Option.isSome (hlocal.turns q.turn ht)).trans (h.runs_known j q hq), ?_⟩
    intro row hrow
    have hq' := h.run_ok j q hq row ((hlocal.turns _ ht).symm.trans hrow)
    rw [← hlocal.rows q.turn ht] at hq'
    exact hq'

/-- INTERNAL: a run under way that steps within its own turn keeps the invariant when it
keeps it for that turn. -/
theorem inv_of_local {s : State} (h : Inv s) {i : ℕ} {r r' : Run} {db' : ChatDb}
    (hr : s.runs i = some r) (hlive : Pc.isLeave r.pc = false) (hturn : r'.turn = r.turn)
    (hlocal : Local s.db db' r.turn)
    (hown : ∀ row, db'.turns.get? r.turn = some row →
      (terminalRows db' r.turn ≤ 1 ∧ (terminalRows db' r.turn ≠ 0 → claimable row = false)) ∧
        PcOk (terminalRows db' r.turn) row.attempts r'.resumed r'.pc ∧ Held row r'.pc) :
    Inv ({ s with db := db' }.setRun i (some r')) := by
  obtain ⟨hrows, hsettled, hmessages⟩ := local_tables h hlocal fun row hrow => (hown row hrow).1
  -- another run of the turn is one that is leaving
  have hothers : ∀ j q, j ≠ i → s.runs j = some q → q.turn = r.turn → Pc.isLeave q.pc = true := by
    intro j q hj hq ht
    cases hleave : Pc.isLeave q.pc with
    | false => exact absurd (h.alone j i q r hq hr ht hleave hlive) hj
    | true => rfl
  refine ⟨hrows, hsettled, hmessages, ?_, ?_, ?_⟩
  · intro j q hq
    by_cases hj : j = i
    · simp only [State.setRun, hj, ↓reduceIte, Option.some.injEq] at hq
      rw [← hq, hturn]
      exact hlocal.known
    · simp only [State.setRun, hj, ↓reduceIte] at hq
      exact (local_run h hlocal hq (hothers j q hj hq)).1
  · intro j q hq row hrow
    by_cases hj : j = i
    · simp only [State.setRun, hj, ↓reduceIte, Option.some.injEq] at hq
      rw [← hq, hturn] at hrow ⊢
      exact (hown row hrow).2
    · simp only [State.setRun, hj, ↓reduceIte] at hq
      exact (local_run h hlocal hq (hothers j q hj hq)).2 row hrow
  · intro j k q q' hq hq' ht hlq hlq'
    by_cases hj : j = i
    · by_cases hk : k = i
      · rw [hj, hk]
      · simp only [State.setRun, hj, hk, ↓reduceIte, Option.some.injEq] at hq hq'
        rw [← hq, hturn] at ht
        exact absurd (h.alone k i q' r hq' hr ht.symm hlq' hlive) hk
    · by_cases hk : k = i
      · simp only [State.setRun, hj, hk, ↓reduceIte, Option.some.injEq] at hq hq'
        rw [← hq', hturn] at ht
        exact absurd (h.alone j i q r hq hr ht hlq hlive) hj
      · simp only [State.setRun, hj, hk, ↓reduceIte] at hq hq'
        exact h.alone j k q q' hq hq' ht hlq hlq'

/-- What `inv_of_local` asks of a run's own turn. -/
def OwnOk (db : ChatDb) (r : Run) (pc : Pc) : Prop :=
  ∀ row, db.turns.get? r.turn = some row →
    (terminalRows db r.turn ≤ 1 ∧ (terminalRows db r.turn ≠ 0 → claimable row = false)) ∧
      PcOk (terminalRows db r.turn) row.attempts r.resumed pc ∧ Held row pc

section Own

variable {db : ChatDb} {r : Run} {row : TurnRow}

/-- INTERNAL: a step that leaves the tables alone, on a running turn. -/
theorem ownOk_of_running (hrow : db.turns.get? r.turn = some row) (hrun : row.status = .running)
    (hle : terminalRows db r.turn ≤ 1) {pc : Pc}
    (hpc : PcOk (terminalRows db r.turn) row.attempts r.resumed pc)
    (hheld : Held row pc) : OwnOk db r pc := by
  intro row' hrow'
  rw [hrow] at hrow'
  cases hrow'
  exact ⟨⟨hle, fun _ => claimable_of_running hrun⟩, hpc, hheld⟩

/-- INTERNAL: an append on a turn that no claim takes. -/
theorem ownOk_append (ch : Choice) (role : ChatRole) (content : String)
    (hrow : db.turns.get? r.turn = some row) (hclaim : claimable row = false)
    (hle : terminalRows db r.turn + (isTerminal role).toNat ≤ 1) {pc : Pc}
    (hpc : ∀ n, n ≤ terminalRows db r.turn + (isTerminal role).toNat →
      PcOk n row.attempts r.resumed pc)
    (hheld : Held row pc) : OwnOk (append db r ch role content) r pc := by
  intro row' hrow'
  have hrows := terminalRows_append_le db r ch role content
  rw [(append_cases db r ch role content).1, hrow] at hrow'
  cases hrow'
  exact ⟨⟨hrows.trans hle, fun _ => hclaim⟩, hpc _ hrows, hheld⟩

/-- INTERNAL: the end of a run, to a status that no claim takes once there is a row. -/
theorem ownOk_finalize (ch : Choice) {status : ChatTurnStatus} {pc : Pc}
    (hrow : db.turns.get? r.turn = some row) (hrun : row.status = .running)
    (hle : terminalRows db r.turn ≤ 1)
    (hstatus : terminalRows db r.turn ≠ 0 →
      status ≠ .waitingBackend ∧ (status = .interrupted → row.attempts ≠ 0))
    (hpc : PcOk (terminalRows db r.turn) row.attempts r.resumed pc)
    (hheld : ∀ row', row'.attempts = row.attempts →
      row'.status = .running ∨ row'.status = status → Held row' pc) :
    OwnOk (finalize db r ch status) r pc := by
  rcases finalize_cases db r ch status with heq | ⟨row', hrow', -, heq⟩
  · rw [heq]
    exact ownOk_of_running hrow hrun hle hpc (hheld row rfl (Or.inl hrun))
  · rw [hrow] at hrow'
    cases hrow'
    rw [heq]
    intro row' hrow'
    have hself : row' = { row with status, updatedAt := ch.now } := by
      simpa [Dict.get?_insert] using hrow'.symm
    subst hself
    refine ⟨⟨hle, ?_⟩, hpc, hheld _ rfl (Or.inr rfl)⟩
    intro hne
    obtain ⟨hwait, hatt⟩ := hstatus hne
    simp only [claimable, hwait, decide_false, Bool.false_or, Bool.and_eq_false_iff,
      decide_eq_false_iff_not]
    by_cases hint : status = .interrupted
    · exact Or.inr (hatt hint)
    · exact Or.inl hint

end Own

/-- INTERNAL: the events of an agent run, before the first is persisted. -/
theorem eventsOk_events (a : AgentRun) : EventsOk a.events false false a.result := by
  have htools : ∀ l : List (String × String),
      doneCount (l.map fun e => AgentEvent.tool e.1 e.2) = 0 ∧
        failedCount (l.map fun e => AgentEvent.tool e.1 e.2) = 0 := by
    intro l
    induction l with
    | nil => exact ⟨rfl, rfl⟩
    | cons e l ih => exact ih
  obtain ⟨hdone, hfailed⟩ := htools a.tools
  unfold AgentRun.events
  unfold doneCount at hdone
  unfold failedCount at hfailed
  cases a.result with
  | ok reply =>
    refine ⟨?_, ?_, ?_, ?_⟩
    · simp [doneCount, failedCount, List.countP_append, hdone, hfailed]
    · intro _ _
      simp [failedCount, List.countP_append, hfailed]
    · intro e he
      cases he
    · intro e he
      cases he
  | error e =>
    refine ⟨?_, ?_, ?_, ?_⟩
    · cases e <;> simp [doneCount, failedCount, List.countP_append, hdone, hfailed]
    · intro reply he
      cases he
    · intro e' he
      cases e <;> simp [doneCount, List.countP_append, hdone]
    · intro e' he
      cases he
      simp [failedCount, hfailed]

/-- INTERNAL: persisting an event moves it from the pending ones to the flags. -/
theorem eventsOk_tail (json : String → String → String) {event : AgentEvent} {pending : List AgentEvent} {d f : Bool}
    {result : Except AgentError String} (h : EventsOk (event :: pending) d f result) :
    EventsOk pending (sawDone d event) (sawFailed f event) result ∧
      d.toNat + f.toNat + (isTerminal (rowOf json event).1).toNat ≤
        (sawDone d event).toNat + (sawFailed f event).toNat := by
  obtain ⟨honce, hok, herr, hllm⟩ := h
  cases event with
  | tool name detail => exact ⟨⟨honce, hok, herr, hllm⟩, by simp [rowOf, isTerminal, sawDone, sawFailed]⟩
  | done reply =>
    have hcount : doneCount (.done reply :: pending) = doneCount pending + 1 := by
      simp [doneCount]
    have hsame : failedCount (.done reply :: pending) = failedCount pending := by
      simp [failedCount]
    rw [hcount, hsame] at honce
    have hd : d = false := by
      cases d with
      | false => rfl
      | true =>
        simp only [Bool.toNat_true] at honce
        omega
    subst hd
    refine ⟨⟨?_, ?_, ?_, ?_⟩, ?_⟩
    · simp only [sawDone, sawFailed, Bool.toNat_true, Bool.toNat_false] at honce ⊢
      omega
    · intro reply' hr
      rw [← hsame]
      exact hok reply' hr
    · intro e he
      have hzero := (herr e he).1
      omega
    · intro e he
      rw [← hsame]
      exact hllm e he
    · simp only [rowOf, isTerminal, sawDone, sawFailed, Bool.toNat_true, Bool.toNat_false, decide_true,
        Bool.true_or]
      omega
  | failed message =>
    have hcount : failedCount (.failed message :: pending) = failedCount pending + 1 := by
      simp [failedCount]
    have hsame : doneCount (.failed message :: pending) = doneCount pending := by
      simp [doneCount]
    rw [hcount, hsame] at honce
    have hf : f = false := by
      cases f with
      | false => rfl
      | true =>
        simp only [Bool.toNat_true] at honce
        omega
    subst hf
    refine ⟨⟨?_, ?_, ?_, ?_⟩, ?_⟩
    · simp only [sawDone, sawFailed, Bool.toNat_true, Bool.toNat_false] at honce ⊢
      omega
    · intro reply' hr
      have hzero := (hok reply' hr).1
      omega
    · intro e he
      rw [← hsame]
      exact herr e he
    · intro e he
      have hzero := (hllm e he).1
      omega
    · simp [rowOf, isTerminal, sawDone, sawFailed]

theorem brokenStatus_ne_waiting (resumed : Bool) : brokenStatus resumed ≠ .waitingBackend := by
  cases resumed <;> simp [brokenStatus]

theorem brokenStatus_eq_interrupted {resumed : Bool} (h : brokenStatus resumed = .interrupted) :
    resumed = true := by
  cases resumed with
  | true => rfl
  | false => cases h

/-- INTERNAL: the result of the agent ends the run with the rows there are. A failed LLM
call of a resumed run is the end that needs the attempt spent. -/
theorem pcOk_afterAgent (short : String → String) {rows attempts : ℕ} {resumed d f : Bool}
    {backend : BackendState} {result : Except AgentError String} (hev : EventsOk [] d f result)
    (hrows : rows ≤ d.toNat + f.toNat)
    (hllm : ∀ e, result = .error (.llm e) → resumed = true → parks e backend = false →
      attempts ≠ 0) :
    PcOk rows attempts resumed (afterAgent short resumed d f backend result) := by
  obtain ⟨honce, hok, herr, hl⟩ := hev
  have hsum : d.toNat + f.toNat ≤ 1 := by
    simp only [doneCount, failedCount, List.countP_nil] at honce
    omega
  cases result with
  | ok reply =>
    have hf := (hok reply rfl).2
    subst hf
    cases d with
    | true =>
      simp only [afterAgent, ↓reduceIte]
      exact ⟨hrows.trans hsum, by simp, by simp⟩
    | false =>
      simp only [afterAgent, Bool.false_eq_true, ↓reduceIte]
      refine ⟨⟨by simp [doneCount, failedCount], ?_, ?_, ?_⟩, hrows⟩
      · intro _ _
        simp [failedCount]
      · intro e he
        cases he
      · intro e he
        cases he
  | error e =>
    have hd := (herr e rfl).2
    subst hd
    cases e with
    | llm e =>
      have hf := (hl e rfl).2
      subst hf
      have hzero : rows = 0 := by
        simp only [Bool.toNat_false] at hrows
        omega
      simp only [afterAgent]
      split
      · exact hzero
      · rename_i hpark
        refine ⟨hzero, brokenStatus_ne_waiting resumed, ?_⟩
        intro hint
        exact hllm e rfl (brokenStatus_eq_interrupted hint) (by simpa using hpark)
    | store | stepCapExceeded | badToolArgs =>
      simp only [afterAgent]
      cases f with
      | true => exact ⟨hrows.trans hsum, by simp, by simp⟩
      | false =>
        have hzero : rows = 0 := by
          simp only [Bool.toNat_false] at hrows
          omega
        exact ⟨hzero, by simp, by simp⟩

theorem held_afterAgent (short : String → String) (resumed d f : Bool) (backend : BackendState)
    (result : Except AgentError String) {row : TurnRow} (hrun : row.status = .running) :
    Held row (afterAgent short resumed d f backend result) := by
  cases result with
  | ok reply =>
    simp only [afterAgent]
    split <;> exact hrun
  | error e =>
    cases e with
    | llm e =>
      simp only [afterAgent]
      split <;> exact hrun
    | store | stepCapExceeded | badToolArgs => exact hrun

/-- INTERNAL: every step of a run under way stays within its turn and keeps what holds of
it. -/
theorem ownOk_runStep (fmt : Format) {s : State} (h : Inv s) {i : ℕ} {r : Run} (ch : Choice)
    (hr : s.runs i = some r) (hlive : Pc.isLeave r.pc = false)
    (hsettles : settles s (.step i ch) = true) :
    Local s.db (runStep fmt s.db r ch).1 r.turn ∧
      OwnOk (runStep fmt s.db r ch).1 r (runStep fmt s.db r ch).2 := by
  have hknown := h.runs_known i r hr
  obtain ⟨row, hrow⟩ := Option.isSome_iff_exists.mp hknown
  obtain ⟨hpc, hheld⟩ := h.run_ok i r hr row hrow
  have hle := h.rows_le r.turn
  obtain ⟨user, session, turn, resumed, pc⟩ := r
  cases pc with
  | leave => cases hlive
  | spawn => exact ⟨local_refl hknown, ownOk_of_running hrow hheld hle hpc hheld⟩
  | history =>
    simp only [runStep]
    split
    · exact ⟨local_refl hknown, ownOk_of_running hrow hheld hle hpc hheld⟩
    · refine ⟨local_refl hknown, ownOk_of_running hrow hheld hle ?_ hheld⟩
      exact ⟨hpc, by simp, by simp⟩
  | admission =>
    have hzero : terminalRows s.db turn = 0 := hpc
    simp only [runStep]
    split
    · exact ⟨local_refl hknown, ownOk_of_running hrow hheld hle hpc hheld⟩
    · split
      · refine ⟨local_refl hknown, ownOk_of_running hrow hheld hle ?_ hheld⟩
        exact ⟨eventsOk_events ch.agent, hzero.le.trans (Nat.zero_le _)⟩
      · refine ⟨local_refl hknown, ownOk_of_running hrow hheld hle ?_ hheld⟩
        exact ⟨hle, by simp, fun _ => Or.inl hzero⟩
      · refine ⟨local_refl hknown, ownOk_of_running hrow hheld hle ?_ hheld⟩
        exact ⟨hzero, by simp, by simp⟩
  | persist pending doneSeen failedSeen result =>
    obtain ⟨hev, hrows⟩ := hpc
    cases pending with
    | nil =>
      simp only [runStep]
      refine ⟨local_refl hknown, ownOk_of_running hrow hheld hle ?_ ?_⟩
      · refine pcOk_afterAgent fmt.short hev hrows ?_
        intro e he hres hpark
        subst he
        have hres' : resumed = true := hres
        subst hres'
        simp only [settles, hr, hpark, attemptsOf, hrow, Bool.false_or] at hsettles
        simpa using hsettles
      · exact held_afterAgent fmt.short resumed doneSeen failedSeen ch.health result hheld
    | cons event pending =>
      obtain ⟨hev', hflags⟩ := eventsOk_tail fmt.json hev
      simp only [runStep]
      have hone := hev'.once
      refine ⟨local_append ch _ _ hknown, ?_⟩
      refine ownOk_append ch _ _ hrow (claimable_of_running hheld) ?_ ?_ hheld
      · dsimp only at hrows ⊢
        omega
      · intro n hn
        refine ⟨hev', ?_⟩
        dsimp only at hrows hn
        omega
  | finish status errorRow =>
    cases errorRow with
    | some message =>
      obtain ⟨hzero, hwait, hint⟩ := hpc
      have hzero : terminalRows s.db turn = 0 := hzero
      refine ⟨local_append ch _ _ hknown, ?_⟩
      refine ownOk_append ch _ _ hrow (claimable_of_running hheld) ?_ ?_ hheld
      · simp [hzero, isTerminal]
      · intro n hn
        refine ⟨?_, hwait, fun he => Or.inr (hint he)⟩
        simpa [hzero, isTerminal] using hn
    | none =>
      obtain ⟨-, hwait, hint⟩ := hpc
      simp only [runStep]
      refine ⟨?_, ?_⟩
      · rcases finalize_cases s.db ⟨user, session, turn, resumed, .finish status none⟩ ch status
          with heq | ⟨row', -, -, heq⟩
        · rw [heq]
          exact local_refl hknown
        · rw [heq]
          exact local_insert _
      · refine ownOk_finalize ch hrow hheld hle ?_ trivial fun _ _ _ => trivial
        intro hne
        exact ⟨hwait, fun he => (hint he).resolve_left hne⟩
  | park why =>
    have hzero : terminalRows s.db turn = 0 := hpc
    simp only [runStep]
    rcases parkTurn_cases s.db ⟨user, session, turn, resumed, .park why⟩ ch why
      with heq | ⟨row', -, -, heq⟩
    · rw [heq]
      exact ⟨local_refl hknown, ownOk_of_running hrow hheld hle trivial trivial⟩
    · rw [heq]
      refine ⟨local_insert _, ?_⟩
      intro row'' _
      exact ⟨⟨hle, fun hne => absurd hzero hne⟩, trivial, trivial⟩
  | guardFinalize =>
    obtain ⟨hzero, hatt⟩ := hpc
    have hzero : terminalRows s.db turn = 0 := hzero
    simp only [runStep]
    refine ⟨?_, ?_⟩
    · rcases finalize_cases s.db ⟨user, session, turn, resumed, .guardFinalize⟩ ch
        (brokenStatus resumed) with heq | ⟨row', -, -, heq⟩
      · rw [heq]
        exact local_refl hknown
      · rw [heq]
        exact local_insert _
    · refine ownOk_finalize ch hrow hheld hle (fun hne => absurd hzero hne) hzero ?_
      rintro row' hsame (hrun | hbroken)
      · exact claimable_of_running hrun
      · -- the status the guard leaves can not be claimed
        cases resumed with
        | false => simp [Held, claimable, hbroken, brokenStatus]
        | true => simp [Held, claimable, hbroken, brokenStatus, hsame, hatt rfl]
  | guardAppend =>
    have hzero : terminalRows s.db turn = 0 := hpc
    refine ⟨local_append ch _ _ hknown, ?_⟩
    refine ownOk_append ch _ _ hrow hheld ?_ (fun _ _ => trivial) trivial
    simp [hzero, isTerminal]

/-! ## Starts of a run -/

/-- INTERNAL: a change to a turn that no run has under way. -/
theorem inv_of_quiet {s : State} (h : Inv s) {t : ℕ} {db' : ChatDb} (hlocal : Local s.db db' t)
    (hquiet : ∀ j q, s.runs j = some q → q.turn = t → Pc.isLeave q.pc = true)
    (hown : ∀ row, db'.turns.get? t = some row →
      terminalRows db' t ≤ 1 ∧ (terminalRows db' t ≠ 0 → claimable row = false)) :
    Inv { s with db := db' } := by
  obtain ⟨hrows, hsettled, hmessages⟩ := local_tables h hlocal hown
  refine ⟨hrows, hsettled, hmessages, ?_, ?_, h.alone⟩
  · intro j q hq
    exact (local_run h hlocal hq (hquiet j q hq)).1
  · intro j q hq row hrow
    exact (local_run h hlocal hq (hquiet j q hq)).2 row hrow

/-- INTERNAL: a new run of a running turn without a row. -/
theorem inv_addRun {s : State} (h : Inv s) {i : ℕ} {r : Run} {row : TurnRow}
    (hpc : r.pc = .spawn) (hrow : s.db.turns.get? r.turn = some row)
    (hrun : row.status = .running) (hzero : terminalRows s.db r.turn = 0)
    (hquiet : ∀ j q, s.runs j = some q → q.turn = r.turn → Pc.isLeave q.pc = true) :
    Inv (s.setRun i (some r)) := by
  refine ⟨h.rows_le, h.settled, h.messages_known, ?_, ?_, ?_⟩
  · intro j q hq
    by_cases hj : j = i
    · simp only [State.setRun, hj, ↓reduceIte, Option.some.injEq] at hq
      subst hq
      exact Option.isSome_iff_exists.mpr ⟨row, hrow⟩
    · simp only [State.setRun, hj, ↓reduceIte] at hq
      exact h.runs_known j q hq
  · intro j q hq row' hrow'
    by_cases hj : j = i
    · simp only [State.setRun, hj, ↓reduceIte, Option.some.injEq] at hq
      subst hq
      have heq : row' = row := Option.some.inj (hrow'.symm.trans hrow)
      rw [heq, hpc]
      exact ⟨hzero, hrun⟩
    · simp only [State.setRun, hj, ↓reduceIte] at hq
      exact h.run_ok j q hq row' hrow'
  · intro j k q q' hq hq' ht hlq hlq'
    by_cases hj : j = i
    · by_cases hk : k = i
      · rw [hj, hk]
      · simp only [State.setRun, hj, hk, ↓reduceIte, Option.some.injEq] at hq hq'
        subst hq
        have hleave := hquiet k q' hq' ht.symm
        rw [hlq'] at hleave
        cases hleave
    · by_cases hk : k = i
      · simp only [State.setRun, hj, hk, ↓reduceIte, Option.some.injEq] at hq hq'
        subst hq'
        have hleave := hquiet j q hq ht
        rw [hlq] at hleave
        cases hleave
      · simp only [State.setRun, hj, hk, ↓reduceIte] at hq hq'
        exact h.alone j k q q' hq hq' ht hlq hlq'

/-- INTERNAL: a run that ends, or one that is leaving, can be taken out. -/
theorem inv_dropRun {s : State} (h : Inv s) (i : ℕ) : Inv (s.setRun i none) := by
  have hold : ∀ j q, (s.setRun i none).runs j = some q → s.runs j = some q := by
    intro j q hq
    by_cases hj : j = i
    · simp [State.setRun, hj] at hq
    · simpa [State.setRun, hj] using hq
  exact ⟨h.rows_le, h.settled, h.messages_known, fun j q hq => h.runs_known j q (hold j q hq),
    fun j q hq => h.run_ok j q (hold j q hq),
    fun j k q q' hq hq' => h.alone j k q q' (hold j q hq) (hold k q' hq')⟩

/-- INTERNAL: a claimable turn has no row and no run under way. -/
theorem quiet_of_claimable {s : State} (h : Inv s) {t : ℕ} {row : TurnRow}
    (hrow : s.db.turns.get? t = some row) (hclaim : claimable row = true) :
    terminalRows s.db t = 0 ∧
      ∀ j q, s.runs j = some q → q.turn = t → Pc.isLeave q.pc = true := by
  constructor
  · by_contra hne
    rw [h.settled t row hrow hne] at hclaim
    cases hclaim
  · intro j q hq ht
    cases hleave : Pc.isLeave q.pc with
    | true => rfl
    | false =>
      have hheld := (h.run_ok j q hq row (by rw [ht]; exact hrow)).2
      rw [claimable_of_held hleave hheld] at hclaim
      cases hclaim

/-- INTERNAL: a claim that takes the turn found it claimable and sets it running. -/
theorem claimListed_cases {db db' : ChatDb} {l : Listed} {now : ℕ}
    (h : claimListed db l now = .ok (db', true)) :
    ∃ row row', db.turns.get? l.turn = some row ∧ claimable row = true ∧
      row'.status = .running ∧ db' = { db with turns := db.turns.insert l.turn row' } := by
  have hclaim : ∀ (ready : TurnRow → Bool) (set : TurnRow → TurnRow),
      (∀ row, ready row = true → claimable row = true) → (∀ row, (set row).status = .running) →
      db.claim l.user l.row.sessionId l.turn ready set = .ok (db', true) →
      ∃ row row', db.turns.get? l.turn = some row ∧ claimable row = true ∧
        row'.status = .running ∧ db' = { db with turns := db.turns.insert l.turn row' } := by
    intro ready set hready hset hok
    unfold ChatDb.claim at hok
    split at hok
    · cases hok
    · rename_i row hrow
      split at hok
      · rename_i hguard
        split at hok
        · cases hok
        · cases hok
          simp only [Bool.and_eq_true] at hguard
          exact ⟨row, set row, hrow, hready row hguard.1.2, hset row, rfl⟩
      · cases hok
  unfold claimListed at h
  split at h
  · refine hclaim _ _ ?_ (fun _ => rfl) h
    intro row hready
    simp only [claimable, hready, Bool.true_or]
  · refine hclaim _ _ ?_ (fun _ => rfl) h
    intro row hready
    simp only [claimable, hready, Bool.or_true]

theorem inv_claimNext {s : State} (h : Inv s) (i : ℕ) (l : Listed) (rest : List Listed)
    (ready storeOk : Bool) (now : ℕ) : Inv (s.claimNext i l rest ready storeOk now) := by
  have hsupply : ∀ supply, Inv { s with supply } := fun _ =>
    ⟨h.rows_le, h.settled, h.messages_known, h.runs_known, h.run_ok, h.alone⟩
  unfold State.claimNext
  split
  · exact hsupply rest
  · split
    · exact hsupply []
    · split
      · exact hsupply []
      · exact hsupply rest
      · rename_i db' hok
        obtain ⟨row, row', hrow, hclaim, hrun, rfl⟩ := claimListed_cases hok
        obtain ⟨hzero, hquiet⟩ := quiet_of_claimable h hrow hclaim
        have hself : (s.db.turns.insert l.turn row').get? l.turn = some row' := by
          simp [Dict.get?_insert]
        have hdb := inv_of_quiet (hsupply rest) (local_insert row') hquiet (by
          intro row'' _
          exact ⟨hzero.trans_le (Nat.zero_le 1), fun hne => absurd hzero hne⟩)
        exact inv_addRun hdb rfl hself hrun hzero hquiet

theorem abandon_cases (session now : ℕ) (row : TurnRow) :
    (abandon session now row).attempts = row.attempts ∧
      (row.status = .running → (abandon session now row).status = .running) ∧
        (claimable row = false → claimable (abandon session now row) = false) := by
  unfold abandon
  split
  · rename_i hcond
    refine ⟨rfl, ?_, ?_⟩
    · intro hrun
      rcases hcond.2 with hst | hst
      · rw [hst] at hrun
        cases hrun
      · rw [hst] at hrun
        cases hrun
    · intro _
      simp [claimable]
  · exact ⟨rfl, fun hrun => hrun, fun hclaim => hclaim⟩

theorem pcOk_held_abandon {row : TurnRow} {rows session now : ℕ} {resumed : Bool} {pc : Pc}
    (h : PcOk rows row.attempts resumed pc ∧ Held row pc) :
    PcOk rows (abandon session now row).attempts resumed pc ∧
      Held (abandon session now row) pc := by
  obtain ⟨hatt, hrun, hclaim⟩ := abandon_cases session now row
  refine ⟨by rw [hatt]; exact h.1, ?_⟩
  cases pc with
  | leave => trivial
  | guardAppend => exact hclaim h.2
  | _ => exact hrun h.2

/-- INTERNAL: a submit abandons the unanswered turns of its session. -/
theorem inv_abandon {s : State} (h : Inv s) (session now : ℕ) :
    Inv { s with db := { s.db.touch session now with
      turns := s.db.turns.mapValues (abandon session now) } } := by
  have hget : ∀ t row', (s.db.turns.mapValues (abandon session now)).get? t = some row' →
      ∃ row, s.db.turns.get? t = some row ∧ row' = abandon session now row := by
    intro t row' hrow'
    rw [Dict.get?_mapValues] at hrow'
    obtain ⟨row, hrow, heq⟩ := Option.map_eq_some_iff.mp hrow'
    exact ⟨row, hrow, heq.symm⟩
  have hsome : ∀ t, ((s.db.turns.mapValues (abandon session now)).get? t).isSome =
      (s.db.turns.get? t).isSome := by
    intro t
    rw [Dict.get?_mapValues, Option.isSome_map]
  have hrows : ∀ t, terminalRows { s.db.touch session now with
      turns := s.db.turns.mapValues (abandon session now) } t = terminalRows s.db t :=
    fun t => terminalRows_touch s.db session now t
  refine ⟨?_, ?_, ?_, ?_, ?_, h.alone⟩
  · intro t
    exact (hrows t).trans_le (h.rows_le t)
  · intro t row' hrow' hne
    obtain ⟨row, hrow, rfl⟩ := hget t row' hrow'
    rw [hrows] at hne
    exact (abandon_cases session now row).2.2 (h.settled t row hrow hne)
  · intro m hm
    have hm : m ∈ s.db.messages := messages_touch s.db session now ▸ hm
    exact (hsome m.turn).trans (h.messages_known m hm)
  · intro j q hq
    exact (hsome q.turn).trans (h.runs_known j q hq)
  · intro j q hq row' hrow'
    obtain ⟨row, hrow, rfl⟩ := hget q.turn row' hrow'
    rw [hrows]
    exact pcOk_held_abandon (h.run_ok j q hq row hrow)

/-- INTERNAL: a submit adds a fresh turn, with a user row only. -/
theorem inv_submit {s : State} (h : Inv s) (i : ℕ) {user session turn now : ℕ} {message : String}
    {db' : ChatDb} {row : TurnRow}
    (hok : s.db.createTurn user session turn message now = .ok (db', row)) :
    Inv ({ s with db := db' }.setRun i (some ⟨user, session, turn, false, .spawn⟩)) := by
  unfold ChatDb.createTurn at hok
  split at hok
  · cases hok
  · split at hok
    · cases hok
    · rename_i hfree
      simp only [Bool.or_eq_true, not_or, Bool.not_eq_true] at hfree
      have hnone : s.db.turns.get? turn = none := by
        rw [← Option.not_isSome_iff_eq_none, hfree.2]
        simp
      simp only [Except.ok.injEq, Prod.mk.injEq] at hok
      obtain ⟨rfl, rfl⟩ := hok
      have hbase := inv_abandon h session now
      have hquiet : ∀ j q, s.runs j = some q → q.turn = turn → Pc.isLeave q.pc = true := by
        intro j q hq ht
        have hknown := h.runs_known j q hq
        rw [ht, hnone] at hknown
        cases hknown
      have hold : terminalRows s.db turn = 0 := by
        unfold terminalRows
        rw [List.countP_eq_zero]
        intro m hm hboth
        have hturn : m.turn = turn := by
          simp only [Bool.and_eq_true, decide_eq_true_eq] at hboth
          exact hboth.1
        have hknown := h.messages_known m hm
        rw [hturn, hnone] at hknown
        cases hknown
      -- the user row is not a terminal one
      have hrows : ∀ t (messages : List MessageRow) (m : MessageRow), m.role = .user →
          (messages ++ [m]).countP (fun m => m.turn = t && isTerminal m.role) =
            messages.countP (fun m => m.turn = t && isTerminal m.role) := by
        intro t messages m hrole
        rw [List.countP_append]
        simp [hrole, isTerminal]
      have htouch := terminalRows_touch s.db session now
      refine inv_addRun (inv_of_quiet hbase (t := turn) ?_ hquiet ?_) rfl
        ((Dict.get?_insert _ _ _ _).trans (if_pos rfl)) rfl ?_ hquiet
      · refine ⟨?_, ?_, ?_, ?_⟩
        · intro t' hne
          simp [Dict.get?_insert, hne]
        · simp [Dict.get?_insert]
        · intro m hm
          rcases List.mem_append.mp hm with hin | hnew
          · exact Or.inl (messages_touch s.db session now ▸ hin)
          · rw [List.mem_singleton.mp hnew]
            exact Or.inr rfl
        · intro t' _
          exact (hrows t' _ _ rfl).trans (htouch t').symm
      · intro row' _
        refine ⟨?_, fun hne => absurd ((hrows turn s.db.messages _ rfl).trans hold) hne⟩
        exact le_of_eq_of_le ((hrows turn s.db.messages _ rfl).trans hold) (Nat.zero_le 1)
      · exact (hrows turn s.db.messages _ rfl).trans hold

/-- INTERNAL: the sweep of a process that did not die with a row and a running turn. -/
theorem inv_crash {s : State} (h : Inv s) (sweepOk : Bool) (now : ℕ)
    (hsettles : settles s (.crash sweepOk now) = true) :
    Inv { db := if sweepOk then s.db.bootSweep now else s.db
          registry := [], runs := fun _ => none, supply := [] } := by
  cases sweepOk with
  | false =>
    refine ⟨h.rows_le, h.settled, h.messages_known, ?_, ?_, ?_⟩
    · intro i r hr
      cases hr
    · intro i r hr
      cases hr
    · intro i j r r' hr
      cases hr
  | true =>
    refine ⟨h.rows_le, ?_, ?_, ?_, ?_, ?_⟩
    · intro t row' hrow' hne
      simp only [↓reduceIte, ChatDb.bootSweep, Dict.get?_mapValues] at hrow'
      obtain ⟨row, hrow, rfl⟩ := Option.map_eq_some_iff.mp hrow'
      have hne' : terminalRows s.db t ≠ 0 := hne
      split
      · rename_i hrun
        have hentry := Dict.mem_entries.mpr hrow
        simp only [settles, Bool.not_true, Bool.false_or, List.all_eq_true] at hsettles
        have hpark := hsettles _ hentry
        simp only [hrun, hne', decide_true, ne_eq, not_false_eq_true, Bool.and_self,
          Bool.not_true, Bool.false_or, Bool.and_eq_true, decide_eq_true_eq] at hpark
        simp [claimable, hpark.1, hpark.2]
      · exact h.settled t row hrow hne'
    · intro m hm
      simp only [↓reduceIte, ChatDb.bootSweep, Dict.get?_mapValues, Option.isSome_map]
      exact h.messages_known m hm
    · intro i r hr
      cases hr
    · intro i r hr
      cases hr
    · intro i j r r' hr
      cases hr

/-- INTERNAL: a dropped runner hands its turn to its guard. -/
theorem inv_abort {s s' : State} (h : Inv s) {i : ℕ} {r : Run} (hr : s.runs i = some r)
    (hsettles : settles s (.abort i) = true) (hdrop : s.dropRun i r = some s') : Inv s' := by
  have hguard : r.turn ∈ s.registry → r.pc ≠ .spawn → r.pc ≠ .guardAppend →
      Inv (s.setRun i (some { r with pc := .guardFinalize })) := by
    intro hreg hspawn happend
    obtain ⟨row, hrow⟩ := Option.isSome_iff_exists.mp (h.runs_known i r hr)
    obtain ⟨-, hheld⟩ := h.run_ok i r hr row hrow
    have hcond : (Pc.isLeave r.pc = false ∧ terminalRows s.db r.turn = 0) ∧
        (r.resumed = false ∨ row.attempts ≠ 0) := by
      obtain ⟨user, session, turn, resumed, pc⟩ := r
      cases pc with
      | spawn => exact absurd rfl hspawn
      | _ => simpa [settles, hr, hreg, attemptsOf, hrow] using hsettles
    have hlive := hcond.1.1
    have hrun : row.status = .running := by
      cases hpc : r.pc with
      | leave => simp [hpc, Pc.isLeave] at hlive
      | guardAppend => exact absurd hpc happend
      | _ =>
        rw [hpc] at hheld
        exact hheld
    refine inv_of_local h hr hlive rfl (local_refl (h.runs_known i r hr)) ?_
    refine ownOk_of_running hrow hrun (h.rows_le _) ?_ hrun
    refine ⟨hcond.1.2, ?_⟩
    intro hres
    rcases hcond.2 with hfalse | hatt
    · rw [hres] at hfalse
      cases hfalse
    · exact hatt
  unfold State.dropRun at hdrop
  split at hdrop
  · cases hdrop
    exact inv_dropRun h i
  · cases hdrop
  · cases hdrop
  · rename_i hspawn hfin happend
    split at hdrop
    · rename_i hreg
      cases hdrop
      exact hguard hreg hspawn happend
    · cases hdrop
      exact inv_dropRun h i

theorem inv_step (fmt : Format) {s s' : State} {a : Action} (h : Inv s)
    (hsettles : settles s a = true) (hstep : step fmt s a = some s') : Inv s' := by
  cases a with
  | submit i user session turn message now =>
    simp only [step] at hstep
    split at hstep
    · cases hstep
    · split at hstep
      · cases hstep
        exact h
      · rename_i db' row hok
        cases hstep
        exact inv_submit h i hok
  | pass health =>
    simp only [step] at hstep
    split at hstep
    · cases hstep
      exact h
    · cases hstep
      exact ⟨h.rows_le, h.settled, h.messages_known, h.runs_known, h.run_ok, h.alone⟩
  | claim i ready storeOk now =>
    simp only [step] at hstep
    split at hstep
    · cases hstep
      exact inv_claimNext h i _ _ ready storeOk now
    · cases hstep
  | step i ch =>
    simp only [step] at hstep
    split at hstep
    · cases hstep
    · rename_i r hr
      have hreg : ∀ registry, Inv { s with registry } := fun _ =>
        ⟨h.rows_le, h.settled, h.messages_known, h.runs_known, h.run_ok, h.alone⟩
      have hrun : Pc.isLeave r.pc = false →
          Inv ({ s with db := (runStep fmt s.db r ch).1 }.setRun i
            (some { r with pc := (runStep fmt s.db r ch).2 })) := by
        intro hlive
        obtain ⟨hlocal, hown⟩ := ownOk_runStep fmt h ch hr hlive hsettles
        exact inv_of_local h hr hlive rfl hlocal hown
      cases hpc : r.pc with
      | spawn =>
        rw [hpc] at hstep
        cases hstep
        have hhist := inv_of_local (hreg (r.turn :: s.registry.erase r.turn)) (i := i) hr
          (by rw [hpc]; rfl) (rfl : ({ r with pc := .history } : Run).turn = r.turn)
          (local_refl (h.runs_known i r hr)) ?_
        · exact hhist
        · intro row hrow
          have hok := h.run_ok i r hr row hrow
          rw [hpc] at hok
          exact ⟨⟨h.rows_le _, h.settled _ row hrow⟩, hok⟩
      | leave =>
        rw [hpc] at hstep
        cases hstep
        exact inv_dropRun (hreg _) i
      | _ =>
        rw [hpc] at hstep
        cases hstep
        exact hrun (by rw [hpc]; rfl)
  | abort i =>
    simp only [step] at hstep
    split at hstep
    · cases hstep
    · rename_i r hr
      exact inv_abort h hr hsettles hstep
  | crash sweepOk now =>
    cases hstep
    exact inv_crash h sweepOk now hsettles

/-! ## Whole runs -/

/-- Over every interleaving of submits, resumed runs, parks, failures, drops and crashes
whose steps `settles` allows, a turn has at most one terminal row, and from then on neither
claim takes it. -/
theorem one_terminal_row (fmt : Format) (sessions : Dict ℕ SessionRow) (as : List Action)
    (s : State) (hrun : exec (step fmt) (State.init sessions) as = some s)
    (hok : Meets (step fmt) (fun s a => settles s a = true) (State.init sessions) as) (t : ℕ) :
    terminalRows s.db t ≤ 1 ∧
      (terminalRows s.db t = 1 → ∀ user session now db',
        s.db.claimResumable user session t now ≠ .ok (db', true) ∧
          s.db.claimWaiting user session t now ≠ .ok (db', true)) := by
  have hinv : Inv s :=
    exec_invariant_of_meets Inv (fun _ _ _ h hs hstep => inv_step fmt h hs hstep)
      (inv_init sessions) hrun hok
  refine ⟨hinv.rows_le t, ?_⟩
  intro hone user session now db'
  have hclaimed : ∀ l : Listed, l.turn = t → claimListed s.db l now ≠ .ok (db', true) := by
    intro l hl h
    obtain ⟨row, -, hrow, hclaim, -, -⟩ := claimListed_cases h
    have hzero := (quiet_of_claimable hinv hrow hclaim).1
    rw [hl, hone] at hzero
    cases hzero
  constructor
  · exact hclaimed ⟨user, t, ⟨session, 0, .interrupted, 0, 0, 0, .interrupted, none⟩⟩ rfl
  · exact hclaimed ⟨user, t, ⟨session, 0, .waitingBackend, 0, 0, 0, .interrupted, none⟩⟩ rfl

/-- Details as they are and tool events by name. -/
def plainFormat : Format := ⟨id, fun name _ => name⟩

def oneSession : Dict ℕ SessionRow := Dict.insert ∅ 1 ⟨1, 0⟩

def submitTurn : Action := .submit 0 1 1 7 "what is the port?" 1

def steps (i n : ℕ) (ch : Choice) : List Action := List.replicate n (.step i ch)

def backendError (code : ℕ) : Choice where
  agent := ⟨[("search", "port")], .error (.llm (.status code "no"))⟩

/-- The backend is down when the message comes: the turn is parked, resumed, answered. -/
def parkedThenAnswered : List Action :=
  submitTurn :: steps 0 2 {} ++ steps 0 3 { health := .red } ++
    [.pass .green, .claim 0 true true 2] ++
    steps 0 8 { agent := ⟨[("search", "port")], .ok "8080"⟩ } ++ [.crash true 3]

theorem one_terminal_row_answered :
    ∃ s, exec (step plainFormat) (State.init oneSession) parkedThenAnswered = some s ∧
      terminalRows s.db 7 = 1 ∧ ∀ now db',
        s.db.claimResumable 1 1 7 now ≠ .ok (db', true) ∧
          s.db.claimWaiting 1 1 7 now ≠ .ok (db', true) := by
  have hrun : (exec (step plainFormat) (State.init oneSession) parkedThenAnswered).isSome = true :=
    by decide
  obtain ⟨s, hs⟩ := Option.isSome_iff_exists.mp hrun
  have hone : (exec (step plainFormat) (State.init oneSession) parkedThenAnswered).map
      (fun s => terminalRows s.db 7) = some 1 := by decide
  rw [hs] at hone
  have hrow : terminalRows s.db 7 = 1 := Option.some.inj hone
  have hmain := one_terminal_row plainFormat oneSession parkedThenAnswered s hs (by decide) 7
  exact ⟨s, hs, hrow, hmain.2 hrow 1 1⟩

/-- The turn is parked and resumed into a backend that refuses it, which writes its error
row and leaves it `interrupted` with its attempt; the next pass claims it once more. -/
def refusedThenAnswered : List Action :=
  submitTurn :: steps 0 2 {} ++ steps 0 3 { health := .red } ++
    [.pass .green, .claim 0 true true 2] ++ steps 0 8 (backendError 400) ++
    [.pass .green, .claim 0 true true 3] ++
    steps 0 8 { agent := ⟨[("search", "port")], .ok "8080"⟩ }

theorem second_terminal_row :
    ∃ s, exec (step plainFormat) (State.init oneSession) refusedThenAnswered = some s ∧
      terminalRows s.db 7 = 2 := by
  have hrun : (exec (step plainFormat) (State.init oneSession) refusedThenAnswered).map
      (fun s => terminalRows s.db 7) = some 2 := by decide
  obtain ⟨s, hs, hrows⟩ := Option.map_eq_some_iff.mp hrun
  exact ⟨s, hs, hrows⟩

end Mycelium.Analysis.ChatTurnRows
