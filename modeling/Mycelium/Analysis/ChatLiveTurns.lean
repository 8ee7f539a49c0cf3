import Mycelium.Lib.StepSystem
import Mycelium.Analysis.ChatTables

/-!
# Live chat turns and their claims

A turn is live while its status is `running`, `interrupted` or `waiting_backend`. A
session has at most one live turn: a submit abandons the parked turns of its session and
is refused by a running one, and every other operation leaves a turn live only if it was
live before. So a claim never meets another running turn, and the boot sweep never leaves
two turns to resume.

The crash claim is taken once in the life of a turn, and `attempts` counts it. The column
`park_state` says which claim came last, and the boot sweep sends a running turn there.

SOURCE: crates/mycelium-store/src/chat.rs, migrations/0009_chat_waiting.sql
-/

set_option autoImplicit false

namespace Mycelium.Analysis.ChatLiveTurns

open StepSystem Mycelium.Model.ChatStore Mycelium.Model.ChatSessions
open Mycelium.Analysis.ChatTables

/-! ## One live turn per session -/

def live (status : ChatTurnStatus) : Bool :=
  status = .running || status = .interrupted || status = .waitingBackend

def LiveIn (db : ChatDb) (session turn : ℕ) : Prop :=
  ∃ row, db.turns.get? turn = some row ∧ row.sessionId = session ∧ live row.status = true

def OneLive (db : ChatDb) : Prop :=
  ∀ session turn turn', LiveIn db session turn → LiveIn db session turn' → turn = turn'

theorem live_of_running {status : ChatTurnStatus} (h : status = .running) : live status = true := by
  subst h
  rfl

/-- INTERNAL: fewer live turns. -/
theorem oneLive_of_sub {db db' : ChatDb} (h : OneLive db)
    (hsub : ∀ session turn, LiveIn db' session turn → LiveIn db session turn) : OneLive db' := by
  intro session turn turn' hlive hlive'
  exact h session turn turn' (hsub session turn hlive) (hsub session turn' hlive')

theorem liveIn_dropSession {db : ChatDb} {dropped session turn : ℕ}
    (h : LiveIn (db.dropSession dropped) session turn) : LiveIn db session turn := by
  obtain ⟨row, hget, hsession, hlive⟩ := h
  exact ⟨row, (mem_dropSession hget).1, hsession, hlive⟩

theorem oneLive_foldl_dropSession {db : ChatDb} (h : OneLive db) (dropped : List ℕ) :
    OneLive (dropped.foldl ChatDb.dropSession db) := by
  induction dropped generalizing db with
  | nil => exact h
  | cons session dropped ih =>
    apply ih
    apply oneLive_of_sub h
    intro session' turn
    exact liveIn_dropSession

/-- INTERNAL: a row that is replaced by another of its session, when it was live. -/
theorem liveIn_setTurn {db : ChatDb} {turn : ℕ} {row row' : TurnRow}
    (hget : db.turns.get? turn = some row) (hlive : live row.status = true)
    (hsession : row'.sessionId = row.sessionId) {session turn' : ℕ}
    (h : LiveIn (setTurn db turn row') session turn') : LiveIn db session turn' := by
  obtain ⟨row₁, hget₁, hsession₁, hlive₁⟩ := h
  rw [get?_setTurn] at hget₁
  by_cases ht : turn' = turn
  · rw [if_pos ht] at hget₁
    cases hget₁
    exact ⟨row, by rw [ht]; exact hget, hsession ▸ hsession₁, hlive⟩
  · rw [if_neg ht] at hget₁
    exact ⟨row₁, hget₁, hsession₁, hlive₁⟩

theorem oneLive_setTurn {db : ChatDb} (h : OneLive db) {turn : ℕ} {row row' : TurnRow}
    (hget : db.turns.get? turn = some row) (hlive : live row.status = true)
    (hsession : row'.sessionId = row.sessionId) : OneLive (setTurn db turn row') :=
  oneLive_of_sub h fun _ _ => liveIn_setTurn hget hlive hsession

/-- INTERNAL: the live turns of a submit's session are its own turn. -/
theorem liveIn_submitted {db : ChatDb} {session turn now : ℕ} {message : String}
    (hidle : db.runningIn session = false) {session' turn' : ℕ}
    (h : LiveIn (submitted db session turn message now) session' turn') :
    turn' = turn ∧ session' = session ∨ LiveIn db session' turn' ∧ session' ≠ session := by
  obtain ⟨row, hget, hsession, hlive⟩ := h
  simp only [submitted, Dict.get?_insert, Dict.get?_mapValues] at hget
  by_cases ht : turn' = turn
  · rw [if_pos ht] at hget
    cases hget
    exact Or.inl ⟨ht, hsession.symm⟩
  · rw [if_neg ht] at hget
    obtain ⟨row₀, hget₀, rfl⟩ := Option.map_eq_some_iff.mp hget
    rw [abandon_sessionId] at hsession
    have hne : session' ≠ session := by
      rintro rfl
      have hnot := not_running_of_runningIn hidle hget₀ hsession
      -- a row of the session is abandoned when it was parked and dead when it was not
      unfold abandon at hlive
      split at hlive
      · cases hlive
      · rename_i hparked
        cases hstatus : row₀.status <;> simp_all [live]
    rcases abandon_status session now row₀ with hs | ⟨hs, -⟩
    · exact Or.inr ⟨⟨row₀, hget₀, hsession, hs ▸ hlive⟩, hne⟩
    · exact absurd (hsession.symm.trans hs) hne

theorem oneLive_submitted {db : ChatDb} (h : OneLive db) {session turn now : ℕ} {message : String}
    (hidle : db.runningIn session = false) : OneLive (submitted db session turn message now) := by
  intro session' turn₁ turn₂ h₁ h₂
  rcases liveIn_submitted hidle h₁ with ⟨ht₁, hs₁⟩ | ⟨hl₁, hs₁⟩
  · rcases liveIn_submitted hidle h₂ with ⟨ht₂, -⟩ | ⟨-, hs₂⟩
    · exact ht₁.trans ht₂.symm
    · exact absurd hs₁ hs₂
  · rcases liveIn_submitted hidle h₂ with ⟨-, hs₂⟩ | ⟨hl₂, -⟩
    · exact absurd hs₂ hs₁
    · exact h session' turn₁ turn₂ hl₁ hl₂

theorem liveIn_bootSweep {db : ChatDb} {now session turn : ℕ}
    (h : LiveIn (db.bootSweep now) session turn) : LiveIn db session turn := by
  obtain ⟨row, hget, hsession, hlive⟩ := h
  rw [get?_bootSweep] at hget
  obtain ⟨row₀, hget₀, rfl⟩ := Option.map_eq_some_iff.mp hget
  unfold sweptRow at hsession hlive
  split at hlive
  · rename_i hrun
    rw [if_pos hrun] at hsession
    exact ⟨row₀, hget₀, hsession, live_of_running hrun⟩
  · rename_i hrun
    rw [if_neg hrun] at hsession
    exact ⟨row₀, hget₀, hsession, hlive⟩

theorem oneLive_step {s s' : State} {a : Action} (h : OneLive s.db) (hs : step s a = some s') :
    OneLive s'.db := by
  cases effect_of_step hs with
  | same => exact h
  | opened dropped user session now hnew => exact oneLive_foldl_dropSession h dropped
  | submitted user session turn message now hown hidle hnew => exact oneLive_submitted h hidle
  | appended m now hseq =>
    apply oneLive_of_sub h
    rintro session turn ⟨row, hget, hrest⟩
    rw [appended, touch_turns] at hget
    exact ⟨row, hget, hrest⟩
  | ended turn row status lastError now hget hrun =>
    exact oneLive_setTurn h hget (live_of_running hrun) rfl
  | resumed user turn row now hget hready hattempts hidle =>
    exact oneLive_setTurn h hget (by rw [hready]; rfl) rfl
  | weathered user turn row now hget hready hidle =>
    exact oneLive_setTurn h hget (by rw [hready]; rfl) rfl
  | refused i e => exact h
  | checked i user session hfree => exact h
  | dropped i user session started hpc hown => exact oneLive_of_sub h fun _ _ => liveIn_dropSession
  | swept now => exact oneLive_of_sub h fun _ _ => liveIn_bootSweep
  | crashed => exact h

theorem oneLive_init : OneLive State.init.db := by
  rintro session turn turn' ⟨row, hget, -⟩
  cases hget

theorem oneLive_exec {as : List Action} {s : State} (hrun : exec step .init as = some s) :
    OneLive s.db :=
  exec_invariant (fun s : State => OneLive s.db) (fun _ _ _ h hs => oneLive_step h hs)
    oneLive_init hrun

/-- INTERNAL: the turn a claim is ready for is the live one of its session. -/
theorem claim_ne_error {db : ChatDb} (h : OneLive db) {user session turn : ℕ}
    {ready : TurnRow → Bool} {set : TurnRow → TurnRow}
    (hready : ∀ row, ready row = true → live row.status = true ∧ row.status ≠ .running)
    (e : ChatError) : db.claim user session turn ready set ≠ .error e := by
  intro herr
  obtain ⟨row, hget, hsession, hr, hbusy⟩ := claim_eq_error herr
  obtain ⟨hlive, hnot⟩ := hready row hr
  obtain ⟨turn', row', hget', hsession', hrun'⟩ := runningIn_iff.mp hbusy
  have heq : turn = turn' :=
    h session turn turn' ⟨row, hget, hsession, hlive⟩
      ⟨row', hget', hsession', live_of_running hrun'⟩
  subst heq
  rw [hget] at hget'
  cases hget'
  exact hnot hrun'

/-- The live-turn invariant of the chat tables. After any sequence of chat store
operations, with restarts anywhere, a session has at most one turn that is running,
interrupted or waiting; no claim fails on the index of running turns; and a boot sweep
leaves at most one turn of a session to resume.
SOURCE: chat.rs:486-575, 635-702, 716-801, 0009_chat_waiting.sql:16-46 -/
theorem one_live_turn (as : List Action) (s : State) (hrun : exec step .init as = some s) :
    OneLive s.db ∧
      (∀ user session turn now e,
        s.db.claimResumable user session turn now ≠ .error e ∧
          s.db.claimWaiting user session turn now ≠ .error e) ∧
      ∀ now, OneLive (s.db.bootSweep now) := by
  have h := oneLive_exec hrun
  refine ⟨h, ?_, ?_⟩
  · intro user session turn now e
    constructor
    · apply claim_ne_error h
      intro row hr
      rw [Bool.and_eq_true, decide_eq_true_eq] at hr
      rw [hr.1]
      exact ⟨rfl, nofun⟩
    · apply claim_ne_error h
      intro row hr
      rw [decide_eq_true_eq] at hr
      rw [hr]
      exact ⟨rfl, nofun⟩
  · intro now
    exact oneLive_of_sub h fun _ _ => liveIn_bootSweep

/-- A session whose first turn waits, is claimed, dies with the process and is abandoned
by the next submit. -/
def parkedAndReplaced : List Action :=
  [.createSession 1 7 0, .createTurn 1 7 11 "hello" 1, .parkWaiting 1 11 none 2,
    .claimWaiting 1 7 11 3, .crash, .bootSweep 4, .createTurn 1 7 12 "again" 5]

theorem one_live_turn_replaced :
    ∃ s, exec step .init parkedAndReplaced = some s ∧
      (s.db.turns.get? 11).map TurnRow.status = some .abandoned ∧
      (s.db.turns.get? 12).map TurnRow.status = some .running ∧ OneLive s.db :=
  ⟨_, rfl, rfl, rfl, (one_live_turn parkedAndReplaced _ rfl).1⟩

/-! ## Crash budget and provenance -/

/-- Where the last claim of a turn came from. -/
def parkStateOf (claims : List Claim) : ChatTurnStatus :=
  if claims.head? = some .waiting then .waitingBackend else .interrupted

/-- The row of a turn knows its crash claims and its last claim. -/
def Remembers (claims : List Claim) (row : TurnRow) : Prop :=
  row.attempts = claims.count .resumable ∧ row.parkState = parkStateOf claims

structure Provenance (s : State) : Prop where
  once : ∀ turn, (s.claims turn).count .resumable ≤ 1
  rows : ∀ turn row, s.db.turns.get? turn = some row → Remembers (s.claims turn) row

theorem get?_foldl_dropSession {db : ChatDb} {dropped : List ℕ} {turn : ℕ} {row : TurnRow}
    (h : (dropped.foldl ChatDb.dropSession db).turns.get? turn = some row) :
    db.turns.get? turn = some row := by
  induction dropped generalizing db with
  | nil => exact h
  | cons session dropped ih => exact (mem_dropSession (ih h)).1

theorem sweptRow_attempts (now : ℕ) (row : TurnRow) :
    (sweptRow now row).attempts = row.attempts ∧ (sweptRow now row).parkState = row.parkState := by
  unfold sweptRow
  split <;> exact ⟨rfl, rfl⟩

/-- Where the row of a turn came from in a step, as far as its claims go: it is a row from
before with the same two columns, the row of a submit, or that of a claim. -/
inductive RowStep (s s' : State) (a : Action) (turn : ℕ) (row' : TurnRow) : Prop where
  | kept (row : TurnRow) (hget : s.db.turns.get? turn = some row)
      (hattempts : row'.attempts = row.attempts) (hpark : row'.parkState = row.parkState)
      (hclaims : s'.claims turn = s.claims turn)
  | created (hnew : s.db.turns.get? turn = none) (hattempts : row'.attempts = 0)
      (hpark : row'.parkState = .interrupted) (hclaims : s'.claims turn = [])
  | resumed (user session now : ℕ) (row : TurnRow) (hget : s.db.turns.get? turn = some row)
      (haction : a = .claimResumable user session turn now) (hzero : row.attempts = 0)
      (hattempts : row'.attempts = 1) (hpark : row'.parkState = .interrupted)
      (hclaims : s'.claims turn = .resumable :: s.claims turn)
  | weathered (row : TurnRow) (hget : s.db.turns.get? turn = some row)
      (hattempts : row'.attempts = row.attempts) (hpark : row'.parkState = .waitingBackend)
      (hclaims : s'.claims turn = .waiting :: s.claims turn)

theorem rowStep_of_step {s s' : State} {a : Action} (hs : step s a = some s') {turn : ℕ}
    {row' : TurnRow} (hget' : s'.db.turns.get? turn = some row') : RowStep s s' a turn row' := by
  cases effect_of_step hs with
  | same => exact .kept row' hget' rfl rfl rfl
  | opened dropped user session now hnew =>
    exact .kept row' (get?_foldl_dropSession hget') rfl rfl rfl
  | submitted user session turn' message now hown hidle hnew =>
    rcases get?_submitted hget' with ⟨rfl, rfl⟩ | ⟨hne, row, hget, rfl⟩
    · exact .created hnew rfl rfl (if_pos rfl)
    · exact .kept row hget (abandon_attempts session now row) (abandon_parkState session now row)
        (if_neg hne)
  | appended m now hseq =>
    rw [appended, touch_turns] at hget'
    exact .kept row' hget' rfl rfl rfl
  | ended turn' row status lastError now hget hrun =>
    rw [get?_setTurn] at hget'
    by_cases ht : turn = turn'
    · subst ht
      rw [if_pos rfl] at hget'
      cases hget'
      exact .kept row hget rfl rfl rfl
    · rw [if_neg ht] at hget'
      exact .kept row' hget' rfl rfl rfl
  | resumed user turn' row now hget hready hattempts hidle =>
    simp only [State.noteRunning, get?_setTurn] at hget'
    by_cases ht : turn = turn'
    · subst ht
      rw [if_pos rfl] at hget'
      cases hget'
      have hone : row.attempts + 1 = 1 := by omega
      exact .resumed user row.sessionId now row hget rfl hattempts hone rfl (if_pos rfl)
    · rw [if_neg ht] at hget'
      exact .kept row' hget' rfl rfl (if_neg ht)
  | weathered user turn' row now hget hready hidle =>
    simp only [State.noteRunning, get?_setTurn] at hget'
    by_cases ht : turn = turn'
    · subst ht
      rw [if_pos rfl] at hget'
      cases hget'
      exact .weathered row hget rfl rfl (if_pos rfl)
    · rw [if_neg ht] at hget'
      exact .kept row' hget' rfl rfl (if_neg ht)
  | refused i e => exact .kept row' hget' rfl rfl rfl
  | checked i user session hfree => exact .kept row' hget' rfl rfl rfl
  | dropped i user session started hpc hown =>
    exact .kept row' (mem_dropSession hget').1 rfl rfl rfl
  | swept now =>
    rw [get?_bootSweep] at hget'
    obtain ⟨row, hget, rfl⟩ := Option.map_eq_some_iff.mp hget'
    obtain ⟨hattempts, hpark⟩ := sweptRow_attempts now row
    exact .kept row hget hattempts hpark rfl
  | crashed => exact .kept row' hget' rfl rfl rfl

/-- INTERNAL: only a turn with a row is given a claim. -/
theorem claims_step {s s' : State} {a : Action} (hs : step s a = some s') (turn : ℕ) :
    s'.claims turn = s.claims turn ∨ ∃ row', s'.db.turns.get? turn = some row' := by
  cases effect_of_step hs with
  | submitted user session turn' message now hown hidle hnew =>
    by_cases ht : turn = turn'
    · right
      simp only [State.noteRunning, submitted, Dict.get?_insert, if_pos ht]
      exact ⟨_, rfl⟩
    · exact Or.inl (if_neg ht)
  | resumed user turn' row now hget hready hattempts hidle =>
    by_cases ht : turn = turn'
    · right
      simp only [State.noteRunning, get?_setTurn, if_pos ht]
      exact ⟨_, rfl⟩
    · exact Or.inl (if_neg ht)
  | weathered user turn' row now hget hready hidle =>
    by_cases ht : turn = turn'
    · right
      simp only [State.noteRunning, get?_setTurn, if_pos ht]
      exact ⟨_, rfl⟩
    · exact Or.inl (if_neg ht)
  | _ => exact Or.inl rfl

/-- INTERNAL: a row and its claims agree after a step, and a crash claim is the first. -/
theorem remembers_step {s s' : State} {a : Action} {turn : ℕ} {row' : TurnRow}
    (h : Provenance s) (hrow : RowStep s s' a turn row') :
    Remembers (s'.claims turn) row' ∧ (s'.claims turn).count .resumable ≤ 1 := by
  cases hrow with
  | kept row hget hattempts hpark hclaims =>
    obtain ⟨hcount, hlast⟩ := h.rows turn row hget
    rw [hclaims]
    exact ⟨⟨hattempts.trans hcount, hpark.trans hlast⟩, h.once turn⟩
  | created hnew hattempts hpark hclaims =>
    rw [hclaims]
    exact ⟨⟨hattempts, hpark⟩, Nat.zero_le 1⟩
  | resumed user session now row hget haction hzero hattempts hpark hclaims =>
    have hcount : (s.claims turn).count .resumable = 0 := by
      rw [← (h.rows turn row hget).1]
      exact hzero
    rw [hclaims]
    refine ⟨⟨?_, hpark⟩, ?_⟩
    · rw [List.count_cons_self, hcount]
      exact hattempts
    · rw [List.count_cons_self, hcount]
  | weathered row hget hattempts hpark hclaims =>
    have hsame : (Claim.waiting :: s.claims turn).count .resumable =
        (s.claims turn).count .resumable := List.count_cons_of_ne (by decide)
    rw [hclaims]
    refine ⟨⟨?_, hpark⟩, ?_⟩
    · rw [hsame, ← (h.rows turn row hget).1]
      exact hattempts
    · rw [hsame]
      exact h.once turn

theorem provenance_step {s s' : State} {a : Action} (h : Provenance s) (hs : step s a = some s') :
    Provenance s' := by
  refine ⟨?_, ?_⟩
  · intro turn
    rcases claims_step hs turn with hclaims | ⟨row', hget'⟩
    · rw [hclaims]
      exact h.once turn
    · exact (remembers_step h (rowStep_of_step hs hget')).2
  · intro turn row' hget'
    exact (remembers_step h (rowStep_of_step hs hget')).1

theorem provenance_init : Provenance State.init := by
  refine ⟨fun _ => Nat.zero_le 1, ?_⟩
  intro turn row hget
  cases hget

theorem provenance_exec {as : List Action} {s : State} (hrun : exec step .init as = some s) :
    Provenance s :=
  exec_invariant Provenance (fun _ _ _ h hs => provenance_step h hs) provenance_init hrun

/-- INTERNAL: only the crash claim writes `attempts`. -/
theorem attempts_step {s s' : State} {a : Action} (hs : step s a = some s') {turn : ℕ}
    {row row' : TurnRow} (hget : s.db.turns.get? turn = some row)
    (hget' : s'.db.turns.get? turn = some row') (hne : row'.attempts ≠ row.attempts) :
    ∃ user session now, a = .claimResumable user session turn now := by
  cases rowStep_of_step hs hget' with
  | kept row₀ hget₀ hattempts hpark hclaims =>
    rw [hget] at hget₀
    cases hget₀
    exact absurd hattempts hne
  | created hnew hattempts hpark hclaims =>
    rw [hget] at hnew
    cases hnew
  | resumed user session now row₀ hget₀ haction hzero hattempts hpark hclaims =>
    exact ⟨user, session, now, haction⟩
  | weathered row₀ hget₀ hattempts hpark hclaims =>
    rw [hget] at hget₀
    cases hget₀
    exact absurd hattempts hne

/-- The crash budget and the provenance of a turn. In every state of a run of the chat
store, each turn was given at most one crash claim since it was created and its `attempts`
counts it; a step that changes `attempts` of a turn is a crash claim of that turn; and a
boot sweep sends a running turn to `waiting_backend` when its last claim was a weather
claim, and to `interrupted` otherwise.
SOURCE: chat.rs:635-656, 716-801, 0009_chat_waiting.sql:16-31 -/
theorem crash_budget_and_provenance (as : List Action) (s : State)
    (hrun : exec step .init as = some s) :
    (∀ turn, (s.claims turn).count .resumable ≤ 1) ∧
      (∀ turn row, s.db.turns.get? turn = some row →
        row.attempts = (s.claims turn).count .resumable) ∧
      (∀ a s', step s a = some s' → ∀ turn row row', s.db.turns.get? turn = some row →
        s'.db.turns.get? turn = some row' → row'.attempts ≠ row.attempts →
          ∃ user session now, a = .claimResumable user session turn now) ∧
      ∀ now turn row, s.db.turns.get? turn = some row → row.status = .running →
        ∃ row', (s.db.bootSweep now).turns.get? turn = some row' ∧
          row'.status = parkStateOf (s.claims turn) := by
  have h := provenance_exec hrun
  refine ⟨h.once, ?_, ?_, ?_⟩
  · intro turn row hget
    exact (h.rows turn row hget).1
  · intro a s' hs turn row row' hget hget' hne
    exact attempts_step hs hget hget' hne
  · intro now turn row hget hrunning
    refine ⟨sweptRow now row, ?_, ?_⟩
    · rw [get?_bootSweep, hget]
      rfl
    · unfold sweptRow
      rw [if_pos hrunning]
      exact (h.rows turn row hget).2

/-- A turn that crashed once, was claimed, parked for the weather and claimed again. -/
def crashedThenWeathered : List Action :=
  [.createSession 1 7 0, .createTurn 1 7 11 "hello" 1, .crash, .bootSweep 2,
    .claimResumable 1 7 11 3, .parkWaiting 1 11 none 4, .claimWaiting 1 7 11 5]

theorem crash_budget_and_provenance_weathered :
    ∃ s, exec step .init crashedThenWeathered = some s ∧
      (s.db.turns.get? 11).map (fun row => (row.status, row.attempts)) = some (.running, 1) ∧
      s.claims 11 = [.waiting, .resumable] ∧
      ∀ turn, (s.claims turn).count .resumable ≤ 1 :=
  ⟨_, rfl, rfl, rfl, (crash_budget_and_provenance crashedThenWeathered _ rfl).1⟩

end Mycelium.Analysis.ChatLiveTurns
