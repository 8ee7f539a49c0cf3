import Mycelium.Lib.StepSystem
import Mycelium.Analysis.ChatTables

/-!
# Deleting a chat session

A delete refuses a session with a running turn, in a statement before the one that deletes.
A submit or a claim between the two sets a turn running that the delete then takes away
with the session, from under its runner.

The running turns of a session at the `DELETE` are among those that were set running since
the check of the same call (`Tracked`). So a delete takes no running turn with it exactly
when every turn that was started since its check has left `running` again.

SOURCE: crates/mycelium-store/src/chat.rs
-/

set_option autoImplicit false

namespace Mycelium.Analysis.ChatDeletion

open StepSystem Mycelium.Model.ChatStore Mycelium.Model.ChatSessions
open Mycelium.Analysis.ChatTables

/-- A `DELETE` that finds the user's session takes no running turn with it. -/
def sparesRunning (s : State) : Action → Bool
  | .deleteRows i =>
    match s.deletes i with
    | .checked user session _ => !s.db.owned user session || !s.db.runningIn session
    | _ => true
  | _ => true

def runsIn (db : ChatDb) (session turn : ℕ) : Bool :=
  match db.turns.get? turn with
  | some row => row.sessionId = session && row.status = .running
  | none => false

/-- The turns that were set running since the check of the delete are no longer running. -/
def startedHaveEnded (s : State) : Action → Bool
  | .deleteRows i =>
    match s.deletes i with
    | .checked user session started =>
      !s.db.owned user session || started.all fun turn => !runsIn s.db session turn
    | _ => true
  | _ => true

/-! ## The running turns of a session under deletion -/

structure Tracked (s : State) : Prop where
  known : ∀ turn row, s.db.turns.get? turn = some row →
    (s.db.sessions.get? row.sessionId).isSome = true
  started : ∀ i user session started, s.deletes i = .checked user session started →
    s.db.owned user session = true → ∀ turn, runsIn s.db session turn = true → turn ∈ started

theorem runsIn_iff {db : ChatDb} {session turn : ℕ} :
    runsIn db session turn = true ↔
      ∃ row, db.turns.get? turn = some row ∧ row.sessionId = session ∧ row.status = .running := by
  unfold runsIn
  split
  · rename_i row hget
    simp [hget]
  · rename_i hget
    simp [hget]

theorem runningIn_iff_runsIn {db : ChatDb} {session : ℕ} :
    db.runningIn session = true ↔ ∃ turn, runsIn db session turn = true := by
  rw [runningIn_iff]
  exact exists_congr fun turn => runsIn_iff.symm

theorem known_of_owned {db : ChatDb} {user session : ℕ} (h : db.owned user session = true) :
    (db.sessions.get? session).isSome = true := by
  unfold ChatDb.owned at h
  split at h
  · rename_i row hrow
    rw [hrow]
    rfl
  · cases h

theorem get?_sessions_dropSession (db : ChatDb) (dropped session : ℕ) :
    (db.dropSession dropped).sessions.get? session =
      if session = dropped then none else db.sessions.get? session :=
  Dict.get?_erase db.sessions dropped session

theorem owned_dropSession {db : ChatDb} {dropped user session : ℕ}
    (h : (db.dropSession dropped).owned user session = true) : db.owned user session = true := by
  unfold ChatDb.owned at h ⊢
  rw [get?_sessions_dropSession] at h
  by_cases hs : session = dropped
  · rw [if_pos hs] at h
    cases h
  · rwa [if_neg hs] at h

theorem runsIn_dropSession {db : ChatDb} {dropped session turn : ℕ}
    (h : runsIn (db.dropSession dropped) session turn = true) : runsIn db session turn = true := by
  obtain ⟨row, hget, hrest⟩ := runsIn_iff.1 h
  exact runsIn_iff.2 ⟨row, (mem_dropSession hget).1, hrest⟩

/-- INTERNAL: tables with no new running turn and no new owner, over the same deletes. -/
theorem tracked_of_sub {s : State} (h : Tracked s) {db : ChatDb}
    (hknown : ∀ turn row, db.turns.get? turn = some row →
      (db.sessions.get? row.sessionId).isSome = true)
    (howned : ∀ user session, db.owned user session = true →
      (∃ turn, runsIn db session turn = true) → s.db.owned user session = true)
    (hruns : ∀ session turn, runsIn db session turn = true → runsIn s.db session turn = true) :
    Tracked { s with db } := by
  refine ⟨hknown, ?_⟩
  intro i user session started hpc hown turn hrun
  exact h.started i user session started hpc (howned user session hown ⟨turn, hrun⟩) turn
    (hruns session turn hrun)

theorem known_dropSession {db : ChatDb}
    (h : ∀ turn row, db.turns.get? turn = some row →
      (db.sessions.get? row.sessionId).isSome = true) (dropped : ℕ) :
    ∀ turn row, (db.dropSession dropped).turns.get? turn = some row →
      ((db.dropSession dropped).sessions.get? row.sessionId).isSome = true := by
  intro turn row hget
  obtain ⟨hget₀, hne⟩ := mem_dropSession hget
  rw [get?_sessions_dropSession, if_neg hne]
  exact h turn row hget₀

theorem tracked_dropSession {s : State} (h : Tracked s) (dropped : ℕ) :
    Tracked { s with db := s.db.dropSession dropped } := by
  apply tracked_of_sub h
  · exact known_dropSession h.known dropped
  · intro user session hown _
    exact owned_dropSession hown
  · intro session turn hrun
    exact runsIn_dropSession hrun

theorem tracked_foldl_dropSession {s : State} (h : Tracked s) (dropped : List ℕ) :
    Tracked { s with db := dropped.foldl ChatDb.dropSession s.db } := by
  induction dropped generalizing s with
  | nil => exact h
  | cons session dropped ih => exact ih (tracked_dropSession h session)

/-- INTERNAL: a new session has no turn yet. -/
theorem tracked_opened {s : State} (h : Tracked s) {user session now : ℕ}
    (hnew : s.db.sessions.get? session = none) :
    Tracked { s with db := opened s.db user session now } := by
  apply tracked_of_sub h
  · intro turn row hget
    simp only [opened, Dict.get?_insert]
    split
    · rfl
    · exact h.known turn row hget
  · rintro user' session' hown ⟨turn, hrun⟩
    obtain ⟨row, hget, hsession, -⟩ := runsIn_iff.1 hrun
    have hknown := h.known turn row hget
    have hne : session' ≠ session := by
      rintro rfl
      rw [hsession, hnew] at hknown
      cases hknown
    simp only [opened, ChatDb.owned, Dict.get?_insert, if_neg hne] at hown
    exact hown
  · intro session' turn hrun
    exact hrun

theorem known_touch {db : ChatDb} (session now session' : ℕ)
    (h : (db.sessions.get? session').isSome = true) :
    ((db.touch session now).sessions.get? session').isSome = true := by
  unfold ChatDb.touch
  split
  · simp only [Dict.get?_insert]
    split
    · rfl
    · exact h
  · exact h

theorem noteStarted_eq_checked {pc : DeletePc} {session turn user session' : ℕ}
    {started : List ℕ} (h : pc.noteStarted session turn = .checked user session' started) :
    ∃ started', pc = .checked user session' started' ∧
      started = if session' = session then turn :: started' else started' := by
  cases pc with
  | idle => cases h
  | finished r => cases h
  | checked u x st =>
    simp only [DeletePc.noteStarted] at h
    split at h
    · rename_i hx
      cases h
      exact ⟨st, rfl, (if_pos hx).symm⟩
    · rename_i hx
      cases h
      exact ⟨started, rfl, (if_neg hx).symm⟩

/-- INTERNAL: one turn of the session is set running, and the deletes of the session take
note of it. -/
theorem tracked_noteRunning {s : State} (h : Tracked s) {db : ChatDb} {session turn : ℕ}
    {claims : List Claim}
    (hknown : ∀ turn row, db.turns.get? turn = some row →
      (db.sessions.get? row.sessionId).isSome = true)
    (howned : ∀ user session, db.owned user session = true → s.db.owned user session = true)
    (hruns : ∀ session' turn', runsIn db session' turn' = true →
      session' = session ∧ turn' = turn ∨ runsIn s.db session' turn' = true) :
    Tracked ({ s with db }.noteRunning session turn claims) := by
  refine ⟨hknown, ?_⟩
  intro i user session' started hpc hown turn' hrun
  obtain ⟨started', hpc', rfl⟩ := noteStarted_eq_checked hpc
  rcases hruns session' turn' hrun with ⟨hs, ht⟩ | hold
  · rw [if_pos hs, ht]
    exact List.mem_cons_self
  · have hmem := h.started i user session' started' hpc' (howned user session' hown) turn' hold
    split
    · exact List.mem_cons_of_mem turn hmem
    · exact hmem

theorem runsIn_setTurn {db : ChatDb} {turn : ℕ} {row : TurnRow} {session turn' : ℕ}
    (h : runsIn (setTurn db turn row) session turn' = true) :
    session = row.sessionId ∧ turn' = turn ∨ runsIn db session turn' = true := by
  obtain ⟨row₁, hget, hs, hrun⟩ := runsIn_iff.1 h
  rw [get?_setTurn] at hget
  by_cases ht : turn' = turn
  · rw [if_pos ht] at hget
    cases hget
    exact Or.inl ⟨hs.symm, ht⟩
  · rw [if_neg ht] at hget
    exact Or.inr (runsIn_iff.2 ⟨row₁, hget, hs, hrun⟩)

theorem known_setTurn {db : ChatDb}
    (h : ∀ turn row, db.turns.get? turn = some row →
      (db.sessions.get? row.sessionId).isSome = true) {turn : ℕ} {row row' : TurnRow}
    (hget : db.turns.get? turn = some row) (hsession : row'.sessionId = row.sessionId) :
    ∀ turn' row₁, (setTurn db turn row').turns.get? turn' = some row₁ →
      ((setTurn db turn row').sessions.get? row₁.sessionId).isSome = true := by
  intro turn' row₁ hget₁
  rw [get?_setTurn] at hget₁
  by_cases ht : turn' = turn
  · rw [if_pos ht] at hget₁
    cases hget₁
    rw [hsession]
    exact h turn row hget
  · rw [if_neg ht] at hget₁
    exact h turn' row₁ hget₁

theorem tracked_submitted {s : State} (h : Tracked s) {user session turn now : ℕ} {message : String}
    (hown : s.db.owned user session = true) :
    Tracked ({ s with db := submitted s.db session turn message now }.noteRunning session turn
      []) := by
  apply tracked_noteRunning h
  · intro turn' row hget
    rcases get?_submitted hget with ⟨-, rfl⟩ | ⟨-, row₀, hget₀, rfl⟩
    · exact known_touch session now session (known_of_owned hown)
    · rw [abandon_sessionId]
      exact known_touch session now row₀.sessionId (h.known turn' row₀ hget₀)
  · intro user' session' hown'
    exact (owned_touch s.db session now user' session').symm.trans hown'
  · intro session' turn' hrun
    obtain ⟨row, hget, hs, hrunning⟩ := runsIn_iff.1 hrun
    rcases get?_submitted hget with ⟨ht, rfl⟩ | ⟨-, row₀, hget₀, rfl⟩
    · exact Or.inl ⟨hs.symm, ht⟩
    · rw [abandon_sessionId] at hs
      exact Or.inr (runsIn_iff.2 ⟨row₀, hget₀, hs, (abandon_running _ _ _).mp hrunning⟩)

/-- INTERNAL: a claim sets its turn running. -/
theorem tracked_claimed {s : State} (h : Tracked s) {turn : ℕ} {row row' : TurnRow}
    {claims : List Claim} (hget : s.db.turns.get? turn = some row)
    (hsession : row'.sessionId = row.sessionId) :
    Tracked ({ s with db := setTurn s.db turn row' }.noteRunning row.sessionId turn claims) := by
  apply tracked_noteRunning h
  · exact known_setTurn h.known hget hsession
  · intro user session hown
    exact hown
  · intro session turn' hruns
    rw [← hsession]
    exact runsIn_setTurn hruns

/-- INTERNAL: a delete call that moves on, over the same tables. -/
theorem tracked_setDelete {s : State} (h : Tracked s) (i : ℕ) {pc : DeletePc}
    (hpc : ∀ user session started, pc = .checked user session started →
      s.db.owned user session = true → s.db.runningIn session = false) :
    Tracked (s.setDelete i pc) := by
  refine ⟨h.known, ?_⟩
  intro j user session started hj hown turn hrun
  simp only [State.setDelete] at hj hown hrun
  by_cases hji : j = i
  · rw [if_pos hji] at hj
    have hfree := hpc user session started hj hown
    have hbusy := runningIn_iff_runsIn.mpr ⟨turn, hrun⟩
    rw [hfree] at hbusy
    cases hbusy
  · rw [if_neg hji] at hj
    exact h.started j user session started hj hown turn hrun

theorem runsIn_bootSweep {db : ChatDb} {now session turn : ℕ}
    (h : runsIn (db.bootSweep now) session turn = true) : runsIn db session turn = true := by
  obtain ⟨row, hget, hs, hrun⟩ := runsIn_iff.1 h
  rw [get?_bootSweep] at hget
  obtain ⟨row₀, hget₀, rfl⟩ := Option.map_eq_some_iff.mp hget
  unfold sweptRow at hs hrun
  by_cases hrun₀ : row₀.status = .running
  · rw [if_pos hrun₀] at hs
    exact runsIn_iff.2 ⟨row₀, hget₀, hs, hrun₀⟩
  · rw [if_neg hrun₀] at hrun
    exact absurd hrun hrun₀

theorem tracked_step {s s' : State} {a : Action} (h : Tracked s) (hs : step s a = some s') :
    Tracked s' := by
  cases effect_of_step hs with
  | same => exact h
  | opened dropped user session now hnew =>
    exact tracked_opened (tracked_foldl_dropSession h dropped) hnew
  | submitted user session turn message now hown hidle hnew => exact tracked_submitted h hown
  | appended m now hseq =>
    apply tracked_of_sub h
    · intro turn row hget
      rw [appended, touch_turns] at hget
      exact known_touch m.sessionId now row.sessionId (h.known turn row hget)
    · intro user session hown _
      exact (owned_touch s.db m.sessionId now user session).symm.trans hown
    · intro session turn hrun
      obtain ⟨row, hget, hrest⟩ := runsIn_iff.1 hrun
      rw [appended, touch_turns] at hget
      exact runsIn_iff.2 ⟨row, hget, hrest⟩
  | ended turn row status lastError now hget hrun =>
    apply tracked_of_sub h
    · exact known_setTurn h.known hget rfl
    · intro user session hown _
      exact hown
    · intro session turn' hruns
      rcases runsIn_setTurn hruns with ⟨rfl, rfl⟩ | hold
      · exact runsIn_iff.2 ⟨row, hget, rfl, hrun⟩
      · exact hold
  | resumed user turn row now hget hready hattempts hidle => exact tracked_claimed h hget rfl
  | weathered user turn row now hget hready hidle => exact tracked_claimed h hget rfl
  | refused i e => exact tracked_setDelete h i nofun
  | checked i user session hfree =>
    apply tracked_setDelete h i
    intro user' session' started hpc hown
    cases hpc
    exact hfree hown
  | dropped i user session started hpc hown =>
    exact tracked_setDelete (tracked_dropSession h session) i nofun
  | swept now =>
    apply tracked_of_sub h
    · intro turn row hget
      rw [get?_bootSweep] at hget
      obtain ⟨row₀, hget₀, rfl⟩ := Option.map_eq_some_iff.mp hget
      have hsession : (sweptRow now row₀).sessionId = row₀.sessionId := by
        unfold sweptRow
        split <;> rfl
      rw [hsession]
      exact h.known turn row₀ hget₀
    · intro user session hown _
      exact hown
    · intro session turn hrun
      exact runsIn_bootSweep hrun
  | crashed =>
    refine ⟨h.known, ?_⟩
    intro i user session started hpc
    cases hpc

theorem tracked_init : Tracked State.init := by
  refine ⟨?_, ?_⟩
  · intro turn row hget
    cases hget
  · intro i user session started hpc
    cases hpc

/-! ## The condition -/

theorem sparesRunning_iff {s : State} (h : Tracked s) (a : Action) :
    sparesRunning s a = true ↔ startedHaveEnded s a = true := by
  cases a with
  | deleteRows i =>
    simp only [sparesRunning, startedHaveEnded]
    cases hpc : s.deletes i with
    | idle => exact Iff.rfl
    | finished r => exact Iff.rfl
    | checked user session started =>
      dsimp only
      cases hown : s.db.owned user session with
      | false => exact Iff.rfl
      | true =>
        simp only [Bool.not_true, Bool.false_or, Bool.not_eq_true', List.all_eq_true]
        constructor
        · intro hfree turn _
          by_contra hrun
          have hbusy := runningIn_iff_runsIn.mpr ⟨turn, by simpa using hrun⟩
          rw [hfree] at hbusy
          cases hbusy
        · intro hended
          by_contra hbusy
          obtain ⟨turn, hrun⟩ := runningIn_iff_runsIn.mp (by simpa using hbusy)
          have hmem := h.started i user session started hpc hown turn hrun
          rw [hended turn hmem] at hrun
          cases hrun
  | _ => exact Iff.rfl

/-- When deletes spare running turns. Over every interleaving of the two statements of
`delete_session` with the other chat store operations, no delete that returns Ok takes a
running turn with it iff at each `DELETE` that finds its session the turns of the session
that a submit or a claim has set running since the check of the call are no longer
running. SOURCE: chat.rs:412-437, 486-575, 635-656, 763-784 -/
theorem delete_spares_running_iff (as : List Action) :
    Meets step (fun s a => sparesRunning s a = true) .init as ↔
      Meets step (fun s a => startedHaveEnded s a = true) .init as := by
  apply meets_congr_of_invariant Tracked
  · intro s a s' h hs
    exact tracked_step h hs
  · intro s a h
    exact sparesRunning_iff h a
  · exact tracked_init

/-- A submit between the busy check and the `DELETE`. -/
def submitDuringDelete : List Action :=
  [.createSession 1 7 0, .deleteCheck 0 1 7, .createTurn 1 7 11 "hello" 1, .deleteRows 0]

/-- The delete returns Ok and its session had a running turn. -/
theorem delete_destroys_running_turn :
    ∃ s s', exec step .init (submitDuringDelete.take 3) = some s ∧
      step s (.deleteRows 0) = some s' ∧ s.db.runningIn 7 = true ∧
      s'.deletes 0 = .finished (.ok ()) ∧ s'.db.turns.get? 11 = none ∧
      ¬ Meets step (fun s a => sparesRunning s a = true) .init submitDuringDelete :=
  ⟨_, _, rfl, rfl, rfl, rfl, rfl, by decide⟩

end Mycelium.Analysis.ChatDeletion
