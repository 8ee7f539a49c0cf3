import Mathlib.Data.List.Range
import Mycelium.Lib.StepSystem
import Mycelium.Analysis.ChatTables

/-!
# The transcript of a chat session

Messages are numbered by `MAX(seq) + 1` inside the transaction that writes them. The
numbers of a session are then `1..n` in the order of insertion, the question of every
turn is a user message of its own, and the replay after a number is the rest of the
transcript in order. A submit that fails drops its transaction, which has superseded the
parked turns and written the message by then.

SOURCE: crates/mycelium-store/src/chat.rs
-/

set_option autoImplicit false

namespace Mycelium.Analysis.ChatTranscript

open StepSystem Mycelium.Model.ChatStore Mycelium.Model.ChatSessions
open Mycelium.Analysis.ChatTables

/-! ## The invariant -/

/-- The numbers of each session are `1..n`, and the turns name user messages of their
sessions, no two of a session the same. -/
structure Transcript (db : ChatDb) : Prop where
  seqs : ∀ session, ∃ n, seqsOf db session = List.range' 1 n
  asks : ∀ turn row, db.turns.get? turn = some row →
    ∃ m ∈ db.messages, m.sessionId = row.sessionId ∧ m.seq = row.userSeq ∧ m.role = .user
  distinct : ∀ turn turn' row row', db.turns.get? turn = some row →
    db.turns.get? turn' = some row' → row.sessionId = row'.sessionId →
    row.userSeq = row'.userSeq → turn = turn'

theorem foldl_max_range' (n : ℕ) : (List.range' 1 n).foldl max 0 = n := by
  induction n with
  | zero => rfl
  | succ n ih =>
    rw [List.range'_1_concat, List.foldl_append, ih]
    simp only [List.foldl_cons, List.foldl_nil]
    omega

theorem nextSeq_of_seqs {db : ChatDb} {session n : ℕ} (h : seqsOf db session = List.range' 1 n) :
    db.nextSeq session = n + 1 := by
  rw [nextSeq_eq, h, foldl_max_range']

theorem seqsOf_append (db : ChatDb) (sessions : Dict ℕ SessionRow) (turns : Dict ℕ TurnRow)
    (m : MessageRow) (session : ℕ) :
    seqsOf ⟨sessions, turns, db.messages ++ [m]⟩ session =
      seqsOf db session ++ if m.sessionId = session then [m.seq] else [] := by
  unfold seqsOf
  by_cases hs : m.sessionId = session
  · simp [List.filter_append, hs]
  · simp [List.filter_append, hs]

/-- INTERNAL: a message with the next number keeps the numbers of every session in order. -/
theorem seqs_append {db : ChatDb} (h : ∀ session, ∃ n, seqsOf db session = List.range' 1 n)
    (sessions : Dict ℕ SessionRow) (turns : Dict ℕ TurnRow) {m : MessageRow}
    (hseq : m.seq = db.nextSeq m.sessionId) (session : ℕ) :
    ∃ n, seqsOf ⟨sessions, turns, db.messages ++ [m]⟩ session = List.range' 1 n := by
  obtain ⟨n, hn⟩ := h session
  rw [seqsOf_append]
  by_cases hs : m.sessionId = session
  · refine ⟨n + 1, ?_⟩
    rw [if_pos hs, hn, List.range'_1_concat, hseq, hs, nextSeq_of_seqs hn, Nat.add_comm]
  · exact ⟨n, by rw [if_neg hs, hn, List.append_nil]⟩

theorem seqsOf_dropSession (db : ChatDb) (dropped session : ℕ) :
    seqsOf (db.dropSession dropped) session =
      if session = dropped then [] else seqsOf db session := by
  unfold seqsOf
  simp only [ChatDb.dropSession, List.filter_filter]
  by_cases hs : session = dropped
  · subst hs
    simp
  · rw [if_neg hs]
    congr 1
    apply List.filter_congr
    intro m hm
    by_cases hm' : m.sessionId = session
    · simp [hm', hs]
    · simp [hm']

/-- INTERNAL: rows that keep their session and their number, over the same messages. -/
theorem transcript_of_rows {db db' : ChatDb} (h : Transcript db)
    (hmessages : db'.messages = db.messages)
    (hrows : ∀ turn row', db'.turns.get? turn = some row' →
      ∃ row, db.turns.get? turn = some row ∧ row'.sessionId = row.sessionId ∧
        row'.userSeq = row.userSeq) : Transcript db' := by
  refine ⟨?_, ?_, ?_⟩
  · intro session
    obtain ⟨n, hn⟩ := h.seqs session
    exact ⟨n, by rw [← hn, seqsOf, hmessages]; rfl⟩
  · intro turn row' hget'
    obtain ⟨row, hget, hsession, hseq⟩ := hrows turn row' hget'
    rw [hmessages, hsession, hseq]
    exact h.asks turn row hget
  · intro turn₁ turn₂ row₁' row₂' hget₁' hget₂' hsession hseq
    obtain ⟨row₁, hget₁, hs₁, hq₁⟩ := hrows turn₁ row₁' hget₁'
    obtain ⟨row₂, hget₂, hs₂, hq₂⟩ := hrows turn₂ row₂' hget₂'
    apply h.distinct turn₁ turn₂ row₁ row₂ hget₁ hget₂
    · rw [← hs₁, ← hs₂, hsession]
    · rw [← hq₁, ← hq₂, hseq]

theorem transcript_setTurn {db : ChatDb} (h : Transcript db) {turn : ℕ} {row row' : TurnRow}
    (hget : db.turns.get? turn = some row) (hsession : row'.sessionId = row.sessionId)
    (hseq : row'.userSeq = row.userSeq) : Transcript (setTurn db turn row') := by
  refine transcript_of_rows h rfl ?_
  intro turn' row₁ hget₁
  rw [get?_setTurn] at hget₁
  by_cases ht : turn' = turn
  · rw [if_pos ht] at hget₁
    cases hget₁
    exact ⟨row, ht ▸ hget, hsession, hseq⟩
  · rw [if_neg ht] at hget₁
    exact ⟨row₁, hget₁, rfl, rfl⟩

theorem transcript_dropSession {db : ChatDb} (h : Transcript db) (session : ℕ) :
    Transcript (db.dropSession session) := by
  refine ⟨?_, ?_, ?_⟩
  · intro session'
    rw [seqsOf_dropSession]
    split
    · exact ⟨0, rfl⟩
    · exact h.seqs session'
  · intro turn row hget
    obtain ⟨hget₀, hne⟩ := mem_dropSession hget
    obtain ⟨m, hm, hsession, hseq, hrole⟩ := h.asks turn row hget₀
    refine ⟨m, ?_, hsession, hseq, hrole⟩
    rw [ChatDb.dropSession, List.mem_filter]
    exact ⟨hm, by simpa [hsession] using hne⟩
  · intro turn turn' row row' hget hget'
    exact h.distinct turn turn' row row' (mem_dropSession hget).1 (mem_dropSession hget').1

theorem transcript_foldl_dropSession {db : ChatDb} (h : Transcript db) (dropped : List ℕ) :
    Transcript (dropped.foldl ChatDb.dropSession db) := by
  induction dropped generalizing db with
  | nil => exact h
  | cons session dropped ih => exact ih (transcript_dropSession h session)

theorem transcript_appended {db : ChatDb} (h : Transcript db) {m : MessageRow} (now : ℕ)
    (hseq : m.seq = db.nextSeq m.sessionId) : Transcript (appended db m now) := by
  refine ⟨?_, ?_, ?_⟩
  · intro session
    exact seqs_append h.seqs _ _ hseq session
  · intro turn row hget
    rw [appended, touch_turns] at hget
    obtain ⟨m', hm', hrest⟩ := h.asks turn row hget
    exact ⟨m', List.mem_append_left _ hm', hrest⟩
  · intro turn turn' row row' hget hget'
    rw [appended, touch_turns] at hget hget'
    exact h.distinct turn turn' row row' hget hget'

/-- INTERNAL: the question of a turn is numbered below the next message of its session. -/
theorem userSeq_lt_nextSeq {db : ChatDb} (h : Transcript db) {turn : ℕ} {row : TurnRow}
    (hget : db.turns.get? turn = some row) : row.userSeq < db.nextSeq row.sessionId := by
  obtain ⟨m, hm, hsession, hseq, -⟩ := h.asks turn row hget
  rw [← hseq]
  exact seq_lt_nextSeq hm hsession

/-- INTERNAL: the turns of a submit's tables are its own and the older ones. -/
theorem ask_of_submitted {db : ChatDb} {session turn now turn' : ℕ} {message : String}
    {row : TurnRow} (h : (submitted db session turn message now).turns.get? turn' = some row) :
    turn' = turn ∧ row = turnRow db session now ∨
      ∃ row₀, db.turns.get? turn' = some row₀ ∧ row.sessionId = row₀.sessionId ∧
        row.userSeq = row₀.userSeq := by
  rcases get?_submitted h with hnew | ⟨-, row₀, hget₀, rfl⟩
  · exact Or.inl hnew
  · exact Or.inr ⟨row₀, hget₀, abandon_sessionId session now row₀, abandon_userSeq session now row₀⟩

theorem transcript_submitted {db : ChatDb} (h : Transcript db) (session turn : ℕ) (message : String)
    (now : ℕ) : Transcript (submitted db session turn message now) := by
  refine ⟨?_, ?_, ?_⟩
  · intro session'
    exact seqs_append h.seqs _ _ rfl session'
  · intro turn' row hget
    rcases ask_of_submitted hget with ⟨-, rfl⟩ | ⟨row₀, hget₀, hsession, hseq⟩
    · exact ⟨askRow db session turn message now,
        List.mem_append_right _ (List.mem_singleton_self _), rfl, rfl, rfl⟩
    · obtain ⟨m, hm, hrest⟩ := h.asks turn' row₀ hget₀
      rw [hsession, hseq]
      exact ⟨m, List.mem_append_left _ hm, hrest⟩
  · intro turn₁ turn₂ row₁ row₂ hget₁ hget₂ hsession hseq
    rcases ask_of_submitted hget₁ with ⟨rfl, rfl⟩ | ⟨row₁', hget₁', hs₁, hq₁⟩
    · rcases ask_of_submitted hget₂ with ⟨rfl, -⟩ | ⟨row₂', hget₂', hs₂, hq₂⟩
      · rfl
      · -- an older turn is numbered below the new one
        have hlt := userSeq_lt_nextSeq h hget₂'
        simp only [turnRow] at hsession hseq
        rw [← hs₂, ← hsession] at hlt
        omega
    · rcases ask_of_submitted hget₂ with ⟨rfl, rfl⟩ | ⟨row₂', hget₂', hs₂, hq₂⟩
      · have hlt := userSeq_lt_nextSeq h hget₁'
        simp only [turnRow] at hsession hseq
        rw [← hs₁, hsession] at hlt
        omega
      · apply h.distinct turn₁ turn₂ row₁' row₂' hget₁' hget₂'
        · rw [← hs₁, ← hs₂, hsession]
        · rw [← hq₁, ← hq₂, hseq]

theorem sweptRow_sessionId (now : ℕ) (row : TurnRow) :
    (sweptRow now row).sessionId = row.sessionId ∧ (sweptRow now row).userSeq = row.userSeq := by
  unfold sweptRow
  split <;> exact ⟨rfl, rfl⟩

theorem transcript_step {s s' : State} {a : Action} (h : Transcript s.db)
    (hs : step s a = some s') : Transcript s'.db := by
  cases effect_of_step hs with
  | same => exact h
  | opened dropped user session now hnew =>
    have hdropped := transcript_foldl_dropSession h dropped
    exact ⟨hdropped.seqs, hdropped.asks, hdropped.distinct⟩
  | submitted user session turn message now hown hidle hnew =>
    exact transcript_submitted h session turn message now
  | appended m now hseq => exact transcript_appended h now hseq
  | ended turn row status lastError now hget hrun => exact transcript_setTurn h hget rfl rfl
  | resumed user turn row now hget hready hattempts hidle => exact transcript_setTurn h hget rfl rfl
  | weathered user turn row now hget hready hidle => exact transcript_setTurn h hget rfl rfl
  | refused i e => exact h
  | checked i user session hfree => exact h
  | dropped i user session started hpc hown => exact transcript_dropSession h session
  | swept now =>
    refine transcript_of_rows h rfl ?_
    intro turn row hget
    rw [get?_bootSweep] at hget
    obtain ⟨row₀, hget₀, rfl⟩ := Option.map_eq_some_iff.mp hget
    exact ⟨row₀, hget₀, (sweptRow_sessionId now row₀).1, (sweptRow_sessionId now row₀).2⟩
  | crashed => exact h

theorem transcript_init : Transcript State.init.db := by
  refine ⟨?_, ?_, ?_⟩
  · intro session
    exact ⟨0, rfl⟩
  · intro turn row hget
    cases hget
  · intro turn turn' row row' hget
    cases hget

theorem transcript_exec {as : List Action} {s : State} (hrun : exec step .init as = some s) :
    Transcript s.db :=
  exec_invariant (fun s : State => Transcript s.db) (fun _ _ _ h hs => transcript_step h hs)
    transcript_init hrun

/-! ## Replays -/

/-- The row is the message as it is replayed to someone who can open it. -/
def Replays (openHex : MessageRow → Option String) (m : MessageRow) (row : ChatMessageRow) : Prop :=
  openHex m = some row.content ∧ row.seq = m.seq ∧ row.role = m.role

theorem pairwise_seq {db : ChatDb} (h : Transcript db) (session : ℕ) :
    (db.messages.filter fun m => m.sessionId = session).Pairwise fun a b => a.seq < b.seq := by
  obtain ⟨n, hn⟩ := h.seqs session
  have hsorted : (seqsOf db session).Pairwise (· < ·) := by
    rw [hn]
    exact List.pairwise_lt_range'
  exact List.pairwise_map.mp hsorted

/-- INTERNAL: the rows after a number come in the order of their numbers already. -/
theorem pairwise_after {db : ChatDb} (h : Transcript db) (session : ℕ) (afterSeq : ℤ) :
    (db.messages.filter fun m => m.sessionId = session && afterSeq < m.seq).Pairwise
      fun a b => a.seq < b.seq := by
  have hsplit : (db.messages.filter fun m => m.sessionId = session && afterSeq < m.seq) =
      (db.messages.filter fun m => m.sessionId = session).filter fun m => afterSeq < m.seq := by
    rw [List.filter_filter]
    apply List.filter_congr
    intro m hm
    rw [Bool.and_comm]
  rw [hsplit]
  exact (pairwise_seq h session).sublist List.filter_sublist

theorem messagesAfter_spec {db : ChatDb} (h : Transcript db) (openHex : MessageRow → Option String)
    {user session : ℕ} (hown : db.owned user session = true) (afterSeq : ℤ) :
    ∃ rows, db.messagesAfter openHex user session afterSeq = .ok rows ∧
      rows.Pairwise (fun a b => a.seq < b.seq) ∧
      ∀ row, row ∈ rows ↔ ∃ m ∈ db.messages, m.sessionId = session ∧ afterSeq < m.seq ∧
        Replays openHex m row := by
  have hafter := pairwise_after h session afterSeq
  refine ⟨(db.messages.filter fun m => m.sessionId = session && afterSeq < m.seq).filterMap
    fun m => (openHex m).map fun content => ⟨m.seq, m.role, content⟩, ?_, ?_, ?_⟩
  · unfold ChatDb.messagesAfter
    rw [if_neg (by simp [hown])]
    have hsort := List.Pairwise.insertionSort_eq (r := fun a b : MessageRow => a.seq ≤ b.seq)
      (hafter.imp fun hlt => hlt.le)
    simp only [hsort]
  · apply List.Pairwise.filterMap _ _ hafter
    intro a b hlt row hrow row' hrow'
    obtain ⟨c, -, rfl⟩ := Option.map_eq_some_iff.mp hrow
    obtain ⟨c', -, rfl⟩ := Option.map_eq_some_iff.mp hrow'
    exact hlt
  · intro row
    rw [List.mem_filterMap]
    constructor
    · rintro ⟨m, hm, hrow⟩
      obtain ⟨c, hc, rfl⟩ := Option.map_eq_some_iff.mp hrow
      rw [List.mem_filter, Bool.and_eq_true, decide_eq_true_eq, decide_eq_true_eq] at hm
      exact ⟨m, hm.1, hm.2.1, hm.2.2, hc, rfl, rfl⟩
    · rintro ⟨m, hm, hsession, hlt, hc, hseq, hrole⟩
      refine ⟨m, ?_, ?_⟩
      · rw [List.mem_filter, Bool.and_eq_true, decide_eq_true_eq, decide_eq_true_eq]
        exact ⟨hm, hsession, hlt⟩
      · rw [hc]
        cases row
        simp only at hseq hrole
        rw [Option.map_some, hseq, hrole]

/-! ## Failed submits -/

/-- INTERNAL: a transaction that fails commits nothing. -/
theorem transaction_error {α : Type} {db db' : ChatDb} {e : ChatError}
    {tx : ChatDb → Except ChatError (ChatDb × α)} (h : db.transaction tx = (db', .error e)) :
    db' = db := by
  unfold ChatDb.transaction at h
  split at h
  · cases h
  · cases h
    rfl

/-- The integrity of the transcripts. In every state of a run of the chat store: the
numbers of each session's messages are `1..n` and every turn names a user message of its
session that no other turn names; a replay after a number has exactly the messages above
it that open, in order; and a submit to a session that is not the user's or has a running
turn fails and leaves every table as it was.
SOURCE: chat.rs:442-477, 486-627 -/
theorem transcript_integrity (as : List Action) (s : State) (hrun : exec step .init as = some s) :
    Transcript s.db ∧
      (∀ openHex user session afterSeq, s.db.owned user session = true →
        ∃ rows, s.db.messagesAfter openHex user session afterSeq = .ok rows ∧
          rows.Pairwise (fun a b => a.seq < b.seq) ∧
          ∀ row, row ∈ rows ↔ ∃ m ∈ s.db.messages, m.sessionId = session ∧ afterSeq < m.seq ∧
            Replays openHex m row) ∧
      ∀ user session turn message now,
        (s.db.owned user session = false →
          s.db.transaction (createTurnStatements user session turn message now) =
            (s.db, .error .notFound)) ∧
        (s.db.owned user session = true → s.db.runningIn session = true →
          s.db.transaction (createTurnStatements user session turn message now) =
            (s.db, .error .conflict)) ∧
        ∀ db' e, s.db.transaction (createTurnStatements user session turn message now) =
          (db', .error e) → db' = s.db := by
  have h := transcript_exec hrun
  refine ⟨h, ?_, ?_⟩
  · intro openHex user session afterSeq hown
    exact messagesAfter_spec h openHex hown afterSeq
  · intro user session turn message now
    refine ⟨?_, ?_, fun db' e => transaction_error⟩
    · intro hown
      rw [ChatDb.transaction, createTurnStatements_eq, if_pos hown]
    · intro hown hbusy
      rw [ChatDb.transaction, createTurnStatements_eq, if_neg (by simp [hown]), hbusy, Bool.true_or,
        if_pos rfl]

/-- Two turns of one session with their answers, the first one parked in between. -/
def answeredTwice : List Action :=
  [.createSession 1 7 0, .createTurn 1 7 11 "hello" 1, .appendMessage 1 7 .tool "look" 2 11,
    .parkWaiting 1 11 none 3, .createTurn 1 7 12 "again" 4,
    .appendMessage 1 7 .assistant "hi" 5 12, .finalizeTurn 1 12 .done 6]

theorem transcript_integrity_answered :
    ∃ s, exec step .init answeredTwice = some s ∧ seqsOf s.db 7 = [1, 2, 3, 4] ∧
      (s.db.messagesAfter (fun m => some m.content) 1 7 2).toOption =
        some [⟨3, .user, "again"⟩, ⟨4, .assistant, "hi"⟩] ∧
      Transcript s.db :=
  ⟨_, rfl, by decide, by decide, (transcript_integrity answeredTwice _ rfl).1⟩

end Mycelium.Analysis.ChatTranscript
