import Mycelium.Model.ChatHistory
import Mycelium.Analysis.ChatTranscript

/-!
# The history of a chat turn

1. *Pairs.* The loop collects the messages with a reply right behind them among the readable
   messages and replies (`pairs_foldl_add`), each with the pairs that follow it
   (`answered_split`, `answered_of_split`).
2. *Statements.* What a history is to be (`Lawful`).
3. *The rebuild.* It is that where the message of the turn opens, and no message that does not
   open stands before the reply of a pair that is kept (`history_lawful_iff`).
-/

set_option autoImplicit false

namespace Mycelium.Analysis.HistoryRebuild

open StepSystem Mycelium.Model.ChatStore Mycelium.Model.ChatSessions
open Mycelium.Model.Conversation Mycelium.Model.ChatHistory
open Mycelium.Analysis.ChatTables Mycelium.Analysis.ChatTranscript

/-! ## Pairs -/

/-- The messages with a reply right behind them. -/
@[simp] def answered : List ChatMessageRow → List (ChatMessageRow × ChatMessageRow)
  | question :: reply :: rows =>
    if question.role = .user ∧ reply.role = .assistant then (question, reply) :: answered rows
    else answered (reply :: rows)
  | _ => []

theorem answered_cons_user {question : ChatMessageRow} (row : ChatMessageRow)
    (rows : List ChatMessageRow) (hrow : row.role = .user) :
    answered (question :: row :: rows) = answered (row :: rows) := by
  rw [answered, if_neg]
  simp [hrow]

theorem answered_cons_reply {row : ChatMessageRow} (rows : List ChatMessageRow)
    (hrow : row.role = .assistant) : answered (row :: rows) = answered rows := by
  cases rows with
  | nil => rfl
  | cons next rows =>
    rw [answered, if_neg]
    simp [hrow]

theorem answered_pair {question reply : ChatMessageRow} (rows : List ChatMessageRow)
    (hquestion : question.role = .user) (hreply : reply.role = .assistant) :
    answered (question :: reply :: rows) = (question, reply) :: answered rows := by
  rw [answered, if_pos ⟨hquestion, hreply⟩]

/-- A pair, and the pairs that follow it. -/
theorem answered_split {rows : List ChatMessageRow}
    {x y : List (ChatMessageRow × ChatMessageRow)} {p : ChatMessageRow × ChatMessageRow}
    (h : answered rows = x ++ p :: y) : ∃ before after, rows = before ++ p.1 :: p.2 :: after ∧
      p.1.role = .user ∧ p.2.role = .assistant ∧ y = answered after := by
  induction rows using answered.induct generalizing x with
  | case1 question reply rows hpair ih =>
    rw [answered_pair rows hpair.1 hpair.2] at h
    cases x with
    | nil =>
      obtain ⟨rfl, htail⟩ := List.cons.inj h
      exact ⟨[], rows, rfl, hpair.1, hpair.2, htail.symm⟩
    | cons first x =>
      obtain ⟨before, after, hrows, hrest⟩ := ih (List.cons.inj h).2
      exact ⟨question :: reply :: before, after, by rw [hrows]; rfl, hrest⟩
  | case2 question reply rows hpair ih =>
    rw [answered, if_neg hpair] at h
    obtain ⟨before, after, hrows, hrest⟩ := ih h
    exact ⟨question :: before, after, by rw [hrows]; rfl, hrest⟩
  | case3 rows hrows =>
    rw [answered] at h
    · cases x <;> cases h
    · exact hrows

theorem answered_append (x : List ChatMessageRow) {question : ChatMessageRow}
    (rows : List ChatMessageRow) (hquestion : question.role = .user) :
    answered (x ++ question :: rows) = answered x ++ answered (question :: rows) := by
  induction x using answered.induct with
  | case1 first second x hpair ih =>
    show answered (first :: second :: (x ++ question :: rows)) = _
    rw [answered_pair _ hpair.1 hpair.2, answered_pair _ hpair.1 hpair.2, ih, List.cons_append]
  | case2 first second x hpair ih =>
    show answered (first :: second :: (x ++ question :: rows)) = _
    rw [answered, if_neg hpair, answered, if_neg hpair]
    exact ih
  | case3 x hshort =>
    match x, hshort with
    | [], _ => rfl
    | [first], _ => exact answered_cons_user question rows hquestion
    | first :: second :: x, hshort => exact absurd rfl (hshort first second x)

/-- INTERNAL: the pairs are entries of the rows, one after the other. -/
theorem flatMap_answered_sublist (rows : List ChatMessageRow) :
    ((answered rows).flatMap fun p => [p.1, p.2]).Sublist rows := by
  induction rows using answered.induct with
  | case1 question reply rows hpair ih =>
    rw [answered_pair rows hpair.1 hpair.2, List.flatMap_cons]
    exact (ih.cons_cons reply).cons_cons question
  | case2 question reply rows hpair ih =>
    rw [answered, if_neg hpair]
    exact ih.cons question
  | case3 rows hrows =>
    rw [answered]
    · exact List.nil_sublist rows
    · exact hrows

/-- INTERNAL: the messages and replies among some rows. -/
def conversation (rows : List ChatMessageRow) : List ChatMessageRow :=
  rows.filter fun row => row.role = .user || row.role = .assistant

/-- The pairs of the loop. -/
theorem pairs_foldl_add (rows : List ChatMessageRow) (h : History)
    (hpending : ∀ row ∈ h.pending, row.role = .user) :
    (rows.foldl History.add h).pairs =
      h.pairs ++ answered (h.pending.toList ++ conversation rows) := by
  induction rows generalizing h with
  | nil =>
    cases hh : h.pending with
    | none => simp [conversation, answered]
    | some question => simp [conversation, answered]
  | cons row rows ih =>
    rw [List.foldl_cons]
    cases hrole : row.role with
    | user =>
      have hadd : h.add row = { h with pending := some row } := by simp [History.add, hrole]
      have hconv : conversation (row :: rows) = row :: conversation rows := by
        simp [conversation, hrole]
      rw [hadd, ih _ (by simpa using hrole), hconv]
      congr 1
      cases hh : h.pending with
      | none => rfl
      | some question => exact (answered_cons_user row _ hrole).symm
    | assistant =>
      have hconv : conversation (row :: rows) = row :: conversation rows := by
        simp [conversation, hrole]
      rw [hconv]
      cases hh : h.pending with
      | none =>
        have hadd : h.add row = h := by simp [History.add, hrole, hh]
        rw [hadd, ih h hpending, hh]
        congr 1
        exact (answered_cons_reply _ hrole).symm
      | some question =>
        have hadd : h.add row = ⟨h.pairs ++ [(question, row)], none⟩ := by
          simp [History.add, hrole, hh]
        rw [hadd, ih _ (by simp), List.append_assoc]
        congr 1
        exact (answered_pair _ (hpending question hh) hrole).symm
    | tool =>
      have hadd : h.add row = h := by simp [History.add, hrole]
      have hconv : conversation (row :: rows) = conversation rows := by
        simp [conversation, hrole]
      rw [hadd, hconv, ih h hpending]
    | error =>
      have hadd : h.add row = h := by simp [History.add, hrole]
      have hconv : conversation (row :: rows) = conversation rows := by
        simp [conversation, hrole]
      rw [hadd, hconv, ih h hpending]

/-- INTERNAL: the loop over rows in order takes those up to the message of the turn. -/
theorem scan_eq (userSeq : ℕ) (rows : List ChatMessageRow) (h : History)
    (hsorted : rows.Pairwise fun a b => a.seq < b.seq) :
    h.scan userSeq rows = (rows.filter (·.seq ≤ userSeq)).foldl History.add h := by
  induction rows generalizing h with
  | nil => rfl
  | cons row rows ih =>
    obtain ⟨hfirst, hrest⟩ := List.pairwise_cons.mp hsorted
    unfold History.scan
    by_cases hlater : userSeq < row.seq
    · rw [if_pos hlater, List.filter_eq_nil_iff.mpr]
      · rfl
      · intro row' hrow'
        have hle : row.seq ≤ row'.seq := by
          obtain rfl | htail := List.mem_cons.mp hrow'
          · omega
          · exact (hfirst row' htail).le
        simp only [decide_eq_true_eq]
        omega
    · rw [if_neg hlater, ih _ hrest, List.filter_cons_of_pos (by simpa using hlater),
        List.foldl_cons]

/-- INTERNAL: the last entries of a list, by how many follow. -/
theorem mem_drop_last {α : Type} (l : List α) (n : ℕ) (a : α) :
    a ∈ l.drop (l.length - n) ↔ ∃ x y, l = x ++ a :: y ∧ y.length < n := by
  constructor
  · intro h
    obtain ⟨x, y, hxy⟩ := List.append_of_mem h
    refine ⟨l.take (l.length - n) ++ x, y, ?_, ?_⟩
    · rw [List.append_assoc, ← hxy, List.take_append_drop]
    · have hlength := congrArg List.length hxy
      rw [List.length_drop, List.length_append, List.length_cons] at hlength
      omega
  · rintro ⟨x, y, rfl, hy⟩
    rw [List.drop_append_of_le_length]
    · exact List.mem_append_right _ (List.mem_cons_self ..)
    · rw [List.length_append, List.length_cons]
      omega

/-! ## Statements -/

section Statements

variable (db : ChatDb) (openHex : MessageRow → Option String) (user : ℕ) (turn : TurnRow)

/-- The row is a message of the turn's session as it is replayed. -/
def Stored (row : ChatMessageRow) : Prop :=
  ∃ m ∈ db.messages, m.sessionId = turn.sessionId ∧ Replays openHex m row

/-- The row is the message of the turn. -/
def IsTrigger (row : ChatMessageRow) : Prop :=
  Stored db openHex turn row ∧ row.role = .user ∧ row.seq = turn.userSeq

/-- The question is the last message of the user before the reply, whether the messages between
them open or not. -/
def LastBefore (question reply : ChatMessageRow) : Prop :=
  ∀ m ∈ db.messages, m.sessionId = turn.sessionId → m.role = .user → m.seq < reply.seq →
    m.seq ≤ question.seq

/-- A reply up to the turn, to the message of the user before it. -/
structure IsReply (question reply : ChatMessageRow) : Prop where
  asked : Stored db openHex turn question ∧ question.role = .user
  replied : Stored db openHex turn reply ∧ reply.role = .assistant
  before : question.seq < reply.seq
  upTo : reply.seq ≤ turn.userSeq
  last : LastBefore db turn question reply

/-- What the history of the turn is to be: at most so many pairs, each a message and its reply,
in order, and then the message of the turn. -/
structure Rebuilt (h : History) : Prop where
  few : h.pairs.length ≤ maxHistoryPairs
  replies : ∀ p ∈ h.pairs, IsReply db openHex turn p.1 p.2
  ordered : h.pairs.Pairwise fun p q => p.2.seq < q.1.seq
  trigger : ∃ row, IsTrigger db openHex turn row ∧ h.pending = some row ∧ h.turns =
    (h.pairs.flatMap fun p => [.user p.1.content, .assistant p.2.content]) ++ [.user row.content]

/-- What the rebuild is to return: such a history, or an error where the session is not the
user's or the message of the turn does not open. -/
def Lawful : Prop :=
  match historyRows db openHex user turn.sessionId turn.userSeq with
  | .ok h => rebuildHistory db openHex user turn.sessionId turn.userSeq = .ok h.turns ∧
      Rebuilt db openHex turn h
  | .error _ => db.owned user turn.sessionId = false ∨ ∀ row, ¬ IsTrigger db openHex turn row

/-- The message of the turn opens. -/
def TriggerOpens : Prop :=
  ∀ m ∈ db.messages, m.sessionId = turn.sessionId → m.seq = turn.userSeq → (openHex m).isSome = true

/-- Of the readable messages and replies up to the turn: a reply right behind a message is one
to it, unless enough pairs follow for it to be left out. -/
def KeptFollow : Prop :=
  ∀ rows, db.messagesAfter openHex user turn.sessionId 0 = .ok rows →
    ∀ before question reply after,
      conversation (rows.filter (·.seq ≤ turn.userSeq)) = before ++ question :: reply :: after →
      question.role = .user → reply.role = .assistant →
      (answered after).length < maxHistoryPairs → LastBefore db turn question reply

end Statements

/-! ## The rebuild -/

/-- INTERNAL: what the rebuild makes of the replayed rows. -/
theorem historyRows_spec {db : ChatDb} (h : Transcript db) (openHex : MessageRow → Option String)
    {user : ℕ} {turn : TurnRow} (hown : db.owned user turn.sessionId = true) :
    ∃ rows history, db.messagesAfter openHex user turn.sessionId 0 = .ok rows ∧
      historyRows db openHex user turn.sessionId turn.userSeq = .ok history ∧
      rows.Pairwise (fun a b => a.seq < b.seq) ∧
      (∀ row, row ∈ rows ↔ Stored db openHex turn row) ∧
      history = (((rows.filter (·.seq ≤ turn.userSeq)).foldl History.add {}).last) := by
  obtain ⟨rows, hrows, hsorted, hmem⟩ := messagesAfter_spec h openHex hown 0
  refine ⟨rows, _, hrows, ?_, hsorted, ?_, rfl⟩
  · rw [historyRows, hrows, ← scan_eq turn.userSeq rows {} hsorted]
    rfl
  · intro row
    rw [hmem]
    constructor
    · rintro ⟨m, hm, hsession, -, hreplays⟩
      exact ⟨m, hm, hsession, hreplays⟩
    · rintro ⟨m, hm, hsession, hreplays⟩
      -- the numbers of a session begin with 1
      have hpos : 0 < m.seq := by
        obtain ⟨n, hn⟩ := h.seqs turn.sessionId
        have hin : m.seq ∈ seqsOf db turn.sessionId := by
          apply List.mem_map_of_mem
          simpa using ⟨hm, hsession⟩
        rw [hn, List.mem_range'_1] at hin
        omega
      exact ⟨m, hm, hsession, by omega, hreplays⟩

/-- INTERNAL: the last row of some rows in order. -/
theorem concat_of_last {rows : List ChatMessageRow} {row : ChatMessageRow}
    (hsorted : rows.Pairwise fun a b => a.seq < b.seq) (hrow : row ∈ rows)
    (hlast : ∀ row' ∈ rows, row'.seq ≤ row.seq) : ∃ init, rows = init ++ [row] := by
  obtain ⟨x, y, rfl⟩ := List.append_of_mem hrow
  cases y with
  | nil => exact ⟨x, rfl⟩
  | cons next y =>
    have hlt := (List.pairwise_append.mp hsorted).2.1
    have hnext := (List.pairwise_cons.mp hlt).1 next (List.mem_cons_self ..)
    have hle := hlast next (by simp)
    omega

theorem pairs_last (rows : List ChatMessageRow) : ((rows.foldl History.add {}).last).pairs =
    (answered (conversation rows)).drop
      ((answered (conversation rows)).length - maxHistoryPairs) := by
  rw [History.last, pairs_foldl_add rows {} (by simp)]
  rfl

/-- INTERNAL: a pair of the history, as a place among the readable messages and replies. -/
theorem mem_pairs_iff (rows : List ChatMessageRow) (p : ChatMessageRow × ChatMessageRow) :
    p ∈ ((rows.foldl History.add {}).last).pairs ↔ ∃ before after,
      conversation rows = before ++ p.1 :: p.2 :: after ∧ p.1.role = .user ∧
        p.2.role = .assistant ∧ (answered after).length < maxHistoryPairs := by
  rw [pairs_last, mem_drop_last]
  constructor
  · rintro ⟨x, y, hxy, hy⟩
    obtain ⟨before, after, hsplit, hquestion, hreply, rfl⟩ := answered_split hxy
    exact ⟨before, after, hsplit, hquestion, hreply, hy⟩
  · rintro ⟨before, after, hsplit, hquestion, hreply, hfew⟩
    refine ⟨answered before, answered after, ?_, hfew⟩
    rw [hsplit, answered_append before _ hquestion, answered_pair after hquestion hreply]

/-- INTERNAL: the pairs of the history come in the order of the rows. -/
theorem pairs_ordered {rows : List ChatMessageRow}
    (hsorted : rows.Pairwise fun a b => a.seq < b.seq) :
    (∀ p ∈ ((rows.foldl History.add {}).last).pairs,
      p.1 ∈ rows ∧ p.2 ∈ rows ∧ p.1.seq < p.2.seq) ∧
    ((rows.foldl History.add {}).last).pairs.Pairwise fun p q => p.2.seq < q.1.seq := by
  rw [pairs_last]
  have hkept := List.drop_sublist ((answered (conversation rows)).length - maxHistoryPairs)
    (answered (conversation rows))
  have hsub : ((answered (conversation rows)).flatMap fun p => [p.1, p.2]).Sublist rows :=
    (flatMap_answered_sublist _).trans List.filter_sublist
  obtain ⟨hinner, houter⟩ := List.pairwise_flatMap.mp (hsorted.sublist hsub)
  constructor
  · intro p hp
    have hp' := hkept.subset hp
    have hin (row : ChatMessageRow) (hrow : row ∈ [p.1, p.2]) : row ∈ rows :=
      hsub.subset (List.mem_flatMap.mpr ⟨p, hp', hrow⟩)
    refine ⟨hin _ (by simp), hin _ (by simp), ?_⟩
    simpa using hinner p hp'
  · refine (houter.imp ?_).sublist hkept
    intro p q hpq
    exact hpq p.2 (by simp) q.1 (by simp)

/-- INTERNAL: a number of a session names one message. -/
theorem eq_of_seq {db : ChatDb} (h : Transcript db) {m m' : MessageRow} (hm : m ∈ db.messages)
    (hm' : m' ∈ db.messages) (hsession : m.sessionId = m'.sessionId) (hseq : m.seq = m'.seq) :
    m = m' := by
  obtain ⟨n, hn⟩ := h.seqs m.sessionId
  have hnodup : (seqsOf db m.sessionId).Nodup := by
    rw [hn]
    exact List.nodup_range'
  exact List.inj_on_of_nodup_map hnodup (by simpa using hm) (by simpa [hsession] using hm') hseq

theorem triggerOpens_iff {db : ChatDb} (h : Transcript db) {t : ℕ} {turn : TurnRow}
    (hturn : db.turns.get? t = some turn) (openHex : MessageRow → Option String) :
    TriggerOpens db openHex turn ↔ ∃ row, IsTrigger db openHex turn row := by
  constructor
  · intro hopens
    obtain ⟨m, hm, hsession, hseq, hrole⟩ := h.asks t turn hturn
    obtain ⟨content, hcontent⟩ := Option.isSome_iff_exists.mp (hopens m hm hsession hseq)
    exact ⟨⟨m.seq, m.role, content⟩, ⟨m, hm, hsession, hcontent, rfl, rfl⟩, hrole, hseq⟩
  · rintro ⟨row, ⟨m, hm, hsession, hcontent, hseq, -⟩, -, hask⟩ m' hm' hsession' hseq'
    have hsame : m' = m := eq_of_seq h hm' hm (hsession'.trans hsession.symm) (by omega)
    rw [hsame, hcontent]
    rfl

/-- INTERNAL: the rebuild in a session of the user. -/
theorem lawful_iff {db : ChatDb} (h : Transcript db) (openHex : MessageRow → Option String)
    {user : ℕ} {turn : TurnRow} (hown : db.owned user turn.sessionId = true) :
    Lawful db openHex user turn ↔
      (∃ row, IsTrigger db openHex turn row) ∧ KeptFollow db openHex user turn := by
  obtain ⟨rows, history, hrows, hhistory, hsorted, hstored, rfl⟩ := historyRows_spec h openHex hown
  have hupTo : (rows.filter (·.seq ≤ turn.userSeq)).Pairwise fun a b => a.seq < b.seq :=
    hsorted.sublist List.filter_sublist
  have hmem (row : ChatMessageRow) : row ∈ rows.filter (·.seq ≤ turn.userSeq) ↔
      Stored db openHex turn row ∧ row.seq ≤ turn.userSeq := by
    rw [List.mem_filter, hstored, decide_eq_true_eq]
  have hmatch : Lawful db openHex user turn ↔ Rebuilt db openHex turn
      (((rows.filter (·.seq ≤ turn.userSeq)).foldl History.add {}).last) := by
    rw [Lawful, rebuildHistory, hhistory]
    simp [Except.map]
  rw [hmatch]
  constructor
  · intro hrebuilt
    obtain ⟨row, hrow, -⟩ := hrebuilt.trigger
    refine ⟨⟨row, hrow⟩, ?_⟩
    intro rows' hrows' before question reply after hsplit hquestion hreply hfew
    obtain rfl := Except.ok.inj (hrows.symm.trans hrows')
    have hpair := (mem_pairs_iff _ (question, reply)).mpr
      ⟨before, after, hsplit, hquestion, hreply, hfew⟩
    exact (hrebuilt.replies _ hpair).last
  · rintro ⟨⟨row, hrow⟩, hfollow⟩
    obtain ⟨hinside, hordered⟩ := pairs_ordered hupTo
    refine ⟨?_, ?_, hordered, row, hrow, ?_⟩
    · rw [pairs_last, List.length_drop]
      omega
    · intro p hp
      obtain ⟨before, after, hsplit, hquestion, hreply, hfew⟩ := (mem_pairs_iff _ p).mp hp
      obtain ⟨hask, hanswer, hlt⟩ := hinside p hp
      obtain ⟨hanswered, hle⟩ := (hmem p.2).mp hanswer
      exact ⟨⟨((hmem p.1).mp hask).1, hquestion⟩, ⟨hanswered, hreply⟩, hlt, hle,
        hfollow rows hrows before p.1 p.2 after hsplit hquestion hreply hfew⟩
    · -- the message of the turn is the last row of the loop
      have hin := (hmem row).mpr ⟨hrow.1, hrow.2.2.le⟩
      obtain ⟨init, hinit⟩ := concat_of_last hupTo hin (fun row' hrow' => by
        rw [hrow.2.2]
        exact ((hmem row').mp hrow').2)
      have hpending : (((rows.filter (·.seq ≤ turn.userSeq)).foldl History.add {}).last).pending =
          some row := by
        rw [hinit, List.foldl_append, List.foldl_cons, List.foldl_nil]
        simp [History.last, History.add, hrow.2.1]
      refine ⟨hpending, ?_⟩
      rw [History.turns, hpending]
      rfl

/-- Where every message of the user opens, every pair is a message and its reply. -/
theorem keptFollow_of_opens {db : ChatDb} (h : Transcript db)
    {openHex : MessageRow → Option String} {user : ℕ} {turn : TurnRow}
    (hown : db.owned user turn.sessionId = true)
    (hopens : ∀ m ∈ db.messages, m.role = .user → (openHex m).isSome = true) :
    KeptFollow db openHex user turn := by
  obtain ⟨rows, history, hrows, -, hsorted, hstored, -⟩ := historyRows_spec h openHex hown
  intro rows' hrows' before question reply after hsplit hquestion hreply hfew m hm hsession hrole
    hbefore
  obtain rfl := Except.ok.inj (hrows.symm.trans hrows')
  obtain ⟨content, hcontent⟩ := Option.isSome_iff_exists.mp (hopens m hm hrole)
  have hconv : (conversation (rows.filter (·.seq ≤ turn.userSeq))).Pairwise
      fun a b => a.seq < b.seq :=
    hsorted.sublist (List.filter_sublist.trans List.filter_sublist)
  have hreplyIn : reply ∈ conversation (rows.filter (·.seq ≤ turn.userSeq)) := by
    rw [hsplit]
    simp
  rw [conversation, List.mem_filter, List.mem_filter, decide_eq_true_eq] at hreplyIn
  have hin : (⟨m.seq, m.role, content⟩ : ChatMessageRow) ∈
      conversation (rows.filter (·.seq ≤ turn.userSeq)) := by
    rw [conversation, List.mem_filter, List.mem_filter, hstored, decide_eq_true_eq]
    refine ⟨⟨⟨m, hm, hsession, hcontent, rfl, rfl⟩, ?_⟩, by simp [hrole]⟩
    show m.seq ≤ turn.userSeq
    omega
  rw [hsplit] at hin hconv
  obtain ⟨-, hrest, hcross⟩ := List.pairwise_append.mp hconv
  obtain ⟨-, htail⟩ := List.pairwise_cons.mp hrest
  obtain hin | hin := List.mem_append.mp hin
  · exact (hcross _ hin question (List.mem_cons_self ..)).le
  · obtain heq | hin := List.mem_cons.mp hin
    · exact (congrArg ChatMessageRow.seq heq).le
    · -- what stands behind the reply is numbered above it
      have hle : reply.seq ≤ m.seq := by
        obtain heq | hin := List.mem_cons.mp hin
        · exact (congrArg ChatMessageRow.seq heq).ge
        · exact ((List.pairwise_cons.mp htail).1 _ hin).le
      omega

/-- **The history of a turn.** In every state of the chat store and for every turn: the rebuild
returns pairs of a message and its reply and then the message of the turn, or the error, exactly
where the message of the turn opens and the pairs that are kept have no message in between that
does not open. SOURCE: chat_runner.rs:794-837 -/
theorem history_lawful_iff (as : List Action) (s : State) (hrun : exec step .init as = some s)
    (t : ℕ) (turn : TurnRow) (hturn : s.db.turns.get? t = some turn)
    (openHex : MessageRow → Option String) (user : ℕ) :
    Lawful s.db openHex user turn ↔ (s.db.owned user turn.sessionId = true →
      TriggerOpens s.db openHex turn ∧ KeptFollow s.db openHex user turn) := by
  have htranscript := transcript_exec hrun
  rw [triggerOpens_iff htranscript hturn]
  cases hown : s.db.owned user turn.sessionId with
  | true => simpa using lawful_iff htranscript openHex hown
  | false =>
    have hrows : historyRows s.db openHex user turn.sessionId turn.userSeq =
        .error .notFound := by
      rw [historyRows, ChatDb.messagesAfter, if_pos hown]
      rfl
    have hlawful : Lawful s.db openHex user turn := by
      rw [Lawful, hrows]
      exact Or.inl hown
    simp [hlawful]

/-- A turn with its reply, and the turn after it. -/
def secondTurn : List Action :=
  [.createSession 1 7 0, .createTurn 1 7 11 "hello" 1, .appendMessage 1 7 .assistant "hi" 2 11,
    .finalizeTurn 1 11 .done 3, .createTurn 1 7 12 "again" 4]

theorem history_lawful_second : ∃ s turn, exec step .init secondTurn = some s ∧
    s.db.turns.get? 12 = some turn ∧ Lawful s.db (fun m => some m.content) 1 turn := by
  refine ⟨_, _, rfl, rfl, ?_⟩
  rw [history_lawful_iff secondTurn _ rfl 12 _ rfl]
  intro hown
  exact ⟨fun m _ _ _ => rfl, keptFollow_of_opens (@transcript_exec secondTurn _ rfl) hown
    fun m _ _ => rfl⟩

/-- A turn that failed, and the turn after it. -/
def afterFailure : List Action :=
  [.createSession 1 7 0, .createTurn 1 7 11 "hello" 1, .finalizeTurn 1 11 .failed 2,
    .createTurn 1 7 12 "again" 3]

/-- The message of the second turn does not open: the history ends with the first. -/
theorem older_message_asked : ¬ ∀ as s, exec step .init as = some s → ∀ t turn,
    s.db.turns.get? t = some turn → ∀ openHex user, Lawful s.db openHex user turn := by
  intro hall
  have hlawful := hall afterFailure _ rfl 12 _ rfl
    (fun m => if m.seq = 2 then none else some m.content) 1
  obtain ⟨-, hrebuilt⟩ := hlawful
  obtain ⟨row, ⟨-, -, hseq⟩, hpending, -⟩ := hrebuilt.trigger
  have hfirst := Option.some.inj hpending
  rw [← hfirst] at hseq
  exact absurd hseq (by decide)

end Mycelium.Analysis.HistoryRebuild
