import Mycelium.Model.ChatSessions
import Mycelium.Model.Conversation

/-!
# The conversation of a chat session

What a run of the agent is given of the session before it: the last complete pairs of a
message and its reply, and the message of its turn. The rows stand where the code has their
texts.

SOURCE: crates/mycelium-web/src/chat_runner.rs
-/

set_option autoImplicit false

namespace Mycelium.Model.ChatHistory

open Mycelium.Model.ChatStore Mycelium.Model.Conversation

/-- SOURCE: chat_runner.rs:68 -/
def maxHistoryPairs : ℕ := 20

/-- The complete pairs, and the message that has no reply yet. -/
structure History where
  pairs : List (ChatMessageRow × ChatMessageRow) := []
  pending : Option ChatMessageRow := none
  deriving DecidableEq, Repr

/-- The body of the loop. SOURCE: chat_runner.rs:815-824 -/
def History.add (h : History) (row : ChatMessageRow) : History :=
  match row.role, h.pending with
  | .user, _ => { h with pending := some row }
  | .assistant, some question => ⟨h.pairs ++ [(question, row)], none⟩
  | .assistant, none => h
  -- rows of the transcript only
  | .tool, _ | .error, _ => h

/-- The loop over the rows, which stops behind the message of the turn.
SOURCE: chat_runner.rs:811-825 -/
def History.scan (userSeq : ℕ) : History → List ChatMessageRow → History
  | h, [] => h
  | h, row :: rows => if userSeq < row.seq then h else History.scan userSeq (h.add row) rows

/-- The last pairs. SOURCE: chat_runner.rs:826-828 -/
def History.last (h : History) : History :=
  { h with pairs := h.pairs.drop (h.pairs.length - maxHistoryPairs) }

/-- SOURCE: chat_runner.rs:827-835 -/
def History.turns (h : History) : List ConversationTurn :=
  (h.pairs.flatMap fun (question, reply) => [.user question.content, .assistant reply.content]) ++
    h.pending.toList.map fun question => .user question.content

def historyRows (db : ChatDb) (openHex : MessageRow → Option String) (user session userSeq : ℕ) :
    Except ChatError History := do
  let rows ← db.messagesAfter openHex user session 0
  return (History.scan userSeq {} rows).last

/-- SOURCE: chat_runner.rs:794-837 -/
def rebuildHistory (db : ChatDb) (openHex : MessageRow → Option String)
    (user session userSeq : ℕ) : Except ChatError (List ConversationTurn) :=
  (historyRows db openHex user session userSeq).map History.turns

end Mycelium.Model.ChatHistory
