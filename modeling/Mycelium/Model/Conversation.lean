import Mathlib.Algebra.GroupWithZero.Nat
import Mathlib.Data.List.Basic

/-!
# The conversation of a model call

The turns of a conversation and how the oldest are dropped before a call. Turns that belong
together are a unit: a question with its answer, or a tool call with all of its results. The
size of a turn is that of its text in bytes; the estimate of the prompt is a quarter of it.

Units are slices of the conversation, where the code has pairs of indexes.

SOURCE: crates/mycelium-librarian/src/llm.rs
-/

set_option autoImplicit false

namespace Mycelium.Model.Conversation

/-- SOURCE: llm.rs:193-222 -/
structure ToolCall where
  id : String
  kind : String := "function"
  functionName : String
  functionArguments : String
  deriving DecidableEq, Repr

/-- SOURCE: llm.rs:525-536 -/
inductive ConversationTurn where
  | user (text : String)
  | assistant (text : String)
  | assistantToolCalls (calls : List ToolCall)
  | toolResult (callId result : String)
  deriving DecidableEq, Repr

def ConversationTurn.isUser : ConversationTurn → Bool
  | .user _ => true
  | _ => false

def ConversationTurn.isToolResult : ConversationTurn → Bool
  | .toolResult _ _ => true
  | _ => false

/-! ## Sizes -/

/-- SOURCE: llm.rs:556 -/
def contextTokensBudget : ℕ := 96000

/-- SOURCE: llm.rs:583-592 -/
def turnBytes : ConversationTurn → ℕ
  | .user text | .assistant text => text.utf8ByteSize
  | .assistantToolCalls calls => (calls.map fun c =>
      c.id.utf8ByteSize + c.functionName.utf8ByteSize + c.functionArguments.utf8ByteSize).sum
  | .toolResult callId result => callId.utf8ByteSize + result.utf8ByteSize

/-- The size of some turns. -/
def bytes (turns : List ConversationTurn) : ℕ := (turns.map turnBytes).sum

/-- SOURCE: llm.rs:594-601 -/
def estTokens (textBytes : ℕ) : ℕ := textBytes / 4

/-! ## Units -/

/-- How many turns the first unit has. SOURCE: llm.rs:603-625 -/
def unitLength : List ConversationTurn → ℕ
  | .user _ :: .assistant _ :: _ => 2
  | .assistantToolCalls _ :: rest => 1 + (rest.takeWhile ConversationTurn.isToolResult).length
  | _ => 1

theorem unitLength_pos (turns : List ConversationTurn) : 0 < unitLength turns := by
  unfold unitLength
  split
  · omega
  · omega
  · omega

/-- The units of a conversation, from left to right. SOURCE: llm.rs:643-649 -/
def units : List ConversationTurn → List (List ConversationTurn)
  | [] => []
  | turn :: rest =>
    (turn :: rest).take (unitLength (turn :: rest)) ::
      units ((turn :: rest).drop (unitLength (turn :: rest)))
termination_by turns => turns.length
decreasing_by
  have hpos := unitLength_pos (turn :: rest)
  simp only [List.length_drop, List.length_cons]
  omega

/-! ## The trim -/

/-- `Iterator::rposition`: the index of the last entry with the property. -/
def rposition {α : Type} (p : α → Bool) (l : List α) : Option ℕ :=
  (l.reverse.findIdx? p).map (l.length - 1 - ·)

/-- The unit with the final user turn. SOURCE: llm.rs:656-663 -/
def lastUserUnit (us : List (List ConversationTurn)) : Option ℕ :=
  rposition (fun unit => unit.any ConversationTurn.isUser) us

/-- How many units may go: those before the one with the final user turn, and never all.
SOURCE: llm.rs:664-667 -/
def droppableMax (us : List (List ConversationTurn)) : ℕ :=
  min ((lastUserUnit us).getD us.length) (us.length - 1)

/-- The loop of the trim: how many of the first units go, given how many more may and how many
bytes remain. SOURCE: llm.rs:669-674 -/
def dropCount : ℕ → ℕ → List ℕ → ℕ
  | more + 1, remaining, size :: sizes =>
    if contextTokensBudget < estTokens remaining then dropCount more (remaining - size) sizes + 1
    else 0
  | _, _, _ => 0

/-- SOURCE: llm.rs:642-680 -/
def trimConversation (turns : List ConversationTurn) : List ConversationTurn :=
  let us := units turns
  let sizes := us.map bytes
  let drop := dropCount (droppableMax us) sizes.sum sizes
  (us.drop drop).flatten

end Mycelium.Model.Conversation
