import Mycelium.Model.AgentTools
import Mycelium.Model.LlmHealth

/-!
# The requests of a run

What is sent to the model: the conversation of a run, with its answers as texts, is trimmed, each
result is capped, and every turn becomes one message behind the system prompt. How an answer is
written as text is a parameter.

SOURCE: crates/mycelium-librarian/src/llm.rs
-/

set_option autoImplicit false

namespace Mycelium.Model.ModelRequests

open Mycelium.Model.Conversation Mycelium.Model.AgentTools
open Mycelium.Model.LlmHealth (takeBytes)

/-- In bytes. SOURCE: llm.rs:547 -/
def maxToolResultChars : ℕ := 24000

/-- SOURCE: llm.rs:560 -/
def toolResultTruncationMarker : String := "\n\n[tool output truncated at 24000 chars]"

/-- SOURCE: llm.rs:566-578 -/
def boundToolResult (text : String) : String :=
  if text.utf8ByteSize ≤ maxToolResultChars then text
  else String.ofList (takeBytes maxToolResultChars text.toList) ++ toolResultTruncationMarker

def capTurn : ConversationTurn → ConversationTurn
  | .toolResult callId result => .toolResult callId (boundToolResult result)
  | turn => turn

inductive Role where
  | system
  | user
  | assistant
  | tool
  deriving DecidableEq, Repr

structure ChatMessage where
  role : Role
  content : Option String := none
  toolCalls : Option (List ToolCall) := none
  toolCallId : Option String := none
  deriving DecidableEq, Repr

def turnMessage : ConversationTurn → ChatMessage
  | .user text => { role := .user, content := some text }
  | .assistant text => { role := .assistant, content := some text }
  | .assistantToolCalls calls => { role := .assistant, toolCalls := some calls }
  | .toolResult callId result =>
    { role := .tool, content := some result, toolCallId := some callId }

/-- The messages of one request. SOURCE: llm.rs:440-488 -/
def requestMessages (system : String) (conversation : List ConversationTurn) : List ChatMessage :=
  { role := .system, content := some system } ::
    ((trimConversation conversation).map capTurn).map turnMessage

/-- A turn of a run with its answer as text. -/
def wireTurn {K : Type} (text : Reply K → String) : Turn K → ConversationTurn
  | .message (.user said) => .user said
  | .message (.assistant said) => .assistant said
  | .assistantToolCalls calls => .assistantToolCalls calls
  | .toolResult callId reply => .toolResult callId (text reply)

end Mycelium.Model.ModelRequests
