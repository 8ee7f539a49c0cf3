import Mycelium.Analysis.ConversationTrim
import Mycelium.Model.ModelRequests

/-!
# The requests of a run keep to the protocol

1. *Rounds.* The conversation of a run is its messages and then one block for each round, a call
   turn and one result for each of its calls (`rounded_agentLoop`).
2. *What was written* is what the results of the rounds say was written.
3. *The trim* cuts between messages and blocks, and in front of the last question
   (`kept_rounds`), so each request is one the protocol accepts (`request_keeps_protocol`).
-/

set_option autoImplicit false

namespace Mycelium.Analysis.AgentRequests

open Mycelium.Model
open Mycelium.Model.Concepts Mycelium.Model.Conversation Mycelium.Model.AgentTools
open Mycelium.Model.ModelRequests
open Mycelium.Model.LlmHealth (takeBytes)
open Mycelium.Analysis.ConversationTrim

variable {K : Type}

/-! ## Rounds -/

/-- A round: every call has its reply. -/
structure Round (K : Type) where
  calls : List ToolCall
  replies : List (Reply K)
  answered : replies.length = calls.length

def Round.results (r : Round K) : List (Turn K) :=
  List.zipWith (fun call reply => .toolResult call.id reply) r.calls r.replies

def Round.turns (r : Round K) : List (Turn K) := .assistantToolCalls r.calls :: r.results

/-- The path a reply says was written. -/
def written? : Reply K → Option String
  | .written path | .patched path | .deleted path => some path
  | _ => none

def Round.written (r : Round K) : List String := r.replies.filterMap written?

/-- A run that went through some rounds from a conversation on. -/
structure Rounded (allowWrites : Bool) (n : ℕ) (run : Run K) (rs : List (Round K)) (run' : Run K)
    (answer : Except AgentError String) : Prop where
  conversation : run'.conversation = run.conversation ++ rs.flatMap Round.turns
  few : rs.length ≤ n
  capped : answer = .error .stepCapExceeded → rs.length = n
  filesChanged : run'.filesChanged = run.filesChanged ++ rs.flatMap Round.written
  readOnly : allowWrites = false → rs.flatMap Round.written = []

/-- INTERNAL: a run that ends before its first round. -/
theorem rounded_nil {allowWrites : Bool} {n : ℕ} {run : Run K} {answer : Except AgentError String}
    (h : answer = .error .stepCapExceeded → n = 0) : Rounded allowWrites n run [] run answer :=
  ⟨(List.append_nil _).symm, Nat.zero_le n, fun hcap => (h hcap).symm, (List.append_nil _).symm,
    fun _ => rfl⟩

/-! ## What was written -/

section Tools

variable {cx : Codec}

theorem written?_readConcept {w : World K cx} {visible : Option (List String)} {args : Args}
    {r : Reply K} (h : readConcept w visible args = .ok r) : written? r = none := by
  unfold readConcept at h
  split at h
  · cases h
  · split at h
    · cases h
    · cases h
      rfl

theorem written?_lintKnowledge {w : World K cx} {r : Reply K} (h : lintKnowledge w = .ok r) :
    written? r = none := by
  unfold lintKnowledge at h
  cases hlist : w.bundle.list with
  | error e =>
    rw [hlist] at h
    cases h
  | ok entries =>
    rw [hlist] at h
    cases h
    rfl

theorem written?_readPassage {w : World K cx} {visible : Option (List String)} {args : Args}
    {r : Reply K} (h : readPassage w visible args = .ok r) : written? r = none := by
  unfold readPassage at h
  dsimp only at h
  split at h
  · cases h
  · split at h
    · cases h
      rfl
    · split at h
      · cases h
        rfl
      · split at h
        · split at h
          · cases h
            rfl
          · cases h
            rfl
        · cases h
          rfl

theorem written?_writeTool {bundle : Bundle} {name : String} {args : Args} {r : Reply K}
    {written : Option String} (h : writeTool bundle name args = .ok (r, written)) :
    written = written? r := by
  have hdone {did : Except ConceptStore.StoreError Unit} {said : Reply K} {path : String}
      (hpath' : written? said = some path)
      (h : (did.mapError AgentError.store >>= fun _ => Except.ok (said, some path)) =
        .ok (r, written)) : written = written? r := by
    cases did with
    | error e => cases h
    | ok =>
      cases h
      exact hpath'.symm
  unfold writeTool at h
  split at h
  · exact hdone rfl h
  · split at h
    · cases hget : bundle.get (args.str "path") with
      | error e =>
        rw [hget] at h
        cases h
      | ok concept =>
        rw [hget] at h
        exact hdone rfl h
    · exact hdone rfl h

variable [Field K] [LinearOrder K]

theorem written?_searchKnowledge {w : World K cx} {visible : Option (List String)} {args : Args}
    {r : Reply K} (h : searchKnowledge w visible args = .ok r) : written? r = none := by
  unfold searchKnowledge at h
  dsimp only at h
  split at h
  · cases hlayout : formatTree w.bundle with
    | error e =>
      rw [hlayout] at h
      cases h
    | ok layout =>
      rw [hlayout] at h
      cases h
      rfl
  · cases h
    rfl

/-- What a call reports as written is what its reply says, and a call that may not write reports
nothing. -/
theorem written?_executeTool {w : World K cx} {visible : Option (List String)}
    {allowWrites : Bool} {call : ToolCall} {r : Reply K} {written : Option String}
    (h : executeTool w visible allowWrites call = .ok (r, written)) :
    written = written? r ∧ (allowWrites = false → written = none) := by
  have hread {reply : Except AgentError (Reply K)}
      (hreads : ∀ r, reply = .ok r → written? r = none)
      (h : reply.map (fun r => (r, (none : Option String))) = .ok (r, written)) :
      written = written? r ∧ (allowWrites = false → written = none) := by
    cases reply with
    | error e => cases h
    | ok r' =>
      cases h
      exact ⟨(hreads r rfl).symm, fun _ => rfl⟩
  unfold executeTool at h
  dsimp only at h
  split at h
  · cases h
  · split at h
    · exact hread (fun _ => written?_searchKnowledge) h
    · split at h
      · exact hread (fun _ => written?_readConcept) h
      · split at h
        · refine hread ?_ h
          intro r hr
          cases hlayout : formatTree w.bundle with
          | error e =>
            rw [hlayout] at hr
            cases hr
          | ok layout =>
            rw [hlayout] at hr
            cases hr
            rfl
        · split at h
          · exact hread (fun _ => written?_lintKnowledge) h
          · split at h
            · exact hread (fun _ => written?_readPassage) h
            · split at h
              · cases allowWrites with
                | true =>
                  exact ⟨written?_writeTool h, fun hno => absurd hno.symm Bool.false_ne_true⟩
                | false => cases h
              · cases h
  · cases h

/-! ## A run -/

theorem callTool_eq (visible : Option (List String)) (allowWrites : Bool) (run : Run K)
    (call : World K cx × ToolCall) : ∃ reply : Reply K,
      callTool visible allowWrites run call =
        { conversation := run.conversation ++ [.toolResult call.2.id reply]
          filesChanged := run.filesChanged ++ (written? reply).toList } ∧
      (allowWrites = false → written? reply = none) := by
  unfold callTool
  split
  · rename_i reply written hexec
    obtain ⟨rfl, hnone⟩ := written?_executeTool hexec
    exact ⟨reply, rfl, hnone⟩
  · rename_i e hexec
    refine ⟨.error e, ?_, fun _ => rfl⟩
    change _ = Run.mk _ (run.filesChanged ++ [])
    rw [List.append_nil]

/-- The calls of one round, in order. -/
theorem foldl_callTool (visible : Option (List String)) (allowWrites : Bool)
    (calls : List (World K cx × ToolCall)) (run : Run K) : ∃ replies : List (Reply K),
      replies.length = calls.length ∧
      calls.foldl (callTool visible allowWrites) run =
        { conversation := run.conversation ++
            List.zipWith (fun call reply => .toolResult call.id reply) (calls.map Prod.snd) replies
          filesChanged := run.filesChanged ++ replies.filterMap written? } ∧
      (allowWrites = false → replies.filterMap written? = []) := by
  induction calls generalizing run with
  | nil =>
    refine ⟨[], rfl, ?_, fun _ => rfl⟩
    rw [List.foldl_nil, List.filterMap_nil, List.zipWith_nil_right, List.append_nil,
      List.append_nil]
  | cons call calls ih =>
    obtain ⟨reply, hcall, hnone⟩ := callTool_eq visible allowWrites run call
    obtain ⟨replies, hlen, hrest, hnones⟩ := ih (callTool visible allowWrites run call)
    refine ⟨reply :: replies, congrArg (· + 1) hlen, ?_, ?_⟩
    · rw [List.foldl_cons, hrest, hcall]
      congr 1
      · simp only [List.map_cons, List.zipWith_cons_cons, List.append_assoc, List.singleton_append]
      · cases hw : written? reply with
        | none => simp [hw]
        | some path => simp [hw]
    · intro hwrites
      rw [List.filterMap_cons_none (hnone hwrites)]
      exact hnones hwrites

theorem rounded_rounds (visible : Option (List String)) (allowWrites : Bool) (n : ℕ) (run : Run K)
    (outputs : List (StepOutput K cx)) : ∃ rs : List (Round K),
      Rounded allowWrites n run rs (rounds visible allowWrites n run outputs).1
        (rounds visible allowWrites n run outputs).2 := by
  induction n generalizing run outputs with
  | zero => exact ⟨[], rounded_nil fun _ => rfl⟩
  | succ n ih =>
    cases outputs with
    | nil => exact ⟨[], rounded_nil fun h => by cases h⟩
    | cons output outputs =>
      cases output with
      | text answer => exact ⟨[], rounded_nil fun h => by cases h⟩
      | toolCalls calls =>
        obtain ⟨replies, hlen, hfold, hnones⟩ := foldl_callTool visible allowWrites calls
          { run with
            conversation := run.conversation ++ [.assistantToolCalls (calls.map Prod.snd)] }
        let r : Round K := ⟨calls.map Prod.snd, replies, by rw [hlen, List.length_map]⟩
        obtain ⟨rs, hrs⟩ := ih
          { conversation := run.conversation ++ r.turns
            filesChanged := run.filesChanged ++ r.written } outputs
        have hasked : calls.foldl (callTool visible allowWrites)
            { run with
              conversation := run.conversation ++ [.assistantToolCalls (calls.map Prod.snd)] } =
            { conversation := run.conversation ++ r.turns
              filesChanged := run.filesChanged ++ r.written } := by
          rw [hfold, List.append_assoc]
          rfl
        refine ⟨r :: rs, ?_⟩
        rw [rounds, hasked]
        refine ⟨?_, Nat.succ_le_succ hrs.few, fun h => congrArg (· + 1) (hrs.capped h), ?_, ?_⟩
        · rw [hrs.conversation, List.flatMap_cons, List.append_assoc]
        · rw [hrs.filesChanged, List.flatMap_cons, List.append_assoc]
        · intro hwrites
          rw [List.flatMap_cons, hrs.readOnly hwrites, List.append_nil]
          exact hnones hwrites

end Tools

/-! ## The protocol -/

/-- After an assistant message with calls come their results, one for each call and in order,
before any other message; `owed` are the calls whose results are still to come. -/
def Answered : List String → List ChatMessage → Prop
  | owed, [] => owed = []
  | owed, m :: ms =>
    if m.role = .tool then
      ∃ callId rest, owed = callId :: rest ∧ m.toolCallId = some callId ∧ Answered rest ms
    else owed = [] ∧ Answered ((m.toolCalls.getD []).map ToolCall.id) ms

/-- The messages of some turns. -/
def wireMessages (text : Reply K → String) (turns : List (Turn K)) : List ChatMessage :=
  ((turns.map (wireTurn text)).map capTurn).map turnMessage

variable (text : Reply K → String)

theorem answered_messages (msgs : List Message) (ms : List ChatMessage) (h : Answered [] ms) :
    Answered [] (wireMessages text (msgs.map .message) ++ ms) := by
  induction msgs with
  | nil => exact h
  | cons m msgs ih =>
    cases m with
    | user said => exact ⟨rfl, ih⟩
    | assistant said => exact ⟨rfl, ih⟩

theorem answered_results (calls : List ToolCall) (replies : List (Reply K))
    (hlen : replies.length = calls.length) (ms : List ChatMessage) (h : Answered [] ms) :
    Answered (calls.map ToolCall.id) (wireMessages text
      (List.zipWith (fun call reply => .toolResult call.id reply) calls replies) ++ ms) := by
  induction calls generalizing replies with
  | nil =>
    rw [List.zipWith_nil_left]
    exact h
  | cons call calls ih =>
    cases replies with
    | nil => cases hlen
    | cons reply replies =>
      exact ⟨call.id, calls.map ToolCall.id, rfl, rfl, ih replies (Nat.succ.inj hlen)⟩

theorem answered_rounds (rs : List (Round K)) :
    Answered [] (wireMessages text (rs.flatMap Round.turns)) := by
  induction rs with
  | nil => rfl
  | cons r rs ih =>
    have hsplit : wireMessages text ((r :: rs).flatMap Round.turns) =
        turnMessage (.assistantToolCalls r.calls) ::
          (wireMessages text r.results ++ wireMessages text (rs.flatMap Round.turns)) := by
      unfold wireMessages
      rw [List.flatMap_cons, List.map_append, List.map_append, List.map_append]
      rfl
    rw [hsplit]
    exact ⟨rfl, answered_results text r.calls r.replies r.answered _ ih⟩

/-! ## The trim -/

theorem allowed_trim (turns : List ConversationTurn) : Allowed turns (trimConversation turns) := by
  obtain ⟨d, hd, hkept, -⟩ := trim_cut turns
  exact allowed_iff.mpr ⟨d, hd, hkept⟩

theorem isToolResult_results (r : Round K) :
    ∀ t ∈ r.results.map (wireTurn text), t.isToolResult = true := by
  intro t ht
  obtain ⟨turn, hturn, rfl⟩ := List.mem_map.mp ht
  unfold Round.results at hturn
  obtain ⟨i, hi, hget⟩ := List.getElem_of_mem hturn
  rw [← hget, List.getElem_zipWith]
  rfl

/-- The turns of a run as they go to the model. -/
def wireTurns (msgs : List Message) (rs : List (Round K)) : List ConversationTurn :=
  (msgs.map Turn.message ++ rs.flatMap Round.turns).map (wireTurn text)

theorem wireTurns_nil_cons (r : Round K) (rs : List (Round K)) :
    wireTurns text [] (r :: rs) = (.assistantToolCalls r.calls :: r.results.map (wireTurn text)) ++
      wireTurns text [] rs := by
  unfold wireTurns
  rw [List.flatMap_cons, List.map_nil, List.nil_append, List.map_append]
  rfl

/-- A cut that splits no call from its results is between rounds. -/
theorem kept_rounds {rs : List (Round K)} {dropped kept : List ConversationTurn}
    (hsplits : ¬ Splits dropped kept) (h : wireTurns text [] rs = dropped ++ kept) :
    ∃ rs', rs' <:+ rs ∧ kept = wireTurns text [] rs' := by
  induction rs generalizing dropped with
  | nil =>
    obtain ⟨-, rfl⟩ := List.append_eq_nil_iff.mp h.symm
    exact ⟨[], List.suffix_refl _, rfl⟩
  | cons r rs ih =>
    have hwhole := h
    rw [wireTurns_nil_cons] at h
    obtain ⟨d, rfl, hrest⟩ | ⟨m, hround, rfl⟩ := List.append_eq_append_iff.mp h
    · obtain ⟨rs', hsuffix, hkept⟩ := ih (fun hd => hsplits (hd.append _)) hrest
      exact ⟨rs', hsuffix.trans (List.suffix_cons r rs), hkept⟩
    · cases m with
      | nil => exact ⟨rs, List.suffix_cons r rs, rfl⟩
      | cons result m =>
        cases dropped with
        | nil => exact ⟨r :: rs, List.suffix_refl _, hwhole.symm⟩
        | cons call d =>
          -- the cut is inside the round
          obtain ⟨rfl, hresults⟩ := List.cons.inj hround
          have hall := isToolResult_results text r
          rw [hresults] at hall
          exact absurd (.block [] r.calls (m ++ wireTurns text [] rs)
            (fun t ht => hall t (List.mem_append_left _ ht))
            (hall result (List.mem_append_right _ List.mem_cons_self))) hsplits

/-- The same with the messages in front. -/
theorem kept_turns {msgs : List Message} {rs : List (Round K)}
    {dropped kept : List ConversationTurn} (hsplits : ¬ Splits dropped kept)
    (h : wireTurns text msgs rs = dropped ++ kept) :
    ∃ msgs' rs', msgs' <:+ msgs ∧ rs' <:+ rs ∧ kept = wireTurns text msgs' rs' := by
  induction msgs generalizing dropped with
  | nil =>
    obtain ⟨rs', hsuffix, hkept⟩ := kept_rounds text hsplits h
    exact ⟨[], rs', List.suffix_refl _, hsuffix, hkept⟩
  | cons m msgs ih =>
    cases dropped with
    | nil => exact ⟨m :: msgs, rs, List.suffix_refl _, List.suffix_refl _, h.symm⟩
    | cons turn d =>
      obtain ⟨msgs', rs', hmsgs, hrs, hkept⟩ :=
        ih (fun hd => hsplits (hd.append [turn])) (List.cons.inj h).2
      exact ⟨msgs', rs', hmsgs.trans (List.suffix_cons m msgs), hrs, hkept⟩

/-- Behind a question nothing is dropped. -/
theorem rounds_kept {msgs : List Message} (rs : List (Round K))
    (huser : ∃ said, Message.user said ∈ msgs) :
    wireTurns text [] rs <:+ trimConversation (wireTurns text msgs rs) := by
  have hany : ∃ turn ∈ wireTurns text msgs [], turn.isUser = true := by
    obtain ⟨said, hmem⟩ := huser
    refine ⟨.user said, ?_, rfl⟩
    unfold wireTurns
    rw [List.flatMap_nil, List.append_nil, List.map_map]
    exact List.mem_map_of_mem hmem
  obtain ⟨before, turn, after, hmsgs, hturn, hafter⟩ := last_of_any hany
  obtain ⟨said, rfl⟩ := isUser_iff.mp hturn
  have hall : wireTurns text msgs rs =
      before ++ .user said :: (after ++ wireTurns text [] rs) := by
    have hfront : wireTurns text msgs rs = wireTurns text msgs [] ++ wireTurns text [] rs := by
      unfold wireTurns
      rw [List.map_append, List.flatMap_nil, List.append_nil, List.map_nil, List.nil_append]
    rw [hfront, hmsgs, List.append_assoc, List.cons_append]
  have hnouser : ∀ t ∈ after ++ wireTurns text [] rs, t.isUser = false := by
    intro t ht
    rcases List.mem_append.mp ht with hold | hnew
    · exact hafter t hold
    · obtain ⟨turn, hmem, rfl⟩ := List.mem_map.mp hnew
      obtain ⟨r, -, hr⟩ := List.mem_flatMap.mp hmem
      obtain rfl | hr := List.mem_cons.mp hr
      · rfl
      · have hresult := isToolResult_results text r _ (List.mem_map_of_mem hr)
        cases hwire : wireTurn text turn with
        | user t => rw [hwire] at hresult; cases hresult
        | _ => rfl
  have hkept := (allowed_trim (wireTurns text msgs rs)).user before said _ hall hnouser
  have htail : wireTurns text [] rs <:+ .user said :: (after ++ wireTurns text [] rs) :=
    (List.suffix_append after _).trans (List.suffix_cons _ _)
  exact htail.trans hkept

/-! ## The cap -/

/-- INTERNAL: what fits the room does. -/
theorem utf8ByteSize_takeBytes (room : ℕ) (cs : List Char) :
    (String.ofList (takeBytes room cs)).utf8ByteSize ≤ room := by
  induction cs generalizing room with
  | nil => exact Nat.zero_le room
  | cons c cs ih =>
    unfold takeBytes
    split
    · rename_i hfits
      rw [String.ofList_cons, String.utf8ByteSize_append, String.utf8ByteSize_singleton]
      have hrest := ih (room - c.utf8Size)
      omega
    · exact Nat.zero_le room

theorem utf8ByteSize_boundToolResult (result : String) :
    (boundToolResult result).utf8ByteSize ≤
      maxToolResultChars + toolResultTruncationMarker.utf8ByteSize := by
  unfold boundToolResult
  split
  · omega
  · rw [String.utf8ByteSize_append]
    have hcut := utf8ByteSize_takeBytes maxToolResultChars result.toList
    omega

theorem content_of_tool {turns : List ConversationTurn} {system : String} {m : ChatMessage}
    (hm : m ∈ requestMessages system turns) (htool : m.role = .tool) :
    ∃ result, m.content = some (boundToolResult result) := by
  obtain rfl | hm := List.mem_cons.mp hm
  · cases htool
  · obtain ⟨capped, hcapped, rfl⟩ := List.mem_map.mp hm
    obtain ⟨turn, -, rfl⟩ := List.mem_map.mp hcapped
    cases turn with
    | toolResult callId result => exact ⟨result, rfl⟩
    | user => cases htool
    | assistant => cases htool
    | assistantToolCalls => cases htool

/-! ## The requests -/

/-- A request of a run, after some rounds. -/
structure KeepsProtocol (msgs : List Message) (rs : List (Round K))
    (request : List ChatMessage) : Prop where
  answered : Answered [] request
  rounds : (∃ said, Message.user said ∈ msgs) →
    wireMessages text (rs.flatMap Round.turns) <:+ request
  bounded : ∀ m ∈ request, m.role = .tool → ∃ content, m.content = some content ∧
    content.utf8ByteSize ≤ maxToolResultChars + toolResultTruncationMarker.utf8ByteSize

theorem keepsProtocol (system : String) (msgs : List Message) (rs : List (Round K)) :
    KeepsProtocol text msgs rs (requestMessages system (wireTurns text msgs rs)) := by
  refine ⟨?_, ?_, ?_⟩
  · obtain ⟨dropped, hcut, hsplits⟩ := (allowed_trim (wireTurns text msgs rs)).cut
    obtain ⟨msgs', rs', -, -, hkept⟩ := kept_turns text hsplits hcut
    have hrequest : requestMessages system (wireTurns text msgs rs) =
        { role := .system, content := some system } ::
          (wireMessages text (msgs'.map .message) ++
            wireMessages text (rs'.flatMap Round.turns)) := by
      unfold requestMessages wireMessages
      rw [hkept, wireTurns, List.map_append, List.map_append, List.map_append]
    rw [hrequest]
    exact ⟨rfl, answered_messages text msgs' _ (answered_rounds text rs')⟩
  · intro huser
    obtain ⟨front, hfront⟩ := rounds_kept text rs huser
    refine ⟨{ role := .system, content := some system } ::
      (front.map capTurn).map turnMessage, ?_⟩
    unfold requestMessages
    rw [← hfront, List.map_append, List.map_append]
    rfl
  · intro m hm htool
    obtain ⟨result, hresult⟩ := content_of_tool hm htool
    exact ⟨_, hresult, utf8ByteSize_boundToolResult result⟩

/-- **The requests of a run.** Whatever the model answers and the calls find, a run is its
messages followed by at most `maxSteps` rounds, each with one result for each of its calls, in
order; what it reports as written is what the results say was written, and nothing where it may
only read. The request after these rounds keeps to the protocol whatever the trim drops of it,
has all of them where there is a question, and no result above the cap. (The request after `n`
rounds of a run is the one at the end of the run with the cap `n`.) -/
theorem requests_keep_protocol [Field K] [LinearOrder K] {cx : Codec}
    (visible : Option (List String)) (allowWrites : Bool) (maxSteps : ℕ) (msgs : List Message)
    (outputs : List (StepOutput K cx)) (system : String) :
    ∃ rs : List (Round K),
      Rounded allowWrites maxSteps ⟨msgs.map .message, []⟩ rs
        (agentLoop visible allowWrites maxSteps msgs outputs).1
        (agentLoop visible allowWrites maxSteps msgs outputs).2 ∧
      KeepsProtocol text msgs rs (requestMessages system
        ((agentLoop visible allowWrites maxSteps msgs outputs).1.conversation.map
          (wireTurn text))) := by
  obtain ⟨rs, hrs⟩ := rounded_rounds visible allowWrites maxSteps ⟨msgs.map .message, []⟩ outputs
  refine ⟨rs, hrs, ?_⟩
  have hconversation : (agentLoop visible allowWrites maxSteps msgs outputs).1.conversation.map
      (wireTurn text) = wireTurns text msgs rs := congrArg (List.map _) hrs.conversation
  rw [hconversation]
  exact keepsProtocol text system msgs rs

end Mycelium.Analysis.AgentRequests
