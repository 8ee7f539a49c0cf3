import Mycelium.Analysis.RestoreReversal

/-!
# A put and the get after it

A put that returns without an error leaves at its path the markdown of the stamped concept
(`ends_put`). The get after it parses that: it gives the concept back, but for the stamps and
the line endings, when the type is not blank, and fails otherwise (`put_get`). The put does
not look at the type.
-/

set_option autoImplicit false

namespace Mycelium.Analysis.PutRoundTrip

open StepSystem
open Mycelium.Model.Text Mycelium.Model.Concepts
open Mycelium.Model.ConceptStore Mycelium.Model.StoreTasks
open Mycelium.Analysis.ConceptRoundTrip Mycelium.Analysis.CallCompletion
open Mycelium.Analysis.RestoreReversal

variable {cx : Codec}

/-- INTERNAL: what a put leaves for the get after it. -/
def Reads (cx : Codec) (c : Concept) (h : Handle) (t : Store) : Prop :=
  ∃ now, t.get cx c.sourcePath =
    if (trim c.frontmatter.conceptType.toList).isEmpty then .error (.parse .missingTypeField)
    else .ok (readBack (stampedConcept h now c))

/-- One put, from any store, for a postcondition that its errors meet. -/
theorem ends_put_or_fails {post : Store → Except StoreError Unit → Prop} (s : Store) (h : Handle)
    (c : Concept) (clock : ℕ → String) (herr : ∀ t e, post t (.error e))
    (hpost : ∀ s' markdown, validPath c.sourcePath = true → isReserved c.sourcePath = false →
      (stampedConcept h (clock 0) c).toMarkdown cx = .ok markdown →
      Put s (stampedConcept h (clock 0) c) markdown s' → post (regenerated s' none) (.ok ())) :
    Ends cx post s ((Call.put c).begin cx h clock) := by
  simp only [Call.begin]
  split
  · exact ends_finished (herr _ _)
  · rename_i hqueue
    simp only [putBatchWithRevision, stampAll_singleton, stamp_eq]
    cases hreserved : isReserved c.sourcePath with
    | true => exact ends_finished (herr _ _)
    | false =>
      simp only [Bool.false_eq_true, if_false]
      cases c.frontmatter.validated cx with
      | error e => exact ends_finished (herr _ _)
      | ok u =>
        have hplace : isQueuePath (stampedConcept h (clock 0) c).sourcePath = false :=
          eq_false_of_ne_true hqueue
        simp only [Except.mapError, Except.map]
        apply ends_next_or_fails (fun t e _ => herr t e) hplace
        intro s' markdown hpath hmarkdown _ hput
        apply ends_step rfl
        intro _ _
        apply ends_regenList_or_fails herr
        exact hpost s' markdown hpath hreserved hmarkdown hput

/-- INTERNAL: what the put of a stamped concept leaves for the get after it. -/
theorem get_of_put (hcx : Faithful cx) {s s' : Store} {h : Handle} {c : Concept}
    {now markdown : String} (hnow : cx.isRfc3339 now = true)
    (hpath : validPath c.sourcePath = true) (hreserved : isReserved c.sourcePath = false)
    (hmarkdown : (stampedConcept h now c).toMarkdown cx = .ok markdown)
    (hput : Put s (stampedConcept h now c) markdown s') :
    (regenerated s' none).get cx c.sourcePath =
      if (trim c.frontmatter.conceptType.toList).isEmpty then .error (.parse .missingTypeField)
      else .ok (readBack (stampedConcept h now c)) := by
  have hfile : (regenerated s' none).files c.sourcePath = some markdown := by
    rw [files_regenerated_of_ordinary s' none hreserved, hput.files]
    exact if_pos rfl
  exact get_of_file hcx (c := stampedConcept h now c) hpath ⟨now, rfl, hnow⟩ hmarkdown hfile

/-- **One put.** -/
theorem ends_put (hcx : Faithful cx) (s : Store) (h : Handle) (c : Concept) {ch : Choice}
    (hch : Clocked cx ch) :
    Ends cx (fun t x => x = .ok () → Reads cx c h t) s ((Call.put c).begin cx h ch.clock) := by
  apply ends_put_or_fails
  · intro t e heq
    cases heq
  · intro s' markdown hpath hreserved hmarkdown hput _
    exact ⟨ch.clock 0, get_of_put hcx (hch 0) hpath hreserved hmarkdown hput⟩

/-- INTERNAL: a put that has returned without an error. -/
theorem reads_of_callRun (hcx : Faithful cx) {s t : State} {i : ℕ} {h : Handle} {c : Concept}
    {ch : Choice} {chs : List Choice} (hch : Clocked cx ch) (hchs : ∀ ch ∈ chs, Clocked cx ch)
    (hrun : exec (step cx) s (callRun i h (.put c) ch chs) = some t)
    (hend : t.tasks i = .finished (.ok ())) : Reads cx c h t.store :=
  post_of_callRun (ends_put hcx s.store h c hch) hchs hrun hend rfl

/-- **The round trip through the store.** After a put that succeeded, from any state and with
any clock, the get of the path gives the concept back exactly when its type is not blank.
SOURCE: concept_store.rs:253-292, 551-565, concept.rs:153-270 -/
theorem put_get (hcx : Faithful cx) {s t : State} {i : ℕ} {h : Handle} {c : Concept} {ch : Choice}
    {chs : List Choice} (hch : Clocked cx ch) (hchs : ∀ ch ∈ chs, Clocked cx ch)
    (hrun : exec (step cx) s (callRun i h (.put c) ch chs) = some t)
    (hend : t.tasks i = .finished (.ok ())) :
    (∃ c', t.store.get cx c.sourcePath = .ok c' ∧ SameButStamps c c') ↔
      (trim c.frontmatter.conceptType.toList).isEmpty = false := by
  obtain ⟨now, hget⟩ := reads_of_callRun hcx hch hchs hrun hend
  constructor
  · rintro ⟨c', hc', -⟩
    rw [hget] at hc'
    split at hc'
    · cases hc'
    · rename_i htype
      exact eq_false_of_ne_true htype
  · intro htype
    rw [htype] at hget
    exact ⟨_, hget, _, _, rfl⟩

/-! ## Two puts -/

set_option maxRecDepth 4000 in
/-- A note whose line ends as Windows has it. -/
theorem put_get_note :
    ∃ t c', exec (step noteCodec) (State.init "user:1") (wholeCall (.put (note "8080\r\n"))) = some t ∧
      t.store.get noteCodec "/port.md" = .ok c' ∧ SameButStamps (note "8080\r\n") c' := by
  obtain ⟨t, hrun, hend⟩ := Option.map_eq_some_iff.mp
    (show ((exec (step noteCodec) (State.init "user:1") (wholeCall (.put (note "8080\r\n")))).map
      succeeded) = some true by decide)
  obtain ⟨c', hget, hsame⟩ := (put_get faithful_noteCodec noteChoice_clocked replicate_clocked hrun
    (task_of_succeeded hend)).mpr (by decide)
  exact ⟨t, c', hrun, hget, hsame⟩

/-- A note without a type. -/
def untyped : Concept where
  frontmatter := {}
  body := "8080"
  sourcePath := "/port.md"

set_option maxRecDepth 4000 in
theorem untyped_accepted :
    ¬ ∀ (cx : Codec) (s t : State) (i : ℕ) (h : Handle) (c : Concept) (ch : Choice)
      (chs : List Choice), Faithful cx → Clocked cx ch → (∀ ch ∈ chs, Clocked cx ch) →
      exec (step cx) s (callRun i h (.put c) ch chs) = some t →
      t.tasks i = .finished (.ok ()) →
      ∃ c', t.store.get cx c.sourcePath = .ok c' ∧ SameButStamps c c' := by
  intro hall
  obtain ⟨t, hrun, hend⟩ := Option.map_eq_some_iff.mp
    (show ((exec (step noteCodec) (State.init "user:1") (wholeCall (.put untyped))).map
      succeeded) = some true by decide)
  obtain ⟨c', hget, -⟩ := hall noteCodec _ t 0 {} untyped noteChoice _ faithful_noteCodec
    noteChoice_clocked replicate_clocked hrun (task_of_succeeded hend)
  obtain ⟨now, hread⟩ := reads_of_callRun faithful_noteCodec noteChoice_clocked replicate_clocked
    hrun (task_of_succeeded hend)
  rw [hread] at hget
  cases hget

end Mycelium.Analysis.PutRoundTrip
