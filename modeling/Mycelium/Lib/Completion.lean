import Mathlib.Data.List.Basic

/-!
# Programs that run to an end

A program that takes one step at a time, each with a choice from outside, and at some point
has a result. `Completes next result good post s` says that from `s` it gets to a result
whatever good choices are made, and that `post` holds there. It is an inductive definition,
so a proof of it follows the steps of the program, and it says two things: a run that has
a result meets `post` (`Completes.post_of_run`), and every sequence of good choices gets to
one (`Completes.exists_result`). A program that runs inside another is taken out of it by
`Completes.embed`.
-/

set_option autoImplicit false

namespace Completion

universe u v w

variable {σ : Type u} {χ : Type v} {ρ : Type w}

/-- From `s` the program gets to a result, and `post` holds there. -/
inductive Completes (next : σ → χ → σ) (result : σ → Option ρ) (good : χ → Prop)
    (post : σ → ρ → Prop) : σ → Prop
  | done {s : σ} {r : ρ} (hresult : result s = some r) (hpost : post s r) :
      Completes next result good post s
  | step {s : σ} (hresult : result s = none)
      (hnext : ∀ c, good c → Completes next result good post (next s c)) :
      Completes next result good post s

variable {next : σ → χ → σ} {result : σ → Option ρ} {good : χ → Prop} {post post' : σ → ρ → Prop}

theorem Completes.mono (h : ∀ s r, post s r → post' s r) {s : σ}
    (hs : Completes next result good post s) : Completes next result good post' s := by
  induction hs with
  | done hresult hpost => exact .done hresult (h _ _ hpost)
  | step hresult _ ih => exact .step hresult ih

/-- A good choice keeps the program on its way. -/
theorem Completes.advance (habsorb : ∀ s c r, result s = some r → next s c = s) {s : σ}
    (hs : Completes next result good post s) {c : χ} (hc : good c) :
    Completes next result good post (next s c) := by
  cases hs with
  | done hresult hpost =>
    rw [habsorb s c _ hresult]
    exact .done hresult hpost
  | step _ hnext => exact hnext c hc

/-- **A program inside another.** While the inner program runs the outer one takes its steps,
and where the inner one has its result the outer one goes on. -/
theorem Completes.embed {σ' : Type*} {ρ' : Type*} {next' : σ' → χ → σ'}
    {result' : σ' → Option ρ'} {outer : σ' → ρ' → Prop} (f : σ → σ')
    (hrunning : ∀ s, result s = none → result' (f s) = none)
    (hstep : ∀ s c, result s = none → next' (f s) c = f (next s c))
    (hdone : ∀ s r, result s = some r → post s r → Completes next' result' good outer (f s))
    {s : σ} (hs : Completes next result good post s) :
    Completes next' result' good outer (f s) := by
  induction hs with
  | done hresult hpost => exact hdone _ _ hresult hpost
  | @step s hresult _ ih =>
    apply Completes.step (hrunning s hresult)
    intro c hc
    rw [hstep s c hresult]
    exact ih c hc

/-- INTERNAL: a program that has a result stays where it is. -/
theorem foldl_of_result (habsorb : ∀ s c r, result s = some r → next s c = s) {s : σ} {r : ρ}
    (hresult : result s = some r) (cs : List χ) : cs.foldl next s = s := by
  induction cs with
  | nil => rfl
  | cons c cs ih => rw [List.foldl_cons, habsorb s c r hresult, ih]

/-- **A run that has a result meets the postcondition.** -/
theorem Completes.post_of_run (habsorb : ∀ s c r, result s = some r → next s c = s) {s : σ}
    (hs : Completes next result good post s) {cs : List χ} (hgood : ∀ c ∈ cs, good c) {r : ρ}
    (hrun : result (cs.foldl next s) = some r) : post (cs.foldl next s) r := by
  induction hs generalizing cs with
  | @done s r' hresult hpost =>
    rw [foldl_of_result habsorb hresult] at hrun ⊢
    rw [hresult] at hrun
    cases hrun
    exact hpost
  | @step s hresult _ ih =>
    cases cs with
    | nil =>
      rw [List.foldl_nil, hresult] at hrun
      cases hrun
    | cons c cs =>
      rw [List.foldl_cons] at hrun ⊢
      exact ih c (hgood c List.mem_cons_self) (fun d hd => hgood d (List.mem_cons_of_mem c hd)) hrun

/-- **Every sequence of good choices gets to a result.** -/
theorem Completes.exists_result {s : σ} (hs : Completes next result good post s)
    (choices : ℕ → χ) (hgood : ∀ k, good (choices k)) :
    ∃ k r, result (((List.range k).map choices).foldl next s) = some r ∧
      post (((List.range k).map choices).foldl next s) r := by
  induction hs generalizing choices with
  | @done s r hresult hpost => exact ⟨0, r, hresult, hpost⟩
  | @step s hresult _ ih =>
    obtain ⟨k, r, hrun, hpost⟩ := ih (choices 0) (hgood 0) (fun k => choices (k + 1))
      fun k => hgood (k + 1)
    have hshift : ((List.range (k + 1)).map choices).foldl next s =
        ((List.range k).map fun k => choices (k + 1)).foldl next (next s (choices 0)) := by
      rw [List.range_succ_eq_map, List.map_cons, List.foldl_cons, List.map_map]
      rfl
    refine ⟨k + 1, r, ?_, ?_⟩
    · rw [hshift]
      exact hrun
    · rw [hshift]
      exact hpost

end Completion
