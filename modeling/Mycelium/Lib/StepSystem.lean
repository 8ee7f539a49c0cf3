import Mathlib.Data.Option.Basic
import Mathlib.Data.List.Induction

/-!
# Partial step systems and their runs

A step system is a partial function `step : σ → α → Option σ`: `step s a = none`
when the action `a` is not enabled in `s`. The tasks of a concurrent program are
told apart by their actions, so a list of actions is an interleaving and
`exec step s as` the state it leads to.

`Meets step ok s as` says that every step of the run was taken in a state that
allows it, `ok` being a condition on the state before the step and its action. The
two rules every invariant of a development goes through are `exec_invariant` (over
all runs) and `exec_invariant_of_meets` (over the runs that meet a condition).
-/

set_option autoImplicit false

namespace StepSystem

universe u v

variable {σ : Type u} {α : Type v}

/-- The state after the actions `as`, or `none` as soon as one of them is not enabled. -/
@[simp] def exec (step : σ → α → Option σ) : σ → List α → Option σ
  | s, [] => some s
  | s, a :: as => (step s a).bind fun s' => exec step s' as

/-- Every step of the run along `as` is taken in a state that meets `ok`. -/
def Meets (step : σ → α → Option σ) (ok : σ → α → Prop) : σ → List α → Prop
  | _, [] => True
  | s, a :: as => ok s a ∧
      match step s a with
      | none => True
      | some s' => Meets step ok s' as

instance decidableMeets (step : σ → α → Option σ) (ok : σ → α → Prop)
    [∀ s a, Decidable (ok s a)] : ∀ s as, Decidable (Meets step ok s as)
  | _, [] => isTrue trivial
  | s, a :: as =>
    match hs : step s a with
    | none => decidable_of_iff (ok s a) (by simp [Meets, hs])
    | some s' =>
      have := decidableMeets step ok s' as
      decidable_of_iff (ok s a ∧ Meets step ok s' as) (by simp [Meets, hs])

@[simp] theorem exec_nil (step : σ → α → Option σ) (s : σ) : exec step s [] = some s := rfl

/-- INTERNAL: a run over a cons takes its first step and then runs on. -/
theorem exec_cons_eq_some {step : σ → α → Option σ} {s t : σ} {a : α} {as : List α} :
    exec step s (a :: as) = some t ↔ ∃ s', step s a = some s' ∧ exec step s' as = some t := by
  simp only [exec, Option.bind_eq_some_iff]

/-- INTERNAL: a run over an append is one run after the other. -/
theorem exec_append (step : σ → α → Option σ) (s : σ) (as bs : List α) :
    exec step s (as ++ bs) = (exec step s as).bind fun s' => exec step s' bs := by
  induction as generalizing s with
  | nil => rfl
  | cons a as ih =>
    simp only [List.cons_append, exec, Option.bind_assoc]
    congr 1
    funext s'
    exact ih s'

/-- INTERNAL: a run goes on by an enabled step. -/
theorem exec_snoc {step : σ → α → Option σ} {s s' t : σ} {as : List α} {a : α}
    (hrun : exec step s as = some s') (hstep : step s' a = some t) :
    exec step s (as ++ [a]) = some t := by
  rw [exec_append, hrun]
  simp only [Option.bind_some, exec, hstep]

/-- INTERNAL: and meets a condition that its last state meets. -/
theorem meets_snoc {step : σ → α → Option σ} {ok : σ → α → Prop} {s s' : σ} {as : List α} {a : α}
    (hrun : exec step s as = some s') (hmeets : Meets step ok s as) (hok : ok s' a) :
    Meets step ok s (as ++ [a]) := by
  induction as generalizing s with
  | nil =>
    simp only [exec_nil, Option.some.injEq] at hrun
    subst hrun
    refine ⟨hok, ?_⟩
    split
    · trivial
    · trivial
  | cons b as ih =>
    obtain ⟨s₁, hs, hrest⟩ := exec_cons_eq_some.mp hrun
    have hmeets' := hmeets.2
    rw [hs] at hmeets'
    refine ⟨hmeets.1, ?_⟩
    rw [hs]
    exact ih hrest hmeets'

/-- **The invariant rule under a condition**: what holds at the start and is kept by
every step that meets `ok` holds at the end of every run whose steps all do. -/
theorem exec_invariant_of_meets {step : σ → α → Option σ} {ok : σ → α → Prop}
    (Inv : σ → Prop)
    (hstep : ∀ s a s', Inv s → ok s a → step s a = some s' → Inv s')
    {s t : σ} {as : List α} (h0 : Inv s) (hrun : exec step s as = some t)
    (hok : Meets step ok s as) : Inv t := by
  induction as generalizing s with
  | nil =>
    simp only [exec_nil, Option.some.injEq] at hrun
    exact hrun ▸ h0
  | cons a as ih =>
    obtain ⟨s', hs, hrest⟩ := exec_cons_eq_some.mp hrun
    have hok' : Meets step ok s' as := by
      have := hok.2
      rwa [hs] at this
    exact ih (hstep s a s' h0 hok.1 hs) hrest hok'

/-- INTERNAL: a run over an append meets a condition when both of its parts do. -/
theorem meets_append {step : σ → α → Option σ} {ok : σ → α → Prop} {s s' : σ} {as bs : List α}
    (hrun : exec step s as = some s') (h : Meets step ok s (as ++ bs)) :
    Meets step ok s as ∧ Meets step ok s' bs := by
  induction as generalizing s with
  | nil =>
    simp only [exec_nil, Option.some.injEq] at hrun
    exact ⟨trivial, hrun ▸ h⟩
  | cons a as ih =>
    obtain ⟨s₁, hs, hrest⟩ := exec_cons_eq_some.mp hrun
    have hmeets := h.2
    rw [hs] at hmeets
    obtain ⟨hfirst, hlast⟩ := ih hrest hmeets
    refine ⟨⟨h.1, ?_⟩, hlast⟩
    rw [hs]
    exact hfirst

/-- INTERNAL: every run meets the condition that allows everything. -/
theorem meets_of_forall {step : σ → α → Option σ} {ok : σ → α → Prop}
    (h : ∀ s a, ok s a) (s : σ) (as : List α) : Meets step ok s as := by
  induction as generalizing s with
  | nil => trivial
  | cons a as ih =>
    refine ⟨h s a, ?_⟩
    cases step s a with
    | none => trivial
    | some s' => exact ih s'

/-- INTERNAL: a run that meets a condition meets every weaker one. -/
theorem meets_mono {step : σ → α → Option σ} {ok ok' : σ → α → Prop}
    (h : ∀ s a, ok s a → ok' s a) {s : σ} {as : List α} (hmeets : Meets step ok s as) :
    Meets step ok' s as := by
  induction as generalizing s with
  | nil => trivial
  | cons a as ih =>
    refine ⟨h s a hmeets.1, ?_⟩
    have hrest := hmeets.2
    cases hs : step s a with
    | none => trivial
    | some s' =>
      rw [hs] at hrest
      exact ih hrest

/-- INTERNAL: a condition on the actions alone joins one on the states. -/
theorem meets_and_of_forall {step : σ → α → Option σ} {ok : σ → α → Prop} {p : α → Prop} {s : σ}
    {as : List α} (hmeets : Meets step ok s as) (h : ∀ a ∈ as, p a) :
    Meets step (fun s a => ok s a ∧ p a) s as := by
  induction as generalizing s with
  | nil => trivial
  | cons a as ih =>
    refine ⟨⟨hmeets.1, h a List.mem_cons_self⟩, ?_⟩
    have hrest := hmeets.2
    cases hs : step s a with
    | none => trivial
    | some s' =>
      rw [hs] at hrest
      exact ih hrest fun b hb => h b (List.mem_cons_of_mem a hb)

/-- Two conditions that agree where an invariant holds are met by the same runs. -/
theorem meets_congr_of_invariant {step : σ → α → Option σ} {ok ok' : σ → α → Prop} (Inv : σ → Prop)
    (hstep : ∀ s a s', Inv s → step s a = some s' → Inv s')
    (hiff : ∀ s a, Inv s → (ok s a ↔ ok' s a)) {s : σ} {as : List α} (h0 : Inv s) :
    Meets step ok s as ↔ Meets step ok' s as := by
  induction as generalizing s with
  | nil => exact Iff.rfl
  | cons a as ih =>
    apply and_congr (hiff s a h0)
    cases hs : step s a with
    | none => exact Iff.rfl
    | some s' => exact ih (hstep s a s' h0 hs)

theorem meets_take {step : σ → α → Option σ} {ok : σ → α → Prop} {s : σ} {as : List α}
    (h : Meets step ok s as) (n : ℕ) : Meets step ok s (as.take n) := by
  induction as generalizing s n with
  | nil =>
    rw [List.take_nil]
    trivial
  | cons a as ih =>
    cases n with
    | zero => trivial
    | succ n =>
      refine ⟨h.1, ?_⟩
      have hrest := h.2
      cases hs : step s a with
      | none => trivial
      | some s' =>
        rw [hs] at hrest
        exact ih hrest n

/-- **The exact condition of a property**: when a step against `ok` is enabled and leads
out of `Good` wherever an invariant holds, the runs that stay in `Good` meet `ok`. -/
theorem meets_of_forall_take_of_invariant {step : σ → α → Option σ} {ok : σ → α → Prop}
    (Inv Good : σ → Prop) (hstep : ∀ s a s', Inv s → step s a = some s' → Inv s')
    (hbad : ∀ s a, Inv s → ¬ ok s a → ∃ s', step s a = some s' ∧ ¬ Good s') {s : σ} {as : List α}
    (h0 : Inv s) (hgood : ∀ n t, exec step s (as.take n) = some t → Good t) :
    Meets step ok s as := by
  induction as generalizing s with
  | nil => trivial
  | cons a as ih =>
    have hok : ok s a := by
      by_contra hnot
      obtain ⟨s', hs, hs'⟩ := hbad s a h0 hnot
      have hrun : exec step s ((a :: as).take 1) = some s' := by
        simp only [List.take_succ_cons, List.take_zero, exec, hs, Option.bind_some]
      exact hs' (hgood 1 s' hrun)
    refine ⟨hok, ?_⟩
    cases hs : step s a with
    | none => trivial
    | some s' =>
      apply ih (hstep s a s' h0 hs)
      intro n t hrun
      apply hgood (n + 1) t
      simp only [List.take_succ_cons, exec, hs, Option.bind_some, hrun]

/-- INTERNAL: the same without an invariant. -/
theorem meets_of_forall_take {step : σ → α → Option σ} {ok : σ → α → Prop} (Good : σ → Prop)
    (hbad : ∀ s a, ¬ ok s a → ∃ s', step s a = some s' ∧ ¬ Good s') {s : σ} {as : List α}
    (hgood : ∀ n t, exec step s (as.take n) = some t → Good t) : Meets step ok s as :=
  meets_of_forall_take_of_invariant (fun _ => True) Good (fun _ _ _ _ _ => trivial)
    (fun s a _ hnot => hbad s a hnot) trivial hgood

/-- **The invariant rule**: what holds at the start and is kept by every step holds at
the end of every run. -/
theorem exec_invariant {step : σ → α → Option σ} (Inv : σ → Prop)
    (hstep : ∀ s a s', Inv s → step s a = some s' → Inv s')
    {s t : σ} {as : List α} (h0 : Inv s) (hrun : exec step s as = some t) : Inv t :=
  exec_invariant_of_meets Inv (fun s a s' hi _ hs => hstep s a s' hi hs) h0 hrun
    (meets_of_forall (fun _ _ => trivial) s as : Meets step (fun _ _ => True) s as)

/-- **The invariant rule for traces**: the same for a property of the state that also speaks
of the actions so far. -/
theorem exec_trace_invariant {step : σ → α → Option σ} {s₀ : σ} (Inv : List α → σ → Prop)
    (h0 : Inv [] s₀)
    (hstep : ∀ as s a s', exec step s₀ as = some s → Inv as s → step s a = some s' →
      Inv (as ++ [a]) s')
    {as : List α} {t : σ} (hrun : exec step s₀ as = some t) : Inv as t := by
  induction as using List.reverseRecOn generalizing t with
  | nil =>
    simp only [exec_nil, Option.some.injEq] at hrun
    exact hrun ▸ h0
  | append_singleton as a ih =>
    rw [exec_append, Option.bind_eq_some_iff] at hrun
    obtain ⟨s, hs, hlast⟩ := hrun
    obtain ⟨s', hs', hend⟩ := exec_cons_eq_some.mp hlast
    simp only [exec_nil, Option.some.injEq] at hend
    subst hend
    exact hstep as s a s' hs (ih hs) hs'

/-! ## Counting along a run -/

/-- How many steps along the actions are taken where `p` holds. -/
def countAlong (step : σ → α → Option σ) (p : σ → α → Bool) : σ → List α → ℕ
  | _, [] => 0
  | s, a :: as => (p s a).toNat +
      match step s a with
      | none => 0
      | some s' => countAlong step p s' as

/-- INTERNAL: the last step of a run counts if `p` holds before it. -/
theorem countAlong_snoc {step : σ → α → Option σ} (p : σ → α → Bool) {s s' : σ} {as : List α}
    (a : α) (hrun : exec step s as = some s') :
    countAlong step p s (as ++ [a]) = countAlong step p s as + (p s' a).toNat := by
  induction as generalizing s with
  | nil =>
    simp only [exec_nil, Option.some.injEq] at hrun
    subst hrun
    simp only [List.nil_append, countAlong, Nat.zero_add]
    split
    · rfl
    · rfl
  | cons b as ih =>
    obtain ⟨s₁, hs, hrest⟩ := exec_cons_eq_some.mp hrun
    have hcount := ih hrest
    simp only [List.cons_append, countAlong, hs]
    rw [hcount, Nat.add_assoc]

/-! ## A history along a run -/

/-- The same system with a history: what each step notes, newest first. -/
def recorded {β : Type*} (step : σ → α → Option σ) (note : σ → α → List β) (s : σ × List β)
    (a : α) : Option (σ × List β) :=
  (step s.1 a).map fun s' => (s', note s.1 a ++ s.2)

theorem recorded_eq_some {β : Type*} {step : σ → α → Option σ} {note : σ → α → List β}
    {s t : σ × List β} {a : α} :
    recorded step note s a = some t ↔ step s.1 a = some t.1 ∧ t.2 = note s.1 a ++ s.2 := by
  unfold recorded
  rw [Option.map_eq_some_iff]
  constructor
  · rintro ⟨s', hs, rfl⟩
    exact ⟨hs, rfl⟩
  · rintro ⟨hs, ht⟩
    exact ⟨t.1, hs, by rw [← ht]⟩

/-- Keeping a history changes no run. -/
theorem exec_recorded {β : Type*} (step : σ → α → Option σ) (note : σ → α → List β)
    (s : σ × List β) (as : List α) :
    (exec (recorded step note) s as).map Prod.fst = exec step s.1 as := by
  induction as generalizing s with
  | nil => rfl
  | cons a as ih =>
    simp only [exec, recorded]
    cases hs : step s.1 a with
    | none => rfl
    | some s' => exact ih (s', note s.1 a ++ s.2)

/-- Every event of a history, newest first, is justified by the events before it. -/
def Justified {β : Type*} (ok : β → List β → Prop) : List β → Prop
  | [] => True
  | e :: history => ok e history ∧ Justified ok history

theorem Justified.append_right {β : Type*} {ok : β → List β → Prop} {later earlier : List β}
    (h : Justified ok (later ++ earlier)) : Justified ok earlier := by
  induction later with
  | nil => exact h
  | cons l later ih => exact ih h.2

/-- INTERNAL: an event that is there has its grounds there. -/
theorem Justified.of_mem {β : Type*} {ok : β → List β → Prop} {history : List β} {e : β}
    (h : Justified ok history) (he : e ∈ history) :
    ∃ earlier, earlier ⊆ history ∧ ok e earlier := by
  obtain ⟨later, earlier, rfl⟩ := List.append_of_mem he
  refine ⟨earlier, ?_, h.append_right.1⟩
  exact fun x hx => List.mem_append_right later (List.mem_cons_of_mem e hx)

end StepSystem
