import Mathlib.Data.List.Forall2

/-!
# Programs that change a state and may leave early

A program over a state `σ` that may leave with an error `ε` is a term of
`ExceptT ε (StateM σ)`: what it wrote before it left stays written, as for a function
with `?` after each fallible call. `outcome m s` is what it returns together with the
state it leaves, and the lemmas below evaluate it statement by statement.
-/

set_option autoImplicit false

namespace Fallible

/-- Programs over the state `σ` that return an `α` or leave with an `ε`. -/
abbrev Prog (ε σ α : Type) := ExceptT ε (StateM σ) α

variable {ε σ α β : Type}

/-- What the program returns from `s`, and the state it leaves. -/
def outcome (m : Prog ε σ α) (s : σ) : Except ε α × σ := (m.run).run s

/-- A result that is already there, or the error it is: `?`. -/
def ofExcept {δ : Type} (wrap : δ → ε) : Except δ α → Prog ε σ α
  | .ok a => pure a
  | .error e => throw (wrap e)

@[simp] theorem outcome_pure (a : α) (s : σ) :
    outcome (pure a : Prog ε σ α) s = (.ok a, s) := rfl

@[simp] theorem outcome_throw (e : ε) (s : σ) :
    outcome (throw e : Prog ε σ α) s = (.error e, s) := rfl

@[simp] theorem outcome_modify (f : σ → σ) (s : σ) :
    outcome (modify f : Prog ε σ Unit) s = (.ok (), f s) := rfl

@[simp] theorem outcome_get (s : σ) : outcome (get : Prog ε σ σ) s = (.ok s, s) := rfl

@[simp] theorem outcome_ofExcept_ok {δ : Type} (wrap : δ → ε) (a : α) (s : σ) :
    outcome (ofExcept wrap (.ok a) : Prog ε σ α) s = (.ok a, s) := rfl

@[simp] theorem outcome_ofExcept_error {δ : Type} (wrap : δ → ε) (e : δ) (s : σ) :
    outcome (ofExcept wrap (.error e) : Prog ε σ α) s = (.error (wrap e), s) := rfl

/-- INTERNAL: a sequence runs its second part when the first one returned. -/
theorem outcome_bind (m : Prog ε σ α) (f : α → Prog ε σ β) (s : σ) :
    outcome (m >>= f) s =
      match (outcome m s).1 with
      | .ok a => outcome (f a) (outcome m s).2
      | .error e => (.error e, (outcome m s).2) := by
  simp only [outcome, ExceptT.run_bind, StateT.run_bind]
  cases h : (StateT.run (ExceptT.run m) s : Except ε α × σ) with
  | mk r s' =>
    cases r with
    | ok a => rfl
    | error e => rfl

/-- A sequence goes on from where its first part returned. -/
theorem outcome_bind_ok {m : Prog ε σ α} {f : α → Prog ε σ β} {s s' : σ} {a : α}
    (h : outcome m s = (.ok a, s')) : outcome (m >>= f) s = outcome (f a) s' := by
  rw [outcome_bind, h]

/-- A sequence ends where its first part left. -/
theorem outcome_bind_error {m : Prog ε σ α} {f : α → Prog ε σ β} {s s' : σ} {e : ε}
    (h : outcome m s = (.error e, s')) : outcome (m >>= f) s = (.error e, s') := by
  rw [outcome_bind, h]

/-! ## Invariants of programs -/

/-- The program leads from states with the property to such states, however it leaves. -/
def Keeps (P : σ → Prop) (m : Prog ε σ α) : Prop := ∀ s, P s → P (outcome m s).2

theorem keeps_pure (P : σ → Prop) (a : α) : Keeps P (pure a : Prog ε σ α) := fun _ h => h

theorem keeps_modify {P : σ → Prop} {f : σ → σ} (h : ∀ s, P s → P (f s)) :
    Keeps P (modify f : Prog ε σ Unit) := h

theorem keeps_ofExcept {δ : Type} (P : σ → Prop) (wrap : δ → ε) (r : Except δ α) :
    Keeps P (ofExcept wrap r : Prog ε σ α) := by
  intro s h
  cases r with
  | ok a => exact h
  | error e => exact h

theorem keeps_bind {P : σ → Prop} {m : Prog ε σ α} {f : α → Prog ε σ β} (hm : Keeps P m)
    (hf : ∀ a, Keeps P (f a)) : Keeps P (m >>= f) := by
  intro s h
  have hs := hm s h
  cases hout : outcome m s with
  | mk r s' =>
    rw [hout] at hs
    cases r with
    | ok a =>
      rw [outcome_bind_ok hout]
      exact hf a s' hs
    | error e =>
      rw [outcome_bind_error hout]
      exact hs

/-! ## Results of a list -/

/-- A list of calls that all return: the results are those of the calls, in their order. -/
theorem mapM_ok_iff {f : α → Except ε β} {l : List α} {results : List β} :
    l.mapM f = .ok results ↔ List.Forall₂ (fun a b => f a = .ok b) l results := by
  induction l generalizing results with
  | nil =>
    rw [List.mapM_nil, List.forall₂_nil_left_iff]
    exact ⟨fun h => (Except.ok.inj h).symm, fun h => congrArg Except.ok h.symm⟩
  | cons a l ih =>
    rw [List.mapM_cons, List.forall₂_cons_left_iff]
    constructor
    · intro h
      cases hfirst : f a with
      | error e =>
        rw [hfirst] at h
        cases h
      | ok b =>
        cases hrest : l.mapM f with
        | error e =>
          rw [hfirst, hrest] at h
          cases h
        | ok rest =>
          rw [hfirst, hrest] at h
          exact ⟨b, rest, rfl, ih.mp hrest, (Except.ok.inj h).symm⟩
    · rintro ⟨b, rest, hfirst, hrest, rfl⟩
      rw [hfirst, ih.mpr hrest]
      rfl

/-- Each call has its result there, and nothing else is. -/
theorem of_mapM_ok {f : α → Except ε β} {l : List α} {results : List β}
    (h : l.mapM f = .ok results) :
    (∀ a ∈ l, ∃ b ∈ results, f a = .ok b) ∧ ∀ b ∈ results, ∃ a ∈ l, f a = .ok b := by
  have hall := mapM_ok_iff.mp h
  clear h
  induction hall with
  | nil => exact ⟨fun _ ha => absurd ha List.not_mem_nil, fun _ hb => absurd hb List.not_mem_nil⟩
  | @cons a b l rest hfirst _ ih =>
    constructor
    · intro x hx
      obtain rfl | hx := List.mem_cons.mp hx
      · exact ⟨b, List.mem_cons_self, hfirst⟩
      · obtain ⟨y, hy, hxy⟩ := ih.1 x hx
        exact ⟨y, List.mem_cons_of_mem _ hy, hxy⟩
    · intro y hy
      obtain rfl | hy := List.mem_cons.mp hy
      · exact ⟨a, List.mem_cons_self, hfirst⟩
      · obtain ⟨x, hx, hxy⟩ := ih.2 y hy
        exact ⟨x, List.mem_cons_of_mem _ hx, hxy⟩

/-- The error of a list of calls is the error of one of them. -/
theorem of_mapM_error {f : α → Except ε β} {l : List α} {e : ε} (h : l.mapM f = .error e) :
    ∃ a ∈ l, f a = .error e := by
  induction l with
  | nil => cases h
  | cons a l ih =>
    rw [List.mapM_cons] at h
    cases hfirst : f a with
    | error e' =>
      rw [hfirst] at h
      cases h
      exact ⟨a, List.mem_cons_self, hfirst⟩
    | ok b =>
      cases hrest : l.mapM f with
      | error e' =>
        rw [hfirst, hrest] at h
        cases h
        obtain ⟨x, hx, hxe⟩ := ih hrest
        exact ⟨x, List.mem_cons_of_mem _ hx, hxe⟩
      | ok rest =>
        rw [hfirst, hrest] at h
        cases h

/-- The error of a loop is the error of one of its steps. -/
theorem of_foldlM_error {f : β → α → Except ε β} {l : List α} {b : β} {e : ε}
    (h : l.foldlM f b = .error e) : ∃ b', ∃ a ∈ l, f b' a = .error e := by
  induction l generalizing b with
  | nil => cases h
  | cons a l ih =>
    rw [List.foldlM_cons] at h
    cases hfirst : f b a with
    | error e' =>
      rw [hfirst] at h
      cases h
      exact ⟨b, a, List.mem_cons_self, hfirst⟩
    | ok b' =>
      rw [hfirst] at h
      obtain ⟨b'', x, hx, hxe⟩ := ih h
      exact ⟨b'', x, List.mem_cons_of_mem _ hx, hxe⟩

/-! ## Loops that do not fail -/

section Loops

variable {m : Type → Type} [Monad m] [LawfulMonad m]

theorem foldlM_of_pure {f : β → α → m β} {g : β → α → β} {l : List α}
    (h : ∀ b, ∀ a ∈ l, f b a = pure (g b a)) (b : β) : l.foldlM f b = pure (l.foldl g b) := by
  induction l generalizing b with
  | nil => rfl
  | cons a l ih =>
    rw [List.foldlM_cons, h b a List.mem_cons_self, pure_bind, List.foldl_cons]
    exact ih (fun b a ha => h b a (List.mem_cons_of_mem _ ha)) (g b a)

theorem mapM_of_pure {f : α → m β} {g : α → β} {l : List α} (h : ∀ a ∈ l, f a = pure (g a)) :
    l.mapM f = pure (l.map g) := by
  induction l with
  | nil => rfl
  | cons a l ih =>
    rw [List.mapM_cons, h a List.mem_cons_self, ih fun a ha => h a (List.mem_cons_of_mem _ ha),
      pure_bind, pure_bind]
    rfl

end Loops

end Fallible
