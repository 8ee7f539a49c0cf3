import Mathlib.Data.List.Basic

/-!
# Blocks of a list

A list in which some entries are marks and some are bounds. A block is a mark with the
entries after it up to the next mark or bound. `replaceBlocks` puts a fixed block `s :: c` in
the place of each, in one pass from left to right with a flag: the pass is inside a block or
not.

Where `s` is a mark and a bound, and `c` has neither (`Inert`), the blocks that come out are
those that went in, and `replaceBlocks_eq_self_iff` says which lists the pass leaves as they
are. Where `c` has some, a list with a mark grows with each pass (`inert_of_fixed`).
-/

set_option autoImplicit false

namespace Blocks

variable {α : Type} (M H : α → Bool) (s : α) (c : List α)

@[simp] def replaceBlocks : Bool → List α → List α
  | _, [] => []
  | inside, a :: l =>
    if M a then s :: (c ++ replaceBlocks true l)
    else if inside && !H a then replaceBlocks true l
    else a :: replaceBlocks false l

variable {M H s c}

theorem replaceBlocks_of_mark {a : α} (ha : M a = true) (inside : Bool) (l : List α) :
    replaceBlocks M H s c inside (a :: l) = s :: (c ++ replaceBlocks M H s c true l) := by
  rw [replaceBlocks, if_pos ha]

/-- A mark ends what stands before it. -/
theorem replaceBlocks_append_mark {m : α} (hm : M m = true) (inside : Bool) (x y : List α) :
    replaceBlocks M H s c inside (x ++ m :: y) =
      replaceBlocks M H s c inside x ++ s :: (c ++ replaceBlocks M H s c true y) := by
  induction x generalizing inside with
  | nil => exact replaceBlocks_of_mark hm inside y
  | cons a x ih =>
    simp only [List.cons_append, replaceBlocks]
    split
    · rw [ih, List.cons_append, List.append_assoc]
    · split
      · exact ih true
      · rw [ih, List.cons_append]

/-- Entries that are neither marks nor bounds go with their block. -/
theorem replaceBlocks_inside {x : List α} (hx : ∀ a ∈ x, M a = false ∧ H a = false) (y : List α) :
    replaceBlocks M H s c true (x ++ y) = replaceBlocks M H s c true y := by
  induction x with
  | nil => rfl
  | cons a x ih =>
    obtain ⟨hM, hH⟩ := hx a List.mem_cons_self
    rw [List.cons_append, replaceBlocks, hM, hH]
    exact ih fun b hb => hx b (List.mem_cons_of_mem a hb)

theorem replaceBlocks_of_bound {a : α} (hM : M a = false) (hH : H a = true) (inside : Bool)
    (l : List α) : replaceBlocks M H s c inside (a :: l) = a :: replaceBlocks M H s c false l := by
  rw [replaceBlocks, hM, hH]
  simp

/-- Without marks nothing happens. -/
theorem replaceBlocks_of_no_mark {l : List α} (hl : ∀ a ∈ l, M a = false) :
    replaceBlocks M H s c false l = l := by
  induction l with
  | nil => rfl
  | cons a l ih =>
    rw [replaceBlocks, hl a List.mem_cons_self, ih fun b hb => hl b (List.mem_cons_of_mem a hb)]
    rfl

/-- Where a list begins with a mark, a bound or not at all, the flag does not matter. -/
theorem replaceBlocks_congr {l : List α} (hl : ∀ a ∈ l.head?, M a = true ∨ H a = true)
    (inside inside' : Bool) :
    replaceBlocks M H s c inside l = replaceBlocks M H s c inside' l := by
  cases l with
  | nil => rfl
  | cons a l =>
    cases hM : M a with
    | true => rw [replaceBlocks_of_mark hM, replaceBlocks_of_mark hM]
    | false =>
      have hH : H a = true := by
        rcases hl a rfl with ha | ha
        · rw [hM] at ha
          cases ha
        · exact ha
      rw [replaceBlocks_of_bound hM hH, replaceBlocks_of_bound hM hH]

/-- What is left after a block begins with a bound. -/
theorem head_replaceBlocks (hs : H s = true) {l : List α} :
    ∀ a ∈ (replaceBlocks M H s c true l).head?, H a = true := by
  induction l with
  | nil =>
    intro a ha
    cases ha
  | cons b l ih =>
    rw [replaceBlocks]
    split
    · intro a ha
      obtain rfl := Option.some.inj ha
      exact hs
    · split
      · exact ih
      · rename_i hb
        intro a ha
        obtain rfl := Option.some.inj ha
        simpa using hb

theorem mem_replaceBlocks {inside : Bool} {l : List α} {a : α}
    (h : a ∈ replaceBlocks M H s c inside l) : a = s ∨ a ∈ c ∨ a ∈ l := by
  induction l generalizing inside with
  | nil => cases h
  | cons b l ih =>
    have hlater {inside' : Bool} (ha : a ∈ replaceBlocks M H s c inside' l) :
        a = s ∨ a ∈ c ∨ a ∈ b :: l := by
      rcases ih ha with hs | hc | hl
      · exact .inl hs
      · exact .inr (.inl hc)
      · exact .inr (.inr (List.mem_cons_of_mem b hl))
    rw [replaceBlocks] at h
    split at h
    · rcases List.mem_cons.mp h with hs | h
      · exact .inl hs
      · rcases List.mem_append.mp h with hc | h
        · exact .inr (.inl hc)
        · exact hlater h
    · split at h
      · exact hlater h
      · rcases List.mem_cons.mp h with rfl | h
        · exact .inr (.inr List.mem_cons_self)
        · exact hlater h

/-- INTERNAL: the first mark of a list. -/
theorem first_mark {l : List α} (h : ∃ a ∈ l, M a = true) :
    ∃ x m y, l = x ++ m :: y ∧ M m = true ∧ ∀ a ∈ x, M a = false := by
  induction l with
  | nil =>
    obtain ⟨a, ha, -⟩ := h
    cases ha
  | cons a l ih =>
    by_cases ha : M a = true
    · exact ⟨[], a, l, rfl, ha, fun b hb => absurd hb List.not_mem_nil⟩
    · have hrest : ∃ a ∈ l, M a = true := by
        obtain ⟨b, hb, hmark⟩ := h
        rcases List.mem_cons.mp hb with rfl | hb
        · exact absurd hmark ha
        · exact ⟨b, hb, hmark⟩
      obtain ⟨x, m, y, rfl, hm, hx⟩ := ih hrest
      refine ⟨a :: x, m, y, rfl, hm, ?_⟩
      intro b hb
      rcases List.mem_cons.mp hb with rfl | hb
      · exact eq_false_of_ne_true ha
      · exact hx b hb

theorem mem_of_mark {l : List α} (h : ∃ a ∈ l, M a = true) (inside : Bool) :
    s ∈ replaceBlocks M H s c inside l := by
  obtain ⟨x, m, y, rfl, hm, -⟩ := first_mark h
  rw [replaceBlocks_append_mark hm]
  exact List.mem_append_right _ List.mem_cons_self

/-! ## Counts -/

theorem countP_mark (hs : M s = true) (inside : Bool) (l : List α) :
    (replaceBlocks M H s c inside l).countP M = l.countP M * (1 + c.countP M) := by
  induction l generalizing inside with
  | nil => simp [replaceBlocks]
  | cons a l ih =>
    rw [replaceBlocks]
    split
    · rename_i ha
      rw [List.countP_cons_of_pos hs, List.countP_append, ih, List.countP_cons_of_pos ha,
        Nat.add_mul, Nat.one_mul]
      omega
    · rename_i ha
      rw [List.countP_cons_of_neg ha]
      split
      · exact ih true
      · rw [List.countP_cons_of_neg ha, ih]

theorem countP_bound (hs : H s = true) (inside : Bool) (l : List α) :
    (replaceBlocks M H s c inside l).countP H =
      l.countP M * (1 + c.countP H) + l.countP fun a => H a && !M a := by
  induction l generalizing inside with
  | nil => simp [replaceBlocks]
  | cons a l ih =>
    rw [replaceBlocks]
    split
    · rename_i ha
      have hno : ¬ (H a && !M a) = true := by simp [ha]
      rw [List.countP_cons_of_pos hs, List.countP_append, ih, List.countP_cons_of_pos ha,
        List.countP_cons_of_neg (p := fun a => H a && !M a) hno, Nat.add_mul, Nat.one_mul]
      omega
    · rename_i ha
      rw [List.countP_cons_of_neg (p := M) ha]
      split
      · rename_i hskip
        have hno : ¬ (H a && !M a) = true := by
          simp only [Bool.and_eq_true, Bool.not_eq_true'] at hskip
          simp [hskip.2]
        rw [ih, List.countP_cons_of_neg (p := fun a => H a && !M a) hno]
      · rw [List.countP_cons, List.countP_cons, ih]
        simp only [Bool.not_eq_true] at ha
        simp only [ha, Bool.not_false, Bool.and_true]
        omega

theorem countP_bound_le (l : List α) :
    l.countP H ≤ l.countP M + l.countP fun a => H a && !M a := by
  induction l with
  | nil => exact Nat.le_refl 0
  | cons a l ih =>
    rw [List.countP_cons, List.countP_cons, List.countP_cons]
    cases M a <;> cases H a <;> simp <;> omega

/-- Only with a block that has no marks and no bounds can a pass stop growing, also when the
entries are changed before it in a way that it does not see. -/
theorem inert_of_fixed {φ : α → α} (hM : ∀ a, M (φ a) = M a) (hH : ∀ a, H (φ a) = H a)
    (hsM : M s = true) (hsH : H s = true) {inside : Bool} {l : List α}
    (hfixed : replaceBlocks M H s c inside (l.map φ) = l) (hmark : ∃ a ∈ l, M a = true) :
    ∀ a ∈ c, M a = false ∧ H a = false := by
  have hMφ : M ∘ φ = M := funext hM
  have hHφ : H ∘ φ = H := funext hH
  have hbothφ : (fun a => H a && !M a) ∘ φ = fun a => H a && !M a := by
    funext a
    simp only [Function.comp_apply, hM, hH]
  have hpos : 0 < l.countP M := List.countP_pos_iff.mpr hmark
  have hmarks := @countP_mark _ M H s c hsM inside (l.map φ)
  have hbounds := @countP_bound _ M H s c hsH inside (l.map φ)
  rw [hfixed, List.countP_map, hMφ, Nat.mul_add, Nat.mul_one] at hmarks
  rw [hfixed, List.countP_map, List.countP_map, hMφ, hbothφ, Nat.mul_add, Nat.mul_one] at hbounds
  have hle := countP_bound_le (M := M) (H := H) l
  have hnoMark : l.countP M * c.countP M = 0 := by omega
  have hnoBound : l.countP M * c.countP H = 0 := by omega
  have hM0 := (Nat.mul_eq_zero.mp hnoMark).resolve_left (by omega)
  have hH0 := (Nat.mul_eq_zero.mp hnoBound).resolve_left (by omega)
  intro a ha
  exact ⟨eq_false_of_ne_true (List.countP_eq_zero.mp hM0 a ha),
    eq_false_of_ne_true (List.countP_eq_zero.mp hH0 a ha)⟩

/-! ## Lists that the pass leaves as they are -/

/-- A list is split at a mark in one way, given the number of marks before it. -/
theorem split_at_mark {x x' y y' : List α} {m m' : α} (hm : M m = true) (hm' : M m' = true)
    (h : x ++ m :: y = x' ++ m' :: y') (hcount : x.countP M = x'.countP M) :
    x = x' ∧ m = m' ∧ y = y' := by
  induction x generalizing x' with
  | nil =>
    cases x' with
    | nil =>
      obtain ⟨rfl, rfl⟩ := List.cons.inj h
      exact ⟨rfl, rfl, rfl⟩
    | cons a x' =>
      obtain ⟨rfl, -⟩ := List.cons.inj h
      rw [List.countP_cons_of_pos hm] at hcount
      cases hcount
  | cons a x ih =>
    cases x' with
    | nil =>
      obtain ⟨rfl, -⟩ := List.cons.inj h
      rw [List.countP_cons_of_pos hm'] at hcount
      cases hcount
    | cons b x' =>
      obtain ⟨rfl, hrest⟩ := List.cons.inj h
      rw [List.countP_cons, List.countP_cons] at hcount
      obtain ⟨rfl, hmark, hy⟩ := ih hrest (by omega)
      exact ⟨rfl, hmark, hy⟩

variable (M H s c)

/-- Each mark is `s`, and before the next bound or mark stands `c`. -/
def Settled (l : List α) : Prop :=
  ∀ x m y, l = x ++ m :: y → M m = true →
    m = s ∧ ∃ rest, y = c ++ rest ∧ ∀ a ∈ rest.head?, M a = true ∨ H a = true

/-- The fixed block has no mark and no bound in it, and begins with one that is both. -/
structure Inert : Prop where
  mark : M s = true
  bound : H s = true
  block : ∀ a ∈ c, M a = false ∧ H a = false

variable {M H s c}

theorem Inert.countP (h : Inert M H s c) (inside : Bool) (l : List α) :
    (replaceBlocks M H s c inside l).countP M = l.countP M := by
  have hzero : c.countP M = 0 := by
    rw [List.countP_eq_zero]
    intro a ha
    rw [(h.block a ha).1]
    exact Bool.false_ne_true
  rw [countP_mark h.mark, hzero, Nat.add_zero, Nat.mul_one]

theorem Settled.suffix {x y : List α} (h : Settled M H s c (x ++ y)) : Settled M H s c y := by
  intro x' m y' hy hm
  exact h (x ++ x') m y' (by rw [hy, List.append_assoc]) hm

theorem replaceBlocks_of_settled (hinert : Inert M H s c) {l : List α} (h : Settled M H s c l) :
    replaceBlocks M H s c false l = l := by
  by_cases hmark : ∃ a ∈ l, M a = true
  · obtain ⟨x, m, y, hl, hm, hx⟩ := first_mark hmark
    obtain ⟨hms, rest, hy, hhead⟩ := h x m y hl hm
    have hsplit : l = (x ++ s :: c) ++ rest := by
      rw [hl, hms, hy, List.append_assoc, List.cons_append]
    have hlt : rest.length < l.length := by
      rw [hsplit]
      simp only [List.length_append, List.length_cons]
      omega
    have hrest : Settled M H s c rest := by
      rw [hsplit] at h
      exact h.suffix
    have hagain := replaceBlocks_of_settled hinert hrest
    rw [hl, hms, hy, replaceBlocks_append_mark hinert.mark, replaceBlocks_of_no_mark hx,
      replaceBlocks_inside hinert.block, replaceBlocks_congr hhead true false, hagain]
  · apply replaceBlocks_of_no_mark
    intro a ha
    exact eq_false_of_ne_true fun hM => hmark ⟨a, ha, hM⟩
termination_by l.length

/-- The pass leaves a list as it is exactly when all its blocks are settled. -/
theorem replaceBlocks_eq_self_iff (hinert : Inert M H s c) {l : List α} :
    replaceBlocks M H s c false l = l ↔ Settled M H s c l := by
  constructor
  · rintro h x m y rfl hm
    rw [replaceBlocks_append_mark hm] at h
    obtain ⟨-, hmark, hy⟩ := split_at_mark hinert.mark hm h (hinert.countP false x)
    refine ⟨hmark.symm, replaceBlocks M H s c true y, hy.symm, ?_⟩
    intro a ha
    exact .inr (head_replaceBlocks hinert.bound a ha)
  · exact replaceBlocks_of_settled hinert

/-- What stands behind a block, when the pass leaves it: the block had no bound in it. -/
theorem inside_of_fixed (hinert : Inert M H s c) {x y : List α} (hx : ∀ a ∈ x, M a = false)
    (h : replaceBlocks M H s c true (x ++ y) = y) :
    (∀ a ∈ x, H a = false) ∧ replaceBlocks M H s c true y = y := by
  induction x with
  | nil => exact ⟨fun a ha => absurd ha List.not_mem_nil, h⟩
  | cons a x ih =>
    have hMa := hx a List.mem_cons_self
    have hMx : ∀ b ∈ x, M b = false := fun b hb => hx b (List.mem_cons_of_mem a hb)
    cases hHa : H a with
    | false =>
      rw [List.cons_append, replaceBlocks, hMa, hHa] at h
      obtain ⟨hHx, hy⟩ := ih hMx h
      refine ⟨?_, hy⟩
      intro b hb
      rcases List.mem_cons.mp hb with rfl | hb
      · exact hHa
      · exact hHx b hb
    | true =>
      exfalso
      rw [List.cons_append, replaceBlocks_of_bound hMa hHa] at h
      by_cases hmark : ∃ b ∈ y, M b = true
      · -- the first mark of `y` would have to stand further behind
        obtain ⟨p, m, q, rfl, hm, hp⟩ := first_mark hmark
        have hxp : ∀ b ∈ x ++ p, M b = false := by
          intro b hb
          rcases List.mem_append.mp hb with hb | hb
          · exact hMx b hb
          · exact hp b hb
        have hcount (l : List α) (hl : ∀ b ∈ l, M b = false) : l.countP M = 0 := by
          rw [List.countP_eq_zero]
          intro b hb
          rw [hl b hb]
          exact Bool.false_ne_true
        rw [← List.append_assoc, replaceBlocks_append_mark hm, replaceBlocks_of_no_mark hxp,
          ← List.cons_append] at h
        have hzero : (a :: (x ++ p)).countP M = p.countP M := by
          rw [List.countP_cons, hMa, hcount _ hxp, hcount p hp]
          rfl
        have hlength := congrArg List.length (split_at_mark hinert.mark hm h hzero).1
        simp only [List.length_cons, List.length_append] at hlength
        omega
      · have hnone : ∀ b ∈ x ++ y, M b = false := by
          intro b hb
          rcases List.mem_append.mp hb with hb | hb
          · exact hMx b hb
          · exact eq_false_of_ne_true fun hM => hmark ⟨b, hb, hM⟩
        rw [replaceBlocks_of_no_mark hnone] at h
        have hlength := congrArg List.length h
        simp only [List.length_cons, List.length_append] at hlength
        omega

end Blocks
