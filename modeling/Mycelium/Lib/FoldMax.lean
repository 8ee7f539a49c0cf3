import Mathlib.Order.Lattice
import Mathlib.Data.Nat.Basic

/-!
# The maximum of a list of numbers

`COALESCE(MAX(n), 0)` as a fold: it is an upper bound, and it is the number that is one.
-/

set_option autoImplicit false

namespace FoldMax

/-- INTERNAL: the numbers of the list and the first bound are below the maximum. -/
theorem le_foldl_max {l : List ℕ} {init n : ℕ} (h : n ∈ l ∨ n ≤ init) : n ≤ l.foldl max init := by
  induction l generalizing init with
  | nil =>
    rcases h with h | h
    · cases h
    · exact h
  | cons a l ih =>
    rw [List.foldl_cons]
    apply ih
    rcases h with h | h
    · rcases List.mem_cons.mp h with rfl | h
      · exact Or.inr (le_max_right init n)
      · exact Or.inl h
    · exact Or.inr (h.trans (le_max_left init a))

/-- INTERNAL: the maximum of a list, when it is known. -/
theorem foldl_max_eq {l : List ℕ} {init m : ℕ} (hinit : init ≤ m) (hle : ∀ n ∈ l, n ≤ m)
    (hmem : m ∈ l ∨ m = init) : l.foldl max init = m := by
  induction l generalizing init with
  | nil =>
    rcases hmem with h | h
    · cases h
    · exact h.symm
  | cons a l ih =>
    have ha : a ≤ m := hle a List.mem_cons_self
    apply ih (Nat.max_le.mpr ⟨hinit, ha⟩) (fun n hn => hle n (List.mem_cons_of_mem a hn))
    rcases hmem with h | h
    · rcases List.mem_cons.mp h with h | h
      · right
        omega
      · exact .inl h
    · right
      omega

end FoldMax
