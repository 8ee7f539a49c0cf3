import Mathlib.Data.List.Basic
import Mathlib.Data.List.Nodup

/-!
# Working through a list in chunks

`chunks n l` cuts a list into pieces of `n` elements. Rows that are selected by a key,
one chunk of keys after the other, are the rows selected by all keys at once
(`flatMap_filter_perm`), whatever the size of the chunks.
-/

set_option autoImplicit false

namespace Chunks

/-- The pieces, with a bound on their number. -/
def chunksAux {α : Type} (n : ℕ) : ℕ → List α → List (List α)
  | 0, _ => []
  | _ + 1, [] => []
  | fuel + 1, l => l.take n :: chunksAux n fuel (l.drop n)

/-- The length of the list is enough rounds. -/
def chunks {α : Type} (n : ℕ) (l : List α) : List (List α) := chunksAux n l.length l

theorem flatten_chunksAux {α : Type} {n : ℕ} (hn : 0 < n) (fuel : ℕ) (l : List α)
    (hfuel : l.length ≤ fuel) : (chunksAux n fuel l).flatten = l := by
  induction fuel generalizing l with
  | zero =>
    have hnil : l = [] := List.length_eq_zero_iff.mp (Nat.le_zero.mp hfuel)
    simp [chunksAux, hnil]
  | succ fuel ih =>
    cases l with
    | nil => rfl
    | cons a l =>
      have hdrop : ((a :: l).drop n).length ≤ fuel := by
        simp only [List.length_drop, List.length_cons] at hfuel ⊢
        omega
      simp only [chunksAux, List.flatten_cons, ih _ hdrop]
      exact List.take_append_drop n (a :: l)

/-- INTERNAL: chunks put together are the list. -/
theorem flatten_chunks {α : Type} {n : ℕ} (hn : 0 < n) (l : List α) :
    (chunks n l).flatten = l :=
  flatten_chunksAux hn l.length l (Nat.le_refl _)

/-- INTERNAL: the rows with a key in one list and those with a key in another are the
rows with a key in both lists together, when these share no key. -/
theorem filter_append_perm_of_disjoint {α β : Type} [DecidableEq β] (rows : List α)
    (key : α → β) (p : α → Bool) (ks ls : List β) (hdisj : ∀ a ∈ ks, a ∉ ls) :
    ((rows.filter fun r => p r && key r ∈ ks) ++ rows.filter fun r => p r && key r ∈ ls).Perm
      (rows.filter fun r => p r && key r ∈ ks ++ ls) := by
  induction rows with
  | nil => simp
  | cons r rows ih =>
    by_cases hp : p r = true
    · by_cases hin : key r ∈ ks
      · have hout := hdisj _ hin
        have hboth : key r ∈ ks ++ ls := List.mem_append_left _ hin
        simp only [List.filter_cons, hp, hin, hout, hboth, decide_true, decide_false,
          Bool.and_true, Bool.and_false, Bool.false_eq_true, ↓reduceIte, List.cons_append]
        exact List.Perm.cons r ih
      · by_cases hrest : key r ∈ ls
        · have hboth : key r ∈ ks ++ ls := List.mem_append_right _ hrest
          simp only [List.filter_cons, hp, hin, hrest, hboth, decide_true, decide_false,
            Bool.and_true, Bool.and_false, Bool.false_eq_true, ↓reduceIte]
          exact List.perm_middle.trans (List.Perm.cons r ih)
        · have hneither : key r ∉ ks ++ ls := by simp [hin, hrest]
          simp only [List.filter_cons, hin, hrest, hneither, decide_false, Bool.and_false,
            Bool.false_eq_true, ↓reduceIte]
          exact ih
    · simp only [List.filter_cons, hp, Bool.false_and, Bool.false_eq_true, ↓reduceIte]
      exact ih

/-- INTERNAL: selecting the rows whose key is in a chunk, chunk after chunk, selects the
rows whose key is in the list, each once, provided no key is listed twice. -/
theorem flatMap_filter_perm {α β : Type} [DecidableEq β] (rows : List α) (key : α → β)
    (p : α → Bool) (ks : List (List β)) (hks : ks.flatten.Nodup) :
    (ks.flatMap fun chunk => rows.filter fun r => p r && key r ∈ chunk).Perm
      (rows.filter fun r => p r && key r ∈ ks.flatten) := by
  induction ks with
  | nil => simp
  | cons chunk ks ih =>
    rw [List.flatten_cons] at hks
    have hdisj : ∀ a ∈ chunk, a ∉ ks.flatten := by
      intro a ha hb
      exact (List.nodup_append.mp hks).2.2 a ha a hb rfl
    have hrest := ih (List.nodup_append.mp hks).2.1
    rw [List.flatMap_cons, List.flatten_cons]
    exact (List.Perm.append_left _ hrest).trans
      (filter_append_perm_of_disjoint rows key p chunk ks.flatten hdisj)

end Chunks
