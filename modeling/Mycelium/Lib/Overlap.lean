import Mathlib.Data.List.Pairwise
import Mathlib.Order.Basic

/-!
# A replay and a live tail that overlap

A reader that subscribes to a log before it takes a snapshot of it sees the entries in
between twice: once in the replay of the snapshot, once live. It drops what it has already
seen by key (`firstBy`). If the replay is in order, the tail is in order, and every entry
of the tail is in the replay or after all of it, then what is left is in order
(`firstBy_pairwise`), and nothing is missing from it (`exists_mem_firstBy`).
-/

set_option autoImplicit false

namespace Overlap

universe u v

variable {α : Type u} {κ : Type v} [DecidableEq κ] (key : α → κ)

/-- The entries whose key has not come before, `seen` being the keys so far. -/
def firstBy (seen : List κ) : List α → List α
  | [] => []
  | a :: as => if key a ∈ seen then firstBy seen as else a :: firstBy (key a :: seen) as

theorem firstBy_cons (seen : List κ) (a : α) (as : List α) :
    firstBy key seen (a :: as) =
      if key a ∈ seen then firstBy key seen as else a :: firstBy key (key a :: seen) as := rfl

/-- INTERNAL: only which keys were seen matters. -/
theorem firstBy_congr {seen seen' : List κ} (h : ∀ k, k ∈ seen ↔ k ∈ seen') (as : List α) :
    firstBy key seen as = firstBy key seen' as := by
  induction as generalizing seen seen' with
  | nil => rfl
  | cons a as ih =>
    rw [firstBy_cons, firstBy_cons]
    by_cases ha : key a ∈ seen
    · rw [if_pos ha, if_pos ((h _).mp ha)]
      exact ih h
    · rw [if_neg ha, if_neg (fun ha' => ha ((h _).mpr ha'))]
      congr 1
      apply ih
      intro k
      rw [List.mem_cons, List.mem_cons, h k]

/-- INTERNAL: the rest is read with the keys of the first part seen. -/
theorem firstBy_append (seen : List κ) (as bs : List α) :
    firstBy key seen (as ++ bs) = firstBy key seen as ++ firstBy key (as.map key ++ seen) bs := by
  induction as generalizing seen with
  | nil => rfl
  | cons a as ih =>
    rw [List.cons_append, firstBy_cons, firstBy_cons]
    by_cases ha : key a ∈ seen
    · rw [if_pos ha, if_pos ha, ih]
      congr 1
      apply firstBy_congr
      intro k
      simp only [List.map_cons, List.cons_append, List.mem_cons]
      constructor
      · exact Or.inr
      · rintro (rfl | hk)
        · exact List.mem_append_right _ ha
        · exact hk
    · rw [if_neg ha, if_neg ha, ih, List.cons_append]
      congr 2
      apply firstBy_congr
      intro k
      simp only [List.map_cons, List.cons_append, List.mem_cons, List.mem_append]
      rw [or_left_comm]

/-- INTERNAL: what is kept is in the order it came in. -/
theorem firstBy_sublist (seen : List κ) (as : List α) : (firstBy key seen as).Sublist as := by
  induction as generalizing seen with
  | nil => exact List.Sublist.refl _
  | cons a as ih =>
    rw [firstBy_cons]
    split
    · exact (ih seen).cons a
    · exact (ih _).cons_cons a

/-- INTERNAL: nothing that was seen is kept. -/
theorem not_mem_of_mem_firstBy {seen : List κ} {as : List α} {a : α}
    (h : a ∈ firstBy key seen as) : key a ∉ seen := by
  induction as generalizing seen with
  | nil => cases h
  | cons b as ih =>
    rw [firstBy_cons] at h
    split at h
    · exact ih h
    · rename_i hb
      rcases List.mem_cons.mp h with rfl | h
      · exact hb
      · intro ha
        exact ih h (List.mem_cons_of_mem _ ha)

/-- Every key that comes is kept with one of its entries, unless it was seen. -/
theorem exists_mem_firstBy {seen : List κ} {as : List α} {k : κ} (h : k ∈ as.map key)
    (hseen : k ∉ seen) : ∃ a ∈ firstBy key seen as, key a = k := by
  induction as generalizing seen with
  | nil => cases h
  | cons b as ih =>
    rw [firstBy_cons]
    by_cases hk : k = key b
    · subst hk
      rw [if_neg hseen]
      exact ⟨b, List.mem_cons_self, rfl⟩
    · have htail : k ∈ as.map key := by
        rw [List.map_cons, List.mem_cons] at h
        exact h.resolve_left hk
      split
      · exact ih htail hseen
      · have hseen' : k ∉ key b :: seen := by
          rw [List.mem_cons, not_or]
          exact ⟨hk, hseen⟩
        obtain ⟨a, ha, hka⟩ := ih htail hseen'
        exact ⟨a, List.mem_cons_of_mem _ ha, hka⟩

/-- **A replay followed by a tail.** Entries with `p` come out in order when replay and
tail are in order and every such entry of the tail is in the replay or after all of it. -/
theorem firstBy_pairwise [LT κ] (p : α → Prop) {replay tail : List α}
    (hreplay : replay.Pairwise fun a b => key a < key b)
    (htail : tail.Pairwise fun a b => key a < key b)
    (h : ∀ b ∈ tail, p b → key b ∈ replay.map key ∨ ∀ a ∈ replay, key a < key b) :
    (firstBy key [] (replay ++ tail)).Pairwise fun a b => p b → key a < key b := by
  rw [firstBy_append, List.append_nil, List.pairwise_append]
  refine ⟨?_, ?_, ?_⟩
  · apply (hreplay.sublist (firstBy_sublist key [] replay)).imp
    intro a b hab _
    exact hab
  · apply (htail.sublist (firstBy_sublist key _ tail)).imp
    intro a b hab _
    exact hab
  · intro a ha b hb hp
    have hmem : a ∈ replay := (firstBy_sublist key [] replay).subset ha
    have hnew : key b ∉ replay.map key := not_mem_of_mem_firstBy key hb
    have htail' : b ∈ tail := (firstBy_sublist key _ tail).subset hb
    rcases h b htail' hp with hdup | hafter
    · exact absurd hdup hnew
    · exact hafter a hmem

end Overlap
