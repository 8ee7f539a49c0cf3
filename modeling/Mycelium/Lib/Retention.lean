import Mathlib.Data.List.Sort

/-!
# Lists cut to their first entries

A list kept in order by insertion and cut now and then to its first `n` entries has, at every
moment, the same first `n` entries as the list that was never cut (`take_orderedInsert_congr`).
A table is cut by deleting the rows whose key is not among the first `n`
(`filter_mem_take`), and sorting goes through the deletion (`filter_insertionSort`).
-/

set_option autoImplicit false

namespace Retention

universe u v

variable {α : Type u}

section Insert

variable (r : α → α → Prop) [DecidableRel r]

/-- The first entries after an insertion depend on the first entries before it. -/
theorem take_orderedInsert (a : α) (l : List α) (n : ℕ) :
    ((l.take n).orderedInsert r a).take n = (l.orderedInsert r a).take n := by
  induction l generalizing n with
  | nil => rw [List.take_nil]
  | cons b l ih =>
    cases n with
    | zero => rfl
    | succ n =>
      rw [List.take_succ_cons]
      by_cases hab : r a b
      · have hcut : (b :: l.take n).take n = (b :: l).take n := by
          rw [← List.take_succ_cons, List.take_take, Nat.min_eq_left (Nat.le_succ n)]
        rw [List.orderedInsert_cons_of_le r _ hab, List.orderedInsert_cons_of_le r _ hab,
          List.take_succ_cons, List.take_succ_cons, hcut]
      · rw [List.orderedInsert_of_not_le r _ hab, List.orderedInsert_of_not_le r _ hab,
          List.take_succ_cons, List.take_succ_cons, ih n]

theorem take_orderedInsert_congr {l l' : List α} {n : ℕ} (h : l.take n = l'.take n) (a : α) :
    (l.orderedInsert r a).take n = (l'.orderedInsert r a).take n := by
  rw [← take_orderedInsert r a l, h, take_orderedInsert r a l']

/-- INTERNAL: an entry that goes before the first one goes before all that are kept. -/
theorem orderedInsert_of_forall {a : α} {l : List α} (h : ∀ b ∈ l, r a b) :
    l.orderedInsert r a = a :: l := by
  cases l with
  | nil => rfl
  | cons b l => exact List.orderedInsert_cons_of_le r l (h b List.mem_cons_self)

variable [IsTrans α r]

/-- Deleting goes through an insertion. -/
theorem filter_orderedInsert (p : α → Bool) (a : α) {l : List α} (hsorted : l.Pairwise r) :
    (l.orderedInsert r a).filter p =
      if p a then (l.filter p).orderedInsert r a else l.filter p := by
  induction l with
  | nil =>
    rw [List.orderedInsert_nil, List.filter_nil, List.orderedInsert_nil, List.filter_singleton]
    cases p a
    · rfl
    · rfl
  | cons b l ih =>
    obtain ⟨hfirst, hrest⟩ := List.pairwise_cons.mp hsorted
    by_cases hab : r a b
    · rw [List.orderedInsert_cons_of_le r l hab, List.filter_cons]
      have hall : ∀ c ∈ (b :: l).filter p, r a c := by
        intro c hc
        obtain rfl | hc := List.mem_cons.mp (List.mem_filter.mp hc).1
        · exact hab
        · exact trans_of r hab (hfirst c hc)
      rw [orderedInsert_of_forall r hall]
    · rw [List.orderedInsert_of_not_le r l hab, List.filter_cons, ih hrest, List.filter_cons]
      cases hb : p b
      · rfl
      · cases ha : p a
        · rfl
        · exact (List.orderedInsert_of_not_le r _ hab).symm

variable [Std.Total r]

/-- Deleting goes through sorting. -/
theorem filter_insertionSort (p : α → Bool) (l : List α) :
    (l.insertionSort r).filter p = (l.filter p).insertionSort r := by
  induction l with
  | nil => rfl
  | cons a l ih =>
    rw [List.insertionSort_cons, filter_orderedInsert r p a (List.pairwise_insertionSort r l), ih,
      List.filter_cons]
    cases p a
    · rfl
    · rfl

end Insert

/-- Among entries of different keys the first `n` are those with the keys of the first `n`. -/
theorem filter_mem_take {κ : Type v} [DecidableEq κ] (key : α → κ) {l : List α}
    (hnodup : (l.map key).Nodup) (n : ℕ) :
    l.filter (fun a => key a ∈ (l.take n).map key) = l.take n := by
  have hsplit : ((l.take n).map key ++ (l.drop n).map key).Nodup := by
    rw [← List.map_append, List.take_append_drop]
    exact hnodup
  have hkept : (l.take n).filter (fun a => key a ∈ (l.take n).map key) = l.take n := by
    rw [List.filter_eq_self]
    intro a ha
    exact decide_eq_true (List.mem_map_of_mem ha)
  have hgone : (l.drop n).filter (fun a => key a ∈ (l.take n).map key) = [] := by
    rw [List.filter_eq_nil_iff]
    intro a ha hin
    exact List.disjoint_of_nodup_append hsplit (of_decide_eq_true hin) (List.mem_map_of_mem ha)
  calc l.filter (fun a => key a ∈ (l.take n).map key)
      = (l.take n ++ l.drop n).filter (fun a => key a ∈ (l.take n).map key) := by
        rw [List.take_append_drop]
    _ = l.take n := by rw [List.filter_append, hkept, hgone, List.append_nil]

end Retention
