import Mathlib.Data.List.Sort
import Mathlib.Data.Prod.Lex
import Mathlib.Order.Monotone.Basic

/-!
# Lists sorted and grouped by a key

A list sorted by a key is determined by its members where the keys are distinct, and a list is
the same, up to order, as its parts by the values of a key. Writing the key in another form
that keeps the order does not change how a list is sorted (`sort_map`, `sortDesc_map`).
-/

set_option autoImplicit false

universe u v u' v'

namespace Grouping

variable {α : Type u} {κ : Type v} (key : α → κ)

/-- The parts of a list by the values of a key are the list. -/
theorem perm_flatMap_filter [DecidableEq κ] {ks : List κ} (hks : ks.Nodup) {l : List α}
    (hl : ∀ a ∈ l, key a ∈ ks) : (ks.flatMap fun k => l.filter fun a => key a = k).Perm l := by
  induction ks generalizing l with
  | nil =>
    cases l with
    | nil => exact List.Perm.refl _
    | cons a l => cases hl a List.mem_cons_self
  | cons k ks ih =>
    obtain ⟨hk, hks⟩ := List.nodup_cons.mp hks
    have hrest : (ks.flatMap fun k' => l.filter fun a => key a = k') =
        ks.flatMap fun k' => (l.filter fun a => key a ≠ k).filter fun a => key a = k' := by
      apply List.flatMap_congr
      intro k' hk'
      rw [List.filter_filter]
      apply List.filter_congr
      intro a _
      by_cases ha : key a = k'
      · have hne : key a ≠ k := by
          rintro rfl
          exact hk (ha ▸ hk')
        simp [ha, ha ▸ hne]
      · simp [ha]
    have hperm := ih hks (l := l.filter fun a => key a ≠ k) <| by
      intro a ha
      obtain ⟨hal, hne⟩ := List.mem_filter.mp ha
      exact (List.mem_cons.mp (hl a hal)).resolve_left (of_decide_eq_true hne)
    rw [List.flatMap_cons, hrest]
    refine (List.Perm.append_left _ hperm).trans ?_
    have hsplit := List.filter_append_perm (fun a => decide (key a = k)) l
    simpa only [ne_eq, decide_not] using hsplit

section Sorted

variable [LinearOrder κ]

/-- The list in the order of the key. -/
def sort (l : List α) : List α := l.insertionSort fun a b => key a ≤ key b

theorem perm_sort (l : List α) : (sort key l).Perm l := List.perm_insertionSort _ l

@[simp] theorem mem_sort {l : List α} {a : α} : a ∈ sort key l ↔ a ∈ l := (perm_sort key l).mem_iff

theorem pairwise_le_sort (l : List α) : (sort key l).Pairwise fun a b => key a ≤ key b := by
  have : Std.Total fun a b : α => key a ≤ key b := ⟨fun a b => le_total (key a) (key b)⟩
  have : IsTrans α fun a b => key a ≤ key b := ⟨fun _ _ _ hab hbc => le_trans hab hbc⟩
  exact List.pairwise_insertionSort (fun a b => key a ≤ key b) l

theorem pairwise_sort {l : List α} (h : (l.map key).Nodup) :
    (sort key l).Pairwise fun a b => key a < key b := by
  have hne := List.pairwise_map.mp (((perm_sort key l).map key).nodup_iff.mpr h)
  exact (pairwise_le_sort key l).imp₂ (fun _ _ => lt_of_le_of_ne) hne

/-- Two sorted lists with the same members. -/
theorem eq_of_pairwise {l l' : List α} (h : l.Pairwise fun a b => key a < key b)
    (h' : l'.Pairwise fun a b => key a < key b) (hmem : ∀ a, a ∈ l ↔ a ∈ l') : l = l' := by
  have hnodup {l : List α} (h : l.Pairwise fun a b => key a < key b) : l.Nodup := by
    apply h.imp
    rintro a b hlt rfl
    exact lt_irrefl _ hlt
  refine List.Perm.eq_of_pairwise ?_ h h' ((List.perm_ext_iff_of_nodup (hnodup h) (hnodup h')).mpr
    hmem)
  intro a b _ _ hab hba
  exact absurd hab (lt_asymm hba)

theorem sort_congr {l l' : List α} (hperm : l.Perm l') (h : (l.map key).Nodup) :
    sort key l = sort key l' := by
  apply eq_of_pairwise key (pairwise_sort key h)
    (pairwise_sort key ((hperm.map key).nodup_iff.mp h))
  intro a
  rw [mem_sort, mem_sort]
  exact hperm.mem_iff

/-- The list in the order of the key, the largest first. -/
def sortDesc (l : List α) : List α := l.insertionSort fun a b => key b ≤ key a

end Sorted

/-- Where the keys are distinct, the member with a key is the one found. -/
theorem find?_eq_some [DecidableEq κ] {l : List α} (hnodup : (l.map key).Nodup) {a : α}
    (ha : a ∈ l) {k : κ} (hk : key a = k) : l.find? (fun b => key b = k) = some a := by
  cases hfind : l.find? fun b => key b = k with
  | none => exact absurd (decide_eq_true hk) (List.find?_eq_none.mp hfind a ha)
  | some b =>
    have hfound := List.find?_some hfind
    have hb : key b = k := of_decide_eq_true hfound
    rw [List.inj_on_of_nodup_map hnodup (List.mem_of_find?_eq_some hfind) ha (hb.trans hk.symm)]

/-! ## Keys in another form -/

section Form

variable {β : Type u'} {κ' : Type v'} [LinearOrder κ] [LinearOrder κ'] (key' : β → κ')
  (g : α → β) {f : κ → κ'}

theorem sort_map (hf : StrictMono f) (hkey : ∀ a, key' (g a) = f (key a)) (l : List α) :
    sort key' (l.map g) = (sort key l).map g := by
  refine (List.map_insertionSort _ _ g l fun a _ b _ => ?_).symm
  rw [hkey, hkey, hf.le_iff_le]

theorem sortDesc_map (hf : StrictMono f) (hkey : ∀ a, key' (g a) = f (key a)) (l : List α) :
    sortDesc key' (l.map g) = (sortDesc key l).map g := by
  refine (List.map_insertionSort _ _ g l fun a _ b _ => ?_).symm
  rw [hkey, hkey, hf.le_iff_le]

theorem sort_comp (hf : StrictMono f) (l : List α) : sort (fun a => f (key a)) l = sort key l := by
  simpa using sort_map key (fun a => f (key a)) id hf (fun _ => rfl) l

theorem sortDesc_comp (hf : StrictMono f) (l : List α) :
    sortDesc (fun a => f (key a)) l = sortDesc key l := by
  simpa using sortDesc_map key (fun a => f (key a)) id hf (fun _ => rfl) l

/-- A second key decides between equal values of the first one, in either form. -/
theorem strictMono_lex {ρ : Type v} [LinearOrder ρ] (hf : StrictMono f) :
    StrictMono fun p : κ ×ₗ ρ => toLex (f (ofLex p).1, (ofLex p).2) := by
  intro p q hlt
  rw [Prod.Lex.lt_iff] at hlt ⊢
  rcases hlt with hfst | ⟨hfst, hsnd⟩
  · exact .inl (hf hfst)
  · exact .inr ⟨congrArg f hfst, hsnd⟩

end Form

end Grouping
