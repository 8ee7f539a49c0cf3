import Mathlib.Data.List.Infix
import Mathlib.Data.List.TakeDrop

/-!
# The first place of a list where another one stands

`first needle hay` is where `needle` first stands in `hay`. Behind a text in which it does not
begin it is found at the end of that text (`first_append`), and it does not begin in a text that
is closed by letters the needle does not have (`not_begins_of_closed`).
-/

set_option autoImplicit false

namespace FirstMatch

universe u

variable {α : Type u}

/-- The needle begins nowhere in the text, when `rest` stands behind it. -/
def Clean (needle text rest : List α) : Prop :=
  ∀ k < text.length, ¬ needle <+: (text ++ rest).drop k

section First

variable [DecidableEq α]

def first (needle : List α) : List α → Option ℕ
  | [] => if needle = [] then some 0 else none
  | a :: as =>
    if needle.isPrefixOf (a :: as) then some 0 else (first needle as).map (· + 1)

theorem first_of_prefix {needle hay : List α} (h : needle <+: hay) : first needle hay = some 0 := by
  cases hay with
  | nil => rw [first, if_pos (List.prefix_nil.mp h)]
  | cons a as => rw [first, if_pos (List.isPrefixOf_iff_prefix.mpr h)]

/-- INTERNAL: what is found leaves room for the needle. -/
theorem length_le_of_first {needle hay : List α} {n : ℕ} (h : first needle hay = some n) :
    n + needle.length ≤ hay.length := by
  induction hay generalizing n with
  | nil =>
    unfold first at h
    split at h
    · rename_i hnil
      cases h
      rw [hnil]
      exact Nat.le_refl 0
    · cases h
  | cons a as ih =>
    unfold first at h
    split at h
    · rename_i hprefix
      cases h
      rw [Nat.zero_add]
      exact (List.isPrefixOf_iff_prefix.mp hprefix).length_le
    · obtain ⟨m, hm, rfl⟩ := Option.map_eq_some_iff.mp h
      have hrest := ih hm
      rw [List.length_cons]
      omega

instance (needle text rest : List α) : Decidable (Clean needle text rest) :=
  inferInstanceAs (Decidable (∀ k < text.length, ¬ needle <+: (text ++ rest).drop k))

theorem first_append {needle text rest : List α} (hclean : Clean needle text rest)
    (hrest : needle <+: rest) : first needle (text ++ rest) = some text.length := by
  induction text with
  | nil => exact first_of_prefix hrest
  | cons a text ih =>
    have hhead : ¬ needle.isPrefixOf (a :: (text ++ rest)) = true := by
      intro hprefix
      exact hclean 0 (Nat.succ_pos _) (List.isPrefixOf_iff_prefix.mp hprefix)
    have htail : Clean needle text rest := fun k hk => hclean (k + 1) (Nat.succ_lt_succ hk)
    rw [List.cons_append, first, if_neg hhead, ih htail]
    rfl

end First

/-- INTERNAL: whether it begins in the text depends on as much of the rest as the needle has
letters. -/
theorem Clean.of_prefix {needle text rest : List α} (h : Clean needle text rest)
    (hlen : needle.length ≤ rest.length) (more : List α) : Clean needle text (rest ++ more) := by
  intro k hk hprefix
  apply h k hk
  rw [← List.append_assoc, List.drop_append_of_le_length (by rw [List.length_append]; omega)]
    at hprefix
  refine List.prefix_of_prefix_length_le hprefix (List.prefix_append _ more) ?_
  rw [List.length_drop, List.length_append]
  omega

/-- A text without the needle, closed by letters that the needle does not have. -/
theorem clean_of_closed {needle text closing : List α} (hneedle : needle ≠ [])
    (htext : ¬ needle <:+: text) (hclosing : ∀ a ∈ closing, a ∉ needle) (hne : closing ≠ [])
    (rest : List α) : Clean needle (text ++ closing) rest := by
  intro k hk hprefix
  rw [List.length_append] at hk
  obtain ⟨a, needle', rfl⟩ := List.exists_cons_of_ne_nil hneedle
  rcases Nat.lt_or_ge text.length k with hafter | hin
  · -- it begins with one of the closing letters
    obtain ⟨j, rfl⟩ := Nat.exists_eq_add_of_lt hafter
    have hj : j + 1 < closing.length := by omega
    rw [List.append_assoc, Nat.add_assoc, List.drop_append, List.drop_of_length_le (by omega),
      List.nil_append, List.drop_append_of_le_length (by omega), List.drop_eq_getElem_cons (by omega)]
      at hprefix
    obtain ⟨ha, -⟩ := List.cons_prefix_cons.mp hprefix
    exact hclosing a (ha ▸ List.getElem_mem _) List.mem_cons_self
  · rw [List.append_assoc, List.drop_append_of_le_length hin] at hprefix
    obtain ⟨tail, htail⟩ := hprefix
    have hinfix : ¬ a :: needle' <:+: text.drop k := fun h =>
      htext (h.trans (List.drop_suffix k text).isInfix)
    obtain ⟨m, hm, -⟩ | ⟨m, hm, hrest⟩ := List.append_eq_append_iff.mp htail
    · rw [hm] at hinfix
      exact hinfix (List.prefix_append _ m).isInfix
    · cases m with
      | nil =>
        rw [List.append_nil] at hm
        rw [hm] at hinfix
        exact hinfix (List.infix_refl _)
      | cons c m =>
        obtain ⟨c', closing', rfl⟩ := List.exists_cons_of_ne_nil hne
        obtain ⟨rfl, -⟩ := List.cons.inj hrest
        apply hclosing c' List.mem_cons_self
        rw [hm]
        exact List.mem_append_right _ List.mem_cons_self

end FirstMatch
