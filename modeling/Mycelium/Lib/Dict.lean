import Mathlib.Algebra.BigOperators.Group.List.Basic
import Mathlib.Data.List.AList

/-!
# Dictionaries

A dictionary is an association list with distinct keys (`AList`) whose values have one
type. The operations are those of a hash map that Mathlib's `AList` lacks: an update that
starts from a default, a map over the values, the removal of the values that fail a test,
and the accumulation of a list of weighted keys. Each comes with the equation of its
`lookup`.
-/

set_option autoImplicit false

universe u v w

abbrev Dict (κ : Type u) (ν : Type v) := AList (fun _ : κ => ν)

namespace Dict

variable {κ : Type u} {ν : Type v} {μ : Type w} [DecidableEq κ]

/-- The value at a key, `none` when there is no entry. -/
def get? (d : Dict κ ν) (k : κ) : Option ν := d.lookup k

def size (d : Dict κ ν) : ℕ := d.entries.length

def insert (d : Dict κ ν) (k : κ) (x : ν) : Dict κ ν := AList.insert k x d

def erase (d : Dict κ ν) (k : κ) : Dict κ ν := AList.erase k d

/-- Update the value at a key, from a default when there is none. -/
def upsert (d : Dict κ ν) (k : κ) (init : ν) (f : ν → ν) : Dict κ ν :=
  d.insert k (f ((d.get? k).getD init))

def mapValues (d : Dict κ ν) (f : ν → μ) : Dict κ μ where
  entries := d.entries.map fun e => ⟨e.1, f e.2⟩
  nodupKeys := by
    have hkeys : (d.entries.map fun e : Sigma fun _ : κ => ν =>
        (⟨e.1, f e.2⟩ : Sigma fun _ : κ => μ)).keys = d.entries.keys := by
      simp [List.keys, Function.comp_def]
    rw [List.NodupKeys, hkeys]
    exact d.nodupKeys

def retain (d : Dict κ ν) (p : ν → Bool) : Dict κ ν where
  entries := d.entries.filter fun e => p e.2
  nodupKeys := d.nodupKeys.sublist List.filter_sublist

theorem mem_entries {d : Dict κ ν} {k : κ} {x : ν} :
    (⟨k, x⟩ : Sigma fun _ : κ => ν) ∈ d.entries ↔ d.get? k = some x :=
  (AList.mem_lookup_iff).symm

@[simp] theorem get?_empty (k : κ) : (∅ : Dict κ ν).get? k = none := rfl

theorem get?_insert (d : Dict κ ν) (k k' : κ) (x : ν) :
    (d.insert k x).get? k' = if k' = k then some x else d.get? k' := by
  by_cases h : k' = k
  · subst h
    rw [if_pos rfl]
    exact AList.lookup_insert d
  · rw [if_neg h]
    exact AList.lookup_insert_ne h

theorem get?_erase (d : Dict κ ν) (k k' : κ) :
    (d.erase k).get? k' = if k' = k then none else d.get? k' := by
  by_cases h : k' = k
  · subst h
    rw [if_pos rfl]
    exact AList.lookup_erase k' d
  · rw [if_neg h]
    exact AList.lookup_erase_ne h

theorem get?_upsert (d : Dict κ ν) (k k' : κ) (init : ν) (f : ν → ν) :
    (d.upsert k init f).get? k' =
      if k' = k then some (f ((d.get? k).getD init)) else d.get? k' :=
  get?_insert d k k' _

theorem get?_mapValues (d : Dict κ ν) (f : ν → μ) (k : κ) :
    (d.mapValues f).get? k = (d.get? k).map f := by
  apply Option.ext
  intro y
  rw [← mem_entries, mapValues, List.mem_map]
  constructor
  · rintro ⟨⟨k', x⟩, he, heq⟩
    simp only [Sigma.mk.injEq, heq_eq_eq] at heq
    obtain ⟨rfl, rfl⟩ := heq
    rw [mem_entries.mp he]
    rfl
  · intro h
    obtain ⟨x, hx, rfl⟩ := Option.map_eq_some_iff.mp h
    exact ⟨⟨k, x⟩, mem_entries.mpr hx, rfl⟩

theorem get?_retain (d : Dict κ ν) (p : ν → Bool) (k : κ) :
    (d.retain p).get? k = (d.get? k).filter p := by
  apply Option.ext
  intro x
  rw [← mem_entries, retain, List.mem_filter, mem_entries, Option.filter_eq_some_iff]

/-- A key has at most one entry. -/
theorem filter_entries_key (d : Dict κ ν) (k : κ) :
    d.entries.filter (fun e => e.1 = k) =
      match d.get? k with
      | some x => [⟨k, x⟩]
      | none => [] := by
  have hperm : ∀ l : List (Sigma fun _ : κ => ν),
      (∀ e, e ∈ d.entries.filter (fun e => e.1 = k) ↔ e ∈ l) → l.Nodup →
      (d.entries.filter fun e => e.1 = k).Perm l := fun l hmem hl =>
    (List.perm_ext_iff_of_nodup (d.nodupKeys.nodup.sublist List.filter_sublist) hl).mpr hmem
  cases hk : d.get? k with
  | none =>
    refine List.Perm.eq_nil (hperm [] ?_ List.nodup_nil)
    rintro ⟨k', x⟩
    simp only [List.mem_filter, decide_eq_true_eq, List.not_mem_nil, iff_false, not_and]
    rintro he rfl
    rw [mem_entries, hk] at he
    cases he
  | some x =>
    refine List.perm_singleton.mp (hperm [⟨k, x⟩] ?_ (List.nodup_singleton _))
    rintro ⟨k', y⟩
    rw [List.mem_filter, mem_entries, List.mem_singleton]
    constructor
    · rintro ⟨hy, hkk⟩
      have hkk : k' = k := by simpa using hkk
      subst hkk
      rw [hk] at hy
      cases hy
      rfl
    · intro heq
      cases heq
      exact ⟨hk, by simp⟩

omit [DecidableEq κ] in
theorem length_keys (d : Dict κ ν) : d.keys.length = d.size := List.length_map _

theorem mem_keys_iff {d : Dict κ ν} {k : κ} : k ∈ d.keys ↔ (d.get? k).isSome = true := by
  rw [← AList.mem_keys]
  exact AList.lookup_isSome.symm

theorem size_erase (d : Dict κ ν) (k : κ) :
    (d.erase k).size = if (d.get? k).isSome then d.size - 1 else d.size := by
  rw [← length_keys, ← length_keys]
  show (AList.erase k d).keys.length = _
  rw [AList.keys_erase, List.length_erase]
  simp only [mem_keys_iff]

theorem size_insert (d : Dict κ ν) (k : κ) (x : ν) :
    (d.insert k x).size = if (d.get? k).isSome then d.size else d.size + 1 := by
  rw [← length_keys, ← length_keys]
  show (AList.insert k x d).keys.length = _
  rw [AList.keys_insert, List.length_cons, List.length_erase]
  split
  · rename_i hk
    have hpos := List.length_pos_of_mem hk
    rw [if_pos (mem_keys_iff.mp hk)]
    omega
  · rename_i hk
    rw [if_neg (mt mem_keys_iff.mpr hk)]

theorem size_ne_zero {d : Dict κ ν} {k : κ} {x : ν} (h : d.get? k = some x) : d.size ≠ 0 :=
  List.length_pos_of_mem (mem_entries.mpr h) |>.ne'

/-- Two lists of distinct keys with the same members are equally long. -/
theorem size_eq_length {d : Dict κ ν} {ks : List κ} (hks : ks.Nodup)
    (hmem : ∀ k, k ∈ ks ↔ (d.get? k).isSome = true) : d.size = ks.length := by
  have hkeys : d.keys.Perm ks := by
    refine (List.perm_ext_iff_of_nodup d.keys_nodup hks).mpr ?_
    intro k
    rw [hmem, mem_keys_iff]
  rw [← length_keys, hkeys.length_eq]

/-! ## Accumulation -/

section Accumulate

variable {M : Type v}

/-- Add each weight to the entry of its key. -/
def addAll [AddCommMonoid M] (d : Dict κ M) (l : List (κ × M)) : Dict κ M :=
  l.foldl (fun d e => d.upsert e.1 0 (· + e.2)) d

/-- The weights that go to a key. -/
def weightsOf (l : List (κ × M)) (k : κ) : List M :=
  (l.filter fun e => e.1 = k).map Prod.snd

theorem weightsOf_flatMap {α : Type w} (l : List α) (f : α → List (κ × M)) (k : κ) :
    weightsOf (l.flatMap f) k = l.flatMap fun a => weightsOf (f a) k := by
  unfold weightsOf
  rw [List.filter_flatMap, List.map_flatMap]

theorem addAll_append [AddCommMonoid M] (d : Dict κ M) (l l' : List (κ × M)) :
    d.addAll (l ++ l') = (d.addAll l).addAll l' :=
  List.foldl_append

theorem get?_addAll [AddCommMonoid M] (d : Dict κ M) (l : List (κ × M)) (k : κ) :
    (d.addAll l).get? k =
      if weightsOf l k = [] then d.get? k
      else some ((d.get? k).getD 0 + (weightsOf l k).sum) := by
  induction l generalizing d with
  | nil => simp [addAll, weightsOf]
  | cons e l ih =>
    have hstep : d.addAll (e :: l) = (d.upsert e.1 0 (· + e.2)).addAll l := rfl
    rw [hstep, ih, get?_upsert]
    by_cases hk : e.1 = k
    · subst hk
      have hw : weightsOf (e :: l) e.1 = e.2 :: weightsOf l e.1 := by simp [weightsOf]
      rw [hw]
      by_cases hnil : weightsOf l e.1 = []
      · simp [hnil]
      · simp [hnil, add_assoc]
    · have hw : weightsOf (e :: l) k = weightsOf l k := by simp [weightsOf, hk]
      have hne : k ≠ e.1 := fun h => hk h.symm
      rw [hw]
      simp [hne]

end Accumulate

end Dict
