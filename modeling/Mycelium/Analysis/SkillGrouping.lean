import Mycelium.Model.SkillBundles

/-!
# Where the entries of a registry are listed

1. *Paths.* The directory of an absolute path and the rest determine it (`eq_of_splitSlug`).
2. *The scan.* It keeps the entries of each directory, the hub apart (`foldl_groupStep`), so the
   listing is a function of the parts of the registry (`groupSkills_eq`).
3. *The listing.* Every entry that is no system file is listed once, in its own group or flat
   (`grouped_groupSkills`), whatever the order of the registry (`groupSkills_perm`).
-/

set_option autoImplicit false

namespace Mycelium.Analysis.SkillGrouping

open Mycelium.Model.Text Mycelium.Model.ConceptStore Mycelium.Model.SkillBundles

/-! ## Statements -/

/-- The entries of a scope: distinct absolute paths. -/
structure Registry (entries : List ConceptEntry) : Prop where
  distinct : (entries.map ConceptEntry.path).Nodup
  absolute : ∀ e ∈ entries, validPath e.path = true

/-- Every entry of a listing. -/
def placements (l : SkillListings) : List ConceptEntry :=
  (l.grouped.flatMap fun g => g.hub :: g.members) ++ l.flat

/-- A listing of the entries: each one that is no system file once, the hub of a skill as the hub
of its group, the others of its directory as members, the rest flat. -/
structure Grouped (entries : List ConceptEntry) (l : SkillListings) : Prop where
  once : (placements l).Perm (entries.filter fun e => !isSystem e)
  slugs : l.grouped.Pairwise fun g g' => g.slug < g'.slug
  hub : ∀ g ∈ l.grouped, '/' ∉ g.slug.toList ∧ g.hub.path = "/" ++ g.slug ++ "/" ++ "skill.md"
  members : ∀ g ∈ l.grouped, g.members.Pairwise (fun a b => a.path < b.path) ∧
    ∀ e ∈ g.members, ∃ rest, e.path = "/" ++ g.slug ++ "/" ++ rest
  flat : l.flat.Pairwise fun a b => a.path < b.path
  hubless : ∀ e ∈ l.flat, ∀ slug rest, '/' ∉ slug.toList → e.path = "/" ++ slug ++ "/" ++ rest →
    ∀ hub ∈ entries, hub.path ≠ "/" ++ slug ++ "/" ++ "skill.md"

/-! ## Paths -/

theorem splitSlug_append (slug rest : String) (h : '/' ∉ slug.toList) :
    splitSlug ("/" ++ slug ++ "/" ++ rest) = some (slug, rest) := by
  have hlist : ("/" ++ slug ++ "/" ++ rest).toList = '/' :: (slug.toList ++ '/' :: rest.toList) := by
    simp [String.toList_append]
  have hstrip : stripPrefix ("/" ++ slug ++ "/" ++ rest) "/" =
      some (slug.toList ++ '/' :: rest.toList) := by
    have hstart : startsWith ("/" ++ slug ++ "/" ++ rest) "/" = true := by
      unfold startsWith
      rw [hlist]
      rfl
    unfold stripPrefix
    rw [if_pos hstart, hlist]
    rfl
  have hall : ∀ c ∈ slug.toList, decide (c ≠ '/') = true := by
    intro c hc
    apply decide_eq_true
    rintro rfl
    exact h hc
  have htake : (slug.toList ++ '/' :: rest.toList).takeWhile (· ≠ '/') = slug.toList := by
    rw [List.takeWhile_append_of_pos hall, List.takeWhile_cons_of_neg (by decide), List.append_nil]
  have hdrop : (slug.toList ++ '/' :: rest.toList).dropWhile (· ≠ '/') = '/' :: rest.toList := by
    rw [List.dropWhile_append_of_pos hall, List.dropWhile_cons_of_neg (by decide)]
  unfold splitSlug
  dsimp only
  rw [hstrip, Option.getD_some, if_pos (List.mem_append_right _ List.mem_cons_self), htake, hdrop,
    List.tail_cons, String.ofList_toList, String.ofList_toList]

theorem eq_of_splitSlug {path slug rest : String} (habsolute : validPath path = true)
    (h : splitSlug path = some (slug, rest)) :
    path = "/" ++ slug ++ "/" ++ rest ∧ '/' ∉ slug.toList := by
  obtain ⟨tail, htail⟩ := validPath_iff.mp habsolute
  have hstrip : stripPrefix path "/" = some tail := by
    unfold stripPrefix
    rw [if_pos (show startsWith path "/" = true from habsolute), htail]
    rfl
  unfold splitSlug at h
  dsimp only at h
  rw [hstrip, Option.getD_some] at h
  split at h
  · rename_i hslash
    obtain ⟨hslug, hrest⟩ := Prod.mk.inj (Option.some.inj h)
    have hne : tail.dropWhile (fun c => decide (c ≠ '/')) ≠ [] := by
      intro hnil
      have hall := List.dropWhile_eq_nil_iff.mp hnil '/' hslash
      exact absurd rfl (of_decide_eq_true hall)
    have hhead := List.head_dropWhile_not (fun c => decide (c ≠ '/')) hne
    have hcons : tail.dropWhile (fun c => decide (c ≠ '/')) =
        '/' :: (tail.dropWhile fun c => decide (c ≠ '/')).tail := by
      have hslash : (tail.dropWhile fun c => decide (c ≠ '/')).head hne = '/' := by
        simpa using hhead
      conv_lhs => rw [← List.cons_head_tail hne, hslash]
    constructor
    · apply String.toList_inj.mp
      have hlist : ("/" ++ slug ++ "/" ++ rest).toList =
          '/' :: (slug.toList ++ '/' :: rest.toList) := by
        simp [String.toList_append]
      rw [hlist, ← hslug, ← hrest, String.toList_ofList, String.toList_ofList, ← hcons,
        List.takeWhile_append_dropWhile, htail]
    · rw [← hslug, String.toList_ofList]
      intro hmem
      have hne := List.mem_takeWhile_imp hmem
      exact absurd rfl (of_decide_eq_true hne)
  · cases h

/-! ## The scan -/

/-- The top-level directory of an entry. -/
def dirOf? (e : ConceptEntry) : Option String := (splitSlug e.path).map Prod.fst

def isHub (e : ConceptEntry) : Bool := (splitSlug e.path).any fun split => split.2 = "skill.md"

def listed (entries : List ConceptEntry) : List ConceptEntry := entries.filter fun e => !isSystem e

/-- The listed entries of a directory, or of none. -/
def under (entries : List ConceptEntry) (dir : Option String) : List ConceptEntry :=
  (listed entries).filter fun e => dirOf? e = dir

def hubs (entries : List ConceptEntry) (slug : String) : List ConceptEntry :=
  (under entries (some slug)).filter isHub

def companions (entries : List ConceptEntry) (slug : String) : List ConceptEntry :=
  (under entries (some slug)).filter fun e => !isHub e

theorem under_concat (entries : List ConceptEntry) (e : ConceptEntry) (dir : Option String) :
    under (entries ++ [e]) dir =
      if isSystem e = false ∧ dirOf? e = dir then under entries dir ++ [e] else under entries dir := by
  unfold under listed
  rw [List.filter_append, List.filter_append, List.filter_singleton]
  cases hsystem : isSystem e with
  | true => simp
  | false =>
    by_cases hdir : dirOf? e = dir
    · simp [hdir]
    · simp [hdir]

/-- INTERNAL: a round adds an entry to the slot of its directory. -/
theorem slot_add (entries : List ConceptEntry) (dir : Option String) (e : ConceptEntry)
    (rest : String)
    (hrest : isHub e = decide (rest = "skill.md")) :
    Slot.add ⟨((under entries dir).filter isHub).getLast?,
        (under entries dir).filter fun e => !isHub e⟩ rest e =
      ⟨((under entries dir ++ [e]).filter isHub).getLast?,
        (under entries dir ++ [e]).filter fun e => !isHub e⟩ := by
  unfold Slot.add
  rw [List.filter_append, List.filter_append, List.filter_singleton, List.filter_singleton, hrest]
  by_cases hname : rest = "skill.md"
  · simp [hname]
  · simp [hname]

/-- The scan keeps the entries of no directory, and of each directory its hub and the others. -/
theorem foldl_groupStep (entries : List ConceptEntry) :
    (entries.foldl groupStep ([], ∅)).1 = under entries none ∧
    ∀ slug, (entries.foldl groupStep ([], ∅)).2.get? slug =
      if under entries (some slug) = [] then none
      else some ⟨(hubs entries slug).getLast?, companions entries slug⟩ := by
  induction entries using List.reverseRecOn with
  | nil => exact ⟨rfl, fun slug => rfl⟩
  | append_singleton entries e ih =>
    obtain ⟨hflat, hdirs⟩ := ih
    have hslot (slug : String) : ((entries.foldl groupStep ([], ∅)).2.get? slug).getD {} =
        ⟨((under entries (some slug)).filter isHub).getLast?,
          (under entries (some slug)).filter fun e => !isHub e⟩ := by
      rw [hdirs]
      split
      · rename_i hnil
        rw [hnil]
        rfl
      · rfl
    rw [List.foldl_concat, under_concat]
    simp only [hubs, companions, under_concat]
    generalize entries.foldl groupStep ([], ∅) = acc at hflat hdirs hslot ⊢
    unfold groupStep
    cases hsystem : isSystem e with
    | true =>
      simp only [Bool.true_eq_false, false_and, ↓reduceIte]
      exact ⟨hflat, hdirs⟩
    | false =>
      cases hsplit : splitSlug e.path with
      | none =>
        have hdir : dirOf? e = none := by rw [dirOf?, hsplit]; rfl
        simp only [hdir, Bool.false_eq_true, ↓reduceIte, true_and, reduceCtorEq]
        exact ⟨by rw [hflat], hdirs⟩
      | some split =>
        obtain ⟨slug, rest⟩ := split
        have hdir : dirOf? e = some slug := by rw [dirOf?, hsplit]; rfl
        have hhub : isHub e = decide (rest = "skill.md") := by rw [isHub, hsplit]; rfl
        simp only [hdir, Bool.false_eq_true, ↓reduceIte, true_and, reduceCtorEq, Option.some.injEq]
        refine ⟨hflat, fun slug' => ?_⟩
        rw [Dict.get?_upsert]
        by_cases hsame : slug' = slug
        · subst hsame
          rw [if_pos rfl, if_pos rfl, if_neg (by simp), hslot]
          exact congrArg some (slot_add entries _ e rest hhub)
        · rw [if_neg hsame, if_neg (Ne.symm hsame)]
          exact hdirs slug'

/-- The directories of a registry, in order. -/
def slugs (entries : List ConceptEntry) : List String :=
  Grouping.sort id ((listed entries).filterMap dirOf?).dedup

theorem mem_slugs {entries : List ConceptEntry} {slug : String} :
    slug ∈ slugs entries ↔ under entries (some slug) ≠ [] := by
  unfold slugs under
  rw [Grouping.mem_sort, List.mem_dedup, List.mem_filterMap, ne_eq, List.filter_eq_nil_iff]
  simp

theorem slugs_pairwise (entries : List ConceptEntry) : (slugs entries).Pairwise (· < ·) := by
  refine Grouping.pairwise_sort id ?_
  rw [List.map_id]
  exact List.nodup_dedup _

/-- A group, of the entries of a directory with a hub. -/
def groupOf (entries : List ConceptEntry) (slug : String) : Option SkillGroup :=
  (hubs entries slug).getLast?.map fun hub =>
    { slug := slug, hub := hub, members := byPath (companions entries slug) }

/-- The entries of a directory without a hub. -/
def hublessOf (entries : List ConceptEntry) (slug : String) : List ConceptEntry :=
  if (hubs entries slug).getLast?.isNone then companions entries slug else []

/-- The listing as a function of the parts of the registry. -/
theorem groupSkills_eq (entries : List ConceptEntry) :
    groupSkills entries =
      { grouped := (slugs entries).filterMap (groupOf entries)
        flat := byPath (under entries none ++ (slugs entries).flatMap (hublessOf entries)) } := by
  obtain ⟨hflat, hdirs⟩ := foldl_groupStep entries
  have hkeys : Grouping.sort id (entries.foldl groupStep ([], ∅)).2.keys = slugs entries := by
    apply Grouping.eq_of_pairwise id
    · apply Grouping.pairwise_sort
      rw [List.map_id]
      exact (entries.foldl groupStep ([], ∅)).2.keys_nodup
    · exact slugs_pairwise entries
    · intro slug
      rw [Grouping.mem_sort, Dict.mem_keys_iff, hdirs, mem_slugs]
      split
      · simp_all
      · simp_all
  have hslots : ((slugs entries).filterMap fun slug =>
      ((entries.foldl groupStep ([], ∅)).2.get? slug).map fun slot => (slug, slot)) =
      (slugs entries).map fun slug =>
        (slug, ⟨(hubs entries slug).getLast?, companions entries slug⟩) := by
    rw [← List.filterMap_eq_map]
    apply List.filterMap_congr
    intro slug hslug
    rw [hdirs, if_neg (mem_slugs.mp hslug)]
    rfl
  unfold groupSkills
  simp only [hkeys, hslots, hflat, List.filterMap_map, List.flatMap_map]
  rfl

/-! ## The listing -/

/-- INTERNAL: the parts of two orders of one registry. -/
theorem under_perm {entries entries' : List ConceptEntry} (hperm : entries.Perm entries')
    (dir : Option String) : (under entries dir).Perm (under entries' dir) :=
  (hperm.filter _).filter _

/-- INTERNAL: the parts of the registry together. -/
theorem parts_perm (entries : List ConceptEntry) : (under entries none ++
    (slugs entries).flatMap fun slug => under entries (some slug)).Perm (listed entries) := by
  have hks : (none :: (slugs entries).map some).Nodup := by
    refine List.nodup_cons.mpr ⟨by simp, ?_⟩
    exact List.Nodup.map (Option.some_injective _) ((slugs_pairwise entries).imp ne_of_lt)
  have hperm := Grouping.perm_flatMap_filter dirOf? hks (l := listed entries) <| by
    intro e he
    cases hdir : dirOf? e with
    | none => exact List.mem_cons_self
    | some slug =>
      refine List.mem_cons_of_mem _ (List.mem_map.mpr ⟨slug, mem_slugs.mpr ?_, rfl⟩)
      exact List.ne_nil_of_mem (List.mem_filter.mpr ⟨he, decide_eq_true hdir⟩)
  rw [List.flatMap_cons, List.flatMap_map] at hperm
  exact hperm

/-- INTERNAL: the flat entries, of no directory or of one without a hub. -/
theorem mem_flat {entries : List ConceptEntry} {e : ConceptEntry}
    (he : e ∈ (groupSkills entries).flat) :
    dirOf? e = none ∨ ∃ slug, e ∈ under entries (some slug) ∧ hubs entries slug = [] := by
  rw [groupSkills_eq] at he
  obtain he | he := List.mem_append.mp ((Grouping.mem_sort _).mp he)
  · exact Or.inl (of_decide_eq_true (List.mem_filter.mp he).2)
  · refine Or.inr ?_
    obtain ⟨slug, -, he⟩ := List.mem_flatMap.mp he
    unfold hublessOf at he
    split at he
    · rename_i hnone
      refine ⟨slug, List.mem_of_mem_filter he, ?_⟩
      simpa using hnone
    · cases he

section Registry

variable {entries : List ConceptEntry} (h : Registry entries)

include h

theorem listed_nodup : (listed entries).Nodup :=
  (List.Nodup.of_map _ h.distinct).sublist List.filter_sublist

/-- An entry of a directory has its path. -/
theorem path_of_mem_under {e : ConceptEntry} {slug : String}
    (he : e ∈ under entries (some slug)) :
    e ∈ entries ∧ isSystem e = false ∧ '/' ∉ slug.toList ∧
      ∃ rest, e.path = "/" ++ slug ++ "/" ++ rest ∧ isHub e = decide (rest = "skill.md") := by
  obtain ⟨hlisted, hdir⟩ := List.mem_filter.mp he
  obtain ⟨hentry, hsystem⟩ := List.mem_filter.mp hlisted
  obtain ⟨⟨slug', rest⟩, hsplit, rfl⟩ := Option.map_eq_some_iff.mp (of_decide_eq_true hdir)
  obtain ⟨hpath, hslash⟩ := eq_of_splitSlug (h.absolute e hentry) hsplit
  refine ⟨hentry, by simpa using hsystem, hslash, rest, hpath, ?_⟩
  rw [isHub, hsplit]
  rfl

/-- A directory has one hub at most. -/
theorem hubs_cases (slug : String) :
    hubs entries slug = [] ∨ ∃ hub, hubs entries slug = [hub] ∧
      hub ∈ entries ∧ hub.path = "/" ++ slug ++ "/" ++ "skill.md" := by
  have hpath (e : ConceptEntry) (he : e ∈ hubs entries slug) :
      e ∈ entries ∧ e.path = "/" ++ slug ++ "/" ++ "skill.md" := by
    obtain ⟨hunder, hhub⟩ := List.mem_filter.mp he
    obtain ⟨hentry, -, -, rest, hpath, hname⟩ := path_of_mem_under h hunder
    rw [hname] at hhub
    rw [of_decide_eq_true hhub] at hpath
    exact ⟨hentry, hpath⟩
  cases hlist : hubs entries slug with
  | nil => exact Or.inl rfl
  | cons hub rest =>
    have hin : hub ∈ hubs entries slug := hlist ▸ List.mem_cons_self
    refine Or.inr ⟨hub, ?_, hpath hub hin⟩
    cases rest with
    | nil => rfl
    | cons other rest =>
      have hother : other ∈ hubs entries slug :=
        hlist ▸ List.mem_cons_of_mem _ List.mem_cons_self
      have hnodup : (hubs entries slug).Nodup :=
        ((listed_nodup h).sublist List.filter_sublist).sublist List.filter_sublist
      rw [hlist] at hnodup
      have hsame : hub = other := List.inj_on_of_nodup_map h.distinct (hpath hub hin).1
        (hpath other hother).1 ((hpath hub hin).2.trans (hpath other hother).2.symm)
      exact absurd (hsame ▸ List.mem_cons_self) (List.nodup_cons.mp hnodup).1

/-- INTERNAL: a group and the entries of a directory without a hub make up the directory. -/
theorem group_append_hubless (slug : String) :
    (((groupOf entries slug).toList.flatMap fun g => g.hub :: g.members) ++
      hublessOf entries slug).Perm (under entries (some slug)) := by
  have hsplit : (hubs entries slug ++ companions entries slug).Perm (under entries (some slug)) :=
    List.filter_append_perm _ _
  unfold groupOf hublessOf
  obtain hnone | ⟨hub, hone, -⟩ := hubs_cases h slug
  · rw [hnone] at hsplit ⊢
    exact hsplit
  · rw [hone] at hsplit ⊢
    simp only [List.getLast?_singleton, Option.map_some, Option.toList_some, List.flatMap_cons,
      List.flatMap_nil, List.append_nil, Option.isNone_some, Bool.false_eq_true, ↓reduceIte]
    exact ((Grouping.perm_sort _ _).cons hub).trans hsplit

/-- Every listed entry is placed once. -/
theorem placements_perm : (placements (groupSkills entries)).Perm (listed entries) := by
  refine List.Perm.trans ?_ (parts_perm entries)
  rw [groupSkills_eq]
  unfold placements
  dsimp only
  have hgroups : ((slugs entries).filterMap (groupOf entries)).flatMap
      (fun g => g.hub :: g.members) = (slugs entries).flatMap fun slug =>
        (groupOf entries slug).toList.flatMap fun g => g.hub :: g.members := by
    rw [← List.flatMap_assoc]
    congr 1
    exact List.filterMap_eq_flatMap_toList _ _
  have hunder := List.Perm.flatMap_left (slugs entries) fun slug _ => group_append_hubless h slug
  have happend := List.flatMap_append_perm (slugs entries) (fun slug =>
    (groupOf entries slug).toList.flatMap fun g => g.hub :: g.members) (hublessOf entries)
  rw [hgroups]
  refine (List.Perm.append_left _ (Grouping.perm_sort _ _)).trans ?_
  refine List.Perm.trans ?_ (List.Perm.append_left _ (happend.trans hunder))
  rw [← List.append_assoc, ← List.append_assoc]
  exact List.Perm.append_right _ List.perm_append_comm

/-- The listing of a registry. -/
theorem grouped_groupSkills : Grouped entries (groupSkills entries) := by
  have hplaced := placements_perm h
  have hpaths : ((placements (groupSkills entries)).map ConceptEntry.path).Nodup := by
    rw [(hplaced.map _).nodup_iff]
    exact h.distinct.sublist (List.Sublist.map _ List.filter_sublist)
  have hgroup (g : SkillGroup) (hg : g ∈ (groupSkills entries).grouped) :
      ∃ hub, hubs entries g.slug = [hub] ∧ hub.path = "/" ++ g.slug ++ "/" ++ "skill.md" ∧
        g.hub = hub ∧ g.members = byPath (companions entries g.slug) := by
    rw [groupSkills_eq] at hg
    obtain ⟨slug, -, hfound⟩ := List.mem_filterMap.mp hg
    obtain ⟨hub, hhub, rfl⟩ := Option.map_eq_some_iff.mp hfound
    obtain hnone | ⟨hub', hone, -, hpath⟩ := hubs_cases h slug
    · rw [hnone] at hhub
      cases hhub
    · rw [hone] at hhub
      cases hhub
      exact ⟨hub', hone, hpath, rfl, rfl⟩
  constructor
  · exact hplaced
  · rw [groupSkills_eq]
    refine (slugs_pairwise entries).filterMap _ ?_
    intro slug slug' hlt g hg g' hg'
    obtain ⟨-, -, rfl⟩ := Option.map_eq_some_iff.mp hg
    obtain ⟨-, -, rfl⟩ := Option.map_eq_some_iff.mp hg'
    exact hlt
  · intro g hg
    obtain ⟨hub, hone, hpath, rfl, -⟩ := hgroup g hg
    have hin : g.hub ∈ under entries (some g.slug) :=
      List.mem_of_mem_filter (hone ▸ List.mem_singleton_self _ : g.hub ∈ hubs entries g.slug)
    obtain ⟨-, -, hslash, -⟩ := path_of_mem_under h hin
    exact ⟨hslash, hpath⟩
  · intro g hg
    obtain ⟨hub, -, -, -, hmembers⟩ := hgroup g hg
    rw [hmembers]
    constructor
    · apply Grouping.pairwise_sort
      refine h.distinct.sublist (List.Sublist.map _ ?_)
      exact (List.filter_sublist.trans List.filter_sublist).trans List.filter_sublist
    · intro e he
      have hin := List.mem_of_mem_filter ((Grouping.mem_sort _).mp he)
      obtain ⟨-, -, -, rest, hpath, -⟩ := path_of_mem_under h hin
      exact ⟨rest, hpath⟩
  · have hnodup := hpaths.sublist (List.Sublist.map _ (List.sublist_append_right _ _))
    rw [groupSkills_eq] at hnodup ⊢
    apply Grouping.pairwise_sort
    exact ((Grouping.perm_sort _ _).map _).nodup_iff.mp hnodup
  · intro e he slug rest hslash hpath hub hhub hhubPath
    have hdir : dirOf? e = some slug := by
      rw [dirOf?, hpath, splitSlug_append slug rest hslash]
      rfl
    obtain hnone | ⟨slug', hunder, hnone⟩ := mem_flat he
    · rw [hnone] at hdir
      cases hdir
    · have hsame := of_decide_eq_true (List.mem_filter.mp hunder).2
      rw [hdir] at hsame
      cases hsame
      have hin : hub ∈ hubs entries slug := by
        refine List.mem_filter.mpr ⟨List.mem_filter.mpr ⟨List.mem_filter.mpr ⟨hhub, ?_⟩, ?_⟩, ?_⟩
        · have hbase : basename hub.path = "skill.md" := by
            rw [hhubPath]
            exact basename_append _ _ (by decide)
          simp [isSystem, hbase, systemBasenames]
        · rw [dirOf?, hhubPath, splitSlug_append slug _ hslash]
          exact decide_eq_true rfl
        · rw [isHub, hhubPath, splitSlug_append slug _ hslash]
          rfl
      rw [hnone] at hin
      cases hin

/-! ## The order of the registry -/

theorem hubs_congr {entries' : List ConceptEntry} (hperm : entries.Perm entries') (slug : String) :
    hubs entries slug = hubs entries' slug := by
  have hhubs : (hubs entries slug).Perm (hubs entries' slug) := (under_perm hperm _).filter _
  obtain hnone | ⟨hub, hone, -⟩ := hubs_cases h slug
  · rw [hnone] at hhubs ⊢
    exact (List.Perm.nil_eq hhubs)
  · rw [hone] at hhubs ⊢
    exact List.singleton_perm.mp hhubs

/-- The listing does not depend on the order of the registry. -/
theorem groupSkills_perm {entries' : List ConceptEntry} (hperm : entries.Perm entries') :
    groupSkills entries = groupSkills entries' := by
  have hslugs : slugs entries = slugs entries' := by
    apply Grouping.sort_congr
    · exact ((hperm.filter _).filterMap _).dedup
    · rw [List.map_id]
      exact List.nodup_dedup _
  have hcompanions (slug : String) :
      (companions entries slug).Perm (companions entries' slug) := (under_perm hperm _).filter _
  have hgroup (slug : String) : groupOf entries slug = groupOf entries' slug := by
    have hmembers : byPath (companions entries slug) = byPath (companions entries' slug) := by
      apply Grouping.sort_congr _ (hcompanions slug)
      refine h.distinct.sublist (List.Sublist.map _ ?_)
      exact (List.filter_sublist.trans List.filter_sublist).trans List.filter_sublist
    rw [groupOf, groupOf, hubs_congr h hperm, hmembers]
  have hhubless (slug : String) : (hublessOf entries slug).Perm (hublessOf entries' slug) := by
    rw [hublessOf, hublessOf, hubs_congr h hperm]
    split
    · exact hcompanions slug
    · exact List.Perm.refl _
  have hnodup : ((under entries none ++ (slugs entries).flatMap (hublessOf entries)).map
      ConceptEntry.path).Nodup := by
    have hflat := (grouped_groupSkills h).flat
    rw [groupSkills_eq] at hflat
    exact ((Grouping.perm_sort _ _).map _).nodup_iff.mp
      (List.pairwise_map.mpr (hflat.imp ne_of_lt))
  rw [groupSkills_eq, groupSkills_eq, ← hslugs]
  have hflat : byPath (under entries none ++ (slugs entries).flatMap (hublessOf entries)) =
      byPath (under entries' none ++ (slugs entries).flatMap (hublessOf entries')) := by
    apply Grouping.sort_congr _ ?_ hnodup
    exact (under_perm hperm none).append
      (List.Perm.flatMap_left _ fun slug _ => hhubless slug)
  rw [hflat, funext hgroup]

end Registry

end Mycelium.Analysis.SkillGrouping
