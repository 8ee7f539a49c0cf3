import Mycelium.Analysis.CallCompletion

/-!
# What an index lists

The `index.md` of a directory has a bullet for each concept of the directory, then a line for
each child directory with the number of the concepts below it.

1. *The text.* `renderIndex` is the text of an index with given bullets and child directories.
2. *The listing.* `Lists` says that these are the ones of a registry: the concepts of the
   directory once each and in the order of their paths, and the directories one name further
   down that have a concept below them, with its number.
3. *The generated text* is the text of such a listing (`lists_indexText`), where no path has a
   directory with an empty name: the regeneration takes `//` for the end of a directory.
-/

set_option autoImplicit false

namespace Mycelium.Analysis.IndexListing

open Mycelium.Model.Text Mycelium.Model.ConceptStore
open Mycelium.Analysis.CallCompletion

/-! ## The text -/

structure Summary where
  sub : String
  count : ℕ
  types : List String

def bulletLine (e : ConceptEntry) : String :=
  "* [" ++ e.title ++ "](" ++ basename e.path ++ ") [" ++ e.conceptType ++ "]"

def summaryLine (y : Summary) : String :=
  let typeList := if y.types = [] then "" else " (" ++ join ", " y.types ++ ")"
  "* [" ++ y.sub ++ "](" ++ y.sub ++ "/) — " ++ toString y.count ++ " concept(s)" ++ typeList

def renderIndex (dir : String) (bullets : List ConceptEntry) (subdirs : List Summary) : String :=
  let name := if dir = "" then "Knowledge Base" else basename dir
  let tail :=
    if subdirs = [] then [] else "\n## Subdirectories\n" :: subdirs.map summaryLine
  join "\n" (("# " ++ name ++ "\n") :: bullets.map bulletLine ++ tail) ++ "\n"

/-! ## The listing -/

/-- One name further down. -/
def ChildDir (dir sub : String) : Prop :=
  ∃ name : List Char, name ≠ [] ∧ '/' ∉ name ∧ sub = dir ++ "/" ++ String.ofList name

def below (sub : String) (e : ConceptEntry) : Bool := startsWith e.path (sub ++ "/")

/-- The bullets and the child directories are those of this registry. -/
structure Lists (registry : List ConceptEntry) (dir : String) (bullets : List ConceptEntry)
    (subdirs : List Summary) : Prop where
  concepts : ∀ e, e ∈ bullets ↔ e ∈ registry ∧ dirOf e = dir
  once : (bullets.map ConceptEntry.path).Nodup
  inOrder : bullets.Pairwise fun a b => a.path ≤ b.path
  children : ∀ sub, sub ∈ subdirs.map Summary.sub ↔
    ChildDir dir sub ∧ ∃ e ∈ registry, below sub e = true
  childrenOnce : (subdirs.map Summary.sub).Nodup
  childrenInOrder : (subdirs.map Summary.sub).Pairwise (· ≤ ·)
  counts : ∀ y ∈ subdirs, y.count = registry.countP (below y.sub)

/-- The text is that of such a listing. -/
def Mirrors (registry : List ConceptEntry) (dir content : String) : Prop :=
  ∃ bullets subdirs, content = renderIndex dir bullets subdirs ∧ Lists registry dir bullets subdirs

/-! ## Child directories -/

/-- No directory of the path has an empty name. -/
def PlainPath (path : String) : Prop := ¬ ['/', '/'] <:+: path.toList

instance (path : String) : Decidable (PlainPath path) := inferInstanceAs (Decidable (¬ _))

theorem path_split {e : ConceptEntry} (hvalid : validPath e.path = true) :
    ∃ base, e.path.toList = (dirOf e).toList ++ '/' :: base ∧ '/' ∉ base := by
  obtain ⟨rest, hpath⟩ := validPath_iff.mp hvalid
  have hslash : '/' ∈ e.path.toList := by
    rw [hpath]
    exact List.mem_cons_self
  apply toList_of_dirname
  unfold dirOf dirname
  rw [if_pos hslash]
  rfl

/-- INTERNAL: a directory below another one starts with its path and a name. -/
theorem childOf_eq_some {dir other sub : String} : childOf dir other = some sub ↔
    ∃ rest, other.toList = dir.toList ++ '/' :: rest ∧ rest ≠ [] ∧
      sub = dir ++ "/" ++ String.ofList (rest.takeWhile (· ≠ '/')) := by
  have hpre : (dir ++ "/").toList = dir.toList ++ ['/'] := by simp [String.toList_append]
  have hlength : (dir ++ "/").length = (dir.toList ++ ['/']).length := by
    rw [← hpre, String.length_toList]
  simp only [childOf, stripPrefix, startsWith, hpre, hlength]
  constructor
  · intro h
    split at h
    · rename_i rest hrest
      split at hrest
      · rename_i hstarts
        cases hrest
        obtain ⟨tail, htail⟩ := List.isPrefixOf_iff_prefix.mp hstarts
        rw [← htail, List.drop_left] at h
        split at h
        · rename_i hne
          cases h
          refine ⟨tail, ?_, hne.2, rfl⟩
          rw [← htail, List.append_assoc]
          rfl
        · cases h
      · cases hrest
    · cases h
  · rintro ⟨rest, hother, hne, rfl⟩
    have htail : other.toList = (dir.toList ++ ['/']) ++ rest := by
      rw [hother, List.append_assoc]
      rfl
    have hstarts : (dir.toList ++ ['/']).isPrefixOf other.toList = true := by
      rw [htail]
      exact List.isPrefixOf_iff_prefix.mpr (List.prefix_append _ _)
    have hdir : other ≠ dir := by
      rintro rfl
      have hsize := congrArg List.length hother
      simp only [List.length_append, List.length_cons] at hsize
      omega
    simp only [hstarts, if_true]
    rw [htail, List.drop_left, if_pos ⟨hdir, hne⟩]

/-- INTERNAL: the child that the regeneration finds for a concept. -/
theorem childDir_of_childOf {e : ConceptEntry} (hvalid : validPath e.path = true)
    (hplain : PlainPath e.path) {dir sub : String} (h : childOf dir (dirOf e) = some sub) :
    ChildDir dir sub ∧ below sub e = true := by
  obtain ⟨base, hpath, hbase⟩ := path_split hvalid
  obtain ⟨rest, hdir, hne, rfl⟩ := childOf_eq_some.mp h
  rw [hdir] at hpath
  have hsplit := List.takeWhile_append_dropWhile (p := fun c => decide (c ≠ '/')) (l := rest)
  refine ⟨⟨rest.takeWhile (· ≠ '/'), ?_, ?_, rfl⟩, ?_⟩
  · intro hnil
    cases rest with
    | nil => exact hne rfl
    | cons c rest =>
      by_cases hc : c = '/'
      · apply hplain
        refine ⟨dir.toList, rest ++ '/' :: base, ?_⟩
        rw [hpath, hc]
        simp
      · simp [hc] at hnil
  · intro hmem
    have hnot := List.mem_takeWhile_imp hmem
    simp at hnot
  · unfold below startsWith
    rw [List.isPrefixOf_iff_prefix, hpath]
    have hstart : (dir ++ "/" ++ String.ofList (rest.takeWhile (· ≠ '/')) ++ "/").toList =
        dir.toList ++ '/' :: (rest.takeWhile (· ≠ '/') ++ ['/']) := by
      simp [String.toList_append]
    rw [hstart, List.append_assoc, List.prefix_append_right_inj, List.cons_append,
      List.cons_prefix_cons]
    refine ⟨rfl, ?_⟩
    conv_rhs => rw [← hsplit]
    rw [List.append_assoc, List.prefix_append_right_inj]
    cases hdrop : rest.dropWhile (· ≠ '/') with
    | nil => exact ⟨base, rfl⟩
    | cons c cs =>
      have hnot : rest.dropWhile (fun c => decide (c ≠ '/')) ≠ [] := by
        rw [hdrop]
        exact List.cons_ne_nil c cs
      have hc := List.head_dropWhile_not (fun c => decide (c ≠ '/')) hnot
      simp only [hdrop, List.head_cons, decide_eq_false_iff_not, not_not] at hc
      rw [hc]
      exact ⟨cs ++ '/' :: base, rfl⟩

/-- INTERNAL: and the other way round. -/
theorem childOf_of_childDir {e : ConceptEntry} (hvalid : validPath e.path = true)
    {dir sub : String} (hchild : ChildDir dir sub) (hbelow : below sub e = true) :
    childOf dir (dirOf e) = some sub := by
  obtain ⟨base, hpath, hbase⟩ := path_split hvalid
  obtain ⟨name, hname, hslash, rfl⟩ := hchild
  rw [childOf_eq_some]
  unfold below startsWith at hbelow
  obtain ⟨tail, htail⟩ := List.isPrefixOf_iff_prefix.mp hbelow
  have hstart : e.path.toList = (dir.toList ++ '/' :: name) ++ '/' :: tail := by
    rw [← htail]
    simp [String.toList_append]
  have htake (more : List Char) :
      (name ++ '/' :: more).takeWhile (fun c => decide (c ≠ '/')) = name := by
    rw [List.takeWhile_append_of_pos]
    · simp
    · intro c hc
      simp only [decide_eq_true_eq]
      rintro rfl
      exact hslash hc
  have htakeAll : name.takeWhile (fun c => decide (c ≠ '/')) = name := by
    rw [List.takeWhile_eq_self_iff]
    intro c hc
    simp only [decide_eq_true_eq]
    rintro rfl
    exact hslash hc
  rw [hpath] at hstart
  by_cases hmore : '/' ∈ tail
  · -- the concept is in a directory further down
    obtain ⟨between, last, rfl, hlast⟩ :
        ∃ between last, tail = between ++ '/' :: last ∧ '/' ∉ last := by
      have hdirname : dirname (String.ofList tail) =
          some (String.ofList ((tail.rdropWhile (· ≠ '/')).dropLast)) := by
        unfold dirname
        rw [String.toList_ofList, if_pos hmore]
      obtain ⟨last, hsplit, hlast⟩ := toList_of_dirname hdirname
      rw [String.toList_ofList] at hsplit
      exact ⟨_, last, hsplit, hlast⟩
    have hboth : (dirOf e).toList ++ '/' :: base =
        (dir.toList ++ '/' :: (name ++ '/' :: between)) ++ '/' :: last := by
      rw [hstart]
      simp
    obtain ⟨hdir, -⟩ := slash_split_last hbase hlast hboth
    refine ⟨name ++ '/' :: between, hdir, by simp, ?_⟩
    rw [htake]
  · obtain ⟨hdir, -⟩ := slash_split_last hbase hmore hstart
    refine ⟨name, hdir, hname, ?_⟩
    rw [htakeAll]

/-- The child of a directory that a concept is below. -/
theorem childOf_dirOf {e : ConceptEntry} (hvalid : validPath e.path = true)
    (hplain : PlainPath e.path) {dir sub : String} :
    childOf dir (dirOf e) = some sub ↔ ChildDir dir sub ∧ below sub e = true :=
  ⟨childDir_of_childOf hvalid hplain, fun h => childOf_of_childDir hvalid h.1 h.2⟩

/-! ## The generated text -/

/-- INTERNAL: the child directories of an index, in order. -/
def subdirsOf (entries : List ConceptEntry) (dir : String) : List String :=
  ((indexDirs entries).filterMap (childOf dir)).dedup.insertionSort fun a b => a ≤ b

def summaryOf (entries : List ConceptEntry) (dir sub : String) : Summary :=
  let under := entries.filter fun e => childOf dir (dirOf e) = some sub
  { sub := sub
    count := under.length
    types := ((under.map ConceptEntry.conceptType).filter (· ≠ "")).dedup.insertionSort
      fun a b => a ≤ b }

theorem indexText_eq (entries : List ConceptEntry) (dir : String) :
    indexText entries dir = renderIndex dir (entries.filter fun e => dirOf e = dir)
      ((subdirsOf entries dir).map (summaryOf entries dir)) := by
  unfold indexText renderIndex
  simp only [List.map_eq_nil_iff, List.map_map]
  rfl

theorem map_sub_summaryOf (entries : List ConceptEntry) (dir : String) :
    ((subdirsOf entries dir).map (summaryOf entries dir)).map Summary.sub =
      subdirsOf entries dir := by
  rw [List.map_map]
  exact List.map_id _

theorem mem_subdirsOf {entries : List ConceptEntry} (hvalid : ∀ e ∈ entries, validPath e.path = true)
    (hplain : ∀ e ∈ entries, PlainPath e.path) {dir sub : String} :
    sub ∈ subdirsOf entries dir ↔ ChildDir dir sub ∧ ∃ e ∈ entries, below sub e = true := by
  simp only [subdirsOf, List.mem_insertionSort, List.mem_dedup, List.mem_filterMap, indexDirs,
    List.mem_cons, List.mem_map]
  constructor
  · rintro ⟨other, hother, hchild⟩
    rcases hother with rfl | ⟨e, he, rfl⟩
    · obtain ⟨rest, hroot, -⟩ := childOf_eq_some.mp hchild
      have hsize := congrArg List.length hroot
      simp at hsize
    · obtain ⟨hdir, hbelow⟩ := childDir_of_childOf (hvalid e he) (hplain e he) hchild
      exact ⟨hdir, e, he, hbelow⟩
  · rintro ⟨hdir, e, he, hbelow⟩
    exact ⟨dirOf e, .inr ⟨e, he, rfl⟩, childOf_of_childDir (hvalid e he) hdir hbelow⟩

/-- The registry in the order of the listing. -/
theorem list_inOrder (s : Store) : s.list.Pairwise fun a b => a.path ≤ b.path := by
  have htotal : Std.Total fun a b : ConceptEntry => a.path ≤ b.path :=
    ⟨fun a b => le_total a.path b.path⟩
  have htrans : IsTrans ConceptEntry fun a b => a.path ≤ b.path :=
    ⟨fun _ _ _ => le_trans⟩
  exact List.pairwise_insertionSort _ _

/-- **What a generated index lists.** -/
theorem lists_indexText {s : Store} (hdistinct : (s.registry.map ConceptEntry.path).Nodup)
    (hvalid : ∀ e ∈ s.registry, validPath e.path = true)
    (hplain : ∀ e ∈ s.registry, PlainPath e.path) (dir : String) :
    Mirrors s.registry dir (indexText s.list dir) := by
  have hperm : s.list.Perm s.registry := List.perm_insertionSort _ _
  have hvalid' : ∀ e ∈ s.list, validPath e.path = true := fun e he => hvalid e (mem_list.mp he)
  have hplain' : ∀ e ∈ s.list, PlainPath e.path := fun e he => hplain e (mem_list.mp he)
  refine ⟨_, _, indexText_eq s.list dir, ?_, ?_, ?_, ?_, ?_, ?_, ?_⟩
  · intro e
    rw [List.mem_filter, mem_list, decide_eq_true_eq]
  · have hlist : (s.list.map ConceptEntry.path).Nodup :=
      (hperm.map ConceptEntry.path).nodup_iff.mpr hdistinct
    exact hlist.sublist (List.filter_sublist.map _)
  · exact (list_inOrder s).filter _
  · intro sub
    rw [map_sub_summaryOf, mem_subdirsOf hvalid' hplain']
    simp only [mem_list]
  · rw [map_sub_summaryOf]
    exact (List.perm_insertionSort _ _).nodup_iff.mpr (List.nodup_dedup _)
  · rw [map_sub_summaryOf]
    exact List.pairwise_insertionSort _ _
  · intro y hy
    obtain ⟨sub, hsub, rfl⟩ := List.mem_map.mp hy
    obtain ⟨hdir, -⟩ := (mem_subdirsOf hvalid' hplain').mp hsub
    show (s.list.filter fun e => childOf dir (dirOf e) = some sub).length = _
    rw [← List.countP_eq_length_filter, ← hperm.countP_eq]
    apply List.countP_congr
    intro e he
    rw [decide_eq_true_eq, childOf_dirOf (hvalid' e he) (hplain' e he)]
    exact and_iff_right hdir

end Mycelium.Analysis.IndexListing
