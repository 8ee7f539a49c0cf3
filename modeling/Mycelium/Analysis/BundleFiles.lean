import Mycelium.Analysis.SkillGrouping
import Mycelium.Lib.Fallible

/-!
# The files of a skill bundle

1. *Paths.* A path that passes the check stays inside the bundle (`ensureSafeRel_iff`).
2. *Producers.* The companions and the scripts of a bundle are what the group and the manifest
   name (`of_readCompanions`, `of_readScripts`).
3. *Emission.* Each relative path comes once, from its first producer (`mem_emit`).
4. *Bundles.* The listing and the bundle of a skill are complete (`skills_complete`).
-/

set_option autoImplicit false

namespace Mycelium.Analysis.BundleFiles

open Mycelium.Model.Text Mycelium.Model.Concepts Mycelium.Model.ConceptStore
open Mycelium.Model.SkillBundles Mycelium.Analysis.SkillGrouping
open Mycelium.Model.Sealing (Bytes bind_eq_ok)

/-! ## Statements -/

/-- A path inside a bundle. -/
structure SafeRel (rel : String) : Prop where
  relative : startsWith rel "/" = false
  segments : ∀ seg ∈ splitBy (· = '/') rel.toList, seg ≠ [] ∧ seg ≠ ".".toList ∧ seg ≠ "..".toList
  backslash : '\\' ∉ rel.toList
  nul : Char.ofNat 0 ∉ rel.toList

/-- A file is a companion of the skill: a member of its group, as markdown. -/
def CompanionFile (shelf : Shelf) (slug : String) (f : SkillBundleFile) : Prop :=
  ∃ g ∈ (groupSkills shelf.store.registry).grouped, g.slug = slug ∧ ∃ m ∈ g.members,
    m.path = "/" ++ slug ++ "/" ++ f.relPath ∧
    ∃ c, shelf.store.get shelf.codec m.path = .ok c ∧ markdownBytes shelf.codec c = .ok f.bytes

/-- A file is a payload that the manifest of the hub declares, with the digest it declares. -/
def ScriptFile (shelf : Shelf) (slug : String) (hub : Concept) (f : SkillBundleFile) : Prop :=
  ∃ man, hub.frontmatter.skill = some man ∧ ∃ file ∈ man.files, endsWith file.path ".md" = false ∧
    file.path = f.relPath ∧ shelf.payload ("/" ++ slug ++ "/" ++ f.relPath) = .ok f.bytes ∧
    ∀ expected, file.md5 = some expected → expected = shelf.md5Hex f.bytes

/-- The files of a bundle: the hub as `SKILL.md`, the companions by path, then the scripts by
path; each path once, from its first producer. -/
structure Bundled (shelf : Shelf) (slug : String) (hub : Concept)
    (files : List SkillBundleFile) : Prop where
  layout : ∃ bytes companions scripts,
    files = { relPath := "SKILL.md", bytes := bytes } :: (companions ++ scripts) ∧
    markdownBytes shelf.codec hub = .ok bytes ∧
    companions.Pairwise (fun a b => a.relPath < b.relPath) ∧
    (∀ f, f ∈ companions ↔ CompanionFile shelf slug f ∧ f.relPath ≠ "SKILL.md") ∧
    scripts.Pairwise (fun a b => a.relPath < b.relPath) ∧
    ∀ f, f ∈ scripts ↔ ScriptFile shelf slug hub f ∧
      ∀ c, CompanionFile shelf slug c → c.relPath ≠ f.relPath
  once : (files.map SkillBundleFile.relPath).Nodup
  companions : ∀ g ∈ (groupSkills shelf.store.registry).grouped, g.slug = slug →
    ∀ m ∈ g.members, ∃ f, CompanionFile shelf slug f ∧ m.path = "/" ++ slug ++ "/" ++ f.relPath
  scripts : ∀ man, hub.frontmatter.skill = some man → ∀ file ∈ man.files,
    endsWith file.path ".md" = false → ∃ f, ScriptFile shelf slug hub f ∧ f.relPath = file.path
  safe : ∀ f ∈ files, SafeRel f.relPath

/-! ## Paths -/

theorem okSkillPath_iff (p : String) : okSkillPath p = true ↔ SafeRel p := by
  unfold okSkillPath
  simp only [Bool.and_eq_true, decide_eq_true_eq, Bool.not_eq_true', List.all_eq_true]
  constructor
  · rintro ⟨⟨⟨⟨-, hrelative⟩, hbackslash⟩, hnul⟩, hsegments⟩
    refine ⟨hrelative, fun seg hseg => ?_, hbackslash, hnul⟩
    obtain ⟨⟨hdots, hdot⟩, hempty⟩ := hsegments seg hseg
    exact ⟨hempty, hdot, hdots⟩
  · rintro ⟨hrelative, hsegments, hbackslash, hnul⟩
    refine ⟨⟨⟨⟨?_, hrelative⟩, hbackslash⟩, hnul⟩, fun seg hseg => ?_⟩
    · rintro rfl
      exact (hsegments [] (by decide)).1 rfl
    · obtain ⟨hempty, hdot, hdots⟩ := hsegments seg hseg
      exact ⟨⟨hdots, hdot⟩, hempty⟩

theorem ensureSafeRel_iff (rel : String) : ensureSafeRel rel = .ok () ↔ SafeRel rel := by
  rw [← okSkillPath_iff]
  unfold ensureSafeRel validated
  rw [List.forM_eq_forM, List.forM_cons, List.forM_nil]
  dsimp only
  cases okSkillPath rel with
  | true => exact ⟨fun _ => rfl, fun _ => rfl⟩
  | false =>
    constructor
    · intro h
      cases h
    · intro h
      cases h

theorem stripPrefix_append (p rest : String) : stripPrefix (p ++ rest) p = some rest.toList := by
  have hstart : startsWith (p ++ rest) p = true := by
    unfold startsWith
    rw [String.toList_append]
    exact List.isPrefixOf_iff_prefix.mpr (List.prefix_append _ _)
  unfold stripPrefix
  rw [if_pos hstart, String.toList_append, ← String.length_toList, List.drop_left]

/-! ## Producers -/

theorem of_readCompanion {shelf : Shelf} {slug rest : String} {m : ConceptEntry}
    {f : SkillBundleFile} (hpath : m.path = "/" ++ slug ++ "/" ++ rest)
    (h : readCompanion shelf slug m = .ok f) :
    f.relPath = rest ∧ SafeRel f.relPath ∧
      ∃ c, shelf.store.get shelf.codec m.path = .ok c ∧
        markdownBytes shelf.codec c = .ok f.bytes := by
  have hrel : ((stripPrefix m.path ("/" ++ slug ++ "/")).map String.ofList).getD m.path = rest := by
    rw [hpath, stripPrefix_append, Option.map_some, Option.getD_some, String.ofList_toList]
  unfold readCompanion at h
  dsimp only at h
  rw [hrel] at h
  obtain ⟨⟨⟩, hsafe, h⟩ := bind_eq_ok.mp h
  obtain ⟨c, hget, h⟩ := bind_eq_ok.mp h
  obtain ⟨bytes, hbytes, h⟩ := bind_eq_ok.mp h
  cases h
  refine ⟨rfl, (ensureSafeRel_iff rest).mp hsafe, c, ?_, hbytes⟩
  cases hfound : shelf.store.get shelf.codec m.path with
  | ok c' =>
    rw [hfound] at hget
    cases hget
    rfl
  | error e =>
    rw [hfound] at hget
    cases hget

theorem of_readScript {shelf : Shelf} {slug : String} {file : SkillFile} {f : SkillBundleFile}
    (h : readScript shelf slug file = .ok f) :
    f.relPath = file.path ∧ SafeRel f.relPath ∧
      shelf.payload ("/" ++ slug ++ "/" ++ f.relPath) = .ok f.bytes ∧
      ∀ expected, file.md5 = some expected → expected = shelf.md5Hex f.bytes := by
  unfold readScript at h
  obtain ⟨⟨⟩, hsafe, h⟩ := bind_eq_ok.mp h
  obtain ⟨bytes, hbytes, h⟩ := bind_eq_ok.mp h
  dsimp only at h
  split at h
  · cases h
  · rename_i hmd5
    cases h
    refine ⟨rfl, (ensureSafeRel_iff _).mp hsafe, ?_, ?_⟩
    · cases hfound : shelf.payload ("/" ++ slug ++ "/" ++ file.path) with
      | ok bytes' =>
        rw [hfound] at hbytes
        cases hbytes
        rfl
      | error e =>
        rw [hfound] at hbytes
        cases hbytes
    · intro expected hexpected
      rw [hexpected, Option.any_some] at hmd5
      simpa using hmd5

/-- INTERNAL: the listing of the store is that of its registry. -/
theorem groupSkills_list {s : Store} (h : Registry s.registry) :
    groupSkills s.list = groupSkills s.registry :=
  (groupSkills_perm h (List.perm_insertionSort _ _).symm).symm

/-- INTERNAL: the group of a slug. -/
theorem find_group {entries : List ConceptEntry} (h : Registry entries) {slug : String}
    {g : SkillGroup} (hg : g ∈ (groupSkills entries).grouped) (hslug : g.slug = slug) :
    (groupSkills entries).grouped.find? (fun g => g.slug = slug) = some g := by
  have hsorted := (grouped_groupSkills h).slugs
  have hnodup : ((groupSkills entries).grouped.map SkillGroup.slug).Nodup :=
    List.pairwise_map.mpr (hsorted.imp ne_of_lt)
  exact Grouping.find?_eq_some SkillGroup.slug hnodup hg hslug

/-- The companions that a bundle reads. -/
theorem of_readCompanions {shelf : Shelf} {slug : String} {files : List SkillBundleFile}
    (hreg : Registry shelf.store.registry) (h : readCompanions shelf slug = .ok files) :
    (∀ f, f ∈ files ↔ CompanionFile shelf slug f) ∧ (∀ f ∈ files, SafeRel f.relPath) ∧
    ∀ g ∈ (groupSkills shelf.store.registry).grouped, g.slug = slug → ∀ m ∈ g.members,
      ∃ f ∈ files, m.path = "/" ++ slug ++ "/" ++ f.relPath := by
  have hgrouped := grouped_groupSkills hreg
  unfold readCompanions at h
  rw [groupSkills_list hreg] at h
  split at h
  · rename_i group hfind
    have hgroup := List.mem_of_find?_eq_some hfind
    have hfound := List.find?_some hfind
    have hslug := of_decide_eq_true hfound
    have honly (g : SkillGroup) (hg : g ∈ (groupSkills shelf.store.registry).grouped)
        (hs : g.slug = slug) : g = group := by
      have hother := find_group hreg hg hs
      rw [hfind] at hother
      exact (Option.some.inj hother).symm
    have hread {m : ConceptEntry} (hm : m ∈ group.members) {f : SkillBundleFile}
        (hf : readCompanion shelf slug m = .ok f) :
        m.path = "/" ++ slug ++ "/" ++ f.relPath ∧ SafeRel f.relPath ∧
          ∃ c, shelf.store.get shelf.codec m.path = .ok c ∧
            markdownBytes shelf.codec c = .ok f.bytes := by
      obtain ⟨rest, hpath⟩ := (hgrouped.members group hgroup).2 m hm
      rw [hslug] at hpath
      obtain ⟨hrel, hsafe, hbytes⟩ := of_readCompanion hpath hf
      exact ⟨by rw [hrel]; exact hpath, hsafe, hbytes⟩
    obtain ⟨hall, hof⟩ := Fallible.of_mapM_ok h
    refine ⟨fun f => ⟨fun hf => ?_, ?_⟩, fun f hf => ?_, ?_⟩
    · obtain ⟨m, hm, hmf⟩ := hof f hf
      obtain ⟨hpath, -, c, hget, hbytes⟩ := hread hm hmf
      exact ⟨group, hgroup, hslug, m, hm, hpath, c, hget, hbytes⟩
    · rintro ⟨g, hg, hs, m, hm, hpath, c, hget, hbytes⟩
      obtain rfl := honly g hg hs
      obtain ⟨f', hf', hmf⟩ := hall m hm
      obtain ⟨hpath', -, c', hget', hbytes'⟩ := hread hm hmf
      have hrel : f.relPath = f'.relPath :=
        String.append_right_inj _ |>.mp (hpath.symm.trans hpath')
      rw [hget] at hget'
      cases hget'
      rw [hbytes] at hbytes'
      have hsame : f = f' := by
        cases f
        cases f'
        cases hbytes'
        cases hrel
        rfl
      exact hsame ▸ hf'
    · obtain ⟨m, hm, hmf⟩ := hof f hf
      exact (hread hm hmf).2.1
    · intro g hg hs m hm
      obtain rfl := honly g hg hs
      obtain ⟨f, hf, hmf⟩ := hall m hm
      exact ⟨f, hf, (hread hm hmf).1⟩
  · rename_i hnone
    cases h
    have hno (g : SkillGroup) (hg : g ∈ (groupSkills shelf.store.registry).grouped)
        (hs : g.slug = slug) : False := by
      have hfound := find_group hreg hg hs
      rw [hnone] at hfound
      cases hfound
    refine ⟨fun f => ⟨fun hf => ?_, ?_⟩, fun f hf => ?_, ?_⟩
    · cases hf
    · rintro ⟨g, hg, hs, -⟩
      exact absurd hs (hno g hg)
    · cases hf
    · intro g hg hs
      exact absurd hs (hno g hg)

/-- The scripts that a bundle reads. -/
theorem of_readScripts {shelf : Shelf} {slug : String} {hub : Concept} {man : SkillManifest}
    {files : List SkillBundleFile} (hman : hub.frontmatter.skill = some man)
    (h : readScripts shelf slug man = .ok files) :
    (∀ f, f ∈ files ↔ ScriptFile shelf slug hub f) ∧ (∀ f ∈ files, SafeRel f.relPath) ∧
    ∀ file ∈ man.files, endsWith file.path ".md" = false →
      ∃ f ∈ files, f.relPath = file.path := by
  obtain ⟨hall, hof⟩ := Fallible.of_mapM_ok h
  have hpayload (file : SkillFile) : file ∈ man.files.filter (fun f => !endsWith f.path ".md") ↔
      file ∈ man.files ∧ endsWith file.path ".md" = false := by
    rw [List.mem_filter, Bool.not_eq_true']
  refine ⟨fun f => ⟨fun hf => ?_, ?_⟩, fun f hf => ?_, ?_⟩
  · obtain ⟨file, hfile, hread⟩ := hof f hf
    obtain ⟨hin, hmd⟩ := (hpayload file).mp hfile
    obtain ⟨hrel, -, hbytes, hmd5⟩ := of_readScript hread
    exact ⟨man, hman, file, hin, hmd, hrel.symm, hbytes, hmd5⟩
  · rintro ⟨man', hman', file, hin, hmd, hrel, hbytes, -⟩
    rw [hman] at hman'
    cases hman'
    obtain ⟨f', hf', hread⟩ := hall file ((hpayload file).mpr ⟨hin, hmd⟩)
    obtain ⟨hrel', -, hbytes', -⟩ := of_readScript hread
    have hsame : f = f' := by
      have hpath : f.relPath = f'.relPath := hrel.symm.trans hrel'.symm
      rw [← hpath, hbytes] at hbytes'
      cases f
      cases f'
      cases hbytes'
      cases hpath
      rfl
    exact hsame ▸ hf'
  · obtain ⟨file, -, hread⟩ := hof f hf
    exact (of_readScript hread).2.1
  · intro file hin hmd
    obtain ⟨f, hf, hread⟩ := hall file ((hpayload file).mpr ⟨hin, hmd⟩)
    exact ⟨f, hf, (of_readScript hread).1⟩

/-! ## Emission -/

theorem emit_sublist (seen : List String) (files : List SkillBundleFile) :
    (emit seen files).Sublist files := by
  induction files generalizing seen with
  | nil => exact List.Sublist.refl _
  | cons f files ih =>
    unfold emit
    split
    · exact (ih seen).cons f
    · exact (ih _).cons_cons f

/-- What is emitted is not seen before, and no path is emitted twice. -/
theorem emit_nodup (seen : List String) (files : List SkillBundleFile) :
    (∀ f ∈ emit seen files, f.relPath ∉ seen) ∧
      ((emit seen files).map SkillBundleFile.relPath).Nodup := by
  induction files generalizing seen with
  | nil => exact ⟨fun f hf => absurd hf List.not_mem_nil, List.nodup_nil⟩
  | cons f files ih =>
    unfold emit
    split
    · exact ih seen
    · rename_i hnew
      obtain ⟨hfresh, hnodup⟩ := ih (f.relPath :: seen)
      constructor
      · intro g hg
        obtain rfl | hg := List.mem_cons.mp hg
        · exact hnew
        · exact (not_or.mp (mt List.mem_cons.mpr (hfresh g hg))).2
      · refine List.nodup_cons.mpr ⟨?_, hnodup⟩
        intro hmem
        obtain ⟨g, hg, hpath⟩ := List.mem_map.mp hmem
        exact (not_or.mp (mt List.mem_cons.mpr (hfresh g hg))).1 hpath

/-- The first producer of a path is emitted: the only one, where a path has one file. -/
theorem mem_emit {seen : List String} {files : List SkillBundleFile}
    (hone : ∀ f ∈ files, ∀ g ∈ files, f.relPath = g.relPath → f = g) {f : SkillBundleFile} :
    f ∈ emit seen files ↔ f ∈ files ∧ f.relPath ∉ seen := by
  induction files generalizing seen with
  | nil => simp [emit]
  | cons g files ih =>
    have hrest : ∀ f ∈ files, ∀ g ∈ files, f.relPath = g.relPath → f = g := fun f hf g hg =>
      hone f (List.mem_cons_of_mem _ hf) g (List.mem_cons_of_mem _ hg)
    unfold emit
    split
    · rename_i hold
      rw [ih hrest, List.mem_cons]
      constructor
      · rintro ⟨hf, hnew⟩
        exact ⟨Or.inr hf, hnew⟩
      · rintro ⟨rfl | hf, hnew⟩
        · exact absurd hold hnew
        · exact ⟨hf, hnew⟩
    · rename_i hnew
      rw [List.mem_cons, List.mem_cons, ih hrest]
      constructor
      · rintro (rfl | ⟨hf, hfresh⟩)
        · exact ⟨Or.inl rfl, hnew⟩
        · exact ⟨Or.inr hf, (not_or.mp (mt List.mem_cons.mpr hfresh)).2⟩
      · rintro ⟨rfl | hf, hfresh⟩
        · exact Or.inl rfl
        · by_cases hsame : f.relPath = g.relPath
          · exact Or.inl (hone f (List.mem_cons_of_mem _ hf) g List.mem_cons_self hsame)
          · exact Or.inr ⟨hf, mt List.mem_cons.mp (not_or.mpr ⟨hsame, hfresh⟩)⟩

/-- Two lists one after the other. -/
theorem emit_append (seen : List String) (files files' : List SkillBundleFile) :
    ∃ seen', emit seen (files ++ files') = emit seen files ++ emit seen' files' ∧
      ∀ rel, rel ∈ seen' ↔ rel ∈ seen ∨ ∃ f ∈ files, f.relPath = rel := by
  induction files generalizing seen with
  | nil => exact ⟨seen, rfl, fun rel => by simp⟩
  | cons f files ih =>
    by_cases hold : f.relPath ∈ seen
    · obtain ⟨seen', happend, hseen⟩ := ih seen
      refine ⟨seen', ?_, fun rel => ?_⟩
      · rw [List.cons_append, emit, if_pos hold, emit, if_pos hold]
        exact happend
      · rw [hseen, List.exists_mem_cons_iff]
        constructor
        · rintro (h | h)
          · exact Or.inl h
          · exact Or.inr (Or.inr h)
        · rintro (h | rfl | h)
          · exact Or.inl h
          · exact Or.inl hold
          · exact Or.inr h
    · obtain ⟨seen', happend, hseen⟩ := ih (f.relPath :: seen)
      refine ⟨seen', ?_, fun rel => ?_⟩
      · rw [List.cons_append, emit, if_neg hold, emit, if_neg hold, happend, List.cons_append]
      · rw [hseen, List.exists_mem_cons_iff, List.mem_cons]
        constructor
        · rintro ((rfl | h) | h)
          · exact Or.inr (Or.inl rfl)
          · exact Or.inl h
          · exact Or.inr (Or.inr h)
        · rintro (h | rfl | h)
          · exact Or.inl (Or.inr h)
          · exact Or.inl (Or.inl rfl)
          · exact Or.inr h

/-- INTERNAL: the emitted files of a sorted list are in strict order. -/
theorem emit_sorted (seen : List String) (files : List SkillBundleFile) :
    (emit seen (byRelPath files)).Pairwise fun a b => a.relPath < b.relPath := by
  have hle := (Grouping.pairwise_le_sort SkillBundleFile.relPath files).sublist
    (emit_sublist seen (byRelPath files))
  have hne := List.pairwise_map.mp (emit_nodup seen (byRelPath files)).2
  exact hle.imp₂ (fun _ _ => lt_of_le_of_ne) hne

/-! ## Bundles -/

/-- INTERNAL: the passes of a bundle that succeeds. -/
theorem passes_of_ok {shelf : Shelf} {slug : String} {files : List SkillBundleFile}
    (h : bundleSkillFiles shelf slug = .ok files) :
    ∃ hub companions scripts bytes, readHub shelf slug = .ok hub ∧
      readCompanions shelf slug = .ok companions ∧
      (∀ f, f ∈ scripts ↔ ScriptFile shelf slug hub f) ∧ (∀ f ∈ scripts, SafeRel f.relPath) ∧
      (∀ man, hub.frontmatter.skill = some man → ∀ file ∈ man.files,
        endsWith file.path ".md" = false → ∃ f ∈ scripts, f.relPath = file.path) ∧
      markdownBytes shelf.codec hub = .ok bytes ∧
      files = { relPath := "SKILL.md", bytes := bytes } ::
        emit ["SKILL.md"] (byRelPath companions ++ byRelPath scripts) := by
  unfold bundleSkillFiles at h
  obtain ⟨hub, hhub, h⟩ := bind_eq_ok.mp h
  cases hman : hub.frontmatter.skill with
  | none =>
    rw [hman] at h
    dsimp only at h
    obtain ⟨companions, hcompanions, h⟩ := bind_eq_ok.mp h
    obtain ⟨-, ⟨⟩, h⟩ := bind_eq_ok.mp h
    obtain ⟨bytes, hbytes, h⟩ := bind_eq_ok.mp h
    cases h
    refine ⟨hub, companions, [], bytes, hhub, hcompanions, fun f => ⟨fun hf => ?_, ?_⟩, ?_, ?_,
      hbytes, rfl⟩
    · cases hf
    · rintro ⟨man, hsome, -⟩
      rw [hman] at hsome
      cases hsome
    · intro f hf
      cases hf
    · intro man hsome
      rw [hman] at hsome
      cases hsome
  | some man =>
    rw [hman] at h
    dsimp only at h
    obtain ⟨-, -, h⟩ := bind_eq_ok.mp h
    obtain ⟨companions, hcompanions, h⟩ := bind_eq_ok.mp h
    obtain ⟨scripts, hscripts, h⟩ := bind_eq_ok.mp h
    obtain ⟨bytes, hbytes, h⟩ := bind_eq_ok.mp h
    cases h
    obtain ⟨hmem, hsafe, hall⟩ := of_readScripts hman hscripts
    refine ⟨hub, companions, scripts, bytes, hhub, hcompanions, hmem, hsafe, ?_, hbytes, rfl⟩
    intro man' hsome
    rw [hman] at hsome
    cases hsome
    exact hall

/-- A bundle that succeeds is complete and safe. -/
theorem bundled_of_ok {shelf : Shelf} {slug : String} {files : List SkillBundleFile}
    (hreg : Registry shelf.store.registry) (h : bundleSkillFiles shelf slug = .ok files) :
    ∃ hub, readHub shelf slug = .ok hub ∧ Bundled shelf slug hub files := by
  obtain ⟨hub, companions, scripts, bytes, hhub, hcompanions, hscripts, hsafeScripts, hdeclared,
    hbytes, rfl⟩ := passes_of_ok h
  obtain ⟨hmembers, hsafe, hgroup⟩ := of_readCompanions hreg hcompanions
  obtain ⟨seen', happend, hseen⟩ :=
    emit_append ["SKILL.md"] (byRelPath companions) (byRelPath scripts)
  -- two companions of one path have one entry, two scripts of one path one payload
  have hcompanion : ∀ f ∈ byRelPath companions, ∀ g ∈ byRelPath companions,
      f.relPath = g.relPath → f = g := by
    intro f hf g hg hsame
    obtain ⟨e, he, hes, m, hm, hmpath, c, hget, hfbytes⟩ :=
      (hmembers f).mp ((Grouping.mem_sort _).mp hf)
    obtain ⟨e', he', hes', m', hm', hmpath', c', hget', hgbytes⟩ :=
      (hmembers g).mp ((Grouping.mem_sort _).mp hg)
    rw [hmpath, hsame, ← hmpath', hget'] at hget
    cases hget
    rw [hfbytes] at hgbytes
    cases f
    cases g
    cases hgbytes
    cases hsame
    rfl
  have hscript : ∀ f ∈ byRelPath scripts, ∀ g ∈ byRelPath scripts,
      f.relPath = g.relPath → f = g := by
    intro f hf g hg hsame
    obtain ⟨-, -, -, -, -, -, hfbytes, -⟩ := (hscripts f).mp ((Grouping.mem_sort _).mp hf)
    obtain ⟨-, -, -, -, -, -, hgbytes, -⟩ := (hscripts g).mp ((Grouping.mem_sort _).mp hg)
    rw [hsame, hgbytes] at hfbytes
    cases f
    cases g
    cases hfbytes
    cases hsame
    rfl
  refine ⟨hub, hhub, ?_, ?_, ?_, ?_, ?_⟩
  · refine ⟨bytes, emit ["SKILL.md"] (byRelPath companions), emit seen' (byRelPath scripts),
      by rw [happend], hbytes, emit_sorted _ _, ?_, emit_sorted _ _, ?_⟩
    · intro f
      rw [mem_emit hcompanion, byRelPath, Grouping.mem_sort, hmembers, List.mem_singleton]
    · intro f
      rw [mem_emit hscript, byRelPath, Grouping.mem_sort, hscripts, hseen]
      constructor
      · rintro ⟨hf, hnew⟩
        refine ⟨hf, fun c hc hpath => hnew (Or.inr ⟨c, ?_, hpath⟩)⟩
        exact (Grouping.mem_sort _).mpr ((hmembers c).mpr hc)
      · rintro ⟨hf, hnew⟩
        refine ⟨hf, ?_⟩
        rintro (hhead | ⟨c, hc, hpath⟩)
        · obtain ⟨man, -, file, -, hmd, hpath, -⟩ := hf
          rw [hpath, List.mem_singleton.mp hhead] at hmd
          exact absurd hmd (by decide)
        · exact hnew c ((hmembers c).mp ((Grouping.mem_sort _).mp hc)) hpath
  · obtain ⟨hfresh, hnodup⟩ :=
      emit_nodup ["SKILL.md"] (byRelPath companions ++ byRelPath scripts)
    refine List.nodup_cons.mpr ⟨?_, hnodup⟩
    intro hmem
    obtain ⟨f, hf, hpath⟩ := List.mem_map.mp hmem
    exact hfresh f hf (List.mem_singleton.mpr hpath)
  · intro g hg hslug m hm
    obtain ⟨f, hf, hpath⟩ := hgroup g hg hslug m hm
    exact ⟨f, (hmembers f).mp hf, hpath⟩
  · intro man hman file hfile hmd
    obtain ⟨f, hf, hpath⟩ := hdeclared man hman file hfile hmd
    exact ⟨f, (hscripts f).mp hf, hpath⟩
  · intro f hf
    obtain rfl | hf := List.mem_cons.mp hf
    · exact (okSkillPath_iff "SKILL.md").mp (by decide)
    · obtain hf | hf := List.mem_append.mp ((emit_sublist _ _).subset hf)
      · exact hsafe f ((Grouping.mem_sort _).mp hf)
      · exact hsafeScripts f ((Grouping.mem_sort _).mp hf)

/-- **The files of a skill.** Every entry of a registry that is no system file is listed once, as
a hub, as a member of the group of its directory or flat, whatever the order of the entries; and
a bundle that succeeds has the hub as `SKILL.md`, the companions of the group and the declared
payloads, each path once from its first producer, all of them safe and in order.
SOURCE: skill_group.rs:29-84, skill_bundle.rs:48-156, concept.rs:60-80 -/
theorem skills_complete :
    (∀ entries, Registry entries → Grouped entries (groupSkills entries) ∧
      ∀ entries', entries.Perm entries' → groupSkills entries' = groupSkills entries) ∧
    ∀ shelf slug files, Registry shelf.store.registry → bundleSkillFiles shelf slug = .ok files →
      ∃ hub, readHub shelf slug = .ok hub ∧ Bundled shelf slug hub files := by
  constructor
  · intro entries h
    exact ⟨grouped_groupSkills h, fun entries' hperm => (groupSkills_perm h hperm).symm⟩
  · intro shelf slug files hreg h
    exact bundled_of_ok hreg h

/-- A skill with a script and a companion that has the install name of the hub. -/
def twoNames : Shelf where
  codec :=
    { toYaml := fun fm => .ok fm.conceptType
      fromYaml := fun yaml => .ok
        { conceptType := yaml
          skill := if yaml = "Skill\n" then some { files := [{ path := "run.sh" }] } else none }
      isRfc3339 := fun _ => true }
  store :=
    { Store.empty "skills" with
      files := fun path =>
        if path = "/s/skill.md" then some "---\nSkill\n---\nRun it."
        else if path = "/s/SKILL.md" then some "---\nNote\n---\nKeep it."
        else none
      registry := [⟨"/s/SKILL.md", "s", "Note", ""⟩, ⟨"/s/skill.md", "s", "Skill", ""⟩] }
  payload := fun path => if path = "/s/run.sh" then .ok [35, 33] else .error .io
  md5Hex := fun _ => ""

theorem skills_complete_twoNames : ∃ files, bundleSkillFiles twoNames "s" = .ok files ∧
    ∃ hub, readHub twoNames "s" = .ok hub ∧ Bundled twoNames "s" hub files := by
  have hreg : Registry twoNames.store.registry := ⟨by decide, by decide⟩
  cases hfiles : bundleSkillFiles twoNames "s" with
  | ok files => exact ⟨files, rfl, skills_complete.2 twoNames "s" files hreg hfiles⟩
  | error e =>
    have hok : (bundleSkillFiles twoNames "s").isOk = true := by decide +kernel
    rw [hfiles] at hok
    cases hok

/-- **A companion that is dropped.** The companion at `/s/SKILL.md` has the path of the hub in the
bundle, and its file is not there. -/
theorem companion_dropped :
    ¬ ∀ shelf slug files, Registry shelf.store.registry → bundleSkillFiles shelf slug = .ok files →
      ∀ f, CompanionFile shelf slug f → f ∈ files := by
  intro hall
  have hreg : Registry twoNames.store.registry := ⟨by decide, by decide⟩
  cases hfiles : bundleSkillFiles twoNames "s" with
  | error e =>
    have hok : (bundleSkillFiles twoNames "s").isOk = true := by decide +kernel
    rw [hfiles] at hok
    cases hok
  | ok files =>
    have hin := hall twoNames "s" files hreg hfiles
      { relPath := "SKILL.md", bytes := intoBytes "---\nNote\n---\nKeep it." } ?_
    · have hnot : ((bundleSkillFiles twoNames "s").toOption.getD []).all (fun f =>
          f.bytes ≠ intoBytes "---\nNote\n---\nKeep it.") = true := by decide +kernel
      rw [hfiles] at hnot
      exact absurd rfl (of_decide_eq_true (List.all_eq_true.mp hnot _ hin))
    · exact ⟨⟨"s", ⟨"/s/skill.md", "s", "Skill", ""⟩, [⟨"/s/SKILL.md", "s", "Note", ""⟩]⟩,
        by decide +kernel, rfl, _, List.mem_cons_self, rfl, ⟨_, "Keep it.", "/s/SKILL.md"⟩, rfl, rfl⟩

end Mycelium.Analysis.BundleFiles
