import Mycelium.Model.LinkGraph

/-!
# What the link graph says

1. *The sets of a build.* Each holds exactly what one of the concepts puts into it
   (`mem_linkSets`).
2. *The graph.* Its edges, broken links and orphans are sorted lists of such sets, so they do
   not depend on the order of the concepts (`buildGraph_perm`).
3. *Orphans.* A concept whose links are all broken counts as linked. The orphans are the
   concepts without edges if and only if there is no such concept without an edge
   (`graph_exact_iff`).
-/

set_option autoImplicit false

namespace Mycelium.Analysis.GraphOrphans

open Mycelium.Model.Concepts Mycelium.Model.Links Mycelium.Model.LinkGraph

/-! ## The sets of a build -/

/-- The link of a concept to a target it has in its body. -/
def Links (c : Concept) (target : String) : Prop := target ∈ scanLinks c.body

instance (c : Concept) (target : String) : Decidable (Links c target) :=
  inferInstanceAs (Decidable (target ∈ scanLinks c.body))

/-- INTERNAL: what the targets of one concept add. -/
theorem mem_foldl_addTarget (known : Finset String) (path : String) (targets : List String)
    (sets : LinkSets) :
    (∀ e, e ∈ (targets.foldl (addTarget known path) sets).edges ↔
        e ∈ sets.edges ∨ (e.source = path ∧ e.target ∈ targets ∧ e.target ∈ known)) ∧
      (∀ e, e ∈ (targets.foldl (addTarget known path) sets).broken ↔
        e ∈ sets.broken ∨ (e.source = path ∧ e.target ∈ targets ∧ e.target ∉ known)) ∧
      ∀ id, id ∈ (targets.foldl (addTarget known path) sets).linked ↔
        id ∈ sets.linked ∨ (targets ≠ [] ∧ id = path) ∨ id ∈ targets := by
  induction targets generalizing sets with
  | nil => simp
  | cons target targets ih =>
    obtain ⟨hedges, hbroken, hlinked⟩ := ih (addTarget known path sets target)
    have hedge (e : Edge) : e = ⟨path, target⟩ ↔ e.source = path ∧ e.target = target := by
      cases e
      simp
    rw [List.foldl_cons]
    refine ⟨?_, ?_, ?_⟩
    · intro e
      rw [hedges]
      by_cases hknown : target ∈ known
      · simp only [addTarget, hknown, if_true, Finset.mem_insert, hedge, List.mem_cons]
        grind
      · simp only [addTarget, hknown, if_false, List.mem_cons]
        grind
    · intro e
      rw [hbroken]
      by_cases hknown : target ∈ known
      · simp only [addTarget, hknown, if_true, List.mem_cons]
        grind
      · simp only [addTarget, hknown, if_false, Finset.mem_insert, hedge, List.mem_cons]
        grind
    · intro id
      rw [hlinked]
      simp only [addTarget, Finset.mem_insert, List.mem_cons]
      grind

/-- INTERNAL: what a list of concepts adds. -/
theorem mem_foldl_addConcept (known : Finset String) (concepts : List Concept)
    (sets : LinkSets) :
    (∀ e, e ∈ (concepts.foldl (addConcept known) sets).edges ↔
        e ∈ sets.edges ∨ (∃ c ∈ concepts, e.source = c.sourcePath ∧ Links c e.target) ∧
          e.target ∈ known) ∧
      (∀ e, e ∈ (concepts.foldl (addConcept known) sets).broken ↔
        e ∈ sets.broken ∨ (∃ c ∈ concepts, e.source = c.sourcePath ∧ Links c e.target) ∧
          e.target ∉ known) ∧
      ∀ id, id ∈ (concepts.foldl (addConcept known) sets).linked ↔
        id ∈ sets.linked ∨ (∃ c ∈ concepts, id = c.sourcePath ∧ ∃ target, Links c target) ∨
          ∃ c ∈ concepts, Links c id := by
  induction concepts generalizing sets with
  | nil => simp
  | cons c concepts ih =>
    obtain ⟨hedges, hbroken, hlinked⟩ := ih (addConcept known sets c)
    obtain ⟨hedges', hbroken', hlinked'⟩ :=
      mem_foldl_addTarget known c.sourcePath (scanLinks c.body) sets
    rw [List.foldl_cons]
    refine ⟨?_, ?_, ?_⟩
    · intro e
      rw [hedges, addConcept, hedges']
      simp only [List.mem_cons, exists_eq_or_imp, Links]
      grind
    · intro e
      rw [hbroken, addConcept, hbroken']
      simp only [List.mem_cons, exists_eq_or_imp, Links]
      grind
    · intro id
      have hsome : scanLinks c.body ≠ [] ↔ ∃ target, target ∈ scanLinks c.body := by
        rw [ne_eq, List.eq_nil_iff_forall_not_mem, not_forall_not]
      rw [hlinked, addConcept, hlinked', hsome]
      simp only [List.mem_cons, exists_eq_or_imp, Links]
      grind

theorem mem_knownPaths {concepts : List Concept} {id : String} :
    id ∈ knownPaths concepts ↔ ∃ c ∈ concepts, c.sourcePath = id := by
  simp [knownPaths]

/-- The three sets, for the concepts of a bundle. -/
theorem mem_linkSets (concepts : List Concept) :
    (∀ e, e ∈ (linkSets concepts).edges ↔
        (∃ c ∈ concepts, e.source = c.sourcePath ∧ Links c e.target) ∧
          e.target ∈ knownPaths concepts) ∧
      (∀ e, e ∈ (linkSets concepts).broken ↔
        (∃ c ∈ concepts, e.source = c.sourcePath ∧ Links c e.target) ∧
          e.target ∉ knownPaths concepts) ∧
      ∀ id, id ∈ (linkSets concepts).linked ↔
        (∃ c ∈ concepts, id = c.sourcePath ∧ ∃ target, Links c target) ∨
          ∃ c ∈ concepts, Links c id := by
  obtain ⟨hedges, hbroken, hlinked⟩ :=
    mem_foldl_addConcept (knownPaths concepts) concepts ⟨∅, ∅, ∅⟩
  refine ⟨?_, ?_, ?_⟩
  · intro e
    rw [linkSets, hedges]
    simp
  · intro e
    rw [linkSets, hbroken]
    simp
  · intro id
    rw [linkSets, hlinked]
    simp

/-! ## Nodes -/

theorem get?_foldl_nodes (concepts : List Concept) (nodes : Dict String Node) (id : String) :
    (concepts.foldl (fun nodes c => nodes.insert c.sourcePath (nodeOf c)) nodes).get? id =
      (((concepts.reverse.find? fun c => c.sourcePath = id).map nodeOf).or (nodes.get? id)) := by
  induction concepts generalizing nodes with
  | nil => simp
  | cons c concepts ih =>
    rw [List.foldl_cons, ih, Dict.get?_insert, List.reverse_cons, List.find?_append]
    by_cases hid : id = c.sourcePath
    · subst hid
      cases concepts.reverse.find? fun d => d.sourcePath = c.sourcePath with
      | none => simp
      | some d => simp
    · simp [hid, Ne.symm hid]

/-- INTERNAL: the node at a path, when no two concepts share one. -/
theorem nodes_get? {concepts : List Concept} (hdistinct : (concepts.map Concept.sourcePath).Nodup)
    (id : String) : (nodesOf concepts).get? id =
      (concepts.find? fun c => c.sourcePath = id).map nodeOf := by
  have hfirst : (concepts.reverse.find? fun c => c.sourcePath = id) =
      concepts.find? fun c => c.sourcePath = id := by
    apply Option.ext
    intro c
    have hone {l : List Concept} (hl : (l.map Concept.sourcePath).Nodup) :
        (l.find? fun c => c.sourcePath = id) = some c ↔ c ∈ l ∧ c.sourcePath = id := by
      constructor
      · intro hfind
        exact ⟨List.mem_of_find?_eq_some hfind, by simpa using List.find?_some hfind⟩
      · rintro ⟨hc, hid⟩
        cases hfind : l.find? fun c => c.sourcePath = id with
        | none =>
          have hnone := List.find?_eq_none.mp hfind c hc
          exact absurd hid (by simpa using hnone)
        | some d =>
          have hd : d.sourcePath = id := by simpa using List.find?_some hfind
          have hsame := List.inj_on_of_nodup_map hl (List.mem_of_find?_eq_some hfind) hc
            (hd.trans hid.symm)
          rw [hsame]
    rw [hone hdistinct, hone (by rw [List.map_reverse]; exact List.nodup_reverse.mpr hdistinct),
      List.mem_reverse]
  rw [nodesOf, get?_foldl_nodes, hfirst]
  simp

theorem mem_nodeIds (concepts : List Concept) (id : String) :
    id ∈ ((nodesOf concepts).entries.map Sigma.fst).toFinset ↔ id ∈ knownPaths concepts := by
  have hkeys : id ∈ (nodesOf concepts).entries.map Sigma.fst ↔
      ∃ node, (nodesOf concepts).get? id = some node := by
    constructor
    · intro hid
      obtain ⟨⟨key, node⟩, hentry, rfl⟩ := List.mem_map.mp hid
      exact ⟨node, Dict.mem_entries.mp hentry⟩
    · rintro ⟨node, hnode⟩
      exact List.mem_map.mpr ⟨⟨id, node⟩, Dict.mem_entries.mpr hnode, rfl⟩
  rw [List.mem_toFinset, hkeys, nodesOf, mem_knownPaths]
  simp only [get?_foldl_nodes, Dict.get?_empty, Option.or_none]
  constructor
  · rintro ⟨node, hnode⟩
    obtain ⟨c, hfind, -⟩ := Option.map_eq_some_iff.mp hnode
    exact ⟨c, List.mem_reverse.mp (List.mem_of_find?_eq_some hfind),
      by simpa using List.find?_some hfind⟩
  · rintro ⟨c, hc, hid⟩
    have hsome : (concepts.reverse.find? fun c => c.sourcePath = id).isSome = true := by
      rw [List.find?_isSome]
      exact ⟨c, List.mem_reverse.mpr hc, by simpa using hid⟩
    obtain ⟨d, hd⟩ := Option.isSome_iff_exists.mp hsome
    exact ⟨nodeOf d, by rw [hd]; rfl⟩

/-! ## The graph -/

variable {concepts : List Concept}

theorem mem_edges (e : Edge) : e ∈ (buildGraph concepts).edges ↔
    (∃ c ∈ concepts, e.source = c.sourcePath ∧ Links c e.target) ∧
      e.target ∈ knownPaths concepts := by
  rw [buildGraph, Finset.mem_sort]
  exact (mem_linkSets concepts).1 e

theorem mem_brokenLinks (e : BrokenLink) : e ∈ (buildGraph concepts).brokenLinks ↔
    (∃ c ∈ concepts, e.source = c.sourcePath ∧ Links c e.target) ∧
      e.target ∉ knownPaths concepts := by
  rw [buildGraph, Finset.mem_sort]
  exact (mem_linkSets concepts).2.1 e

theorem mem_orphans (id : String) : id ∈ (buildGraph concepts).orphans ↔
    id ∈ knownPaths concepts ∧ ¬ ((∃ c ∈ concepts, id = c.sourcePath ∧ ∃ target, Links c target) ∨
      ∃ c ∈ concepts, Links c id) := by
  simp only [buildGraph, Finset.mem_sort, Finset.mem_filter, mem_nodeIds,
    (mem_linkSets concepts).2.2]

/-- The same graph: a hash map is what its look-ups give. -/
structure SameGraph (g g' : Graph) : Prop where
  nodes : ∀ id, g.nodes.get? id = g'.nodes.get? id
  edges : g.edges = g'.edges
  brokenLinks : g.brokenLinks = g'.brokenLinks
  orphans : g.orphans = g'.orphans

/-- INTERNAL: the graph does not depend on the order of the concepts. -/
theorem buildGraph_perm {concepts' : List Concept}
    (hdistinct : (concepts.map Concept.sourcePath).Nodup) (hperm : concepts'.Perm concepts) :
    SameGraph (buildGraph concepts') (buildGraph concepts) := by
  have hdistinct' : (concepts'.map Concept.sourcePath).Nodup :=
    (hperm.map Concept.sourcePath).nodup_iff.mpr hdistinct
  have hsome {p : Concept → Prop} : (∃ c ∈ concepts', p c) ↔ ∃ c ∈ concepts, p c := by
    simp only [hperm.mem_iff]
  have hknown : knownPaths concepts' = knownPaths concepts := by
    ext id
    rw [mem_knownPaths, mem_knownPaths, hsome]
  obtain ⟨hedges, hbroken, hlinked⟩ := mem_linkSets concepts
  obtain ⟨hedges', hbroken', hlinked'⟩ := mem_linkSets concepts'
  have hsets : (linkSets concepts').edges = (linkSets concepts).edges ∧
      (linkSets concepts').broken = (linkSets concepts).broken ∧
      (linkSets concepts').linked = (linkSets concepts).linked := by
    refine ⟨?_, ?_, ?_⟩
    · ext e
      rw [hedges, hedges', hknown, hsome]
    · ext e
      rw [hbroken, hbroken', hknown, hsome]
    · ext id
      rw [hlinked, hlinked', hsome, hsome]
  have hids : ((nodesOf concepts').entries.map Sigma.fst).toFinset =
      ((nodesOf concepts).entries.map Sigma.fst).toFinset := by
    ext id
    rw [mem_nodeIds, mem_nodeIds, hknown]
  refine ⟨?_, ?_, ?_, ?_⟩
  · intro id
    show (nodesOf concepts').get? id = (nodesOf concepts).get? id
    have hfound {l : List Concept} (hl : (l.map Concept.sourcePath).Nodup) (node : Node) :
        (nodesOf l).get? id = some node ↔ ∃ c ∈ l, c.sourcePath = id ∧ nodeOf c = node := by
      rw [nodes_get? hl, Option.map_eq_some_iff]
      constructor
      · rintro ⟨c, hfind, hnode⟩
        exact ⟨c, List.mem_of_find?_eq_some hfind, by simpa using List.find?_some hfind, hnode⟩
      · rintro ⟨c, hc, hid, hnode⟩
        have hsome : (l.find? fun d => d.sourcePath = id).isSome = true := by
          rw [List.find?_isSome]
          exact ⟨c, hc, by simpa using hid⟩
        obtain ⟨d, hd⟩ := Option.isSome_iff_exists.mp hsome
        have hdc : d = c := List.inj_on_of_nodup_map hl (List.mem_of_find?_eq_some hd) hc
          ((by simpa using List.find?_some hd : d.sourcePath = id).trans hid.symm)
        exact ⟨d, hd, by rw [hdc]; exact hnode⟩
    apply Option.ext
    intro node
    rw [hfound hdistinct, hfound hdistinct', hsome]
  · show (linkSets concepts').edges.sort = (linkSets concepts).edges.sort
    rw [hsets.1]
  · show (linkSets concepts').broken.sort = (linkSets concepts).broken.sort
    rw [hsets.2.1]
  · simp only [buildGraph, hids, hsets.2.2]

/-! ## Exactness -/

/-- The graph is the one of the links: one edge for each link to a present concept, one broken
link for each to an absent one, and the concepts without edges as orphans, in order and
without repetitions, whatever the order of the concepts. -/
structure Exact (concepts : List Concept) : Prop where
  edges : ∀ c ∈ concepts, ∀ b, (buildGraph concepts).edges.count ⟨c.sourcePath, b⟩ =
    if Links c b ∧ b ∈ knownPaths concepts then 1 else 0
  broken : ∀ c ∈ concepts, ∀ b, (buildGraph concepts).brokenLinks.count ⟨c.sourcePath, b⟩ =
    if Links c b ∧ b ∉ knownPaths concepts then 1 else 0
  sources : ∀ e, e ∈ (buildGraph concepts).edges ∨ e ∈ (buildGraph concepts).brokenLinks →
    e.source ∈ knownPaths concepts
  orphans : ∀ id, id ∈ (buildGraph concepts).orphans ↔ id ∈ knownPaths concepts ∧
    ∀ e ∈ (buildGraph concepts).edges, e.source ≠ id ∧ e.target ≠ id
  sorted : (buildGraph concepts).edges.SortedLT ∧ (buildGraph concepts).brokenLinks.SortedLT ∧
    (buildGraph concepts).orphans.SortedLT
  order : ∀ concepts', concepts'.Perm concepts →
    SameGraph (buildGraph concepts') (buildGraph concepts)

/-- Each concept with a link to an absent target has an edge: a link to a present concept, or
from one. -/
def BrokenHaveEdges (concepts : List Concept) : Prop :=
  ∀ c ∈ concepts, (∃ target, Links c target ∧ target ∉ knownPaths concepts) →
    (∃ target, Links c target ∧ target ∈ knownPaths concepts) ∨ ∃ d ∈ concepts, Links d c.sourcePath

/-- INTERNAL: the one concept at a path. -/
theorem links_at {c : Concept} (hdistinct : (concepts.map Concept.sourcePath).Nodup)
    (hc : c ∈ concepts) (b : String) :
    (∃ d ∈ concepts, c.sourcePath = d.sourcePath ∧ Links d b) ↔ Links c b := by
  constructor
  · rintro ⟨d, hd, hpath, hlinks⟩
    rw [List.inj_on_of_nodup_map hdistinct hc hd hpath]
    exact hlinks
  · intro hlinks
    exact ⟨c, hc, rfl, hlinks⟩

theorem count_of_nodup {l : List Edge} (hl : l.Nodup) (e : Edge) :
    l.count e = if e ∈ l then 1 else 0 := by
  split
  · rename_i he
    exact List.count_eq_one_of_mem hl he
  · rename_i he
    exact List.count_eq_zero_of_not_mem he

/-- INTERNAL: which concepts have no edge. -/
theorem no_edge_iff (hdistinct : (concepts.map Concept.sourcePath).Nodup) {c : Concept}
    (hc : c ∈ concepts) : (∀ e ∈ (buildGraph concepts).edges, e.source ≠ c.sourcePath ∧
      e.target ≠ c.sourcePath) ↔
        (∀ target, Links c target → target ∉ knownPaths concepts) ∧
          ∀ d ∈ concepts, ¬ Links d c.sourcePath := by
  constructor
  · intro hnone
    constructor
    · intro target hlinks hknown
      exact (hnone ⟨c.sourcePath, target⟩ ((mem_edges _).mpr ⟨⟨c, hc, rfl, hlinks⟩, hknown⟩)).1 rfl
    · intro d hd hlinks
      have hknown : c.sourcePath ∈ knownPaths concepts := mem_knownPaths.mpr ⟨c, hc, rfl⟩
      exact (hnone ⟨d.sourcePath, c.sourcePath⟩
        ((mem_edges _).mpr ⟨⟨d, hd, rfl, hlinks⟩, hknown⟩)).2 rfl
  · rintro ⟨hout, hin⟩ e he
    obtain ⟨⟨d, hd, hsource, hlinks⟩, hknown⟩ := (mem_edges e).mp he
    constructor
    · intro hpath
      have hdc : d = c := List.inj_on_of_nodup_map hdistinct hd hc (hsource.symm.trans hpath)
      exact hout e.target (hdc ▸ hlinks) hknown
    · intro hpath
      exact hin d hd (hpath ▸ hlinks)

/-- **The exact condition.** For concepts at distinct paths the graph is the one of the links
if and only if each concept with a broken link has an edge as well.
SOURCE: graph.rs:62-132 -/
theorem graph_exact_iff (concepts : List Concept)
    (hdistinct : (concepts.map Concept.sourcePath).Nodup) :
    Exact concepts ↔ BrokenHaveEdges concepts := by
  have hsorted : (buildGraph concepts).edges.SortedLT ∧
      (buildGraph concepts).brokenLinks.SortedLT ∧ (buildGraph concepts).orphans.SortedLT := by
    simp only [buildGraph]
    exact ⟨Finset.sortedLT_sort _, Finset.sortedLT_sort _, Finset.sortedLT_sort _⟩
  constructor
  · rintro hexact c hc ⟨target, hlinks, -⟩
    by_contra hnone
    rw [not_or, not_exists, not_exists] at hnone
    -- without an edge the concept should be an orphan, but it counts as linked
    have horphan : c.sourcePath ∈ (buildGraph concepts).orphans := by
      apply (hexact.orphans c.sourcePath).mpr
      refine ⟨mem_knownPaths.mpr ⟨c, hc, rfl⟩, (no_edge_iff hdistinct hc).mpr ⟨?_, ?_⟩⟩
      · intro b hb hknown
        exact hnone.1 b ⟨hb, hknown⟩
      · intro d hd hd'
        exact hnone.2 d ⟨hd, hd'⟩
    exact ((mem_orphans c.sourcePath).mp horphan).2 (.inl ⟨c, hc, rfl, target, hlinks⟩)
  · intro hedges
    refine ⟨?_, ?_, ?_, ?_, hsorted, fun concepts' => buildGraph_perm hdistinct⟩
    · intro c hc b
      rw [count_of_nodup hsorted.1.nodup]
      simp only [mem_edges, links_at hdistinct hc]
    · intro c hc b
      rw [count_of_nodup hsorted.2.1.nodup]
      simp only [mem_brokenLinks, links_at hdistinct hc]
    · rintro e (he | he)
      · obtain ⟨⟨c, hc, hsource, -⟩, -⟩ := (mem_edges e).mp he
        exact mem_knownPaths.mpr ⟨c, hc, hsource.symm⟩
      · obtain ⟨⟨c, hc, hsource, -⟩, -⟩ := (mem_brokenLinks e).mp he
        exact mem_knownPaths.mpr ⟨c, hc, hsource.symm⟩
    · intro id
      rw [mem_orphans]
      refine and_congr_right fun hid => ?_
      obtain ⟨c, hc, rfl⟩ := mem_knownPaths.mp hid
      rw [no_edge_iff hdistinct hc]
      constructor
      · intro hunlinked
        rw [not_or] at hunlinked
        constructor
        · intro target hlinks
          exact absurd ⟨c, hc, rfl, target, hlinks⟩ hunlinked.1
        · intro d hd hlinks
          exact hunlinked.2 ⟨d, hd, hlinks⟩
      · rintro ⟨hout, hin⟩ hlinked
        have hnolinks : ∀ target, ¬ Links c target := by
          intro target hlinks
          rcases hedges c hc ⟨target, hlinks, hout target hlinks⟩ with ⟨b, hb, hknown⟩ | ⟨d, hd, hd'⟩
          · exact hout b hb hknown
          · exact hin d hd hd'
        rcases hlinked with ⟨d, hd, hpath, target, hlinks⟩ | ⟨d, hd, hlinks⟩
        · have hdc : c = d := List.inj_on_of_nodup_map hdistinct hc hd hpath
          exact hnolinks target (hdc ▸ hlinks)
        · exact hin d hd hlinks

/-! ## Two bundles -/

def graphNote (path body : String) : Concept where
  frontmatter := { conceptType := "Note" }
  body
  sourcePath := path

/-- Two notes, one of which links to the other. -/
def linkedNotes : List Concept :=
  [graphNote "/a.md" "see [B](/b.md)", graphNote "/b.md" "text"]

theorem graph_exact_notes : Exact linkedNotes ↔ BrokenHaveEdges linkedNotes :=
  graph_exact_iff linkedNotes (by decide)

/-- The only link of the note is broken: it has no edge and is no orphan. -/
theorem broken_link_hides_orphan :
    ¬ ∀ concepts : List Concept, (concepts.map Concept.sourcePath).Nodup → Exact concepts := by
  intro hall
  have hexact := hall [graphNote "/a.md" "see [B](/b.md)"] (by decide)
  have horphan : "/a.md" ∈ (buildGraph [graphNote "/a.md" "see [B](/b.md)"]).orphans := by
    apply (hexact.orphans "/a.md").mpr
    refine ⟨by decide, ?_⟩
    intro e he
    obtain ⟨⟨c, hc, -, hlinks⟩, hknown⟩ := (mem_edges e).mp he
    rw [List.mem_singleton.mp hc] at hlinks
    have htarget : e.target = "/b.md" := by
      have hscan : scanLinks (graphNote "/a.md" "see [B](/b.md)").body = ["/b.md"] := by decide
      rw [Links, hscan] at hlinks
      exact List.mem_singleton.mp hlinks
    rw [htarget] at hknown
    exact absurd hknown (by decide)
  exact ((mem_orphans "/a.md").mp horphan).2
    (.inl ⟨_, List.mem_singleton_self _, rfl, "/b.md", by decide⟩)

end Mycelium.Analysis.GraphOrphans
