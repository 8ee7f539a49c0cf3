import Mathlib.Data.Finset.Sort
import Mathlib.Data.Prod.Lex
import Mathlib.Data.String.Basic
import Mycelium.Lib.Dict
import Mycelium.Model.Concepts
import Mycelium.Model.Links

/-!
# The link graph

The nodes, edges, broken links and orphans of a list of concepts. The hash sets of the code
are finite sets, its sorted vectors their sorted lists; an edge is ordered by its source,
then by its target.

SOURCE: crates/mycelium-core/src/graph.rs
-/

set_option autoImplicit false

namespace Mycelium.Model.LinkGraph

open Mycelium.Model.Concepts Mycelium.Model.Links

/-- SOURCE: graph.rs:11-16 -/
structure Node where
  id : String
  title : String
  conceptType : String
  deriving DecidableEq, Repr

/-- A link from a concept to a target. SOURCE: graph.rs:18-22 -/
structure Edge where
  source : String
  target : String
  deriving DecidableEq, Repr

/-- SOURCE: graph.rs:24-28 -/
abbrev BrokenLink := Edge

def Edge.toPair (e : Edge) : String ×ₗ String := toLex (e.source, e.target)

theorem Edge.toPair_injective : Function.Injective Edge.toPair := by
  rintro ⟨a, b⟩ ⟨c, d⟩ h
  have hpair : (a, b) = (c, d) := toLex.injective h
  cases hpair
  rfl

instance : LinearOrder Edge := LinearOrder.lift' Edge.toPair Edge.toPair_injective

/-- SOURCE: graph.rs:38-47 -/
structure Graph where
  nodes : Dict String Node
  edges : List Edge
  brokenLinks : List BrokenLink
  orphans : List String

/-- The sets a build collects. -/
structure LinkSets where
  edges : Finset Edge
  broken : Finset BrokenLink
  linked : Finset String

/-- One scanned target of the concept at a path. SOURCE: graph.rs:101-108 -/
def addTarget (known : Finset String) (path : String) (sets : LinkSets) (target : String) :
    LinkSets :=
  { edges := if target ∈ known then insert ⟨path, target⟩ sets.edges else sets.edges
    broken := if target ∈ known then sets.broken else insert ⟨path, target⟩ sets.broken
    linked := insert target (insert path sets.linked) }

def addConcept (known : Finset String) (sets : LinkSets) (c : Concept) : LinkSets :=
  (scanLinks c.body).foldl (addTarget known c.sourcePath) sets

def nodeOf (c : Concept) : Node where
  id := c.sourcePath
  title := c.frontmatter.title.getD c.sourcePath
  conceptType := c.frontmatter.conceptType

/-- The paths of the concepts. -/
def knownPaths (concepts : List Concept) : Finset String :=
  (concepts.map Concept.sourcePath).toFinset

def linkSets (concepts : List Concept) : LinkSets :=
  concepts.foldl (addConcept (knownPaths concepts)) ⟨∅, ∅, ∅⟩

def nodesOf (concepts : List Concept) : Dict String Node :=
  concepts.foldl (fun nodes c => nodes.insert c.sourcePath (nodeOf c)) ∅

/-- SOURCE: graph.rs:71-132 -/
def buildGraph (concepts : List Concept) : Graph :=
  let nodes := nodesOf concepts
  let sets := linkSets concepts
  { nodes
    edges := sets.edges.sort
    brokenLinks := sets.broken.sort
    orphans := ((nodes.entries.map Sigma.fst).toFinset.filter (· ∉ sets.linked)).sort }

end Mycelium.Model.LinkGraph
