import Descent.Voronoi.Assignment

/-!
# Voronoi partitions

A partition keeps a set of open generators, the nearest of them for every vertex, and the total
cost. Opening a generator offers it to every site; closing one finds a new service for the sites
that it leaves behind. Both return by how much the cost changed, and adjust the running cost by
that change; only when the partition had no generator, or has none left, is the cost added up
anew.
-/

namespace Descent

/-- Open generators, the assignment of the vertices to them, and its cost. -/
structure Voronoi (V D : Type) [Vertex V] where
  generators : AscendingSet V
  assignment : Assignment V D
  cost : D

namespace Voronoi

variable {V D : Type} [Vertex V] [Distance D]

/-- Gives one site the service of its nearest generator. -/
def seat (space : Space V D) (generators : AscendingSet V) (a : Assignment V D)
    (site : Site V D × Nat) : Checked (Assignment V D) := do
  match ← Service.nearest space generators.toList site.1.vertex with
  | some s => pure (a.assign site.2 s)
  | none => pure a

/-- The partition of a list of vertices among a list of generators. -/
def build (space : Space V D) (generators vertices : List V) : Checked (Voronoi V D) := do
  let generators := AscendingSet.ofList generators
  let start : Assignment V D := .ofVertices vertices
  let assignment ← start.sites.zipIdx.foldlM (seat space generators) start
  let cost ← assignment.total space
  pure { generators, assignment, cost }

/-- The vertices, each once, in the order in which they were first listed. -/
def vertices (p : Voronoi V D) : List V := p.assignment.vertices

/-- The generator of a vertex. -/
def generatorOf? (p : Voronoi V D) (v : V) : Option V :=
  (p.assignment.serviceOf? v).map Service.generator

/-- The distance of a vertex to its generator. -/
def distanceOf? (p : Voronoi V D) (v : V) : Option D :=
  (p.assignment.serviceOf? v).map Service.distance

/-- The vertices that a generator serves, in the order of the vertices. -/
def verticesFor (p : Voronoi V D) (g : V) : Checked (List V) :=
  (p.assignment.positions g).toList.mapM fun i => do
    pure (← Position.entry p.assignment.sites i).vertex

/-- How many vertices a generator serves. -/
def countFor (p : Voronoi V D) (g : V) : Nat := (p.assignment.positions g).size

/-- The cost of all vertices, added up anew. -/
def recompute (space : Space V D) (p : Voronoi V D) : Checked D := p.assignment.total space

/-- The cost after a change: adjusted by the change, or added up anew at the boundary where there
is no generator. -/
def settle (space : Space V D) (before : D) (atBoundary : Bool) (delta : D)
    (a : Assignment V D) : Checked D :=
  if atBoundary then a.total space else Distance.add before delta

/-- Offers a new generator to one site, which takes it if it is closer than its service. -/
def offer (space : Space V D) (g : V) (acc : D × Assignment V D) (site : Site V D × Nat) :
    Checked (D × Assignment V D) := do
  let d ← space.distance site.1.vertex g
  match site.1.service with
  | none =>
    let change ← Distance.sub d space.unserved
    pure (← Distance.add acc.1 change, acc.2.assign site.2 ⟨g, d⟩)
  | some old =>
    if Service.closer ⟨g, d⟩ old then do
      let change ← Distance.sub d old.distance
      pure (← Distance.add acc.1 change, acc.2.assign site.2 ⟨g, d⟩)
    else pure acc

/-- Opens a generator that is not open, and returns the change of the cost. -/
def openGenerator (space : Space V D) (p : Voronoi V D) (g : V) :
    Checked (D × Voronoi V D) := do
  if g ∈ p.generators then throw (.alreadyOpen .opening (Vertex.label g))
  let (delta, assignment) ←
    p.assignment.sites.zipIdx.foldlM (offer space g) (Gain.zero, p.assignment)
  let cost ← settle space p.cost p.generators.isEmpty delta assignment
  pure (delta, { generators := p.generators.insert g, assignment, cost })

/-- Finds a new service, among the remaining generators, for a site whose generator closes. -/
def rehome (space : Space V D) (remaining : AscendingSet V) (acc : D × Assignment V D)
    (i : Nat) : Checked (D × Assignment V D) := do
  let site ← Position.entry acc.2.sites i
  match site.service with
  | none => pure acc
  | some old =>
    match ← Service.nearest space remaining.toList site.vertex with
    | some s =>
      let change ← Distance.sub s.distance old.distance
      pure (← Distance.add acc.1 change, acc.2.assign i s)
    | none =>
      let change ← Distance.sub space.unserved old.distance
      pure (← Distance.add acc.1 change, acc.2.vacate i)

/-- Closes an open generator, and returns the change of the cost. -/
def closeGenerator (space : Space V D) (p : Voronoi V D) (g : V) :
    Checked (D × Voronoi V D) := do
  if g ∉ p.generators then throw (.notOpen .closing (Vertex.label g))
  let remaining := p.generators.erase g
  let (delta, assignment) ←
    (p.assignment.positions g).toList.foldlM (rehome space remaining)
      (Gain.zero, p.assignment.detach g)
  let cost ← settle space p.cost remaining.isEmpty delta assignment
  pure (delta, { generators := remaining, assignment, cost })

end Voronoi

end Descent
