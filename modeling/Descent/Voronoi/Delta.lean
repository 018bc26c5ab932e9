import Descent.Text.Quoted
import Descent.Voronoi.Basic

/-!
# What a change would cost

The change of the cost that opening, closing or exchanging a generator would bring, answered
without making the change.
-/

namespace Descent

namespace Voronoi

variable {V D : Type} [Vertex V] [Distance D]

/-- Adds to a sum of changes what one site would save or lose with a new generator. -/
def offerDelta (space : Space V D) (g : V) (delta : D) (site : Site V D) : Checked D := do
  let d ← space.distance site.vertex g
  match site.service with
  | none => Distance.add delta (← Distance.sub d space.unserved)
  | some old =>
    if Service.closer ⟨g, d⟩ old then Distance.add delta (← Distance.sub d old.distance)
    else pure delta

/-- The change of the cost that opening a generator would bring. -/
def openingDelta (space : Space V D) (p : Voronoi V D) (g : V) : Checked D := do
  if g ∈ p.generators then throw (.alreadyOpen .openingDelta (Vertex.label g))
  p.assignment.sites.foldlM (offerDelta space g) Gain.zero

/-- Adds to a sum of changes what one site would lose without its generator. -/
def rehomeDelta (space : Space V D) (p : Voronoi V D) (g : V) (delta : D) (i : Nat) :
    Checked D := do
  let site ← Position.entry p.assignment.sites i
  match site.service with
  | none => pure delta
  | some old =>
    let new ← Service.nearest space (p.generators.erase g).toList site.vertex
    let d := (new.map Service.distance).getD space.unserved
    Distance.add delta (← Distance.sub d old.distance)

/-- The change of the cost that closing a generator would bring. -/
def closingDelta (space : Space V D) (p : Voronoi V D) (g : V) : Checked D := do
  if g ∉ p.generators then throw (.notOpen .closingDelta (Vertex.label g))
  (p.assignment.positions g).toList.foldlM (rehomeDelta space p g) Gain.zero

/-- Adds to a sum of changes what one site would save or lose if one generator took the place of
another. A site of the generator that closes goes to the new one, unless its next nearest is at
least as good. -/
def exchangeSiteDelta (space : Space V D) (p : Voronoi V D) (closed opened : V) (delta : D)
    (site : Site V D) : Checked D := do
  match site.service with
  | none => pure delta
  | some old =>
    let d ← space.distance site.vertex opened
    if old.generator = closed then
      let next ← Service.nearest space (p.generators.erase closed).toList site.vertex
      let new :=
        match next with
        | some s => if Service.closer ⟨opened, d⟩ s then d else s.distance
        | none => d
      Distance.add delta (← Distance.sub new old.distance)
    else if Service.closer ⟨opened, d⟩ old then
      Distance.add delta (← Distance.sub d old.distance)
    else pure delta

/-- The change of the cost that closing one generator and opening another would bring. -/
def exchangeDelta (space : Space V D) (p : Voronoi V D) (closed opened : V) : Checked D := do
  if closed ∉ p.generators then throw (.notOpen .exchangeDelta (Vertex.label closed))
  if opened ∈ p.generators then throw (.alreadyOpen .exchangeDelta (Vertex.label opened))
  p.assignment.sites.foldlM (exchangeSiteDelta space p closed opened) Gain.zero

/-- A short text about a partition: its generators, the number of its vertices, its cost. -/
def describe (render : D → String) (p : Voronoi V D) : String :=
  Text.labelled "Voronoi"
    [("generators", Text.braced (p.generators.toList.map Vertex.label)),
     ("vertices", toString p.vertices.length),
     ("cost", render p.cost)]

end Voronoi

end Descent
