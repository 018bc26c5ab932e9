import Descent.Arithmetic.Position
import Descent.Order.AscendingSet
import Descent.Order.KeyedList
import Descent.Space.Basic

/-!
# Assignments

An assignment lists the sites of a partition, one for each distinct vertex, and says for each
site which generator serves it and how far away that generator is. Beside the sites it keeps, for
every generator, the positions of the sites that it serves, so that they can be found without a
search. `Assignment.assign`, `Assignment.vacate` and `Assignment.detach` are the only changes.
-/

namespace Descent

/-- The generator that serves a vertex, and its distance. -/
structure Service (V D : Type) where
  generator : V
  distance : D
deriving DecidableEq

namespace Service

variable {V D : Type} [Vertex V] [Distance D]

/-- A service replaces another when it is strictly nearer, or as near from a lower generator. -/
def closer (new old : Service V D) : Bool :=
  Gain.lt new.distance old.distance ||
    (Distance.same new.distance old.distance && decide (new.generator < old.generator))

/-- The better of the best service so far and that of one more generator; the earlier one stays
when both are as near. -/
def nearer (space : Space V D) (v : V) (best : Option (Service V D)) (g : V) :
    Checked (Option (Service V D)) := do
  let d ← space.distance v g
  match best with
  | none => pure (some ⟨g, d⟩)
  | some b => pure (if Gain.lt d b.distance then some ⟨g, d⟩ else some b)

/-- The service of the nearest generator of a list, of the first one if several are as near. -/
def nearest (space : Space V D) (generators : List V) (v : V) :
    Checked (Option (Service V D)) :=
  generators.foldlM (nearer space v) none

end Service

/-- A vertex and the service that it has, if any. -/
structure Site (V D : Type) where
  vertex : V
  service : Option (Service V D)
deriving DecidableEq

/-- The vertices of a list without repetitions, each where it first occurs. -/
def distinct {V : Type} [Vertex V] (vertices : List V) : List V :=
  vertices.foldl (fun seen v => if v ∈ seen then seen else seen ++ [v]) []

/-- Sites with their services, and the positions of the sites that each generator serves. -/
structure Assignment (V D : Type) [Vertex V] where
  sites : List (Site V D)
  served : KeyedList V (AscendingSet Nat)

namespace Assignment

variable {V D : Type} [Vertex V]

/-- A site for each distinct vertex, none of them served. -/
def ofVertices (vertices : List V) : Assignment V D where
  sites := (distinct vertices).map fun v => ⟨v, none⟩
  served := .empty

/-- The vertices of the sites, in order. -/
def vertices (a : Assignment V D) : List V := a.sites.map Site.vertex

/-- The service of a vertex; none for a vertex without a site. The site is searched for: the sites
never move, so a table of their places that is filled once would find the same one
(`Voronoi.Reachable.lookup`). -/
def serviceOf? (a : Assignment V D) (v : V) : Option (Service V D) :=
  (a.sites.find? fun site => decide (site.vertex = v)).bind Site.service

/-- The positions of the sites that a generator serves. -/
def positions (a : Assignment V D) (g : V) : AscendingSet Nat :=
  (a.served.get? g).getD .empty

/-- Takes a position away from a generator, and the generator's entry with its last position. -/
def unlink (served : KeyedList V (AscendingSet Nat)) (g : V) (i : Nat) :
    KeyedList V (AscendingSet Nat) :=
  match served.get? g with
  | none => served
  | some positions =>
    let remaining := positions.erase i
    if remaining.isEmpty then served.erase g else served.set g remaining

/-- Gives a position to a generator. -/
def link (served : KeyedList V (AscendingSet Nat)) (g : V) (i : Nat) :
    KeyedList V (AscendingSet Nat) :=
  served.set g (((served.get? g).getD .empty).insert i)

/-- The service of the site at a position. -/
def serviceAt? (a : Assignment V D) (i : Nat) : Option (Service V D) :=
  a.sites[i]?.bind Site.service

/-- Gives the site at a position a service, in place of an earlier one. -/
def assign (a : Assignment V D) (i : Nat) (s : Service V D) : Assignment V D where
  sites := a.sites.modify i fun site => { site with service := some s }
  served :=
    let released :=
      match a.serviceAt? i with
      | some old => unlink a.served old.generator i
      | none => a.served
    link released s.generator i

/-- Leaves the site at a position without a service. The positions of its generator are not
touched: they are detached before their sites are vacated. -/
def vacate (a : Assignment V D) (i : Nat) : Assignment V D :=
  { a with sites := a.sites.modify i fun site => { site with service := none } }

/-- Drops the positions of a generator; its sites keep their service until it is replaced. -/
def detach (a : Assignment V D) (g : V) : Assignment V D :=
  { a with served := a.served.erase g }

variable [Distance D]

/-- What a site costs. -/
def siteCost (space : Space V D) (site : Site V D) : D :=
  match site.service with
  | some s => s.distance
  | none => space.unserved

/-- The cost of all sites, added from the first to the last. -/
def total (space : Space V D) (a : Assignment V D) : Checked D :=
  Distance.sum (a.sites.map (siteCost space))

end Assignment

end Descent
