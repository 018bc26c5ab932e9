import Descent.Arithmetic.Distance

/-!
# Spaces

A space says how far one vertex is from another, and what a vertex costs that nothing serves.
Distances need not be symmetric: the first argument is the vertex that is served, the second the
one that serves it.
-/

namespace Descent

/-- A distance between vertices; asking for it may fault. -/
abbrev Metric (V D : Type) := V → V → Checked D

/-- Distances between vertices, and the cost of a vertex that no generator serves. -/
structure Space (V D : Type) where
  distance : Metric V D
  unserved : D

end Descent
