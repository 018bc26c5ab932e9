import Descent.Proofs.Siting.Progress

/-!
# The books of a plan

The opening costs of a plan are added up anew whenever its cost is asked for, while the cost of
its service is carried along. Both together are the objective, every update returns by how much
they changed, and the question for a change has the same answer as the change. An exchange is to
open one facility and then to close the other.
-/

namespace Descent

open Checked (Ends)

namespace Plan

/-! ## Exchanges -/

section Words

variable {V : Type} [Vertex V] {bits : Nat} {problem : SitingProblem V (Signed bits)}
  {clients : List V} {p q : Plan V (Signed bits)} {u : Update V} {f : V} {change : Signed bits}

/-! ## What an update returns -/

end Words

end Plan

end Descent
