import Descent.Arithmetic.Fault
import Descent.Order.Vertex

/-!
# Refusals

A refusal answers a request that is not legal in the present state, and leaves that state as it
is. It names its cause and, where there is one, the facility that it is about.
-/

namespace Descent

/-- Why a request was refused. -/
inductive Refusal (V : Type) where
  /-- The facility was to be opened, and is chosen. -/
  | alreadyChosen (facility : V)
  /-- The facility was to be closed, and is not chosen. -/
  | notChosen (facility : V)
  /-- The facility is neither chosen nor unchosen. -/
  | unknown (facility : V)
  /-- The facility was listed as chosen and as unchosen. -/
  | overlapping (facility : V)
  /-- There is no median to start from. -/
  | noMedians
  /-- A configuration is not usable, for the given reason. -/
  | invalidConfig (reason : String)
deriving DecidableEq

namespace Refusal

/-- The text of a refusal, where facilities are named by their labels. -/
def message {V : Type} (label : V → String) : Refusal V → String
  | alreadyChosen f => s!"facility {label f} is already chosen"
  | notChosen f => s!"facility {label f} is not chosen"
  | unknown f => s!"facility {label f} is not part of the facility universe"
  | overlapping f => s!"facility {label f} is both chosen and unchosen"
  | noMedians => "k-median search needs at least one initial median"
  | invalidConfig reason => s!"invalid configuration: {reason}"

end Refusal

/-- What an attempt to change a state returned, and the state that it left. -/
structure Attempt (V S α : Type) where
  outcome : Except (Refusal V) α
  state : S

namespace Attempt

variable {V S α β : Type}

/-- Goes on with the result and the state of an attempt, unless it was refused. -/
def andThen (a : Attempt V S α) (next : α → S → Checked (Attempt V S β)) :
    Checked (Attempt V S β) :=
  match a.outcome with
  | .error refusal => pure ⟨.error refusal, a.state⟩
  | .ok x => next x a.state

end Attempt

end Descent
