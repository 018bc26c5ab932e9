/-!
# Faults

A fault ends a computation: an integer left its word, a position lies outside its table, or a
request broke a rule that its caller had to keep. `Checked α` is a computation that ends in a
value or in a fault, and `Fault.message` is the text that belongs to a fault.
-/

namespace Descent

/-- An integer operation that can leave its word. -/
inductive Operation where
  | add
  | subtract
  | multiply
  | negate
deriving DecidableEq

/-- A request about the generators of a partition. -/
inductive GeneratorRequest where
  | opening
  | closing
  | openingDelta
  | closingDelta
  | exchangeDelta
deriving DecidableEq

/-- The reasons why a computation ends without a value. -/
inductive Fault where
  /-- The result of an operation does not fit its word. -/
  | overflow (operation : Operation)
  /-- A position at or past the end of a table. -/
  | outOfBounds (size index : Nat)
  /-- A position on a tour without stops. -/
  | emptyTour
  /-- A segment that starts after its end, or ends past the tour. -/
  | impossibleSegment
  /-- A table whose rows are not as long as there are rows. -/
  | notSquare
  /-- The vertex was to be opened, and is open. -/
  | alreadyOpen (request : GeneratorRequest) (label : String)
  /-- The vertex was to be closed, and is not open. -/
  | notOpen (request : GeneratorRequest) (label : String)
deriving DecidableEq

/-- A computation that ends in a value or in a fault. -/
abbrev Checked (α : Type) := Except Fault α

namespace Operation

/-- The operation as a verb. -/
def verb : Operation → String
  | add => "add"
  | subtract => "subtract"
  | multiply => "multiply"
  | negate => "negate"

end Operation

namespace GeneratorRequest

/-- The name under which a request is reported. -/
def name : GeneratorRequest → String
  | opening => "add_generator"
  | closing => "remove_generator"
  | openingDelta => "add_generator_delta"
  | closingDelta => "remove_generator_delta"
  | exchangeDelta => "swap_generator_delta"

end GeneratorRequest

namespace Fault

/-- The text of a fault; a fault about a position on a tour or a segment has none. -/
def message : Fault → Option String
  | overflow operation => some s!"attempt to {operation.verb} with overflow"
  | outOfBounds size index => some s!"index out of bounds: the len is {size} but the index is {index}"
  | emptyTour => none
  | impossibleSegment => none
  | notSquare => some "distance matrix must be square"
  | alreadyOpen request label =>
    some s!"called `Voronoi::{request.name}` with an open generator {label}"
  | notOpen request label =>
    some s!"called `Voronoi::{request.name}` with a closed generator {label}"

/-- Whether the fault is a broken rule of the caller, which leaves every state as it was. -/
def isPrecondition : Fault → Bool
  | notSquare | alreadyOpen .. | notOpen .. => true
  | _ => false

end Fault

end Descent
