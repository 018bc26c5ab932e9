import Descent.Order.Vertex
import Descent.Text.Quoted

/-!
# Updates

The three ways to change which facilities are open: open one, close one, or exchange an open one
for a closed one.
-/

namespace Descent

/-- A change of the open facilities. -/
inductive Update (V : Type) where
  | opening (facility : V)
  | closing (facility : V)
  | exchange (closed opened : V)
deriving DecidableEq

namespace Update

variable {V : Type}

/-- The facility that an update opens. -/
def opened? : Update V → Option V
  | opening f => some f
  | closing _ => none
  | exchange _ f => some f

/-- The facility that an update closes. -/
def closed? : Update V → Option V
  | opening _ => none
  | closing f => some f
  | exchange f _ => some f

/-- The facilities that an update touches, the opened one first. -/
def facilities (u : Update V) : List V := u.opened?.toList ++ u.closed?.toList

/-- A short text about an update. -/
def describe [Vertex V] : Update V → String
  | opening f => s!"Add({Vertex.label f})"
  | closing f => s!"Remove({Vertex.label f})"
  | exchange closed opened =>
    Text.labelled "Swap" [("from", Vertex.label closed), ("to", Vertex.label opened)]

end Update

/-- Which kinds of updates a search may use. -/
structure MoveKinds where
  opening : Bool
  closing : Bool
  exchange : Bool
deriving DecidableEq

namespace MoveKinds

/-- All three kinds. -/
def all : MoveKinds := ⟨true, true, true⟩

/-- Exchanges alone, which keep the number of open facilities. -/
def exchangeOnly : MoveKinds := ⟨false, false, true⟩

/-- Whether any kind is enabled. -/
def any (k : MoveKinds) : Bool := k.opening || k.closing || k.exchange

/-- Whether the kind of an update is enabled. -/
def allows {V : Type} (k : MoveKinds) : Update V → Bool
  | .opening _ => k.opening
  | .closing _ => k.closing
  | .exchange _ _ => k.exchange

end MoveKinds

end Descent
