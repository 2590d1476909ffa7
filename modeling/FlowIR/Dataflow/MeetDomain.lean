import Std.Data.ExtTreeSet

/-!
# Meet domains

The facts of an analysis form a set with a greatest element and a meet. What an analysis knows about
the set as a whole, such as the size of a universe, is part of the domain and not of its elements.
-/
namespace FlowIR

structure MeetDomain (D : Type) where
  top : D
  meet : D → D → D

namespace MeetDomain

variable {D : Type}

/-- The meet of no elements is the top. -/
def meetAll (domain : MeetDomain D) (elements : List D) : D :=
  elements.foldl domain.meet domain.top

/-- The order that the meet induces. -/
def lessOrEqual [DecidableEq D] (domain : MeetDomain D) (a b : D) : Bool := domain.meet a b = a

/-! ### Domains -/

/-- The domain of analyses that only look at the traversal. -/
def unit : MeetDomain Unit := { top := (), meet := fun _ _ => () }

def bool : MeetDomain Bool := { top := true, meet := (· && ·) }

/-- Sets by reverse inclusion, for facts that hold along some path. -/
def union (α : Type) [Ord α] [Std.TransOrd α] : MeetDomain (Std.ExtTreeSet α) :=
  { top := ∅, meet := (· ∪ ·) }

end MeetDomain

end FlowIR
