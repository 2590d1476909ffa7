import FlowIR.Dataflow.MeetDomain

/-!
# Sets of small numbers

A bit set carries the size of its universe. Sets over universes of different sizes differ.
-/
namespace FlowIR

structure BitSet where
  size : Nat
  members : Std.ExtTreeSet Nat
  deriving DecidableEq

namespace BitSet

def empty (size : Nat) : BitSet := { size, members := ∅ }

def full (size : Nat) : BitSet := { size, members := .ofList (List.range size) }

def insert (set : BitSet) (member : Nat) : BitSet :=
  { set with members := set.members.insert member }

def erase (set : BitSet) (member : Nat) : BitSet :=
  { set with members := set.members.erase member }

/-- Nothing if one of the members is outside of the universe. -/
def ofList? (size : Nat) (members : List Nat) : Option BitSet :=
  if members.all (· < size) then some { size, members := .ofList members } else none

def toList (set : BitSet) : List Nat := set.members.toList

/-- The intersection, in the universe of the left set. -/
def inter (left right : BitSet) : BitSet :=
  { left with members := left.members ∩ right.members }

/-- Sets by inclusion, for facts that hold along all paths. -/
def domain (size : Nat) : MeetDomain BitSet := { top := full size, meet := inter }

end BitSet

end FlowIR
