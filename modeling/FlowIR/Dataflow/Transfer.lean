import FlowIR.Dataflow.BitSet
import FlowIR.Dataflow.Problem

/-!
# Common transfer functions

Tables give the facts that each node adds and removes. The first entry of a node counts.
-/
namespace FlowIR.Transfer

variable {N E : Type}

abbrev FactTable (α : Type) := List (Nat × List α)

def FactTable.at {α : Type} (table : FactTable α) (id : Nat) : List α := (table.lookup id).getD []

/-- Removes the killed facts, then adds the generated ones. -/
def genKill {α : Type} [Ord α] [Std.TransOrd α] (gen kill : FactTable α)
    (before : Std.ExtTreeSet α) (id : Nat) : Std.ExtTreeSet α :=
  let kept := (kill.at id).foldl (fun facts fact => facts.erase fact) before
  (gen.at id).foldl (fun facts fact => facts.insert fact) kept

def unionProblem (graph : Graph N E) (direction : Direction) (initial : List Int)
    (gen kill : FactTable Int) : Problem N E (Std.ExtTreeSet Int) :=
  { graph, direction, domain := .union Int, initial := .ofList initial
    transfer := fun before id _ _ => genKill gen kill before id }

/-- The tables of a node stay within the universe. -/
def withinUniverse (size : Nat) (gen kill : FactTable Nat) (id : Nat) : Bool :=
  (gen.at id).all (· < size) && (kill.at id).all (· < size)

def bitSetProblem (graph : Graph N E) (direction : Direction) (size : Nat) (initial : BitSet)
    (gen kill : FactTable Nat) : Problem N E BitSet :=
  { graph, direction, domain := BitSet.domain size, initial
    transfer := fun before id _ _ =>
      { before with members := genKill gen kill before.members id } }

/-- Gathers a description of every edge that facts flow through. -/
def edgeTraceProblem (graph : Graph String String) (direction : Direction) :
    Problem String String (Std.ExtTreeSet String) :=
  { graph, direction, domain := .union String, initial := ∅
    transfer := fun before _ label edges =>
      edges.foldl (fun facts (other, edge) => facts.insert s!"{other}-{edge}->{label}") before }

inductive BoolRule where
  | setTrue
  | setFalse
  | negate
  | keep
  deriving DecidableEq, Repr

def BoolRule.apply : BoolRule → Bool → Bool
  | setTrue, _ => true
  | setFalse, _ => false
  | negate, before => !before
  | keep, before => before

def boolProblem (graph : Graph N E) (direction : Direction) (initial : Bool)
    (rules : List (Nat × BoolRule)) : Problem N E Bool :=
  { graph, direction, domain := .bool, initial
    transfer := fun before id _ _ => ((rules.lookup id).getD .keep).apply before }

def unitProblem (graph : Graph N E) (direction : Direction) : Problem N E Unit :=
  { graph, direction, domain := .unit, initial := (), transfer := fun _ _ _ _ => () }

end FlowIR.Transfer
