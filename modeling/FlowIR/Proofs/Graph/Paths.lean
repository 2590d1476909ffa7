import FlowIR.Proofs.Graph.Coherence
import Mathlib.Logic.Relation

/-!
# Paths and dominance

A walk lists the nodes on the way from one node to another one, both included. A node dominates
another one, seen from some roots, if the roots reach the other one and no walk from a root to it
misses the node.
-/
namespace FlowIR.Graph

variable {N E : Type}

/-- The nodes on a way along the edges. -/
inductive Walk (graph : Graph N E) : Nat → Nat → List Nat → Prop
  | single {id : Nat} (member : id ∈ graph) : Walk graph id id [id]
  | cons {first second last : Nat} {path : List Nat} (edge : graph.HasEdge first second)
      (rest : Walk graph second last path) : Walk graph first last (first :: path)

def Reaches (graph : Graph N E) (first last : Nat) : Prop := ∃ path, graph.Walk first last path

/-- A root outside of the graph reaches nothing, not even itself. -/
def ReachedFrom (graph : Graph N E) (roots : List Nat) (id : Nat) : Prop :=
  ∃ root ∈ roots, graph.Reaches root id

/-- Every walk from a root to `y` goes through `x`, and there is one. -/
def Dominates (graph : Graph N E) (roots : List Nat) (x y : Nat) : Prop :=
  graph.ReachedFrom roots y ∧ ∀ root ∈ roots, ∀ path, graph.Walk root y path → x ∈ path

def StrictlyDominates (graph : Graph N E) (roots : List Nat) (x y : Nat) : Prop :=
  graph.Dominates roots x y ∧ x ≠ y

namespace Walk

variable {graph : Graph N E} {first last : Nat} {path : List Nat}

theorem first_mem_graph (walk : graph.Walk first last path) : first ∈ graph := by
  cases walk with
  | single member => exact member
  | cons edge _ => exact edge.source_mem

theorem last_mem_graph (walk : graph.Walk first last path) : last ∈ graph := by
  induction walk with
  | single member => exact member
  | cons _ _ ih => exact ih

theorem first_mem (walk : graph.Walk first last path) : first ∈ path := by
  cases walk <;> simp

theorem snoc {next : Nat} (walk : graph.Walk first last path) (edge : graph.HasEdge last next)
    (member : next ∈ graph) : graph.Walk first next (path ++ [next]) := by
  induction walk with
  | single _ => exact .cons edge (.single member)
  | cons start _ ih => exact .cons start (ih edge)

/-- The part of a walk up to one of its nodes. -/
theorem upTo {id : Nat} (walk : graph.Walk first last path) (member : id ∈ path) :
    ∃ before, graph.Walk first id before ∧ ∀ other ∈ before, other ∈ path := by
  induction walk with
  | single known =>
    obtain rfl := List.mem_singleton.mp member
    exact ⟨_, .single known, fun _ inside => inside⟩
  | @cons first second last path edge rest ih =>
    by_cases here : id = first
    · subst here
      exact ⟨[id], .single edge.source_mem, by simp⟩
    · obtain ⟨before, walk, inside⟩ := ih ((List.mem_cons.mp member).resolve_left here)
      refine ⟨first :: before, .cons edge walk, ?_⟩
      intro other other_mem
      rcases List.mem_cons.mp other_mem with rfl | later
      · simp
      · exact List.mem_cons_of_mem _ (inside other later)

end Walk

theorem reaches_refl {graph : Graph N E} {id : Nat} (member : id ∈ graph) : graph.Reaches id id :=
  ⟨[id], .single member⟩

theorem reaches_iff {graph : Graph N E} (coherent : graph.Coherent) {first last : Nat} :
    graph.Reaches first last ↔ first ∈ graph ∧ Relation.ReflTransGen graph.HasEdge first last := by
  constructor
  · rintro ⟨path, walk⟩
    refine ⟨walk.first_mem_graph, ?_⟩
    induction walk with
    | single _ => exact .refl
    | cons edge _ ih => exact .head edge ih
  · rintro ⟨member, steps⟩
    induction steps with
    | refl => exact reaches_refl member
    | tail _ edge ih =>
      obtain ⟨path, walk⟩ := ih
      exact ⟨_, walk.snoc edge (coherent.target_mem edge)⟩

/-! ### Ways that avoid a node -/

/-- Some walk from a root leads to a node without going through `x`. -/
inductive ReachedAvoiding (graph : Graph N E) (roots : List Nat) (x : Nat) : Nat → Prop
  | root {id : Nat} (listed : id ∈ roots) (member : id ∈ graph) (other : id ≠ x) :
      ReachedAvoiding graph roots x id
  | step {id next : Nat} (before : ReachedAvoiding graph roots x id) (edge : graph.HasEdge id next)
      (member : next ∈ graph) (other : next ≠ x) : ReachedAvoiding graph roots x next

variable {graph : Graph N E} {roots : List Nat}

private theorem ReachedAvoiding.along {x first last : Nat} {path : List Nat}
    (walk : graph.Walk first last path) (avoided : graph.ReachedAvoiding roots x first)
    (misses : x ∉ path) :
    graph.ReachedAvoiding roots x last := by
  induction walk with
  | single _ => exact avoided
  | cons edge rest ih =>
    -- The walk goes on from its second node, which is on the path and so is not the avoided one.
    simp only [List.mem_cons, not_or] at misses
    refine ih (.step avoided edge rest.first_mem_graph ?_) misses.2
    rintro rfl
    exact misses.2 rest.first_mem

theorem reachedAvoiding_iff {x y : Nat} :
    graph.ReachedAvoiding roots x y ↔ ∃ root ∈ roots, ∃ path,
      graph.Walk root y path ∧ x ∉ path := by
  constructor
  · intro avoided
    induction avoided with
    | root listed member other =>
      exact ⟨_, listed, _, .single member, by simpa using other.symm⟩
    | step _ edge member other ih =>
      obtain ⟨root, listed, path, walk, misses⟩ := ih
      exact ⟨root, listed, _, walk.snoc edge member, by simpa using ⟨misses, other.symm⟩⟩
  · rintro ⟨root, listed, path, walk, misses⟩
    have other : root ≠ x := by
      rintro rfl
      exact misses walk.first_mem
    exact ReachedAvoiding.along walk (.root listed walk.first_mem_graph other) misses

theorem dominates_iff_not_avoidable {x y : Nat} (reached : graph.ReachedFrom roots y) :
    graph.Dominates roots x y ↔ ¬ graph.ReachedAvoiding roots x y := by
  rw [reachedAvoiding_iff]
  constructor
  · rintro ⟨_, through⟩ ⟨root, listed, path, walk, misses⟩
    exact misses (through root listed path walk)
  · intro unavoided
    refine ⟨reached, fun root listed path walk => ?_⟩
    by_contra misses
    exact unavoided ⟨root, listed, path, walk, misses⟩

/-- A dominator is itself reached. -/
theorem Dominates.reached {x y : Nat} (dominates : graph.Dominates roots x y) :
    graph.ReachedFrom roots x := by
  obtain ⟨⟨root, listed, path, walk⟩, through⟩ := dominates
  obtain ⟨before, first_part, _⟩ := walk.upTo (through root listed path walk)
  exact ⟨root, listed, before, first_part⟩

theorem Dominates.trans {x y z : Nat} (lower : graph.Dominates roots y z)
    (upper : graph.Dominates roots x y) : graph.Dominates roots x z := by
  refine ⟨lower.1, fun root listed path walk => ?_⟩
  -- The walk meets the lower dominator, and its part up to there meets the upper one.
  obtain ⟨before, first_part, inside⟩ := walk.upTo (lower.2 root listed path walk)
  exact inside x (upper.2 root listed before first_part)

/-! ### Turning the edges around -/

theorem hasEdge_reverse (coherent : graph.Coherent) {source target : Nat} :
    graph.reverse.HasEdge source target ↔ graph.HasEdge target source := by
  rw [coherent.reverse.hasEdge_iff_mem_succMap, succMap_reverse, coherent.hasEdge_iff_mem_predMap]

theorem Walk.reverse (coherent : graph.Coherent) {first last : Nat} {path : List Nat}
    (walk : graph.Walk first last path) : graph.reverse.Walk last first path.reverse := by
  induction walk with
  | single member => exact .single (mem_reverse.mpr member)
  | cons edge _ ih =>
    rw [List.reverse_cons]
    exact ih.snoc ((hasEdge_reverse coherent).mpr edge) (mem_reverse.mpr edge.source_mem)

theorem walk_reverse_iff (coherent : graph.Coherent) {first last : Nat} {path : List Nat} :
    graph.reverse.Walk first last path ↔ graph.Walk last first path.reverse := by
  constructor
  · intro walk
    simpa [reverse_reverse] using walk.reverse coherent.reverse
  · intro walk
    simpa using walk.reverse coherent

end FlowIR.Graph
