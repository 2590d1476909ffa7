import FlowIR.Proofs.Dominance.Forest
import FlowIR.Proofs.Graph.Cycles

/-!
# Common dominators

The dominators of a node form a chain. So among the nodes that dominate both of two nodes there is
one that all others dominate, unless there is none at all: then the two nodes are in different
trees, or one of them is not reached. The forest finds it as the first ancestor of one node that is
an ancestor of the other one too. Which of the two nodes is climbed from does not matter.
-/
namespace FlowIR

namespace Graph

variable {N E : Type} {graph : Graph N E} {roots : List Nat} {c d m n x y : Nat}

/-! ### The order of dominance -/

private theorem dominates_self (reached : graph.ReachedFrom roots x) : graph.Dominates roots x x :=
  ⟨reached, fun _ _ _ walk => walk.last_mem⟩

private theorem Dominates.antisymm (x_over_y : graph.Dominates roots x y)
    (y_over_x : graph.Dominates roots y x) :
    x = y := by
  obtain ⟨root, listed, path, walk⟩ := x_over_y.1
  obtain ⟨simple, simple_walk, distinct⟩ := walk.exists_simple
  by_contra different
  -- The way to the first node is a part of the way to the second one, and that part ends too early
  -- to meet the second.
  obtain ⟨before, shorter, misses⟩ :=
    simple_walk.exists_avoiding_last distinct (x_over_y.2 root listed simple simple_walk) different
  exact misses (y_over_x.2 root listed before shorter)

/-- The node dominates two others, and whatever dominates these two dominates the node. -/
structure NearestCommon (graph : Graph N E) (roots : List Nat) (m n c : Nat) : Prop where
  left : graph.Dominates roots c m
  right : graph.Dominates roots c n
  nearest : ∀ x, graph.Dominates roots x m → graph.Dominates roots x n → graph.Dominates roots x c

namespace NearestCommon

private theorem symm (common : graph.NearestCommon roots m n c) :
    graph.NearestCommon roots n m c where
  left := common.right
  right := common.left
  nearest := fun x over_n over_m => common.nearest x over_m over_n

private theorem unique (common : graph.NearestCommon roots m n c)
    (other : graph.NearestCommon roots m n d) : c = d :=
  (other.nearest c common.left common.right).antisymm (common.nearest d other.left other.right)

private theorem of_dominates (dominates : graph.Dominates roots m n) :
    graph.NearestCommon roots m n m where
  left := dominates_self dominates.reached
  right := dominates
  nearest := fun _ over_m _ => over_m

end NearestCommon

end Graph

namespace DominatorForest

variable {N E : Type} {graph : Graph N E} {roots : List Nat} {parents : Parents} {c m n x : Nat}

/-! ### Looking for the first common ancestor -/

namespace Final

variable (final : Final graph roots parents)
include final

private theorem dominates_iff :
    (ofRoots graph roots).dominates x n = true ↔ graph.Dominates roots x n := by
  rw [dominates, decide_eq_true_eq, final.mem_ancestors_iff]

private theorem nearestCommon_of_found
    (found : (ofRoots graph roots).nearestCommonDominator? m n = some c) :
    graph.NearestCommon roots m n c := by
  obtain ⟨over_m, before, after, split, passed⟩ := List.find?_eq_some_iff_append.mp found
  rw [decide_eq_true_eq, final.mem_ancestors_iff] at over_m
  have over_n : graph.Dominates roots c n := by
    rw [← final.mem_ancestors_iff, split]
    exact List.mem_append_right before List.mem_cons_self
  refine ⟨over_m, over_n, fun x x_over_m x_over_n => ?_⟩
  rw [← final.mem_ancestors_iff, split, List.mem_append, List.mem_cons] at x_over_n
  rcases x_over_n with early | rfl | late
  · -- A common dominator that stands before the one that was found would have been found.
    have not_common := passed x early
    simp [final.mem_ancestors_iff.mpr x_over_m] at not_common
  · exact Graph.dominates_self over_m.reached
  · have ordered := final.pairwise_ancestors n
    rw [split, List.pairwise_append] at ordered
    exact (List.pairwise_cons.mp ordered.2.1).1 x late

private theorem nearestCommonDominator?_eq_none_iff :
    (ofRoots graph roots).nearestCommonDominator? m n = none ↔
      ∀ x, ¬ (graph.Dominates roots x m ∧ graph.Dominates roots x n) := by
  rw [nearestCommonDominator?, List.find?_eq_none]
  simp only [decide_eq_true_eq, final.mem_ancestors_iff]
  constructor
  · exact fun none_common x ⟨over_m, over_n⟩ => none_common x over_n over_m
  · exact fun none_common x over_n over_m => none_common x ⟨over_m, over_n⟩

private theorem nearestCommonDominator?_eq_some_iff :
    (ofRoots graph roots).nearestCommonDominator? m n = some c ↔
      graph.NearestCommon roots m n c := by
  refine ⟨final.nearestCommon_of_found, fun common => ?_⟩
  cases found : (ofRoots graph roots).nearestCommonDominator? m n with
  | none =>
    exact absurd ⟨common.left, common.right⟩ (final.nearestCommonDominator?_eq_none_iff.mp found c)
  | some d => rw [common.unique (final.nearestCommon_of_found found)]

private theorem nearestCommonDominator?_comm : (ofRoots graph roots).nearestCommonDominator? m n =
    (ofRoots graph roots).nearestCommonDominator? n m := by
  apply Option.ext
  intro c
  rw [final.nearestCommonDominator?_eq_some_iff, final.nearestCommonDominator?_eq_some_iff]
  exact ⟨Graph.NearestCommon.symm, Graph.NearestCommon.symm⟩

/-- A node outside of the forest has no dominators to share. -/
theorem nearestCommonDominator?_of_not_mem
    (outside : m ∉ ofRoots graph roots ∨ n ∉ ofRoots graph roots) :
    (ofRoots graph roots).nearestCommonDominator? m n = none := by
  rw [final.mem_iff, final.mem_iff] at outside
  rw [final.nearestCommonDominator?_eq_none_iff]
  rintro x ⟨over_m, over_n⟩
  exact outside.elim (fun unreached => unreached over_m.1) fun unreached => unreached over_n.1

end Final

/-- For any two nodes the forest gives the one that dominates both and that every common dominator
of them dominates, and nothing exactly if they have no common dominator. Dominance is asked of the
paths of the graph, which is the same as asking the forest. The order of the two nodes does not
matter, and one of them is the answer exactly if it dominates the other one. -/
theorem ofRoots_nearestCommonDominator (graph : Graph N E) (built : graph.Built) (roots : List Nat)
    (m n : Nat) :
    (∀ x y, (ofRoots graph roots).dominates x y = true ↔ graph.Dominates roots x y) ∧
    (∀ c, (ofRoots graph roots).nearestCommonDominator? m n = some c ↔
      graph.Dominates roots c m ∧ graph.Dominates roots c n ∧
        ∀ x, graph.Dominates roots x m → graph.Dominates roots x n → graph.Dominates roots x c) ∧
    ((ofRoots graph roots).nearestCommonDominator? m n = none ↔
      ∀ x, ¬ (graph.Dominates roots x m ∧ graph.Dominates roots x n)) ∧
    (m ∉ ofRoots graph roots ∨ n ∉ ofRoots graph roots →
      (ofRoots graph roots).nearestCommonDominator? m n = none) ∧
    (ofRoots graph roots).nearestCommonDominator? m n =
      (ofRoots graph roots).nearestCommonDominator? n m ∧
    ((ofRoots graph roots).nearestCommonDominator? m n = some m ↔ graph.Dominates roots m n) := by
  obtain ⟨parents, final⟩ := exists_final built.coherent roots
  refine ⟨fun _ _ => final.dominates_iff, fun c => ?_, final.nearestCommonDominator?_eq_none_iff,
    final.nearestCommonDominator?_of_not_mem, final.nearestCommonDominator?_comm, ?_⟩
  · rw [final.nearestCommonDominator?_eq_some_iff]
    exact ⟨fun common => ⟨common.left, common.right, common.nearest⟩,
      fun ⟨over_m, over_n, nearest⟩ => ⟨over_m, over_n, nearest⟩⟩
  · rw [final.nearestCommonDominator?_eq_some_iff]
    exact ⟨Graph.NearestCommon.right, Graph.NearestCommon.of_dominates⟩

/-- Below the first of two roots two ways part. A third way leads to a node that the second root
reaches too. -/
def parting : Graph Unit Unit :=
  ((((([0, 1, 2, 3, 4, 5].foldl (fun graph id => graph.insertNode id ()) ∅ : Graph Unit
    Unit).addEdge 0 2 ()).addEdge 2 3 ()).addEdge 2 4 ()).addEdge 4 5 ()).addEdge 1 5 ()

theorem parting_nearestCommonDominator : parting.Built ∧
    (parting.Dominates [0, 1] 2 3 ∧ parting.Dominates [0, 1] 2 4 ∧
      ∀ x, parting.Dominates [0, 1] x 3 → parting.Dominates [0, 1] x 4 →
        parting.Dominates [0, 1] x 2) ∧
    (∀ x, ¬ (parting.Dominates [0, 1] x 4 ∧ parting.Dominates [0, 1] x 5)) ∧
      parting.Dominates [0, 1] 0 4 := by
  have built : parting.Built := by
    have empty : (∅ : Graph Unit Unit).Built := .empty
    have upper := ((empty.insertNode 0 ()).insertNode 1 ()).insertNode 2 ()
    have nodes := ((upper.insertNode 3 ()).insertNode 4 ()).insertNode 5 ()
    have parted :=
      ((nodes.addEdge 0 2 () (by decide) (by decide)).addEdge 2 3 () (by decide)
        (by decide)).addEdge
      2 4 () (by decide) (by decide)
    exact (parted.addEdge 4 5 () (by decide) (by decide)).addEdge 1 5 () (by decide) (by decide)
  obtain ⟨_, nearest, _⟩ := ofRoots_nearestCommonDominator parting built [0, 1] 3 4
  obtain ⟨_, _, none_common, _⟩ := ofRoots_nearestCommonDominator parting built [0, 1] 4 5
  obtain ⟨_, _, _, _, _, itself⟩ := ofRoots_nearestCommonDominator parting built [0, 1] 0 4
  exact ⟨built, (nearest 2).mp (by decide +kernel), none_common.mp (by decide +kernel),
    itself.mp (by decide +kernel)⟩

end DominatorForest

end FlowIR
