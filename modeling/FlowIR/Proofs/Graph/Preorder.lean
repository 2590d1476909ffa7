import FlowIR.Proofs.Graph.Postorder

/-!
# Depth-first preorder

The two depth-first traversals enter the same nodes in the same order. One lists a node when it is
entered, the other one when it is left. So the preorder of some starts is a permutation of their
postorder: it lists exactly the nodes that the starts reach, each once.
-/
namespace FlowIR.Graph

variable {N E : Type} {graph : Graph N E}

/-! ### One stack for both traversals -/

/-- The node that a step enters, if it enters one. -/
def Step.entered? : Step → Option Nat
  | .enter id => some id
  | .leave _ => none

/-- The node that a step leaves, if it leaves one. -/
def Step.left? : Step → Option Nat
  | .enter _ => none
  | .leave id => some id

private theorem filterMap_entered?_map_enter (ids : List Nat) :
    (ids.map Step.enter).filterMap Step.entered? = ids := by
  rw [List.filterMap_map]
  exact List.filterMap_some

private theorem filterMap_left?_map_enter (ids : List Nat) :
    (ids.map Step.enter).filterMap Step.left? = [] := by
  simp [Step.left?]

/-- What the postorder lists from a stack on is what is entered from the stack on, and what was
entered before and is still to be left. -/
theorem postorderFrom_perm (graph : Graph N E) (entered : Std.ExtTreeSet Nat) (stack : List Step) :
    (graph.postorderFrom entered stack).Perm
      (graph.preorderFrom entered (stack.filterMap Step.entered?) ++
        stack.filterMap Step.left?) := by
  fun_induction postorderFrom graph entered stack with
  | case1 entered => simp [preorderFrom]
  | case2 entered id stack ih =>
    -- The node that is left now is the first of those that were still to be left.
    exact (ih.cons id).trans List.perm_middle.symm
  | case3 entered id stack fresh ih =>
    have listed : graph.preorderFrom entered (id :: stack.filterMap Step.entered?) =
        id :: graph.preorderFrom (entered.insert id) (graph.succIds id ++
            stack.filterMap Step.entered?) := by
      rw [preorderFrom, dif_pos fresh]
    rw [List.filterMap_append, List.filterMap_append, filterMap_entered?_map_enter,
      filterMap_left?_map_enter] at ih
    -- The node that is entered now stands first in the preorder, and is the next one to be left.
    change (graph.postorderFrom _ _).Perm
      (graph.preorderFrom entered (id :: stack.filterMap Step.entered?) ++
        stack.filterMap Step.left?)
    rw [listed]
    exact ih.trans List.perm_middle
  | case4 entered id stack stale ih =>
    have skipped : graph.preorderFrom entered (id :: stack.filterMap Step.entered?) =
        graph.preorderFrom entered (stack.filterMap Step.entered?) := by
      rw [preorderFrom, dif_neg stale]
    change (graph.postorderFrom _ _).Perm
      (graph.preorderFrom entered (id :: stack.filterMap Step.entered?) ++
        stack.filterMap Step.left?)
    rw [skipped]
    exact ih

/-! ### What is listed -/

private theorem preorder_perm_postorder (graph : Graph N E) (starts : List Nat) :
    (graph.preorder starts).Perm (graph.postorder starts) := by
  have same := postorderFrom_perm graph ∅ (starts.map .enter)
  rw [filterMap_entered?_map_enter, filterMap_left?_map_enter, List.append_nil] at same
  exact same.symm

theorem nodup_preorder (graph : Graph N E) (starts : List Nat) : (graph.preorder starts).Nodup :=
  (preorder_perm_postorder graph starts).nodup_iff.mpr (nodup_postorder graph starts)

theorem mem_preorder (coherent : graph.Coherent) {starts : List Nat} {id : Nat} :
    id ∈ graph.preorder starts ↔ graph.ReachedFrom starts id :=
  (preorder_perm_postorder graph starts).mem_iff.trans (mem_postorder coherent)

/-- A traversal from a node enters that node first. -/
theorem preorder_eq_cons {id : Nat} (member : id ∈ graph) :
    ∃ others, graph.preorder [id] = id :: others := by
  rw [preorder, preorderFrom, dif_pos ⟨member, Std.ExtTreeSet.not_mem_empty⟩]
  exact ⟨_, rfl⟩

section

variable {id : Nat} {others : List Nat} (begins : graph.preorder [id] = id :: others)
include begins

/-- The node is not entered again, also if edges lead back to it. -/
theorem nodup_of_preorder_eq_cons : id ∉ others ∧ others.Nodup := by
  have distinct := nodup_preorder graph [id]
  rwa [begins, List.nodup_cons] at distinct

/-- After the node come the nodes to which at least one edge leads from it. -/
theorem mem_of_preorder_eq_cons (coherent : graph.Coherent) (member : id ∈ graph) {other : Nat}
    (different : other ≠ id) : other ∈ others ↔ Relation.TransGen graph.HasEdge id other := by
  have reached : other ∈ graph.preorder [id] ↔ graph.ReachedFrom [id] other := mem_preorder coherent
  have listed : other ∈ others ↔ graph.Reaches id other := by
    rw [begins, List.mem_cons] at reached
    simpa [different, ReachedFrom] using reached
  rw [listed, reaches_iff coherent, Relation.reflTransGen_iff_eq_or_transGen]
  simp [member, different]

end

end FlowIR.Graph
