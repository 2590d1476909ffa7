import FlowIR.Proofs.Graph.Bounds
import FlowIR.Proofs.Graph.Cycles
import Mathlib.Data.List.Nodup

/-!
# Depth-first postorder with frames

A traversal keeps one frame for each node that was entered and not left yet, with the successors of
the node that are still to be looked at. Its visited nodes are bits of a set with a place for every
node of the graph. The frames, one after the other, are the stack of steps of the postorder: first
what a frame is still to look at, then its node is left. So a step of the traversal does not change
what will have been listed at the end, and the open work falls with it.

In the order of the list an edge leads to an earlier node, unless it is part of a loop. Where there
are no loops, the reversed list is a topological order.
-/
namespace FlowIR.Graph

variable {N E : Type} {graph : Graph N E}

/-! ### One step of the stack -/

private theorem postorderFrom_leave (graph : Graph N E) (entered : Std.ExtTreeSet Nat) (id : Nat)
    (stack : List Step) :
    graph.postorderFrom entered (.leave id :: stack) = id :: graph.postorderFrom entered stack := by
  rw [postorderFrom]

section

variable {entered : Std.ExtTreeSet Nat} {id : Nat}

private theorem postorderFrom_enter (member : id ∈ graph) (fresh : id ∉ entered)
    (stack : List Step) :
    graph.postorderFrom entered (.enter id :: stack) =
      graph.postorderFrom (entered.insert id) ((graph.succIds id).map .enter ++
        .leave id :: stack) := by
  rw [postorderFrom, dif_pos ⟨member, fresh⟩]

private theorem postorderFrom_skip (stale : id ∉ graph ∨ id ∈ entered) (stack : List Step) :
    graph.postorderFrom entered (.enter id :: stack) = graph.postorderFrom entered stack := by
  have skipped : ¬ (id ∈ graph ∧ id ∉ entered) := fun fresh => stale.elim (· fresh.1) fresh.2
  rw [postorderFrom, dif_neg skipped]

private theorem postorderWork_insert_lt (member : id ∈ graph) (fresh : id ∉ entered) :
    graph.postorderWork (entered.insert id) + (graph.succIds id).length <
      graph.postorderWork entered := by
  have step := openWeight_insert_add_le (fun id => (graph.succIds id).length + 1)
    graph.ids entered id (mem_ids.mpr member) fresh
  simp only [postorderWork] at *
  omega

end

/-! ### The traversal -/

/-- A node that was entered, and those of its successors that are still to be looked at. -/
structure Frame where
  node : Nat
  pending : List Nat

/-- The node is left when there is nothing more to look at. -/
def Frame.steps (frame : Frame) : List Step := frame.pending.map .enter ++ [.leave frame.node]

/-- A traversal between two of its steps: the nodes that it visited, in which order it listed those
that it left, the frames from the innermost one on, and the roots that are still to come. -/
structure FrameTraversal where
  visited : Std.ExtTreeSet Nat := ∅
  listed : List Nat := []
  frames : List Frame := []
  roots : List Nat

namespace FrameTraversal

/-- Without a frame the next root is taken. Otherwise the innermost frame looks at its next
successor, or its node is left. A root may be outside of the graph. A successor is not looked for in
the graph, so there is no step if the set of visited nodes has no place for it. -/
def step? (graph : Graph N E) : FrameTraversal → Option FrameTraversal
  | ⟨_, _, [], []⟩ => none
  -- The next root comes when everything below the one before has been left.
  | ⟨visited, listed, [], root :: roots⟩ =>
    if root ∉ graph ∨ root ∈ visited then some ⟨visited, listed, [], roots⟩
    else some ⟨visited.insert root, listed, [⟨root, graph.succIds root⟩], roots⟩
  | ⟨visited, listed, ⟨node, []⟩ :: frames, roots⟩ =>
    some ⟨visited, listed ++ [node], frames, roots⟩
  -- A successor that is entered gets a frame of its own, and the others wait in the frame below.
  | ⟨visited, listed, ⟨node, next :: pending⟩ :: frames, roots⟩ =>
    if graph.idBound ≤ next then none
    else if next ∈ visited then some ⟨visited, listed, ⟨node, pending⟩ :: frames, roots⟩
    else some ⟨visited.insert next, listed, ⟨next, graph.succIds next⟩ :: ⟨node, pending⟩ :: frames,
      roots⟩

/-- There is no frame and no root left. -/
def Finished (traversal : FrameTraversal) : Prop := traversal.frames = [] ∧ traversal.roots = []

/-- The steps come to an end with nothing left to do, and then these nodes are listed. -/
inductive Ends (graph : Graph N E) : FrameTraversal → List Nat → Prop
  | stop {traversal : FrameTraversal} (finished : traversal.Finished) :
      Ends graph traversal traversal.listed
  | step {traversal next : FrameTraversal} {order : List Nat}
      (continues : traversal.step? graph = some next)
      (rest : Ends graph next order) : Ends graph traversal order

/-- All that the frames and the roots are still to do. -/
def steps (traversal : FrameTraversal) : List Step :=
  traversal.frames.flatMap Frame.steps ++ traversal.roots.map .enter

/-- What will have been listed at the end. -/
def order (graph : Graph N E) (traversal : FrameTraversal) : List Nat :=
  traversal.listed ++ graph.postorderFrom traversal.visited traversal.steps

def work (graph : Graph N E) (traversal : FrameTraversal) : Nat :=
  graph.postorderWork traversal.visited + traversal.steps.length

/-- Frames look at nodes only. -/
def Inside (graph : Graph N E) (traversal : FrameTraversal) : Prop :=
  ∀ frame ∈ traversal.frames, ∀ next ∈ frame.pending, next ∈ graph

/-- The next traversal lists the same at its end, and has less to do. -/
structure Continues (graph : Graph N E) (traversal next : FrameTraversal) : Prop where
  inside : next.Inside graph
  order_eq : next.order graph = traversal.order graph
  work_lt : next.work graph < traversal.work graph

section

variable {visited : Std.ExtTreeSet Nat} {listed : List Nat} {frames remaining : List Frame}
  {roots waiting : List Nat} {id : Nat}

/-- Entering a node, if that was the next thing to do. -/
theorem continues_enter (coherent : graph.Coherent) (member : id ∈ graph) (fresh : id ∉ visited)
    (todo : steps ⟨visited, listed, frames, roots⟩ =
      .enter id :: steps ⟨visited, listed, remaining, waiting⟩)
    (inside : Inside graph ⟨visited, listed, remaining, waiting⟩) :
    Continues graph ⟨visited, listed, frames, roots⟩
      ⟨visited.insert id, listed, ⟨id, graph.succIds id⟩ :: remaining, waiting⟩ where
  inside := by
    intro frame member next pending
    rcases List.mem_cons.mp member with rfl | outer
    · exact coherent.target_mem (coherent.mem_succIds.mp pending)
    · exact inside frame outer next pending
  order_eq := by
    rw [order, order, todo, postorderFrom_enter member fresh]
    simp [steps, Frame.steps]
  work_lt := by
    -- The new frame is no longer than what the node took up as one that is not entered yet.
    have less := postorderWork_insert_lt member fresh
    rw [work, work, todo]
    simp only [steps, Frame.steps, List.flatMap_cons, List.length_append, List.length_cons,
      List.length_map, List.length_nil]
    omega

private theorem continues_skip (stale : id ∉ graph ∨ id ∈ visited)
    (todo : steps ⟨visited, listed, frames, roots⟩ =
      .enter id :: steps ⟨visited, listed, remaining, waiting⟩)
    (inside : Inside graph ⟨visited, listed, remaining, waiting⟩) :
    Continues graph ⟨visited, listed, frames, roots⟩ ⟨visited, listed, remaining, waiting⟩ where
  inside := inside
  order_eq := by rw [order, order, todo, postorderFrom_skip stale]
  work_lt := by simp [work, todo]

private theorem continues_leave (inside : Inside graph ⟨visited, listed, frames, roots⟩) :
    Continues graph ⟨visited, listed, ⟨id, []⟩ :: frames, roots⟩
      ⟨visited, listed ++ [id], frames, roots⟩ where
  inside := inside
  order_eq := by simp [order, steps, Frame.steps, postorderFrom_leave]
  work_lt := by simp [work, steps, Frame.steps]

end

/-- A traversal that looks at nodes only goes on until there is nothing left to do. -/
theorem finished_or_continues (coherent : graph.Coherent) (traversal : FrameTraversal)
    (inside : traversal.Inside graph) :
    traversal.Finished ∨ ∃ next, traversal.step? graph = some next ∧
      Continues graph traversal next := by
  match traversal with
  | ⟨_, _, [], []⟩ => exact Or.inl ⟨rfl, rfl⟩
  | ⟨visited, listed, [], root :: roots⟩ =>
    right
    by_cases stale : root ∉ graph ∨ root ∈ visited
    · exact ⟨_, if_pos stale, continues_skip stale rfl inside⟩
    · obtain ⟨member, fresh⟩ := not_or.mp stale
      exact ⟨_, if_neg stale, continues_enter coherent (not_not.mp member) fresh rfl inside⟩
  | ⟨visited, listed, ⟨node, []⟩ :: frames, roots⟩ =>
    exact Or.inr ⟨_, rfl,
      continues_leave fun frame member => inside frame (List.mem_cons_of_mem _ member)⟩
  | ⟨visited, listed, ⟨node, next :: pending⟩ :: frames, roots⟩ =>
    right
    -- The successor is a node, so the set of visited nodes has a place for it.
    have member : next ∈ graph := inside _ List.mem_cons_self next List.mem_cons_self
    have has_place : ¬ graph.idBound ≤ next := Nat.not_le.mpr (lt_idBound member)
    -- The other successors of the frame are looked at later, from where they are now.
    have remaining : Inside graph ⟨visited, listed, ⟨node, pending⟩ :: frames, roots⟩ := by
      intro frame listed_frame other waits
      rcases List.mem_cons.mp listed_frame with rfl | outer
      · exact inside _ List.mem_cons_self other (List.mem_cons_of_mem _ waits)
      · exact inside frame (List.mem_cons_of_mem _ outer) other waits
    by_cases seen : next ∈ visited
    · exact ⟨_, (if_neg has_place).trans (if_pos seen), continues_skip (Or.inr seen) rfl remaining⟩
    · exact ⟨_, (if_neg has_place).trans (if_neg seen),
        continues_enter coherent member seen rfl remaining⟩

/-- So it ends, and lists what the stack of steps lists. -/
theorem ends_order (coherent : graph.Coherent) (traversal : FrameTraversal)
    (inside : traversal.Inside graph) :
    Ends graph traversal (traversal.order graph) := by
  rcases finished_or_continues coherent traversal inside with finished | ⟨next, continues, goes_on⟩
  · have nothing_left : traversal.order graph = traversal.listed := by
      simp [order, steps, finished.1, finished.2, postorderFrom]
    rw [nothing_left]
    exact .stop finished
  · rw [← goes_on.order_eq]
    exact .step continues (ends_order coherent next goes_on.inside)
termination_by traversal.work graph
decreasing_by exact goes_on.work_lt

end FrameTraversal

/-! ### Positions in the list -/

private theorem rel_of_idxOf_lt {relation : Nat → Nat → Prop} {order : List Nat}
    (pairwise : order.Pairwise relation) {earlier later : Nat} (member : later ∈ order)
    (before : order.idxOf earlier < order.idxOf later) :
    relation earlier later := by
  have bound : order.idxOf later < order.length := List.idxOf_lt_length_of_mem member
  have related := List.pairwise_iff_getElem.mp pairwise _ _ (Nat.lt_trans before bound) bound before
  rwa [List.getElem_idxOf, List.getElem_idxOf] at related

private theorem idxOf_reverse {order : List Nat} (distinct : order.Nodup) {id : Nat}
    (member : id ∈ order) :
    order.reverse.idxOf id = order.length - 1 - order.idxOf id := by
  have bound : order.idxOf id < order.length := List.idxOf_lt_length_of_mem member
  have mirrored_bound : order.length - 1 - order.idxOf id < order.reverse.length := by
    rw [List.length_reverse]
    omega
  -- At the mirrored place of the reversed list is the node itself, and it is nowhere else.
  have mirrored : order.reverse[order.length - 1 - order.idxOf id] = id := by
    have back : order.length - 1 - (order.length - 1 - order.idxOf id) = order.idxOf id := by omega
    simp only [List.getElem_reverse, back, List.getElem_idxOf]
  have place := (List.nodup_reverse.mpr distinct).idxOf_getElem _ mirrored_bound
  rwa [mirrored] at place

/-- An edge between listed nodes leads to the one that is listed before, or it is part of a loop. -/
theorem loops_of_not_before (coherent : graph.Coherent) {roots : List Nat} {source target : Nat}
    (source_listed : source ∈ graph.postorder roots)
    (target_listed : target ∈ graph.postorder roots) (edge : graph.HasEdge source target)
    (not_before : ¬ (graph.postorder roots).idxOf target < (graph.postorder roots).idxOf source) :
    Relation.TransGen graph.HasEdge target source := by
  have back : graph.Reaches target source := by
    -- The target is left later, or it is the source itself.
    rcases Nat.lt_or_eq_of_le (Nat.not_lt.mp not_before) with after | same
    · exact rel_of_idxOf_lt (leadsBack_postorder coherent roots) target_listed after edge
    · obtain rfl := (List.idxOf_inj source_listed).mp same
      exact reaches_refl edge.source_mem
  -- A way without edges only leads back if the edge is a loop at one node.
  rcases Relation.reflTransGen_iff_eq_or_transGen.mp ((reaches_iff coherent).mp back).2
    with rfl | way
  · exact .single edge
  · exact way

private theorem exists_later_predecessor (coherent : graph.Coherent) {roots : List Nat} {id : Nat}
    (listed : id ∈ graph.postorder roots) (inner : id ∉ roots) :
    ∃ parent ∈ graph.postorder roots, graph.HasEdge parent id ∧
      (graph.postorder roots).idxOf id < (graph.postorder roots).idxOf parent := by
  obtain ⟨further, parent, beyond, found, edge⟩ :=
    (laterPredecessor_postorder coherent roots).at (List.getElem?_idxOf listed) inner
  obtain ⟨bound, rfl⟩ := List.getElem?_eq_some_iff.mp found
  have place : (graph.postorder roots).idxOf (graph.postorder roots)[further] = further :=
    (nodup_postorder graph roots).idxOf_getElem further bound
  exact ⟨_, List.getElem_mem bound, edge, place.symm ▸ beyond⟩

/-! ### Topological orders -/

/-- The list holds all that follows one of its nodes, each once, and every edge leads forward in
it. -/
def IsTopologicalOrder (graph : Graph N E) (order : List Nat) : Prop :=
  order.Nodup ∧ ∀ source ∈ order, ∀ target, graph.HasEdge source target →
    target ∈ order ∧ order.idxOf source < order.idxOf target

private theorem Acyclic.isTopologicalOrder (acyclic : graph.Acyclic) (coherent : graph.Coherent)
    (roots : List Nat) :
    graph.IsTopologicalOrder (graph.postorder roots).reverse := by
  have distinct := nodup_postorder graph roots
  refine ⟨List.nodup_reverse.mpr distinct, ?_⟩
  intro source source_listed target edge
  rw [List.mem_reverse] at source_listed
  have target_listed := mem_postorder_of_hasEdge coherent source_listed edge
  refine ⟨List.mem_reverse.mpr target_listed, ?_⟩
  have target_bound := List.idxOf_lt_length_of_mem target_listed
  have source_bound := List.idxOf_lt_length_of_mem source_listed
  rw [idxOf_reverse distinct source_listed, idxOf_reverse distinct target_listed]
  -- An edge that does not lead forward in the reversed list does not lead back in the list, so it
  -- is part of a loop.
  by_contra not_forward
  have way := loops_of_not_before coherent source_listed target_listed edge (by omega)
  exact acyclic source (.head edge way)

/-! ### The order of the traversal -/

/-- The traversal with frames ends, and never asks its set of visited nodes for one that has no
place there. It lists exactly the nodes that the roots in the graph reach, each once. An edge
between two of them leads to the one that is listed before, unless a way leads back from its target
to its source. So the reversed list is a topological order if there are no loops. Every listed node
that is not a root has a predecessor that is listed later. -/
theorem postorder_exact (graph : Graph N E) (built : graph.Built) (roots : List Nat) :
    FrameTraversal.Ends graph { roots } (graph.postorder roots) ∧
    (graph.postorder roots).Nodup ∧
    (∀ id, id ∈ graph.postorder roots ↔ graph.ReachedFrom roots id) ∧
    (∀ source ∈ graph.postorder roots, ∀ target ∈ graph.postorder roots,
      graph.HasEdge source target →
      ¬ (graph.postorder roots).idxOf target < (graph.postorder roots).idxOf source →
        Relation.TransGen graph.HasEdge target source) ∧
    (graph.Acyclic → graph.IsTopologicalOrder (graph.postorder roots).reverse) ∧
    ∀ id ∈ graph.postorder roots, id ∉ roots →
      ∃ parent ∈ graph.postorder roots, graph.HasEdge parent id ∧
      (graph.postorder roots).idxOf id < (graph.postorder roots).idxOf parent := by
  have coherent := built.coherent
  refine ⟨?_, nodup_postorder graph roots, fun _ => mem_postorder coherent, ?_, ?_, ?_⟩
  · exact FrameTraversal.ends_order coherent { roots } (by simp [FrameTraversal.Inside])
  · intro source source_listed target target_listed edge not_before
    exact loops_of_not_before coherent source_listed target_listed edge not_before
  · intro acyclic
    exact acyclic.isTopologicalOrder coherent roots
  · intro id listed inner
    exact exists_later_predecessor coherent listed inner

/-- Two ways lead from the first node to the fourth one, and the fifth node is above one of them. -/
def rejoining : Graph Unit Unit :=
  ((((([0, 1, 2, 3, 4].foldl (fun graph id => graph.insertNode id ()) ∅ : Graph Unit Unit).addEdge
    0 1 ()).addEdge 0 2 ()).addEdge 1 3 ()).addEdge 2 3 ()).addEdge 4 2 ()

/-- A loop over three nodes, and another one at the second of them. -/
def circling : Graph Unit Unit :=
  (((([0, 1, 2].foldl (fun graph id => graph.insertNode id ()) ∅ : Graph Unit Unit).addEdge
    0 1 ()).addEdge 1 2 ()).addEdge 2 0 ()).addEdge 1 1 ()

theorem rejoining_postorder :
    rejoining.Built ∧ rejoining.postorder [7, 1, 4, 1, 0] = [3, 1, 2, 4, 0] ∧
      FrameTraversal.Ends rejoining { roots := [7, 1, 4, 1, 0] } [3, 1, 2, 4, 0] ∧
      rejoining.IsTopologicalOrder [0, 4, 2, 1, 3] ∧
    circling.Built ∧ circling.postorder [1] = [0, 2, 1] ∧ Relation.TransGen circling.HasEdge 1 0 ∧
      ∃ parent ∈ [0, 2, 1], circling.HasEdge parent 0 ∧ 0 < [0, 2, 1].idxOf parent := by
  have rejoining_built : rejoining.Built := by
    have empty : (∅ : Graph Unit Unit).Built := .empty
    have nodes :=
      ((((empty.insertNode 0 ()).insertNode 1 ()).insertNode 2 ()).insertNode 3 ()).insertNode 4 ()
    have upper := (nodes.addEdge 0 1 () (by decide) (by decide)).addEdge 0 2 ()
      (by decide) (by decide)
    have lower := (upper.addEdge 1 3 () (by decide) (by decide)).addEdge 2 3 ()
      (by decide) (by decide)
    exact lower.addEdge 4 2 () (by decide) (by decide)
  have circling_built : circling.Built := by
    have empty : (∅ : Graph Unit Unit).Built := .empty
    have nodes := ((empty.insertNode 0 ()).insertNode 1 ()).insertNode 2 ()
    have way := (nodes.addEdge 0 1 () (by decide) (by decide)).addEdge 1 2 ()
      (by decide) (by decide)
    exact (way.addEdge 2 0 () (by decide) (by decide)).addEdge 1 1 () (by decide) (by decide)
  have rejoining_order : rejoining.postorder [7, 1, 4, 1, 0] = [3, 1, 2, 4, 0] := by decide +kernel
  have circling_order : circling.postorder [1] = [0, 2, 1] := by decide +kernel
  have rejoining_acyclic : rejoining.Acyclic :=
    acyclic_of_rank (fun id => if id = 4 then 0 else id) (by decide +kernel)
  obtain ⟨ends, _, _, _, topological, _⟩ :=
    postorder_exact rejoining rejoining_built [7, 1, 4, 1, 0]
  obtain ⟨_, _, _, loops, _, supported⟩ := postorder_exact circling circling_built [1]
  rw [rejoining_order] at ends topological
  rw [circling_order] at loops supported
  have back : circling.HasEdge 0 1 := ⟨(), by decide +kernel⟩
  exact ⟨rejoining_built, rejoining_order, ends, topological rejoining_acyclic, circling_built,
    circling_order,
    loops 0 (by decide) 1 (by decide) back (by decide), supported 0 (by decide) (by decide)⟩

end FlowIR.Graph
