import FlowIR.Proofs.Graph.Bounds
import FlowIR.Proofs.Graph.Preorder

/-!
# Depth-first search by recursion

A recursive search visits a node, then everything below its first successor, then what is left below
the next one. The traversal with a stack visits the same nodes in the same order. At any time its
stack holds the nodes for which calls of the recursive search are pending, the innermost call first:
searching from a stack is searching from its upper part and then, with everything visited that was
found there, from the rest. Nodes that were visited while they waited on the stack make no
difference, so it does not matter when they are taken off.
-/
namespace FlowIR.Graph

variable {N E : Type} {graph : Graph N E} {visited : Std.ExtTreeSet Nat} {id : Nat}

/-! ### The recursive search -/

/-- The number of nodes that are still to be visited. -/
def unvisited (graph : Graph N E) (visited : Std.ExtTreeSet Nat) : Nat :=
  openWeight (fun _ => 1) (· ∉ visited) graph.ids

private theorem unvisited_lt {after : Std.ExtTreeSet Nat} (fresh : id ∈ graph ∧ id ∉ visited)
    (now : id ∈ after) (kept : ∀ other ∈ visited, other ∈ after) :
    graph.unvisited after < graph.unvisited visited := by
  have step := openWeight_add_le (fun _ => 1) (· ∉ visited) (· ∉ after) graph.ids
    (fun other => by simpa using mt (kept other)) id (mem_ids.mpr fresh.1) (by simpa using fresh.2)
      (by simpa using now)
  rw [unvisited, unvisited]
  omega

/-- Visits these nodes one after the other. A node that was visited before or is not in the graph is
skipped. Any other one is listed, and everything below its successors is visited before the next
node is. -/
def search (graph : Graph N E) (visited : Std.ExtTreeSet Nat) : List Nat → List Nat
  | [] => []
  | id :: rest =>
    if _fresh : id ∈ graph ∧ id ∉ visited then
      let below := graph.search (visited.insert id) (graph.succIds id)
      id :: below ++ graph.search (visited.insertMany (id :: below)) rest
    else
      graph.search visited rest
termination_by ids => (graph.unvisited visited, ids.length)
decreasing_by
  · exact .left _ _ (unvisited_lt _fresh (by simp) (by simp_all))
  · exact .left _ _ (unvisited_lt _fresh (by simp [Std.ExtTreeSet.mem_insertMany_list])
      (by simp_all [Std.ExtTreeSet.mem_insertMany_list]))
  · exact .right _ (by simp)

private theorem search_skip (stale : ¬ (id ∈ graph ∧ id ∉ visited)) (rest : List Nat) :
    graph.search visited (id :: rest) = graph.search visited rest := by
  rw [search, dif_neg stale]

private theorem search_visit (fresh : id ∈ graph ∧ id ∉ visited) (rest : List Nat) :
    graph.search visited (id :: rest) =
      id :: (graph.search (visited.insert id) (graph.succIds id) ++
      graph.search (visited.insertMany (id :: graph.search (visited.insert id) (graph.succIds id)))
        rest) := by
  rw [search, dif_pos fresh]
  rfl

/-- What was found first has been visited when the rest is searched. -/
theorem search_append (graph : Graph N E) (visited : Std.ExtTreeSet Nat) (ids rest : List Nat) :
    graph.search visited (ids ++ rest) =
      graph.search visited ids ++
        graph.search (visited.insertMany (graph.search visited ids)) rest := by
  fun_induction search graph visited ids with
  | case1 visited => simp
  | case2 visited id ids fresh below _ ih =>
    rw [List.cons_append, search_visit fresh]
    change id :: (below ++ graph.search (visited.insertMany (id :: below)) (ids ++ rest)) = _
    rw [ih, ← Std.ExtTreeSet.insertMany_append, List.cons_append, List.cons_append,
      List.append_assoc]
  | case3 visited id ids stale ih => rw [List.cons_append, search_skip stale, ih]

/-- The successors of a node that is visited go before all that waits. -/
theorem search_enter (fresh : id ∈ graph ∧ id ∉ visited) (rest : List Nat) :
    graph.search visited (id :: rest) =
      id :: graph.search (visited.insert id) (graph.succIds id ++ rest) := by
  rw [search_visit fresh, search_append, Std.ExtTreeSet.insertMany_cons]

/-- Nodes that are visited already may be left out. -/
theorem search_filter (graph : Graph N E) (visited : Std.ExtTreeSet Nat) (kept : Nat → Bool)
    (ids : List Nat) (dropped : ∀ id, kept id = false → id ∈ visited) :
    graph.search visited (ids.filter kept) = graph.search visited ids := by
  fun_induction search graph visited ids with
  | case1 visited => rw [List.filter_nil, search]
  | case2 visited id ids fresh below _ ih =>
    have stays : kept id = true := by
      by_contra drops
      exact fresh.2 (dropped id (by simpa using drops))
    rw [List.filter_cons_of_pos stays, search_visit fresh, List.cons_append]
    -- More nodes are visited when the rest is searched, so it may still be left out what was
    -- visited before.
    exact congrArg (id :: below ++ ·) (ih fun other drops =>
      Std.ExtTreeSet.mem_insertMany_list.mpr (Or.inl (dropped other drops)))
  | case3 visited id ids stale ih =>
    rw [List.filter_cons]
    split
    · rw [search_skip stale, ih dropped]
    · exact ih dropped

/-! ### The search with a stack -/

private theorem preorderFrom_eq_search (graph : Graph N E) (visited : Std.ExtTreeSet Nat)
    (stack : List Nat) :
    graph.preorderFrom visited stack = graph.search visited stack := by
  fun_induction preorderFrom graph visited stack with
  | case1 => rw [search]
  | case2 visited id stack fresh ih => rw [search_enter fresh, ih]
  | case3 visited id stack stale ih => rw [search_skip stale, ih]

/-- A traversal between two of its steps: the nodes that it visited, in which order it listed them,
and what waits on its stack. -/
structure Traversal where
  visited : Std.ExtTreeSet Nat := ∅
  listed : List Nat := []
  stack : List Nat

/-- One step takes a node off the stack. If it is visited now, those of its successors go onto the
stack that are not visited yet. They may still be visited before they are taken off. -/
def Traversal.step? (graph : Graph N E) (traversal : Traversal) : Option Traversal :=
  match traversal.stack with
  | [] => none
  | id :: stack =>
    if id ∈ graph ∧ id ∉ traversal.visited then
      let visited := traversal.visited.insert id
      some { visited, listed := traversal.listed ++ [id],
             stack := (graph.succIds id).filter (· ∉ visited) ++ stack }
    else
      some { traversal with stack }

/-- The steps come to an end, and then these nodes are listed. -/
inductive Traversal.Ends (graph : Graph N E) : Traversal → List Nat → Prop
  | stop {traversal : Traversal} (empty : traversal.step? graph = none) :
      Ends graph traversal traversal.listed
  | step {traversal next : Traversal} {order : List Nat}
      (continues : traversal.step? graph = some next)
      (rest : Ends graph next order) : Ends graph traversal order

private theorem preorderWork_insert_lt (fresh : id ∈ graph ∧ id ∉ visited) {pushed : List Nat}
    (few : pushed.length ≤ (graph.succIds id).length) (stack : List Nat) :
    graph.preorderWork (visited.insert id) + (pushed ++ stack).length <
      graph.preorderWork visited + (id :: stack).length := by
  have step := openWeight_insert_add_le (fun id => (graph.succIds id).length) graph.ids visited id
    (mem_ids.mpr fresh.1) fresh.2
  simp only [preorderWork, List.length_append, List.length_cons] at *
  omega

/-- The search from the stack lists what the steps are still to list. -/
theorem Traversal.ends_search (graph : Graph N E) (visited : Std.ExtTreeSet Nat)
    (listed stack : List Nat) :
    Ends graph { visited, listed, stack } (listed ++ graph.search visited stack) := by
  match stack with
  | [] =>
    rw [search, List.append_nil]
    exact .stop rfl
  | id :: stack =>
    by_cases fresh : id ∈ graph ∧ id ∉ visited
    · -- A step keeps only the successors that are still to be visited. The search passes over the
      -- others itself.
      refine .step (if_pos fresh) ?_
      have onwards := ends_search graph (visited.insert id) (listed ++ [id])
        ((graph.succIds id).filter (· ∉ visited.insert id) ++ stack)
      have same_below := search_filter graph (visited.insert id) (· ∉ visited.insert id)
        (graph.succIds id) fun _ drops => not_not.mp (of_decide_eq_false drops)
      rw [search_append, same_below, ← search_append, List.append_assoc] at onwards
      rw [search_enter fresh]
      exact onwards
    · refine .step (if_neg fresh) ?_
      rw [search_skip fresh]
      exact ends_search graph visited listed stack
termination_by graph.preorderWork visited + stack.length
decreasing_by
  · exact preorderWork_insert_lt fresh (List.length_filter_le _ _) stack
  · simp

/-! ### The order of the traversal -/

private theorem pairwise_lt_succIds (graph : Graph N E) (id : Nat) :
    (graph.succIds id).Pairwise (· < ·) :=
  Std.ExtTreeMap.ordered_keys.imp Nat.compare_eq_lt.mp

/-- The traversal with a stack ends, and never asks its bit set for a node that has no place there.
It lists the nodes in the order of the recursive search, which takes the starts as they are given
and the successors of a node once each, by increasing number. So it lists exactly the nodes that the
starts in the graph reach, each once. -/
theorem preorder_eq_search (graph : Graph N E) (built : graph.Built) (starts : List Nat) :
    Traversal.Ends graph { stack := starts } (graph.preorder starts) ∧ graph.FitsBitSet ∧
    graph.preorder starts = graph.search ∅ starts ∧
    (∀ id, (graph.succIds id).Pairwise (· < ·) ∧ ∀ next, next ∈ graph.succIds id ↔
      graph.HasEdge id next) ∧
    (graph.preorder starts).Nodup ∧ ∀ id, id ∈ graph.preorder starts ↔
      graph.ReachedFrom starts id := by
  have coherent := built.coherent
  have same : graph.preorder starts = graph.search ∅ starts := preorderFrom_eq_search graph ∅ starts
  refine ⟨?_, coherent.fitsBitSet, same,
    fun id => ⟨pairwise_lt_succIds graph id, fun _ => coherent.mem_succIds⟩,
    nodup_preorder graph starts, fun _ => mem_preorder coherent⟩
  rw [same]
  exact Traversal.ends_search graph ∅ [] starts

/-- Two nodes are put on the stack again while they wait there, and an edge leads from one of them
to itself. -/
def winding : Graph Unit Unit :=
  (((((((([0, 1, 2, 3, 4].foldl (fun graph id => graph.insertNode id ()) ∅ :
    Graph Unit Unit).addEdge 0 1 ()).addEdge 0 2 ()).addEdge 0 3 ()).addEdge 1 3 ()).addEdge
    3 2 ()).addEdge 3 3 ()).addEdge 2 0 ()).addEdge 4 1 ()

theorem winding_preorder : winding.Built ∧ winding.preorder [7, 0, 0, 4] = [0, 1, 3, 2, 4] ∧
    winding.search ∅ [7, 0, 0, 4] = [0, 1, 3, 2, 4] ∧
    Traversal.Ends winding { stack := [7, 0, 0, 4] } [0, 1, 3, 2, 4] ∧
      winding.ReachedFrom [7, 0, 0, 4] 2 := by
  have built : winding.Built := by
    have empty : (∅ : Graph Unit Unit).Built := .empty
    have upper := ((empty.insertNode 0 ()).insertNode 1 ()).insertNode 2 ()
    have nodes := (upper.insertNode 3 ()).insertNode 4 ()
    have first :=
      ((nodes.addEdge 0 1 () (by decide) (by decide)).addEdge 0 2 () (by decide)
        (by decide)).addEdge
      0 3 () (by decide) (by decide)
    have third :=
      ((first.addEdge 1 3 () (by decide) (by decide)).addEdge 3 2 () (by decide)
        (by decide)).addEdge
      3 3 () (by decide) (by decide)
    exact (third.addEdge 2 0 () (by decide) (by decide)).addEdge 4 1 () (by decide) (by decide)
  have listed : winding.preorder [7, 0, 0, 4] = [0, 1, 3, 2, 4] := by decide +kernel
  obtain ⟨ends, _, same, _, _, reached⟩ := preorder_eq_search winding built [7, 0, 0, 4]
  rw [listed] at ends same
  exact ⟨built, listed, same.symm, ends, (reached 2).mp (by rw [listed]; decide)⟩

end FlowIR.Graph
