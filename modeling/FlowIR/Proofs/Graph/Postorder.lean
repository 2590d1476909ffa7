import FlowIR.Proofs.Graph.Paths

/-!
# Depth-first postorder

The postorder of some roots lists exactly the nodes that the roots reach, each once. A listed node
that is not a root has a predecessor that is left only after it, which is the node it was entered
from. An edge to a node that is left later leads back into a loop.

The proofs follow the stack. What is listed from a stack on are the nodes that are still to be left,
which were entered before, and the nodes that are entered from the stack, which were not.
-/
namespace FlowIR.Graph

variable {N E : Type} {graph : Graph N E}

def Step.id : Step → Nat
  | .enter id => id
  | .leave id => id

def Step.isLeave : Step → Bool
  | .enter _ => false
  | .leave _ => true

private theorem filter_isLeave_map_enter (ids : List Nat) :
    (ids.map Step.enter).filter Step.isLeave = [] := by
  simp [List.filter_eq_nil_iff, Step.isLeave]

private theorem leave_mem_postorderFrom (graph : Graph N E) (entered : Std.ExtTreeSet Nat)
    (stack : List Step) (id : Nat) (pending : Step.leave id ∈ stack) :
    id ∈ graph.postorderFrom entered stack := by
  -- The stack is empty, a node is left, a fresh node is entered, or a node is skipped.
  fun_induction postorderFrom graph entered stack with
  | case1 => simp at pending
  | case2 entered other stack ih =>
    rcases List.mem_cons.mp pending with same | later
    · simp [Step.leave.inj same]
    · exact List.mem_cons_of_mem _ (ih later)
  | case3 entered other stack fresh ih => exact ih (by simp_all)
  | case4 entered other stack stale ih => exact ih (by simp_all)

/-- What is listed was either entered before or is entered now. -/
theorem pending_or_fresh (graph : Graph N E) (entered : Std.ExtTreeSet Nat) (stack : List Step)
    (id : Nat) (listed : id ∈ graph.postorderFrom entered stack) :
    Step.leave id ∈ stack ∨ id ∉ entered := by
  fun_induction postorderFrom graph entered stack with
  | case1 => simp at listed
  | case2 entered other stack ih =>
    rcases List.mem_cons.mp listed with rfl | later
    · simp
    · exact (ih later).imp_left (List.mem_cons_of_mem _)
  | case3 entered other stack fresh ih =>
    rcases ih listed with pending | outside
    · rcases List.mem_append.mp pending with entering | rest
      · simp at entering
      · rcases List.mem_cons.mp rest with same | rest
        · -- The node entered now is the one that is put on the stack to be left.
          rw [Step.leave.inj same]
          exact Or.inr fresh.2
        · exact Or.inl (List.mem_cons_of_mem _ rest)
    · exact Or.inr fun inside => outside (Std.ExtTreeSet.mem_insert.mpr (Or.inr inside))
  | case4 entered other stack stale ih => exact (ih listed).imp_left (List.mem_cons_of_mem _)

/-! ### Each node once -/

/-- The nodes that are still to be left were entered, and none of them is to be left twice. -/
structure LeavesOnce (entered : Std.ExtTreeSet Nat) (stack : List Step) : Prop where
  entered_before : ∀ id, Step.leave id ∈ stack → id ∈ entered
  distinct : (stack.filter Step.isLeave).Nodup

private theorem nodup_postorderFrom (graph : Graph N E) (entered : Std.ExtTreeSet Nat)
    (stack : List Step) (once : LeavesOnce entered stack) :
    (graph.postorderFrom entered stack).Nodup := by
  obtain ⟨entered_before, distinct⟩ := once
  fun_induction postorderFrom graph entered stack with
  | case1 => exact List.nodup_nil
  | case2 entered id stack ih =>
    rw [List.filter_cons_of_pos rfl, List.nodup_cons] at distinct
    refine List.nodup_cons.mpr ⟨?_, ih (fun other pending => ?_) distinct.2⟩
    · intro listed
      -- A second listing would be pending, or else of a node that was not entered before.
      rcases pending_or_fresh graph entered stack id listed with pending | outside
      · exact distinct.1 (List.mem_filter.mpr ⟨pending, rfl⟩)
      · exact outside (entered_before id (by simp))
    · exact entered_before other (List.mem_cons_of_mem _ pending)
  | case3 entered id stack fresh ih =>
    apply ih
    · intro other pending
      rw [Std.ExtTreeSet.mem_insert]
      simp only [List.mem_append, List.mem_map, reduceCtorEq, and_false, exists_false, false_or,
        List.mem_cons, Step.leave.injEq] at pending
      rcases pending with rfl | later
      · simp
      · exact Or.inr (entered_before other (List.mem_cons_of_mem _ later))
    · rw [List.filter_append, filter_isLeave_map_enter, List.nil_append,
        List.filter_cons_of_pos rfl, List.nodup_cons]
      -- The only new step to leave is that of a node which was not entered before.
      refine ⟨fun member => fresh.2 ?_, by simpa [Step.isLeave] using distinct⟩
      exact entered_before id (List.mem_cons_of_mem _ (List.mem_filter.mp member).1)
  | case4 entered id stack stale ih =>
    apply ih
    · exact fun other pending => entered_before other (List.mem_cons_of_mem _ pending)
    · simpa [Step.isLeave] using distinct

theorem nodup_postorder (graph : Graph N E) (roots : List Nat) : (graph.postorder roots).Nodup := by
  apply nodup_postorderFrom
  constructor
  · simp
  · rw [filter_isLeave_map_enter]
    exact List.nodup_nil

/-! ### Exactly the nodes that are reached -/

private theorem reached_of_mem_postorderFrom (coherent : graph.Coherent)
    (entered : Std.ExtTreeSet Nat) (stack : List Step) (id : Nat)
    (listed : id ∈ graph.postorderFrom entered stack) :
    Step.leave id ∈ stack ∨ ∃ start, Step.enter start ∈ stack ∧ graph.Reaches start id := by
  fun_induction postorderFrom graph entered stack with
  | case1 => simp at listed
  | case2 entered other stack ih =>
    rcases List.mem_cons.mp listed with rfl | later
    · simp
    · rcases ih later with pending | ⟨start, waiting, reaches⟩
      · exact Or.inl (List.mem_cons_of_mem _ pending)
      · exact Or.inr ⟨start, List.mem_cons_of_mem _ waiting, reaches⟩
  | case3 entered other stack fresh ih =>
    simp only [List.mem_append, List.mem_map, List.mem_cons, reduceCtorEq, and_false, exists_false,
      false_or, Step.leave.injEq, Step.enter.injEq, exists_eq_right] at ih
    -- The node itself is still to be left now, and what its successors reach it reaches too.
    rcases ih listed with (rfl | pending) | ⟨start, waiting, reaches⟩
    · exact Or.inr ⟨id, by simp, reaches_refl fresh.1⟩
    · exact Or.inl (List.mem_cons_of_mem _ pending)
    · rcases waiting with successor | waiting
      · obtain ⟨path, walk⟩ := reaches
        exact Or.inr ⟨other, by simp, _, .cons (coherent.mem_succIds.mp successor) walk⟩
      · exact Or.inr ⟨start, List.mem_cons_of_mem _ waiting, reaches⟩
  | case4 entered other stack stale ih =>
    rcases ih listed with pending | ⟨start, waiting, reaches⟩
    · exact Or.inl (List.mem_cons_of_mem _ pending)
    · exact Or.inr ⟨start, List.mem_cons_of_mem _ waiting, reaches⟩

private theorem enter_mem_postorderFrom (graph : Graph N E) (entered : Std.ExtTreeSet Nat)
    (stack : List Step) (id : Nat) (waiting : Step.enter id ∈ stack) (member : id ∈ graph) :
    id ∈ entered ∨ id ∈ graph.postorderFrom entered stack := by
  fun_induction postorderFrom graph entered stack with
  | case1 => simp at waiting
  | case2 entered other stack ih =>
    exact (ih (by simpa using waiting)).imp_right (List.mem_cons_of_mem _)
  | case3 entered other stack fresh ih =>
    by_cases here : id = other
    · -- Whatever is entered is put on the stack to be left.
      subst here
      exact Or.inr (leave_mem_postorderFrom graph _ _ id (by simp))
    · rcases ih (by simp_all) with inside | listed
      · rcases Std.ExtTreeSet.mem_insert.mp inside with same | inside
        · exact absurd (Nat.compare_eq_eq.mp same).symm here
        · exact Or.inl inside
      · exact Or.inr listed
  | case4 entered other stack stale ih =>
    by_cases here : id = other
    · subst here
      exact Or.inl (by simpa [member] using stale)
    · exact ih (by simp_all)

/-- The successors of a node that is entered now are entered too. -/
theorem successor_mem_postorderFrom (coherent : graph.Coherent) (entered : Std.ExtTreeSet Nat)
    (stack : List Step) (id next : Nat) (listed : id ∈ graph.postorderFrom entered stack)
    (outside : id ∉ entered) (not_pending : Step.leave id ∉ stack) (edge : graph.HasEdge id next) :
    next ∈ entered ∨ next ∈ graph.postorderFrom entered stack := by
  fun_induction postorderFrom graph entered stack with
  | case1 => simp at listed
  | case2 entered other stack ih =>
    simp only [List.mem_cons, not_or, Step.leave.injEq] at not_pending
    have later : id ∈ graph.postorderFrom entered stack :=
      (List.mem_cons.mp listed).resolve_left not_pending.1
    exact (ih later outside not_pending.2).imp_right (List.mem_cons_of_mem _)
  | case3 entered other stack fresh ih =>
    by_cases here : id = other
    · -- The successors of the node that is entered now are put on the stack.
      subst here
      have waiting : Step.enter next ∈ (graph.succIds id).map Step.enter ++ .leave id :: stack := by
        simp [coherent.mem_succIds.mpr edge]
      rcases enter_mem_postorderFrom graph (entered.insert id) _ next waiting
        (coherent.target_mem edge) with inside | listed_too
      · rcases Std.ExtTreeSet.mem_insert.mp inside with same | inside
        · obtain rfl := Nat.compare_eq_eq.mp same
          exact Or.inr listed
        · exact Or.inl inside
      · exact Or.inr listed_too
    · have still_outside : id ∉ entered.insert other := by
        simp only [Std.ExtTreeSet.mem_insert, Nat.compare_eq_eq, not_or]
        exact ⟨fun same => here same.symm, outside⟩
      rcases ih listed still_outside (by simp_all) with inside | listed_too
      · rcases Std.ExtTreeSet.mem_insert.mp inside with same | inside
        · rw [← Nat.compare_eq_eq.mp same]
          exact Or.inr (leave_mem_postorderFrom graph _ _ other (by simp))
        · exact Or.inl inside
      · exact Or.inr listed_too
  | case4 entered other stack stale ih => exact ih listed outside (by simp_all)

theorem mem_postorder (coherent : graph.Coherent) {roots : List Nat} {id : Nat} :
    id ∈ graph.postorder roots ↔ graph.ReachedFrom roots id := by
  constructor
  · intro listed
    rcases reached_of_mem_postorderFrom coherent ∅ _ id listed
      with pending | ⟨root, waiting, reaches⟩
    · simp at pending
    · exact ⟨root, by simpa using waiting, reaches⟩
  · rintro ⟨root, listed, path, walk⟩
    have start : root ∈ graph.postorder roots := by
      rcases enter_mem_postorderFrom graph ∅ (roots.map .enter) root (by simpa using listed)
        walk.first_mem_graph with inside | listed_root
      · simp at inside
      · exact listed_root
    -- Each edge of the walk leads from a listed node to another one.
    clear listed
    induction walk with
    | single _ => exact start
    | @cons first second last path edge _ ih =>
      rcases successor_mem_postorderFrom coherent ∅ (roots.map .enter) first second start (by simp)
        (by simp) edge with inside | next
      · simp at inside
      · exact ih next

/-! ### A predecessor that is left later -/

/-- Everything on the stack is a root or has a predecessor that is left further down. -/
def Supported (graph : Graph N E) (roots : List Nat) : List Step → Prop
  | [] => True
  | step :: rest =>
    (step.id ∈ roots ∨ ∃ parent, Step.leave parent ∈ rest ∧ graph.HasEdge parent step.id) ∧
      Supported graph roots rest

/-- Everything in the list is a root or has a predecessor later in the list. -/
def LaterPredecessor (graph : Graph N E) (roots : List Nat) : List Nat → Prop
  | [] => True
  | id :: rest =>
    (id ∈ roots ∨ ∃ parent ∈ rest, graph.HasEdge parent id) ∧ LaterPredecessor graph roots rest

private theorem supported_append (graph : Graph N E) (roots : List Nat) (upper lower : List Step)
    (each : ∀ step ∈ upper,
      step.id ∈ roots ∨ ∃ parent, Step.leave parent ∈ lower ∧ graph.HasEdge parent step.id)
    (supported : Supported graph roots lower) : Supported graph roots (upper ++ lower) := by
  induction upper with
  | nil => exact supported
  | cons step rest ih =>
    refine ⟨?_, ih fun other member => each other (List.mem_cons_of_mem _ member)⟩
    rcases each step (by simp) with root | ⟨parent, pending, edge⟩
    · exact Or.inl root
    · exact Or.inr ⟨parent, List.mem_append_right rest pending, edge⟩

private theorem laterPredecessor_postorderFrom (coherent : graph.Coherent) (roots : List Nat)
    (entered : Std.ExtTreeSet Nat) (stack : List Step) (supported : Supported graph roots stack) :
    LaterPredecessor graph roots (graph.postorderFrom entered stack) := by
  fun_induction postorderFrom graph entered stack with
  | case1 => trivial
  | case2 entered id stack ih =>
    refine ⟨?_, ih supported.2⟩
    rcases supported.1 with root | ⟨parent, pending, edge⟩
    · exact Or.inl root
    · exact Or.inr ⟨parent, leave_mem_postorderFrom graph entered stack parent pending, edge⟩
  | case3 entered id stack fresh ih =>
    -- The node is left after its successors, so it supports them.
    apply ih
    apply supported_append
    · intro step member
      obtain ⟨next, successor, rfl⟩ := List.mem_map.mp member
      exact Or.inr ⟨id, by simp, coherent.mem_succIds.mp successor⟩
    · exact supported
  | case4 entered id stack stale ih => exact ih supported.2

theorem laterPredecessor_postorder (coherent : graph.Coherent) (roots : List Nat) :
    LaterPredecessor graph roots (graph.postorder roots) := by
  apply laterPredecessor_postorderFrom coherent
  have supported := supported_append graph roots (roots.map .enter) [] ?_ trivial
  · simpa using supported
  · intro step member
    obtain ⟨root, listed, rfl⟩ := List.mem_map.mp member
    exact Or.inl listed

/-- The form by positions. -/
theorem LaterPredecessor.at {roots order : List Nat} (later : LaterPredecessor graph roots order)
    {position id : Nat} (here : order[position]? = some id) (inner : id ∉ roots) :
    ∃ further parent, position < further ∧ order[further]? = some parent ∧
      graph.HasEdge parent id := by
  induction order generalizing position with
  | nil => simp at here
  | cons first rest ih =>
    cases position with
    | zero =>
      obtain rfl : first = id := by simpa using here
      obtain ⟨parent, member, edge⟩ := later.1.resolve_left inner
      obtain ⟨index, found⟩ := List.getElem?_of_mem member
      exact ⟨index + 1, parent, by omega, by simpa using found, edge⟩
    | succ position =>
      obtain ⟨further, parent, beyond, found, edge⟩ := ih later.2 (by simpa using here)
      exact ⟨further + 1, parent, by omega, by simpa using found, edge⟩

/-! ### Edges that lead back -/

theorem Reaches.trans {first second last : Nat} (start : graph.Reaches first second)
    (rest : graph.Reaches second last) : graph.Reaches first last := by
  obtain ⟨path, walk⟩ := start
  induction walk with
  | single _ => exact rest
  | cons edge _ ih =>
    obtain ⟨longer, further⟩ := ih rest
    exact ⟨_, .cons edge further⟩

theorem reaches_of_hasEdge (coherent : graph.Coherent) {first second : Nat}
    (edge : graph.HasEdge first second) : graph.Reaches first second :=
  ⟨_, .cons edge (.single (coherent.target_mem edge))⟩

theorem mem_postorder_of_hasEdge (coherent : graph.Coherent) {roots : List Nat}
    {source target : Nat} (listed : source ∈ graph.postorder roots)
    (edge : graph.HasEdge source target) :
    target ∈ graph.postorder roots := by
  obtain ⟨root, is_root, reaches⟩ := (mem_postorder coherent).mp listed
  exact (mem_postorder coherent).mpr ⟨root, is_root,
    reaches.trans (reaches_of_hasEdge coherent edge)⟩

/-- Nodes that are still to be left reach everything above them on the stack. When it is their turn,
all of their successors have been entered. -/
structure Unfolds (graph : Graph N E) (entered : Std.ExtTreeSet Nat)
    (stack : List Step) : Prop where
  reaches : stack.Pairwise fun upper lower => lower.isLeave = true → graph.Reaches lower.id upper.id
  successors : ∀ id, Step.leave id ∈ stack → ∀ next, graph.HasEdge id next →
    next ∈ entered ∨ Step.enter next ∈ stack.takeWhile (· ≠ .leave id)

private theorem pairwise_map_enter {relation : Step → Step → Prop} (ids : List Nat) :
    (ids.map Step.enter).Pairwise fun upper lower => lower.isLeave = true → relation upper lower :=
  List.pairwise_map.mpr (List.pairwise_of_forall fun _ _ leaves => by simp [Step.isLeave] at leaves)

namespace Unfolds

variable {entered : Std.ExtTreeSet Nat} {stack : List Step} {id : Nat}

private theorem leave (unfolds : Unfolds graph entered (.leave id :: stack)) :
    Unfolds graph entered stack where
  reaches := (List.pairwise_cons.mp unfolds.reaches).2
  successors := by
    intro other pending next edge
    have known := unfolds.successors other (List.mem_cons_of_mem _ pending) next edge
    by_cases here : id = other
    · simp only [here, ne_eq, not_true_eq_false, decide_false, Bool.false_eq_true,
        not_false_eq_true, List.takeWhile_cons_of_neg, List.not_mem_nil, or_false] at known
      exact Or.inl known
    · simpa [here] using known

private theorem enter (coherent : graph.Coherent)
    (unfolds : Unfolds graph entered (.enter id :: stack)) :
    Unfolds graph (entered.insert id) ((graph.succIds id).map .enter ++ .leave id :: stack) where
  reaches := by
    obtain ⟨above, rest⟩ := List.pairwise_cons.mp unfolds.reaches
    rw [List.pairwise_append]
    refine ⟨pairwise_map_enter _, List.pairwise_cons.mpr ⟨above, rest⟩, ?_⟩
    intro step member lower below leaves
    obtain ⟨next, successor, rfl⟩ := List.mem_map.mp member
    have onwards := reaches_of_hasEdge coherent (coherent.mem_succIds.mp successor)
    rcases List.mem_cons.mp below with rfl | further
    · exact onwards
    · exact (above lower further leaves).trans onwards
  successors := by
    intro other pending next edge
    have passed : ((graph.succIds id).map Step.enter ++ .leave id :: stack).takeWhile
        (· ≠ .leave other) =
        (graph.succIds id).map Step.enter ++
          (Step.leave id :: stack).takeWhile (· ≠ .leave other) :=
      List.takeWhile_append_of_pos (by simp)
    rw [passed, Std.ExtTreeSet.mem_insert, Nat.compare_eq_eq]
    by_cases here : id = other
    · subst here
      simp [coherent.mem_succIds.mpr edge]
    · -- The node itself was waiting above the other one, and now it is entered.
      have known := unfolds.successors other (by simpa [Ne.symm here] using pending) next edge
      simp only [here, ne_eq, Step.leave.injEq, not_false_eq_true, decide_true,
        List.takeWhile_cons_of_pos, List.mem_append, List.mem_cons, reduceCtorEq, false_or,
        Step.enter.injEq] at known ⊢
      rcases known with inside | same | waiting
      · exact Or.inl (Or.inr inside)
      · exact Or.inl (Or.inl same.symm)
      · exact Or.inr (Or.inr waiting)

private theorem skip (coherent : graph.Coherent)
    (unfolds : Unfolds graph entered (.enter id :: stack)) (stale : ¬ (id ∈ graph ∧ id ∉ entered)) :
    Unfolds graph entered stack where
  reaches := (List.pairwise_cons.mp unfolds.reaches).2
  successors := by
    intro other pending next edge
    have known := unfolds.successors other (List.mem_cons_of_mem _ pending) next edge
    simp only [ne_eq, reduceCtorEq, not_false_eq_true, decide_true, List.takeWhile_cons_of_pos,
      List.mem_cons, Step.enter.injEq] at known
    rcases known with inside | rfl | waiting
    · exact Or.inl inside
    · -- A node with an edge to it is in the graph, so it was skipped because it was entered before.
      exact Or.inl (by simpa [coherent.target_mem edge] using stale)
    · exact Or.inr waiting

end Unfolds

private theorem leadsBack_postorderFrom (coherent : graph.Coherent) (entered : Std.ExtTreeSet Nat)
    (stack : List Step) (unfolds : Unfolds graph entered stack) :
    (graph.postorderFrom entered stack).Pairwise fun id later =>
      graph.HasEdge id later → graph.Reaches later id := by
  fun_induction postorderFrom graph entered stack with
  | case1 => exact .nil
  | case2 entered id stack ih =>
    refine .cons (fun later listed edge => ?_) (ih unfolds.leave)
    -- All successors have been entered, so one that is listed later is still to be left.
    rcases pending_or_fresh graph entered stack later listed with pending | outside
    · exact (List.pairwise_cons.mp unfolds.reaches).1 _ pending rfl
    · have known := unfolds.successors id (by simp) later edge
      simp [outside] at known
  | case3 entered id stack fresh ih => exact ih (unfolds.enter coherent)
  | case4 entered id stack stale ih => exact ih (unfolds.skip coherent stale)

/-- If an edge leads from a listed node to one that is listed after it, then it is part of a
loop. -/
theorem leadsBack_postorder (coherent : graph.Coherent) (roots : List Nat) :
    (graph.postorder roots).Pairwise fun id later => graph.HasEdge id later →
      graph.Reaches later id := by
  apply leadsBack_postorderFrom coherent
  constructor
  · exact pairwise_map_enter _
  · simp

end FlowIR.Graph
