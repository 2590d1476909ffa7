import FlowIR.Proofs.Graph.Postorder

/-!
# Cycles

A walk can be cut at any of its nodes and put together with another one, and what it repeats can be
left out. A cycle is a walk over different nodes with an edge from its end back to its start. Where
there is none, everything that is left first in postorder has no successor.
-/
namespace FlowIR.Graph

variable {N E : Type} {graph : Graph N E}

/-! ### Cutting walks and putting them together -/

namespace Walk

variable {first middle last id : Nat} {path rest : List Nat}

theorem last_mem (walk : graph.Walk first last path) : last ∈ path := by
  induction walk with
  | single _ => exact List.mem_singleton_self _
  | cons _ _ ih => exact List.mem_cons_of_mem _ ih

theorem append (walk : graph.Walk first middle path) (further : graph.Walk middle last rest) :
    graph.Walk first last (path ++ rest.tail) := by
  induction walk with
  | single _ =>
    cases further with
    | single member => exact .single member
    | cons edge onwards => exact .cons edge onwards
  | cons edge _ ih => exact .cons edge (ih further)

theorem split (walk : graph.Walk first last path) (member : id ∈ path) :
    ∃ before after, path = before ++ id :: after ∧ graph.Walk first id (before ++ [id]) ∧
      graph.Walk id last (id :: after) := by
  induction walk with
  | single known =>
    obtain rfl := List.mem_singleton.mp member
    exact ⟨[], [], rfl, .single known, .single known⟩
  | @cons first second last path edge rest ih =>
    by_cases here : id = first
    · subst here
      exact ⟨[], path, rfl, .single edge.source_mem, .cons edge rest⟩
    · obtain ⟨before, after, rfl, upto, onwards⟩ := ih ((List.mem_cons.mp member).resolve_left here)
      exact ⟨first :: before, after, rfl, .cons edge upto, onwards⟩

/-- A walk that comes back to its first node may as well start there. -/
theorem exists_simple (walk : graph.Walk first last path) :
    ∃ simple, graph.Walk first last simple ∧ simple.Nodup := by
  induction walk with
  | single member => exact ⟨_, .single member, by simp⟩
  | @cons first second last path edge _ ih =>
    obtain ⟨simple, rest, distinct⟩ := ih
    by_cases again : first ∈ simple
    · -- The part before the second visit is left out.
      obtain ⟨before, after, rfl, _, onwards⟩ := rest.split again
      exact ⟨_, onwards, (List.nodup_append.mp distinct).2.1⟩
    · exact ⟨_, .cons edge rest, List.nodup_cons.mpr ⟨again, distinct⟩⟩

/-- The last node of a simple walk is not on the way to any other one of its nodes. -/
theorem exists_avoiding_last (walk : graph.Walk first last path) (simple : path.Nodup)
    (member : id ∈ path) (other : id ≠ last) :
    ∃ before, graph.Walk first id before ∧ last ∉ before := by
  obtain ⟨before, after, rfl, upto, onwards⟩ := walk.split member
  refine ⟨_, upto, fun early => ?_⟩
  have late : last ∈ after := (List.mem_cons.mp onwards.last_mem).resolve_left other.symm
  rw [List.append_cons, List.nodup_append] at simple
  exact simple.2.2 last early last late rfl

/-- The first node of a simple walk is not on the way from any other one of its nodes. -/
theorem exists_avoiding_first (walk : graph.Walk first last path) (simple : path.Nodup)
    (member : id ∈ path) (other : id ≠ first) :
    ∃ after, graph.Walk id last after ∧ first ∉ after := by
  obtain ⟨before, after, rfl, upto, onwards⟩ := walk.split member
  refine ⟨_, onwards, fun late => ?_⟩
  have early : first ∈ before := by simpa [other.symm] using upto.first_mem
  rw [List.nodup_append] at simple
  exact simple.2.2 first early first late rfl

end Walk

/-! ### Cycles -/

/-- Different nodes, each with an edge to the next one, and the last of them with an edge to the
first. -/
def IsCycle (graph : Graph N E) (path : List Nat) : Prop :=
  path.Nodup ∧ ∃ first last, graph.Walk first last path ∧ graph.HasEdge last first

/-- No way along at least one edge leads back to its start. -/
def Acyclic (graph : Graph N E) : Prop := ∀ id, ¬ Relation.TransGen graph.HasEdge id id

namespace Acyclic

variable (acyclic : graph.Acyclic) (coherent : graph.Coherent)
include acyclic coherent

theorem not_reaches_back {first second : Nat} (edge : graph.HasEdge first second) :
    ¬ graph.Reaches second first := by
  intro back
  exact acyclic first (.head' edge ((reaches_iff coherent).mp back).2)

theorem not_isCycle (path : List Nat) : ¬ graph.IsCycle path := by
  rintro ⟨_, first, last, walk, edge⟩
  exact acyclic.not_reaches_back coherent edge ⟨path, walk⟩

theorem reverse : graph.reverse.Acyclic := by
  have turned : graph.reverse.HasEdge = Function.swap graph.HasEdge := by
    ext source target
    exact hasEdge_reverse coherent
  intro id loop
  rw [turned, Relation.transGen_swap] at loop
  exact acyclic id loop

/-- From every node some way leads to a node without successors, such as the one that is left
first. -/
theorem exists_last {id : Nat} (member : id ∈ graph) :
    ∃ last, graph.Reaches id last ∧ ∀ next, ¬ graph.HasEdge last next := by
  have listed : id ∈ graph.postorder [id] :=
    (mem_postorder coherent).mpr ⟨id, List.mem_singleton_self id, reaches_refl member⟩
  have leads_back := leadsBack_postorder coherent [id]
  have closed : ∀ last next, last ∈ graph.postorder [id] → graph.HasEdge last next →
      next ∈ graph.postorder [id] := fun _ _ => mem_postorder_of_hasEdge coherent
  -- Whatever follows the node that is left first is left after it, so it leads back to it.
  cases order : graph.postorder [id] with
  | nil => simp [order] at listed
  | cons last others =>
    rw [order] at leads_back closed
    obtain ⟨root, is_root, reaches⟩ := (mem_postorder coherent).mp (order ▸ List.mem_cons_self)
    obtain rfl := List.mem_singleton.mp is_root
    refine ⟨last, reaches, fun next edge => ?_⟩
    rcases List.mem_cons.mp (closed last next List.mem_cons_self edge) with rfl | later
    · exact acyclic next (.single edge)
    · exact acyclic.not_reaches_back coherent edge
        ((List.pairwise_cons.mp leads_back).1 next later edge)

end Acyclic

/-- If every edge leads to a higher rank, then there is no loop. -/
theorem acyclic_of_rank (rank : Nat → Nat)
    (rises : ∀ edge ∈ graph.edges, rank edge.source < rank edge.target) :
    graph.Acyclic := by
  have one_step : ∀ source target, graph.HasEdge source target → rank source < rank target := by
    intro source target has_edge
    obtain ⟨edge, listed, rfl, rfl⟩ := hasEdge_iff_mem_edges.mp has_edge
    exact rises edge listed
  intro id loop
  have higher : ∀ {last : Nat}, Relation.TransGen graph.HasEdge id last → rank id < rank last := by
    intro last steps
    induction steps with
    | single edge => exact one_step _ _ edge
    | tail _ edge ih => exact Nat.lt_trans ih (one_step _ _ edge)
  exact Nat.lt_irrefl _ (higher loop)

end FlowIR.Graph
