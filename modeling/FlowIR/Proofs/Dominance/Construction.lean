import FlowIR.Proofs.Dominance.Refinement
import FlowIR.Proofs.Graph.Postorder
import Mathlib.Data.List.Basic

/-!
# Construction of dominator forests

The postorder of a graph gives the layout on which parents are refined. The loops of the
construction are stated here once more without any bound, as relations that hold only if every loop
ends by itself. They do: fingers always meet, and the budget of passes is never used up.
-/
namespace FlowIR.DominatorForest

variable {N E : Type}

/-! ### Numbers of nodes -/

theorem distinct_zipIdx {order : List Nat} (nodup : order.Nodup) :
    order.zipIdx.Pairwise fun a b => ¬ compare a.1 b.1 = .eq := by
  have distinct : (order.zipIdx.map Prod.fst).Pairwise (· ≠ ·) := by
    rwa [List.zipIdx_map_fst]
  rw [List.pairwise_map] at distinct
  exact distinct.imp fun different same => different (Nat.compare_eq_eq.mp same)

theorem number_eq_some_iff {order : List Nat} (nodup : order.Nodup) {id number : Nat} :
    (Numbering.ofOrder order).number[id]? = some number ↔ order[number]? = some id := by
  have numbered : ∀ {number : Nat}, order[number]? = some id →
      (Numbering.ofOrder order).number[id]? = some number := by
    intro number here
    exact Std.ExtTreeMap.getElem?_ofList_of_mem (Nat.compare_eq_eq.mpr rfl) (distinct_zipIdx nodup)
      (List.mem_zipIdx_iff_getElem?.mpr here)
  constructor
  · intro found
    have listed : id ∈ order := by
      by_contra absent
      have missing : (Numbering.ofOrder order).number[id]? = none :=
        Std.ExtTreeMap.getElem?_ofList_of_contains_eq_false
          (by simpa [List.zipIdx_map_fst] using absent)
      simp [missing] at found
    -- The node stands somewhere, and that position is the number it was given.
    obtain ⟨position, here⟩ := List.getElem?_of_mem listed
    rw [numbered here] at found
    rwa [← Option.some.inj found]
  · exact numbered

/-- A node stands at one position only. -/
theorem position_unique {order : List Nat} (nodup : order.Nodup) {id first second : Nat}
    (at_first : order[first]? = some id)
    (at_second : order[second]? = some id) : first = second := by
  rw [← number_eq_some_iff nodup] at at_first at_second
  exact Option.some.inj (at_first.symm.trans at_second)

theorem position_lt {order : List Nat} {position id : Nat} (here : order[position]? = some id) :
    position < order.length :=
  (List.getElem?_eq_some_iff.mp here).1

/-! ### The layout of a graph -/

def layoutOf (graph : Graph N E) (roots order : List Nat) : Layout where
  size := order.length
  isRoot number := (order[number]?.map (· ∈ roots : Nat → Bool)).getD false
  preds number :=
    ((order[number]?.map graph.predIds).getD []).filterMap ((Numbering.ofOrder order).number[·]?)

section Layout

variable {graph : Graph N E} {roots order : List Nat}

private theorem isRoot_layoutOf {number id : Nat} (here : order[number]? = some id) :
    (layoutOf graph roots order).isRoot number = true ↔ id ∈ roots := by
  simp [layoutOf, here]

private theorem mem_preds_layoutOf (coherent : graph.Coherent) (nodup : order.Nodup)
    {number id pred : Nat} (here : order[number]? = some id) :
    pred ∈ (layoutOf graph roots order).preds number ↔
      ∃ other, order[pred]? = some other ∧ graph.HasEdge other id := by
  simp only [layoutOf, here, Option.map_some, Option.getD_some, List.mem_filterMap,
    number_eq_some_iff nodup, coherent.mem_predIds]
  exact exists_congr fun other => and_comm

private theorem exists_node_of_pred {number pred : Nat}
    (member : pred ∈ (layoutOf graph roots order).preds number) :
    ∃ id, order[number]? = some id := by
  cases here : order[number]? with
  | none => simp [layoutOf, here] at member
  | some id => exact ⟨id, rfl⟩

theorem postordered_layoutOf (coherent : graph.Coherent) (nodup : order.Nodup)
    (later : Graph.LaterPredecessor graph roots order) :
    (layoutOf graph roots order).Postordered where
  preds_lt := by
    intro number pred member
    obtain ⟨id, here⟩ := exists_node_of_pred member
    obtain ⟨other, found, _⟩ := (mem_preds_layoutOf coherent nodup here).mp member
    exact position_lt found
  later_pred := by
    intro number bound inner
    have here : order[number]? = some order[number] := List.getElem?_eq_getElem bound
    have not_root : order[number] ∉ roots := by
      intro root
      rw [(isRoot_layoutOf here).mpr root] at inner
      simp at inner
    obtain ⟨position, parent, beyond, found, edge⟩ := later.at here not_root
    exact ⟨position, (mem_preds_layoutOf coherent nodup here).mpr ⟨parent, found, edge⟩, beyond⟩

theorem refine_eq_layout (nodup : order.Nodup) (parents : Parents) {number id : Nat}
    (here : order[number]? = some id) :
    refine graph roots (.ofOrder order) parents id =
      (layoutOf graph roots order).refine parents number := by
  have numbered := (number_eq_some_iff nodup).mpr here
  have preds : placedPreds graph (.ofOrder order) parents id =
      ((layoutOf graph roots order).preds number).filter (· ∈ parents) := by
    simp [placedPreds, layoutOf, here]
  by_cases root : id ∈ roots
  · simp [refine, Layout.refine, root, (isRoot_layoutOf here).mpr root]
  · have inner : ¬ (layoutOf graph roots order).isRoot number = true := by
      rwa [isRoot_layoutOf here]
    simp only [refine, Layout.refine, root, inner, if_false, numbered, preds]
    cases ((layoutOf graph roots order).preds number).filter (· ∈ parents) <;> rfl

theorem pass_eq_layout (nodup : order.Nodup) (parents : Parents) :
    pass graph roots (.ofOrder order) parents = (layoutOf graph roots order).pass parents := by
  -- A pass goes over the nodes and its layout over their numbers, so the order is written by
  -- numbers.
  have order_eq : order = (List.range order.length).map (order.getD · 0) := by
    apply List.ext_getElem
    · simp
    · intro position bound _
      simp [bound]
  have by_number : ∀ parents : Parents,
      order.reverse.foldl (refine graph roots (.ofOrder order)) parents
      = (List.range order.length).reverse.foldl (fun current position =>
        refine graph roots (.ofOrder order) current (order.getD position 0)) parents := by
    intro parents
    conv_lhs => rw [order_eq, ← List.map_reverse, List.foldl_map, ← order_eq]
  simp only [pass, Numbering.ofOrder] at by_number ⊢
  rw [by_number, Layout.pass, Layout.refineBelow]
  apply List.foldl_ext
  intro current position member
  have bound : position < order.length := by simpa using member
  refine refine_eq_layout nodup current ?_
  simp [bound]

/-! ### Where the passes start -/

private theorem getElem?_foldl_insert (numbers : List Nat) (start : Parents) (parent number : Nat) :
    (numbers.foldl (fun parents root => parents.insert root parent) start)[number]? =
      if number ∈ numbers then some parent else start[number]? := by
  induction numbers generalizing start with
  | nil => simp
  | cons first rest ih =>
    rw [List.foldl_cons, ih]
    by_cases later : number ∈ rest
    · simp [later]
    · by_cases here : first = number
      · simp [here]
      · simp [later, Ne.symm here, getElem?_insert_of_ne here]

/-- At first only the roots have a parent, and the virtual root is its own. -/
theorem getElem?_initialParents (roots : List Nat) (nodup : order.Nodup) (number : Nat) :
    (initialParents (.ofOrder order) roots)[number]? =
      if number = order.length ∨ ∃ id ∈ roots, order[number]? = some id then some order.length
      else none := by
  have is_root : number ∈ roots.filterMap ((Numbering.ofOrder order).number[·]?) ↔
      ∃ id ∈ roots, order[number]? = some id := by
    simp [List.mem_filterMap, number_eq_some_iff nodup]
  simp only [initialParents, Numbering.virtualRoot, getElem?_foldl_insert, is_root]
  by_cases root : ∃ id ∈ roots, order[number]? = some id
  · simp [Numbering.ofOrder, root]
  · by_cases top : order.length = number
    · simp [Numbering.ofOrder, top]
    · simp [Numbering.ofOrder, root, Ne.symm top, getElem?_insert_of_ne top]

theorem initial_parent {number parent : Nat} (nodup : order.Nodup)
    (found : (initialParents (.ofOrder order) roots)[number]? = some parent) :
    parent = order.length ∧ (number = order.length ∨ ∃ id ∈ roots, order[number]? = some id) := by
  rw [getElem?_initialParents roots nodup] at found
  split at found
  next reason => exact ⟨(Option.some.inj found).symm, reason⟩
  · simp at found

theorem rooted_initialParents (nodup : order.Nodup) :
    Rooted order.length (initialParents (.ofOrder order) roots) := by
  have top : (initialParents (.ofOrder order) roots)[order.length]? = some order.length := by
    rw [getElem?_initialParents roots nodup]
    simp
  refine ⟨top, ?_, ?_, ?_⟩
  · intro below above found inner
    obtain ⟨rfl, reason⟩ := initial_parent nodup found
    obtain ⟨id, _, here⟩ := reason.resolve_left inner
    exact position_lt here
  · intro below above found
    exact Nat.le_of_eq (initial_parent nodup found).1
  · intro below above found
    rw [(initial_parent nodup found).1]
    exact mem_of_parent top

private theorem isRoot_of_mem_initialParents (nodup : order.Nodup) {number : Nat}
    (placed : number ∈ initialParents (.ofOrder order) roots) (bound : number < order.length) :
    (layoutOf graph roots order).isRoot number = true := by
  obtain ⟨parent, found⟩ := exists_parent placed
  obtain ⟨_, reason⟩ := initial_parent nodup found
  obtain ⟨id, listed, here⟩ := reason.resolve_left (by omega)
  exact (isRoot_layoutOf here).mpr listed

/-- Nothing but roots is placed at first, so what is said about other numbers holds of none. -/
theorem settled_initialParents (nodup : order.Nodup) :
    (layoutOf graph roots order).Settled (initialParents (.ofOrder order) roots) := by
  have rooted : Rooted order.length (initialParents (.ofOrder order) roots) :=
    rooted_initialParents nodup
  refine ⟨⟨rooted, ?_, ?_, ?_, ?_⟩, ?_⟩
  · intro number from_turn bounded
    obtain rfl : number = order.length := Nat.le_antisymm bounded from_turn
    exact rooted.root_mem
  · intro number bound root
    have here : order[number]? = some order[number] := List.getElem?_eq_getElem bound
    rw [getElem?_initialParents roots nodup,
      if_pos (Or.inr ⟨_, (isRoot_layoutOf here).mp root, here⟩)]
    rfl
  · intro number parent found inner
    exact absurd (initial_parent nodup found).1 inner
  · intro number x placed bound _ unavoidable
    by_cases same : number = x
    · subst same
      exact climbs_refl _ _
    · -- Any other node is avoided on the way that consists of the root alone.
      exact absurd (.root bound (isRoot_of_mem_initialParents nodup placed bound) same) unavoidable
  · intro number bound inner placed
    have root : (layoutOf graph roots order).isRoot number = true :=
      isRoot_of_mem_initialParents nodup placed bound
    simp [root] at inner

end Layout

/-! ### The loops without bounds -/

/-- The finger at the smaller number goes to its parent, until both fingers are at the same
number. -/
inductive FingersMeet (parents : Parents) : Nat → Nat → Nat → Prop
  | met (number : Nat) : FingersMeet parents number number number
  | left {a b meeting : Nat} (less : a < b)
      (rest : FingersMeet parents (parents[a]?.getD b) b meeting) : FingersMeet parents a b meeting
  | right {a b meeting : Nat} (less : b < a)
      (rest : FingersMeet parents a (parents[b]?.getD a) meeting) : FingersMeet parents a b meeting

/-- The same for fingers that only ever go from a number to its parent. -/
inductive FingersClimb (parents : Parents) : Nat → Nat → Nat → Prop
  | met (number : Nat) : FingersClimb parents number number number
  | left {a b parent meeting : Nat} (less : a < b) (found : parents[a]? = some parent)
      (rest : FingersClimb parents parent b meeting) : FingersClimb parents a b meeting
  | right {a b parent meeting : Nat} (less : b < a) (found : parents[b]? = some parent)
      (rest : FingersClimb parents a parent meeting) : FingersClimb parents a b meeting

inductive AllMeet (parents : Parents) : Nat → List Nat → Nat → Prop
  | nil (number : Nat) : AllMeet parents number [] number
  | cons {current first next meeting : Nat} {rest : List Nat}
      (met : FingersMeet parents current first next) (others : AllMeet parents next rest meeting) :
      AllMeet parents current (first :: rest) meeting

/-- What happens to the parents at one node. -/
inductive Refines (graph : Graph N E) (roots : List Nat) (numbering : Numbering) (parents : Parents)
    (id : Nat) : Parents → Prop
  | root (listed : id ∈ roots) : Refines graph roots numbering parents id parents
  | unplaced (inner : id ∉ roots) (none_placed : placedPreds graph numbering parents id = []) :
      Refines graph roots numbering parents id parents
  | moved {number first parent : Nat} {rest : List Nat} (inner : id ∉ roots)
      (numbered : numbering.number[id]? = some number)
      (placed : placedPreds graph numbering parents id = first :: rest)
      (met : AllMeet parents first rest parent) :
      Refines graph roots numbering parents id (parents.insert number parent)

inductive Sweeps (graph : Graph N E) (roots : List Nat) (numbering : Numbering) :
    List Nat → Parents → Parents → Prop
  | done (parents : Parents) : Sweeps graph roots numbering [] parents parents
  | next {id : Nat} {rest : List Nat} {before middle after : Parents}
      (refined : Refines graph roots numbering before id middle)
      (others : Sweeps graph roots numbering rest middle after) :
      Sweeps graph roots numbering (id :: rest) before after

/-- Passes over all nodes in reverse postorder until one of them changes nothing. -/
inductive Settles (graph : Graph N E) (roots : List Nat) (numbering : Numbering) :
    Parents → Parents → Prop
  | stop {parents : Parents}
      (unchanged : Sweeps graph roots numbering numbering.order.reverse parents parents) :
      Settles graph roots numbering parents parents
  | again {before middle after : Parents}
      (swept : Sweeps graph roots numbering numbering.order.reverse before middle)
      (changed : middle ≠ before) (rest : Settles graph roots numbering middle after) :
      Settles graph roots numbering before after

private theorem FingersClimb.fingersMeet {parents : Parents} {a b meeting : Nat}
    (climb : FingersClimb parents a b meeting) : FingersMeet parents a b meeting := by
  induction climb with
  | met number => exact .met number
  | left less found _ ih => exact .left less (by rwa [found])
  | right less found _ ih => exact .right less (by rwa [found])

/-- Fingers that start at placed numbers meet, and none of them is ever without a parent before. -/
theorem Rooted.fingersClimb {root : Nat} {parents : Parents} (rooted : Rooted root parents)
    (a b : Nat) (a_placed : a ∈ parents) (b_placed : b ∈ parents) :
    FingersClimb parents a b (commonAncestor parents root a b) := by
  fun_induction commonAncestor parents root a b with
  | case1 a => exact .met a
  | case2 a b _ _ absent => simp [Std.ExtTreeMap.mem_iff_isSome_getElem?, absent] at a_placed
  | case3 a b _ less parent found _ ih => exact .left less found (ih (rooted.closed found) b_placed)
  | case4 a b _ less parent found stuck =>
    exact absurd (rooted.parent_in_range b_placed less found) stuck
  | case5 a b _ _ absent => simp [Std.ExtTreeMap.mem_iff_isSome_getElem?, absent] at b_placed
  | case6 a b different not_less parent found _ ih =>
    exact .right (by omega) found (ih a_placed (rooted.closed found))
  | case7 a b different not_less parent found stuck =>
    exact absurd (rooted.parent_in_range a_placed (by omega) found) stuck

private theorem Rooted.allMeet {root : Nat} {parents : Parents} (rooted : Rooted root parents)
    (first : Nat) (rest : List Nat) (placed : ∀ number ∈ first :: rest, number ∈ parents) :
    AllMeet parents first rest (rest.foldl (commonAncestor parents root) first) := by
  induction rest generalizing first with
  | nil => exact .nil first
  | cons second rest ih =>
    have first_placed := placed first (by simp)
    have second_placed := placed second (by simp)
    refine .cons (rooted.fingersClimb first second first_placed second_placed).fingersMeet (ih _ ?_)
    intro number member
    rcases List.mem_cons.mp member with rfl | later
    · exact rooted.commonAncestor_mem first_placed second_placed
    · exact placed number (by simp [later])

section Loops

variable {graph : Graph N E} {roots order : List Nat}

private theorem refines_refine {parents : Parents} (rooted : Rooted order.length parents) (id : Nat)
    (numbered : ∃ number, (Numbering.ofOrder order).number[id]? = some number) :
    Refines graph roots (.ofOrder order) parents id
      (refine graph roots (.ofOrder order) parents id) := by
  by_cases root : id ∈ roots
  · simp only [refine, root, if_true]
    exact .root root
  · obtain ⟨number, numbered⟩ := numbered
    simp only [refine, root, if_false, numbered]
    cases placed : placedPreds graph (.ofOrder order) parents id with
    | nil => exact .unplaced root placed
    | cons first rest =>
      refine .moved root numbered placed (rooted.allMeet first rest fun pred member => ?_)
      rw [← placed] at member
      simpa using (List.mem_filter.mp member).2

private theorem sweeps_refineBelow (nodup : order.Nodup)
    (postordered : (layoutOf graph roots order).Postordered) (bound : Nat) (parents : Parents)
    (bounded : bound ≤ order.length)
    (underway : (layoutOf graph roots order).Underway bound parents) :
    Sweeps graph roots (.ofOrder order) (order.take bound).reverse parents
      ((layoutOf graph roots order).refineBelow bound parents) := by
  induction bound generalizing parents with
  | zero => exact .done parents
  | succ bound ih =>
    have here : order[bound]? = some order[bound] := List.getElem?_eq_getElem bounded
    rw [Layout.refineBelow_succ, List.take_add_one, here, Option.toList_some, List.reverse_append]
    have stepped := underway.refine postordered bounded
    refine .next ?_ (ih _ (Nat.le_of_lt bounded) stepped)
    rw [← refine_eq_layout nodup parents here]
    exact refines_refine underway.rooted order[bound] ⟨bound, (number_eq_some_iff nodup).mpr here⟩

private theorem sweeps_pass (nodup : order.Nodup)
    (postordered : (layoutOf graph roots order).Postordered) {parents : Parents}
    (settled : (layoutOf graph roots order).Settled parents) :
    Sweeps graph roots (.ofOrder order) order.reverse parents
      (pass graph roots (.ofOrder order) parents) := by
  have sweeps := sweeps_refineBelow nodup postordered order.length parents (Nat.le_refl _)
    settled.underway
  rw [List.take_length] at sweeps
  rw [pass_eq_layout nodup]
  exact sweeps

/-- Along passes until nothing changes: a budget that no rise of the parents can use up is as good
as none. -/
theorem close_rec (nodup : order.Nodup) (postordered : (layoutOf graph roots order).Postordered)
    {motive : Parents → Parents → Prop}
    (stop : ∀ parents, (layoutOf graph roots order).Settled parents →
      (layoutOf graph roots order).pass parents = parents → motive parents parents)
    (again : ∀ parents final, (layoutOf graph roots order).Settled parents →
      (layoutOf graph roots order).pass parents ≠ parents →
      motive ((layoutOf graph roots order).pass parents) final → motive parents final)
    (budget : Nat) (parents : Parents) (settled : (layoutOf graph roots order).Settled parents)
    (enough : order.length * (order.length + 1) <
      (layoutOf graph roots order).progress parents + budget) :
    motive parents (close graph roots (.ofOrder order) budget parents) := by
  induction budget generalizing parents with
  | zero =>
    -- Without a budget the progress would be more than the parents can rise.
    have most := Layout.progress_le settled.underway.rooted
    simp only [layoutOf] at most enough
    omega
  | succ budget ih =>
    simp only [close, pass_eq_layout nodup]
    by_cases fixed : (layoutOf graph roots order).pass parents = parents
    · rw [if_pos fixed]
      exact stop parents settled fixed
    · rw [if_neg fixed]
      have growth := Layout.progress_lt_pass postordered settled fixed
      have passes := Layout.pass_passes postordered settled.underway
      exact again parents _ settled fixed (ih _ (passes.settled postordered settled) (by omega))

/-- The budget is never used up where the passes start. -/
theorem initial_budget (graph : Graph N E) (roots order : List Nat) (parents : Parents) :
    order.length * (order.length + 1) <
      (layoutOf graph roots order).progress parents + passBudget (.ofOrder order) := by
  have bound : order.length * (order.length + 1) < (order.length + 1) * (order.length + 2) := by
    rw [Nat.mul_comm]
    exact Nat.mul_lt_mul_of_pos_left (by omega) (by omega)
  exact Nat.lt_of_lt_of_le bound (Nat.le_add_left _ _)

theorem close_initialParents (nodup : order.Nodup)
    (postordered : (layoutOf graph roots order).Postordered) :
    let numbering := Numbering.ofOrder order
    let final := close graph roots numbering (passBudget numbering) (initialParents numbering roots)
    Settles graph roots numbering (initialParents numbering roots) final ∧
      (layoutOf graph roots order).Settled final ∧
      (layoutOf graph roots order).pass final = final := by
  refine close_rec nodup postordered
    (motive := fun parents final => Settles graph roots (.ofOrder order) parents final ∧
      (layoutOf graph roots order).Settled final ∧ (layoutOf graph roots order).pass final = final)
    ?_ ?_ _ _ (settled_initialParents nodup) (initial_budget graph roots order _)
  · intro parents settled fixed
    have sweeps := sweeps_pass nodup postordered settled
    rw [pass_eq_layout nodup, fixed] at sweeps
    exact ⟨.stop sweeps, settled, fixed⟩
  · rintro parents final settled changes ⟨rest, final_settled, final_fixed⟩
    have sweeps := sweeps_pass nodup postordered settled
    rw [pass_eq_layout nodup] at sweeps
    exact ⟨.again sweeps changes rest, final_settled, final_fixed⟩

end Loops

/-! ### Dominance by numbers -/

theorem avoidable_iff {graph : Graph N E} {roots : List Nat} (coherent : graph.Coherent)
    {number other id x : Nat} (here : (graph.postorder roots)[number]? = some id)
    (there : (graph.postorder roots)[other]? = some x) :
    (layoutOf graph roots (graph.postorder roots)).Avoidable other number ↔
      graph.ReachedAvoiding roots x id := by
  have nodup := Graph.nodup_postorder graph roots
  constructor
  · intro avoidable
    induction avoidable generalizing id with
    | @root number bound root different =>
      have reached := (Graph.mem_postorder coherent).mp (List.mem_of_getElem? here)
      obtain ⟨_, _, _, walk⟩ := reached
      refine .root ((isRoot_layoutOf here).mp root) walk.last_mem_graph ?_
      rintro rfl
      exact different (position_unique nodup here there)
    | @step pred number before edge bound different ih =>
      obtain ⟨parent, found, has_edge⟩ := (mem_preds_layoutOf coherent nodup here).mp edge
      refine .step (ih found) has_edge (coherent.target_mem has_edge) ?_
      rintro rfl
      exact different (position_unique nodup here there)
  · intro avoided
    induction avoided generalizing number with
    | root listed member different =>
      refine .root (position_lt here) ((isRoot_layoutOf here).mpr listed) ?_
      rintro rfl
      exact different (Option.some.inj (here.symm.trans there))
    | @step id next before edge member different ih =>
      -- The node before is reached, so it has a number too.
      obtain ⟨root, listed, path, walk, _⟩ := Graph.reachedAvoiding_iff.mp before
      obtain ⟨pred, found⟩ := List.getElem?_of_mem
        ((Graph.mem_postorder coherent).mpr ⟨root, listed, path, walk⟩)
      refine .step (ih found) ((mem_preds_layoutOf coherent nodup here).mpr ⟨id, found, edge⟩)
        (position_lt here) ?_
      rintro rfl
      exact different (Option.some.inj (here.symm.trans there))

end FlowIR.DominatorForest
