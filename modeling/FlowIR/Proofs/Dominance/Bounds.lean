import FlowIR.Proofs.Dominance.Forest

/-!
# Numbers in the construction of a forest

The construction of a dominator forest works on numbers from zero up to that of the virtual root,
and on tables with as many places. No number leads out of them at any time, fingers always go to
greater numbers until they meet, the repetitions end by themselves, and so does every way up in the
finished forest.
-/
namespace FlowIR.DominatorForest

variable {N E : Type} {graph : Graph N E} {roots order : List Nat} {parents : Parents}

/-- Only numbers of nodes and that of the virtual root stand in the table, on both sides, and every
parent is greater than its number. -/
structure InRange (numbering : Numbering) (parents : Parents) : Prop where
  bounded : ∀ number parent, parents[number]? = some parent →
    number ≤ numbering.virtualRoot ∧ parent ≤ numbering.virtualRoot
  ascends : ∀ number parent, parents[number]? = some parent → number ≠ numbering.virtualRoot →
    number < parent
  /-- Fingers that start at placed numbers meet, and none of them is without a greater parent
  before. -/
  meets : ∀ a ∈ parents, ∀ b ∈ parents,
    FingersClimb parents a b (commonAncestor parents numbering.virtualRoot a b)

private theorem Rooted.inRange (rooted : Rooted order.length parents) :
    InRange (.ofOrder order) parents where
  bounded := fun _ _ found => ⟨rooted.le_root (mem_of_parent found), rooted.bounded found⟩
  ascends := fun _ _ => rooted.ascends
  meets := fun a a_placed b b_placed => rooted.fingersClimb a b a_placed b_placed

private theorem exists_number (nodup : order.Nodup) {id : Nat} (listed : id ∈ order) :
    ∃ number, (Numbering.ofOrder order).number[id]? = some number ∧ number < order.length := by
  obtain ⟨number, here⟩ := List.mem_iff_getElem?.mp listed
  exact ⟨number, (number_eq_some_iff nodup).mpr here, position_lt here⟩

section

variable (nodup : order.Nodup) (postordered : (layoutOf graph roots order).Postordered)
include nodup postordered

private theorem settled_close (settled : (layoutOf graph roots order).Settled parents)
    (budget : Nat) :
    (layoutOf graph roots order).Settled (close graph roots (.ofOrder order) budget parents) := by
  induction budget generalizing parents with
  | zero => exact settled
  | succ budget ih =>
    rw [close, pass_eq_layout nodup]
    split
    · exact settled
    · exact ih ((Layout.pass_passes postordered settled.underway).settled postordered settled)

/-- A pass refines the nodes from the last number down to the first one. -/
theorem underway_foldl_refine (settled : (layoutOf graph roots order).Settled parents)
    (refined : Nat) :
    (layoutOf graph roots order).Underway (order.length - refined)
      ((order.reverse.take refined).foldl (refine graph roots (.ofOrder order)) parents) := by
  induction refined with
  | zero => exact settled.underway
  | succ refined ih =>
    by_cases more : refined < order.length
    · obtain ⟨turn, last⟩ : ∃ turn, order.length - refined = turn + 1 :=
        ⟨order.length - refined - 1, by omega⟩
      have here : order.reverse[refined]? = some order[turn] := by
        rw [List.getElem?_reverse more, show order.length - 1 - refined = turn by omega]
        exact List.getElem?_eq_getElem (by omega)
      rw [last] at ih
      rw [List.take_add_one, here, List.foldl_append,
        show order.length - (refined + 1) = turn by omega]
      show Layout.Underway _ turn (refine graph roots (.ofOrder order) _ order[turn])
      rw [refine_eq_layout nodup _ (List.getElem?_eq_getElem (by omega))]
      have bound : turn < order.length := by omega
      exact ih.refine postordered bound
    · -- All of them have had their turn.
      rw [List.take_of_length_le (by simp; omega)] at ih ⊢
      rwa [show order.length - (refined + 1) = order.length - refined by omega]

end

/-- The last node of a way up has no parent, so nothing was cut off. -/
theorem Final.climb_ends (final : Final graph roots parents) (steps number id : Nat)
    (here : (graph.postorder roots)[number]? = some id)
    (enough : (graph.postorder roots).length ≤ number + steps) :
    ∃ last, ((ofRoots graph roots).climb steps id).getLast? = some last ∧
      (ofRoots graph roots).immediateDominator? last = none := by
  induction steps generalizing number id with
  | zero =>
    have bound := position_lt here
    omega
  | succ steps ih =>
    rw [climb]
    cases immediate : (ofRoots graph roots).immediateDominator? id with
    | none => exact ⟨id, rfl, immediate⟩
    | some above =>
      -- The parent has a greater number, so one step less is enough for it.
      obtain ⟨parent, found, greater⟩ := final.parent_of here
      rw [final.immediateDominator?_eq here found] at immediate
      obtain ⟨last, ends, no_parent⟩ := ih parent above immediate (by omega)
      refine ⟨last, ?_, no_parent⟩
      rw [List.getLast?_cons, ends]
      rfl

private theorem Final.ancestors_end (final : Final graph roots parents) {id : Nat}
    (member : id ∈ ofRoots graph roots) :
    ∃ last, ((ofRoots graph roots).ancestors id).getLast? = some last ∧
      (ofRoots graph roots).immediateDominator? last = none := by
  obtain ⟨number, here⟩ := final.exists_number (final.mem_iff.mp member)
  rw [ancestors, if_pos member, final.size_eq]
  exact final.climb_ends _ number id here (Nat.le_add_left _ _)

/-- All lookups of the construction are in range at any time, and its loops end. -/
structure Regular (graph : Graph N E) (roots : List Nat) : Prop where
  /-- Every node that is sorted has a number, which is less than that of the virtual root. -/
  numbered : let order := graph.postorder roots
    ∀ id ∈ order, ∃ number, (Numbering.ofOrder order).number[id]? = some number ∧
      number < order.length
  /-- The table after some passes and a part of the next one. -/
  in_range : let numbering := Numbering.ofOrder (graph.postorder roots)
    ∀ passes refined, InRange numbering ((numbering.order.reverse.take refined).foldl
      (refine graph roots numbering)
        (close graph roots numbering passes (initialParents numbering roots)))
  /-- The passes end without a bound on their number, and the forest is made of the last table. -/
  settles : let numbering := Numbering.ofOrder (graph.postorder roots)
    ∃ parents, Settles graph roots numbering (initialParents numbering roots) parents ∧
      ofRoots graph roots = ofParents numbering parents
  ancestors_end : ∀ id ∈ ofRoots graph roots,
    ∃ last, ((ofRoots graph roots).ancestors id).getLast? = some last ∧
      (ofRoots graph roots).immediateDominator? last = none

theorem regular_of_coherent (coherent : graph.Coherent) (roots : List Nat) :
    Regular graph roots := by
  have nodup := graph.nodup_postorder roots
  have postordered :=
    postordered_layoutOf coherent nodup (Graph.laterPredecessor_postorder coherent roots)
  obtain ⟨parents, final⟩ := exists_final coherent roots
  refine ⟨fun id listed => exists_number nodup listed, fun passes refined => ?_,
    ⟨parents, final.settles, final.forest⟩, fun id member => final.ancestors_end member⟩
  have settled := settled_close nodup postordered (settled_initialParents nodup) passes
  exact Rooted.inRange (underway_foldl_refine nodup postordered settled refined).rooted

end FlowIR.DominatorForest
