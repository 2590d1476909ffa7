import FlowIR.Proofs.Dominance.Construction

/-!
# Correctness of dominator forests

The forest of some roots answers every question about dominance as the paths of the graph do,
whatever the roots are: there may be several of them, they may be repeated, have predecessors or be
missing.
-/
namespace FlowIR.DominatorForest

variable {N E : Type}

/-- The forest that the final parents stand for. -/
def ofParents (numbering : Numbering) (parents : Parents) : DominatorForest where
  parents := .ofList (numbering.order.zipIdx.filterMap fun (id, number) =>
    parentEntry? numbering parents id number)

/-- Final parents together with what they say about the layout they belong to. -/
structure Final (graph : Graph N E) (roots : List Nat) (parents : Parents) : Prop where
  coherent : graph.Coherent
  settles : Settles graph roots (.ofOrder (graph.postorder roots))
    (initialParents (.ofOrder (graph.postorder roots)) roots) parents
  settled : (layoutOf graph roots (graph.postorder roots)).Settled parents
  fixed : (layoutOf graph roots (graph.postorder roots)).pass parents = parents
  forest : ofRoots graph roots = ofParents (.ofOrder (graph.postorder roots)) parents

theorem exists_final {graph : Graph N E} (coherent : graph.Coherent) (roots : List Nat) :
    ∃ parents, Final graph roots parents := by
  have nodup := Graph.nodup_postorder graph roots
  have postordered :=
    postordered_layoutOf coherent nodup (Graph.laterPredecessor_postorder coherent roots)
  obtain ⟨settles, settled, fixed⟩ := close_initialParents nodup postordered
  exact ⟨_, coherent, settles, settled, fixed, rfl⟩

namespace Final

variable {graph : Graph N E} {roots : List Nat} {parents : Parents}

private theorem nodup (_ : Final graph roots parents) : (graph.postorder roots).Nodup :=
  Graph.nodup_postorder graph roots

private theorem postordered (final : Final graph roots parents) :
    (layoutOf graph roots (graph.postorder roots)).Postordered :=
  postordered_layoutOf final.coherent final.nodup
    (Graph.laterPredecessor_postorder final.coherent roots)

private theorem rooted (final : Final graph roots parents) :
    Rooted (graph.postorder roots).length parents :=
  final.settled.underway.rooted

/-- A node that is reached has a number. -/
theorem exists_number (final : Final graph roots parents) {id : Nat}
    (reached : graph.ReachedFrom roots id) :
    ∃ number : Nat, (graph.postorder roots)[number]? = some id :=
  List.getElem?_of_mem ((Graph.mem_postorder final.coherent).mpr reached)

theorem parent_of (final : Final graph roots parents) {number id : Nat}
    (here : (graph.postorder roots)[number]? = some id) :
    ∃ parent, parents[number]? = some parent ∧ number < parent := by
  have passes := Layout.pass_passes final.postordered final.settled.underway
  rw [final.fixed] at passes
  have bound := position_lt here
  obtain ⟨parent, found⟩ :=
    exists_parent (passes.done.placed (Nat.zero_le number) (Nat.le_of_lt bound))
  exact ⟨parent, found, final.rooted.ascends found (Nat.ne_of_lt bound)⟩

/-- Leading to a number is being dominated by its node. -/
theorem climbs_iff (final : Final graph roots parents) {number other id x : Nat}
    (here : (graph.postorder roots)[number]? = some id)
    (there : (graph.postorder roots)[other]? = some x) :
    Climbs parents number other ↔ graph.Dominates roots x id := by
  have reached := (Graph.mem_postorder final.coherent).mp (List.mem_of_getElem? here)
  rw [Graph.dominates_iff_not_avoidable reached, ← avoidable_iff final.coherent here there]
  exact Layout.fixed_climbs_iff final.postordered final.settled final.fixed (position_lt here)
    (position_lt there)

/-! ### Reading the forest -/

/-- Every listed node has an entry, so nothing is left out. -/
theorem entries_eq (final : Final graph roots parents) :
    (graph.postorder roots).zipIdx.filterMap (fun (id, number) =>
        parentEntry? (.ofOrder (graph.postorder roots)) parents id number) =
      (graph.postorder roots).zipIdx.map fun (id, number) =>
        (id, (graph.postorder roots)[parents.getD number 0]?) := by
  rw [← List.filterMap_eq_map]
  apply List.filterMap_congr
  rintro ⟨id, number⟩ member
  obtain ⟨parent, found, _⟩ := final.parent_of (List.mem_zipIdx_iff_getElem?.mp member)
  simp [ parentEntry?, Numbering.ofOrder, found, Std.ExtTreeMap.getD_eq_getD_getElem?]

private theorem distinct_entries (final : Final graph roots parents) :
    ((graph.postorder roots).zipIdx.map fun (id, number) =>
        (id, (graph.postorder roots)[parents.getD number 0]?)).Pairwise
      fun a b => ¬ compare a.1 b.1 = .eq := by
  rw [List.pairwise_map]
  exact distinct_zipIdx final.nodup

private theorem parents_eq (final : Final graph roots parents) :
    (ofRoots graph roots).parents = .ofList ((graph.postorder roots).zipIdx.map fun (id, number) =>
      (id, (graph.postorder roots)[parents.getD number 0]?)) := by
  rw [final.forest, ← final.entries_eq]
  rfl

theorem size_eq (final : Final graph roots parents) :
    (ofRoots graph roots).parents.size = (graph.postorder roots).length := by
  rw [final.parents_eq, Std.ExtTreeMap.size_ofList final.distinct_entries]
  simp

theorem mem_iff (final : Final graph roots parents) {id : Nat} :
    id ∈ ofRoots graph roots ↔ graph.ReachedFrom roots id := by
  rw [← Graph.mem_postorder final.coherent]
  change id ∈ (ofRoots graph roots).parents ↔ _
  rw [final.parents_eq, Std.ExtTreeMap.mem_ofList, List.map_map]
  have ids : (graph.postorder roots).zipIdx.map (Prod.fst ∘ fun (entry : Nat × Nat) =>
      (entry.1, (graph.postorder roots)[parents.getD entry.2 0]?)) = graph.postorder roots :=
    List.zipIdx_map_fst 0 _
  rw [List.contains_iff_mem]
  exact ⟨fun member => ids ▸ member, fun member => ids.symm ▸ member⟩

theorem immediateDominator?_eq (final : Final graph roots parents) {number id parent : Nat}
    (here : (graph.postorder roots)[number]? = some id) (found : parents[number]? = some parent) :
    (ofRoots graph roots).immediateDominator? id = (graph.postorder roots)[parent]? := by
  have entry : (id, (graph.postorder roots)[parents.getD number 0]?) ∈
      (graph.postorder roots).zipIdx.map fun (id, number) =>
        (id, (graph.postorder roots)[parents.getD number 0]?) :=
    List.mem_map.mpr ⟨(id, number), List.mem_zipIdx_iff_getElem?.mpr here, rfl⟩
  rw [immediateDominator?, final.parents_eq,
    Std.ExtTreeMap.getElem?_ofList_of_mem (Nat.compare_eq_eq.mpr rfl) final.distinct_entries entry]
  simp [Std.ExtTreeMap.getD_eq_getD_getElem?, found]

private theorem immediateDominator?_of_unreached (final : Final graph roots parents) {id : Nat}
    (unreached : ¬ graph.ReachedFrom roots id) :
    (ofRoots graph roots).immediateDominator? id = none := by
  have absent : id ∉ (ofRoots graph roots).parents :=
    fun member => unreached (final.mem_iff.mp member)
  simp [immediateDominator?, Std.ExtTreeMap.getElem?_eq_none absent]

/-- The nodes on the way up are those that the number of the start leads to. -/
theorem mem_climb_iff (final : Final graph roots parents) (steps number id x : Nat)
    (here : (graph.postorder roots)[number]? = some id)
    (enough : (graph.postorder roots).length ≤ number + steps) :
    x ∈ (ofRoots graph roots).climb steps id ↔
      ∃ other, (graph.postorder roots)[other]? = some x ∧ Climbs parents number other := by
  have bound := position_lt here
  -- Every step up takes a greater number, so the steps last until the virtual root is reached.
  induction steps generalizing number id with
  | zero => omega
  | succ steps ih =>
    obtain ⟨parent, found, greater⟩ := final.parent_of here
    have split_first : ∀ {other}, (graph.postorder roots)[other]? = some x →
        (Climbs parents number other ↔ x = id ∨ Climbs parents parent other) := by
      intro other there
      constructor
      · intro climbs
        by_cases same : number = other
        · subst same
          exact Or.inl (Option.some.inj (there.symm.trans here))
        · exact Or.inr (climbs.cases_first same found)
      · rintro (rfl | climbs)
        · rw [position_unique final.nodup here there]
          exact climbs_refl _ _
        · exact .head found climbs
    rw [climb, List.mem_cons, final.immediateDominator?_eq here found]
    cases above : (graph.postorder roots)[parent]? with
    | none =>
      -- The parent is the virtual root, which leads nowhere.
      have at_root : parent = (graph.postorder roots).length :=
        Nat.le_antisymm (final.rooted.bounded found) (List.getElem?_eq_none_iff.mp above)
      simp only [List.not_mem_nil, or_false]
      constructor
      · rintro rfl
        exact ⟨number, here, climbs_refl _ _⟩
      · rintro ⟨other, there, climbs⟩
        rcases (split_first there).mp climbs with same | onwards
        · exact same
        · rw [at_root] at onwards
          have other_root := final.rooted.eq_root_of_climbs onwards
          have other_bound := position_lt there
          omega
    | some up =>
      simp only [ih parent up above (by omega) (position_lt above)]
      constructor
      · rintro (rfl | ⟨other, there, climbs⟩)
        · exact ⟨number, here, climbs_refl _ _⟩
        · exact ⟨other, there, .head found climbs⟩
      · rintro ⟨other, there, climbs⟩
        exact ((split_first there).mp climbs).imp_right fun onwards => ⟨other, there, onwards⟩

theorem mem_ancestors_iff (final : Final graph roots parents) {id x : Nat} :
    x ∈ (ofRoots graph roots).ancestors id ↔ graph.Dominates roots x id := by
  by_cases reached : graph.ReachedFrom roots id
  · obtain ⟨number, here⟩ := final.exists_number reached
    rw [ancestors, if_pos (final.mem_iff.mpr reached), final.size_eq,
      final.mem_climb_iff _ number id x here (by omega)]
    constructor
    · rintro ⟨other, there, climbs⟩
      exact (final.climbs_iff here there).mp climbs
    · intro dominates
      obtain ⟨other, there⟩ := final.exists_number dominates.reached
      exact ⟨other, there, (final.climbs_iff here there).mpr dominates⟩
  · rw [ancestors, if_neg (fun member => reached (final.mem_iff.mp member))]
    simpa using fun dominates : graph.Dominates roots x id => reached dominates.1

/-! ### Immediate dominators -/

private theorem immediateDominator?_strict (final : Final graph roots parents) {id x : Nat}
    (immediate : (ofRoots graph roots).immediateDominator? id = some x) :
    graph.StrictlyDominates roots x id ∧
      ∀ z, graph.StrictlyDominates roots z id → graph.Dominates roots z x := by
  by_cases reached : graph.ReachedFrom roots id
  · obtain ⟨number, here⟩ := final.exists_number reached
    obtain ⟨parent, found, greater⟩ := final.parent_of here
    rw [final.immediateDominator?_eq here found] at immediate
    refine ⟨⟨?_, ?_⟩, ?_⟩
    · exact (final.climbs_iff here immediate).mp (.single found)
    · rintro rfl
      have same := position_unique final.nodup here immediate
      omega
    · -- The way up to any other dominator goes through the parent.
      rintro z ⟨dominates, different⟩
      obtain ⟨other, there⟩ := final.exists_number dominates.reached
      have climbs := (final.climbs_iff here there).mpr dominates
      refine (final.climbs_iff immediate there).mp (climbs.cases_first ?_ found)
      rintro rfl
      exact different (Option.some.inj (there.symm.trans here))
  · simp [final.immediateDominator?_of_unreached reached] at immediate

private theorem immediateDominator?_isSome (final : Final graph roots parents) {id x : Nat}
    (strict : graph.StrictlyDominates roots x id) :
    ∃ y, (ofRoots graph roots).immediateDominator? id = some y := by
  obtain ⟨dominates, different⟩ := strict
  obtain ⟨number, here⟩ := final.exists_number dominates.1
  obtain ⟨other, there⟩ := final.exists_number dominates.reached
  obtain ⟨parent, found, _⟩ := final.parent_of here
  have climbs := (final.climbs_iff here there).mpr dominates
  have onwards : Climbs parents parent other := by
    refine climbs.cases_first ?_ found
    rintro rfl
    exact different (Option.some.inj (there.symm.trans here))
  -- Something on the way up is a node, so the parent below it is not the virtual root.
  have bound : parent < (graph.postorder roots).length :=
    Nat.lt_of_le_of_lt (final.rooted.climbs_le onwards) (position_lt there)
  exact ⟨_, (final.immediateDominator?_eq here found).trans (List.getElem?_eq_getElem bound)⟩

private theorem immediateDominator?_eq_some_iff (final : Final graph roots parents) {id x : Nat} :
    (ofRoots graph roots).immediateDominator? id = some x ↔
      graph.StrictlyDominates roots x id ∧
        ∀ z, graph.StrictlyDominates roots z id → graph.Dominates roots z x := by
  constructor
  · exact final.immediateDominator?_strict
  · rintro ⟨strict, closest⟩
    obtain ⟨y, immediate⟩ := final.immediateDominator?_isSome strict
    obtain ⟨y_strict, y_closest⟩ := final.immediateDominator?_strict immediate
    -- Both dominate each other, and the numbers of two such nodes are the same.
    have x_over_y := y_closest x strict
    have y_over_x := closest y y_strict
    obtain ⟨x_number, x_here⟩ := final.exists_number x_over_y.reached
    obtain ⟨y_number, y_here⟩ := final.exists_number y_over_x.reached
    have up := final.rooted.climbs_le ((final.climbs_iff y_here x_here).mpr x_over_y)
    have down := final.rooted.climbs_le ((final.climbs_iff x_here y_here).mpr y_over_x)
    obtain rfl : x_number = y_number := Nat.le_antisymm down up
    rw [immediate, Option.some.inj (x_here.symm.trans y_here)]

private theorem immediateDominator?_eq_none_iff (final : Final graph roots parents) {id : Nat} :
    (ofRoots graph roots).immediateDominator? id = none ↔
      ∀ x, ¬ graph.StrictlyDominates roots x id := by
  constructor
  · intro without x strict
    obtain ⟨y, immediate⟩ := final.immediateDominator?_isSome strict
    simp [without] at immediate
  · intro without
    cases immediate : (ofRoots graph roots).immediateDominator? id with
    | none => rfl
    | some x => exact absurd (final.immediateDominator?_strict immediate).1 (without x)

/-! ### The list of ancestors -/

private theorem nodup_climb (final : Final graph roots parents) (steps number id : Nat)
    (here : (graph.postorder roots)[number]? = some id)
    (enough : (graph.postorder roots).length ≤ number + steps) :
    ((ofRoots graph roots).climb steps id).Nodup := by
  induction steps generalizing number id with
  | zero => exact List.nodup_nil
  | succ steps ih =>
    obtain ⟨parent, found, greater⟩ := final.parent_of here
    rw [climb, final.immediateDominator?_eq here found]
    cases above : (graph.postorder roots)[parent]? with
    | none => simp
    | some up =>
      -- What is listed later has a greater number, so it is not the start again.
      refine List.nodup_cons.mpr ⟨fun repeated => ?_, ih parent up above (by omega)⟩
      obtain ⟨other, there, climbs⟩ :=
        (final.mem_climb_iff steps parent up id above (by omega)).mp repeated
      have same := position_unique final.nodup here there
      have higher := final.rooted.climbs_le climbs
      omega

private theorem isChain_climb (final : Final graph roots parents) (steps id : Nat) :
    ((ofRoots graph roots).climb steps id).IsChain fun below above =>
      graph.Dominates roots above below := by
  induction steps generalizing id with
  | zero => exact .nil
  | succ steps ih =>
    rw [climb]
    cases immediate : (ofRoots graph roots).immediateDominator? id with
    | none => exact .singleton id
    | some up =>
      have rest := ih up
      cases steps with
      | zero => exact .singleton id
      | succ steps => exact .cons_cons (final.immediateDominator?_strict immediate).1.1 rest

private theorem head?_ancestors (final : Final graph roots parents) {id : Nat}
    (reached : graph.ReachedFrom roots id) :
    ((ofRoots graph roots).ancestors id).head? = some id := by
  have listed := (Graph.mem_postorder final.coherent).mpr reached
  have positive : 0 < (graph.postorder roots).length := List.length_pos_of_mem listed
  rw [ancestors, if_pos (final.mem_iff.mpr reached), final.size_eq]
  cases size : (graph.postorder roots).length with
  | zero => omega
  | succ steps => simp [climb]

private theorem nodup_ancestors (final : Final graph roots parents) (id : Nat) :
    ((ofRoots graph roots).ancestors id).Nodup := by
  rw [ancestors]
  split
  next member =>
    obtain ⟨number, here⟩ := final.exists_number (final.mem_iff.mp member)
    exact final.nodup_climb _ number id here (by rw [final.size_eq]; omega)
  · exact List.nodup_nil

private theorem isChain_ancestors (final : Final graph roots parents) (id : Nat) :
    ((ofRoots graph roots).ancestors id).IsChain fun below above =>
      graph.Dominates roots above below := by
  rw [ancestors]
  split
  · exact final.isChain_climb _ id
  · exact .nil

/-- What stands later among the ancestors of a node dominates what stands earlier. -/
theorem pairwise_ancestors (final : Final graph roots parents) (id : Nat) :
    ((ofRoots graph roots).ancestors id).Pairwise fun below above =>
      graph.Dominates roots above below := by
  have transitive : IsTrans Nat fun below above => graph.Dominates roots above below :=
    ⟨fun _ _ _ lower upper => lower.trans upper⟩
  exact List.isChain_iff_pairwise.mp (final.isChain_ancestors id)

private theorem ancestors_eq_nil_iff (final : Final graph roots parents) {id : Nat} :
    (ofRoots graph roots).ancestors id = [] ↔ ¬ graph.ReachedFrom roots id := by
  constructor
  · intro empty reached
    have first := final.head?_ancestors reached
    simp [empty] at first
  · intro unreached
    rw [ancestors, if_neg fun member => unreached (final.mem_iff.mp member)]

end Final

/-- The construction ends, and the forest knows the dominators of every node that the roots reach:
all of them in order, and the closest one. -/
theorem ofRoots_dominators (graph : Graph N E) (built : graph.Built) (roots : List Nat) :
    (∃ parents, Settles graph roots (.ofOrder (graph.postorder roots))
        (initialParents (.ofOrder (graph.postorder roots)) roots) parents ∧
      ofRoots graph roots = ofParents (.ofOrder (graph.postorder roots)) parents) ∧
    (∀ x y, (ofRoots graph roots).dominates x y = true ↔ graph.Dominates roots x y) ∧
    (∀ y, (∀ x, x ∈ (ofRoots graph roots).ancestors y ↔ graph.Dominates roots x y) ∧
      ((ofRoots graph roots).ancestors y).Nodup ∧
      (graph.ReachedFrom roots y → ((ofRoots graph roots).ancestors y).head? = some y) ∧
      ((ofRoots graph roots).ancestors y).IsChain
        (fun below above => graph.Dominates roots above below) ∧
      ((ofRoots graph roots).ancestors y = [] ↔ ¬ graph.ReachedFrom roots y)) ∧
    (∀ x y, (ofRoots graph roots).immediateDominator? y = some x ↔
      graph.StrictlyDominates roots x y ∧
        ∀ z, graph.StrictlyDominates roots z y → graph.Dominates roots z x) ∧
    ∀ y, (ofRoots graph roots).immediateDominator? y = none ↔
      ∀ x, ¬ graph.StrictlyDominates roots x y := by
  obtain ⟨parents, final⟩ := exists_final built.coherent roots
  refine ⟨⟨parents, final.settles, final.forest⟩, ?_, ?_, ?_, ?_⟩
  · intro x y
    rw [dominates, decide_eq_true_eq]
    exact final.mem_ancestors_iff
  · intro y
    exact ⟨fun _ => final.mem_ancestors_iff, final.nodup_ancestors y, final.head?_ancestors,
      final.isChain_ancestors y, final.ancestors_eq_nil_iff⟩
  · exact fun _ _ => final.immediateDominator?_eq_some_iff
  · exact fun _ => final.immediateDominator?_eq_none_iff

/-- A loop between two nodes that can be entered at both of them. -/
def crossing : Graph Unit Unit :=
  (((((((∅ : Graph Unit Unit).insertNode 0 ()).insertNode 1 ()).insertNode 2 ()).addEdge
    0 1 ()).addEdge 0 2 ()).addEdge 1 2 ()).addEdge 2 1 ()

theorem crossing_dominators :
    crossing.Built ∧ crossing.Dominates [0, 7, 0] 0 2 ∧ ¬ crossing.Dominates [0, 7, 0] 1 2 := by
  have built : crossing.Built := by
    have empty : (∅ : Graph Unit Unit).Built := .empty
    have nodes := ((empty.insertNode 0 ()).insertNode 1 ()).insertNode 2 ()
    have entered := (nodes.addEdge 0 1 () (by decide) (by decide)).addEdge 0 2 ()
      (by decide) (by decide)
    exact (entered.addEdge 1 2 () (by decide) (by decide)).addEdge 2 1 () (by decide) (by decide)
  have correct := (ofRoots_dominators crossing built [0, 7, 0]).2.1
  refine ⟨built, (correct 0 2).mp (by decide +kernel), fun dominates => ?_⟩
  exact absurd ((correct 1 2).mpr dominates) (by decide +kernel)

end FlowIR.DominatorForest
