import FlowIR.Proofs.Dominance.Forest

/-!
# The construction of a dominator forest, stage by stage

The construction is a machine: it places the roots one after the other and then refines one node
after the other, pass after pass, until a whole pass has changed nothing. At every stage the parents
form a tree below the virtual root, in which every other number leads to a greater one. So fingers
always have a parent to go to and meet at the lowest common ancestor of where they started.

A parent never falls, not even for the time of a single pass. This is not seen from one refinement
alone, since the parents of its predecessors may be old ones or new ones. It is known of whole
passes, and in a pass every node has only one turn: until then its parent is the one from before the
pass, and from then on the one from after the pass.
-/
namespace FlowIR.DominatorForest

variable {N E : Type}

/-! ### The machine -/

/-- Where the construction stands, with the nodes that are still to come. -/
inductive Stage where
  | placing (left : List Nat) (parents : Parents)
  | passing (left : List Nat) (changed : Bool) (parents : Parents)

namespace Stage

def parents : Stage → Parents
  | placing _ parents => parents
  | passing _ _ parents => parents

/-- At first only the virtual root has a parent, which is itself. -/
def start (numbering : Numbering) (roots : List Nat) : Stage :=
  .placing roots ((∅ : Parents).insert numbering.virtualRoot numbering.virtualRoot)

/-- The next stage, if the construction goes on. -/
def next? (graph : Graph N E) (roots : List Nat) (numbering : Numbering) : Stage → Option Stage
  | placing (root :: left) parents =>
    match numbering.number[root]? with
    | some number => some (placing left (parents.insert number numbering.virtualRoot))
    | none => some (placing left parents)
  | placing [] parents => some (passing numbering.order.reverse false parents)
  | passing (id :: left) changed parents =>
    let refined := refine graph roots numbering parents id
    some (passing left (changed || decide (refined ≠ parents)) refined)
  | passing [] true parents => some (passing numbering.order.reverse false parents)
  | passing [] false _ => none

end Stage

/-- Any number of steps of the construction. -/
def Leads (graph : Graph N E) (roots : List Nat) (numbering : Numbering) : Stage → Stage → Prop :=
  Relation.ReflTransGen fun stage next => stage.next? graph roots numbering = some next

/-- The numbers at which two fingers start, for each predecessor after the first one. -/
def fingerStarts (parents : Parents) (root : Nat) : Nat → List Nat → List (Nat × Nat)
  | _, [] => []
  | current, pred :: rest =>
    (current, pred) :: fingerStarts parents root (commonAncestor parents root current pred) rest

/-- The predecessors are folded by letting these fingers climb, one pair after the other. -/
theorem foldl_fingerStarts (parents : Parents) (root first : Nat) (rest : List Nat) :
    (fingerStarts parents root first rest).foldl
      (fun _ fingers => commonAncestor parents root fingers.1 fingers.2)
      first = rest.foldl (commonAncestor parents root) first := by
  induction rest generalizing first with
  | nil => rfl
  | cons pred rest ih => exact ih (commonAncestor parents root first pred)

/-- Where fingers start in the next step. -/
def Stage.fingers (graph : Graph N E) (numbering : Numbering) : Stage → List (Nat × Nat)
  | passing (id :: _) _ parents =>
    match placedPreds graph numbering parents id with
    | [] => []
    | first :: rest => fingerStarts parents numbering.virtualRoot first rest
  | _ => []

/-! ### One pass, turn by turn -/

namespace Layout

/-- The parents in the middle of a pass from `start` on, when the numbers from `turn` on had their
turn. -/
structure Within (layout : Layout) (start : Parents) (turn : Nat) (parents : Parents) : Prop where
  settled : layout.Settled start
  underway : layout.Underway turn parents
  bounded : turn ≤ layout.size
  untouched : ∀ other < turn, parents[other]? = start[other]?
  leads : layout.refineBelow turn parents = layout.pass start

variable {layout : Layout} {start parents : Parents} {turn : Nat}

private theorem Settled.within (settled : layout.Settled start) :
    layout.Within start layout.size start :=
  ⟨settled, settled.underway, Nat.le_refl _, fun _ _ => rfl, rfl⟩

namespace Within

private theorem eq_pass (within : layout.Within start 0 parents) : parents = layout.pass start :=
  within.leads

private theorem refine (postordered : layout.Postordered)
    (within : layout.Within start (turn + 1) parents) :
    layout.Within start turn (layout.refine parents turn) where
  settled := within.settled
  underway := within.underway.refine postordered within.bounded
  bounded := Nat.le_of_succ_le within.bounded
  untouched := by
    intro other earlier
    rw [refine_other parents (by omega), within.untouched other (by omega)]
  leads := by rw [← refineBelow_succ, within.leads]

/-- From its turn on a number has the parent that it has after the pass. -/
theorem after_turn (postordered : layout.Postordered) (within : layout.Within start turn parents)
    {number : Nat} (had_turn : turn ≤ number) :
    parents[number]? = (layout.pass start)[number]? := by
  obtain ⟨_, kept, _⟩ := refineBelow_spec postordered turn parents within.bounded within.underway
  rw [← within.leads, kept number had_turn]

/-- No parent falls in a turn. -/
theorem parent_le (postordered : layout.Postordered)
    (within : layout.Within start (turn + 1) parents) {number old : Nat}
    (found : parents[number]? = some old) :
    ∃ new, (layout.refine parents turn)[number]? = some new ∧ old ≤ new := by
  by_cases own : turn = number
  · subst own
    have later := within.refine postordered
    obtain ⟨new, changed⟩ := exists_parent (later.underway.placed (Nat.le_refl turn) later.bounded)
    refine ⟨new, changed, ?_⟩
    -- The old parent is from before the pass, and the new one is that after the pass.
    rw [within.untouched turn (Nat.lt_succ_self turn)] at found
    rw [later.after_turn postordered (Nat.le_refl turn)] at changed
    exact (pass_passes postordered within.settled.underway).parent_le postordered
      within.settled found changed
  · exact ⟨old, (refine_other parents own).trans found, Nat.le_refl old⟩

/-- What has changed in a pass stays changed in it. -/
theorem changed_iff (within : layout.Within start (turn + 1) parents) :
    layout.refine parents turn ≠ start ↔
      parents ≠ start ∨ layout.refine parents turn ≠ parents := by
  constructor
  · intro changed
    by_cases same : parents = start
    · exact Or.inr (same ▸ changed)
    · exact Or.inl same
  · rintro (before | now) same
    · refine before (Std.ExtTreeMap.ext_getElem? fun other => ?_)
      by_cases had_turn : other < turn + 1
      · exact within.untouched other had_turn
      · rw [← same, refine_other parents (by omega)]
    · -- Only the parent of this turn can differ from what it was, and until now it was the one from
      -- before.
      refine now (Std.ExtTreeMap.ext_getElem? fun other => ?_)
      by_cases own : turn = other
      · rw [same, within.untouched other (by omega)]
      · exact refine_other parents own

end Within

end Layout

/-! ### Fingers -/

private theorem Rooted.mem_of_mem_fingerStarts {root : Nat} {parents : Parents}
    (rooted : Rooted root parents) (first : Nat) (rest : List Nat)
    (placed : ∀ number ∈ first :: rest, number ∈ parents) :
    ∀ fingers ∈ fingerStarts parents root first rest, fingers.1 ∈ parents ∧
      fingers.2 ∈ parents := by
  induction rest generalizing first with
  | nil => simp [fingerStarts]
  | cons second rest ih =>
    have first_placed := placed first (by simp)
    have second_placed := placed second (by simp)
    intro fingers listed
    rcases List.mem_cons.mp listed with rfl | later
    · exact ⟨first_placed, second_placed⟩
    · refine ih _ ?_ fingers later
      intro number member
      rcases List.mem_cons.mp member with rfl | among
      · exact rooted.commonAncestor_mem first_placed second_placed
      · exact placed number (by simp [among])

private theorem Stage.mem_of_mem_fingers {graph : Graph N E} {numbering : Numbering} {stage : Stage}
    (rooted : Rooted numbering.virtualRoot stage.parents) :
    ∀ fingers ∈ stage.fingers graph numbering, fingers.1 ∈ stage.parents ∧
      fingers.2 ∈ stage.parents := by
  intro fingers listed
  match stage with
  | placing _ _ => simp [Stage.fingers] at listed
  | passing [] _ _ => simp [Stage.fingers] at listed
  | passing (id :: _) _ parents =>
    cases preds : placedPreds graph numbering parents id with
    | nil => simp [Stage.fingers, preds] at listed
    | cons first rest =>
      simp only [Stage.fingers, preds] at listed
      refine rooted.mem_of_mem_fingerStarts first rest (fun number member => ?_) fingers listed
      rw [← preds] at member
      exact of_decide_eq_true (List.mem_filter.mp member).2

/-! ### Single steps -/

private theorem initialParents_append (numbering : Numbering) (done : List Nat) (root : Nat) :
    initialParents numbering (done ++ [root]) =
      match numbering.number[root]? with
      | some number => (initialParents numbering done).insert number numbering.virtualRoot
      | none => initialParents numbering done := by
  cases numbered : numbering.number[root]? <;>
    simp [initialParents, List.filterMap_append, numbered]

section

variable {graph : Graph N E} {roots order : List Nat}

private theorem next?_placing (root : Nat) (done left : List Nat) :
    (Stage.placing (root :: left) (initialParents (.ofOrder order) done)).next? graph roots
      (.ofOrder order) =
      some (.placing left (initialParents (.ofOrder order) (done ++ [root]))) := by
  rw [initialParents_append, Stage.next?]
  cases (Numbering.ofOrder order).number[root]? <;> rfl

/-- The nodes that are still to come in a pass begin with the one whose turn it is. -/
theorem reverse_take_succ {turn : Nat} (bound : turn < order.length) :
    (order.take (turn + 1)).reverse = order[turn] :: (order.take turn).reverse := by
  rw [List.take_add_one, List.getElem?_eq_getElem bound, Option.toList_some, List.reverse_append]
  rfl

variable (nodup : order.Nodup)
include nodup

private theorem next?_passing {turn : Nat} (bound : turn < order.length) (changed : Bool)
    (parents : Parents) :
    (Stage.passing (order.take (turn + 1)).reverse changed parents).next? graph roots
      (.ofOrder order) = some (.passing (order.take turn).reverse
        (changed || decide ((layoutOf graph roots order).refine parents turn ≠ parents))
        ((layoutOf graph roots order).refine parents turn)) := by
  rw [reverse_take_succ bound, ← refine_eq_layout nodup parents (List.getElem?_eq_getElem bound)]
  rfl

/-- Placing one more root leaves the parents of the others. -/
theorem initialParents_le (done : List Nat) (root : Nat) {number old : Nat}
    (found : (initialParents (.ofOrder order) done)[number]? = some old) :
    ∃ new, (initialParents (.ofOrder order) (done ++ [root]))[number]? = some new ∧ old ≤ new := by
  -- Whatever is placed by now hangs below the virtual root.
  obtain ⟨rfl, reason⟩ := initial_parent nodup found
  refine ⟨order.length, ?_, Nat.le_refl _⟩
  rw [getElem?_initialParents _ nodup, if_pos]
  refine reason.imp_right ?_
  rintro ⟨id, listed, here⟩
  exact ⟨id, List.mem_append_left _ listed, here⟩

end

/-! ### What holds at every stage -/

/-- The roots before the remaining ones are placed, or a pass is at a certain turn and knows whether
it has changed anything. -/
inductive Stage.Valid (graph : Graph N E) (roots order : List Nat) : Stage → Prop
  | placing {done left : List Nat} (split : done ++ left = roots) :
      Valid graph roots order (.placing left (initialParents (.ofOrder order) done))
  | passing {start parents : Parents} {turn : Nat} {changed : Bool}
      (within : (layoutOf graph roots order).Within start turn parents) (noticed : changed = true ↔
        parents ≠ start) :
      Valid graph roots order (.passing (order.take turn).reverse changed parents)

section

variable {graph : Graph N E} {roots order : List Nat}

private theorem valid_start (graph : Graph N E) (roots order : List Nat) :
    (Stage.start (.ofOrder order) roots).Valid graph roots order :=
  .placing (List.nil_append roots)

private theorem valid_passing {parents : Parents}
    (settled : (layoutOf graph roots order).Settled parents) :
    (Stage.passing order.reverse false parents).Valid graph roots order := by
  have unchanged : false = true ↔ parents ≠ parents := by simp
  have valid := Stage.Valid.passing settled.within unchanged
  rwa [show (layoutOf graph roots order).size = order.length from rfl, List.take_length] at valid

variable (nodup : order.Nodup) (postordered : (layoutOf graph roots order).Postordered)
include nodup

private theorem Stage.Valid.rooted {stage : Stage} (valid : stage.Valid graph roots order) :
    Rooted order.length stage.parents := by
  cases valid with
  | placing => exact rooted_initialParents nodup
  | passing within => exact within.underway.rooted

include postordered

/-- One step: what holds of a stage holds of the next one, and no parent falls in between. -/
theorem Stage.Valid.next {stage next : Stage} (valid : stage.Valid graph roots order)
    (follows : stage.next? graph roots (.ofOrder order) = some next) :
    next.Valid graph roots order ∧ ∀ number old : Nat, stage.parents[number]? = some old →
      ∃ new, next.parents[number]? = some new ∧ old ≤ new := by
  cases valid with
  | @placing done left split =>
    cases left with
    | nil =>
      -- All roots are placed, and the first pass begins with their parents.
      obtain rfl := Option.some.inj follows
      obtain rfl : done = roots := by simpa using split
      exact ⟨valid_passing (settled_initialParents nodup),
        fun _ old found => ⟨old, found, Nat.le_refl old⟩⟩
    | cons root left =>
      rw [next?_placing] at follows
      obtain rfl := Option.some.inj follows
      exact ⟨.placing (by simpa using split), fun _ _ => initialParents_le nodup done root⟩
  | @passing start parents turn changed within noticed =>
    cases turn with
    | zero =>
      -- The pass is over. It is followed by another one exactly if it has changed something.
      cases changed with
      | false => cases follows
      | true =>
        obtain rfl := Option.some.inj follows
        have settled := (Layout.pass_passes postordered within.settled.underway).settled postordered
          within.settled
        rw [← within.eq_pass] at settled
        exact ⟨valid_passing settled, fun _ old found => ⟨old, found, Nat.le_refl old⟩⟩
    | succ turn =>
      rw [next?_passing nodup within.bounded] at follows
      obtain rfl := Option.some.inj follows
      refine ⟨.passing (within.refine postordered) ?_, fun _ _ => within.parent_le postordered⟩
      rw [within.changed_iff, Bool.or_eq_true, noticed, decide_eq_true_iff]

/-- Any number of steps. -/
theorem Stage.Valid.leads {stage later : Stage} (valid : stage.Valid graph roots order)
    (leads : Leads graph roots (.ofOrder order) stage later) :
    later.Valid graph roots order ∧ ∀ number old : Nat, stage.parents[number]? = some old →
      ∃ new, later.parents[number]? = some new ∧ old ≤ new := by
  induction leads with
  | refl => exact ⟨valid, fun _ old found => ⟨old, found, Nat.le_refl old⟩⟩
  | tail _ follows ih =>
    obtain ⟨middle_valid, risen⟩ := ih
    obtain ⟨next_valid, rises⟩ := middle_valid.next nodup postordered follows
    refine ⟨next_valid, fun number old found => ?_⟩
    obtain ⟨middle, middle_found, old_le⟩ := risen number old found
    obtain ⟨new, new_found, middle_le⟩ := rises number middle middle_found
    exact ⟨new, new_found, Nat.le_trans old_le middle_le⟩

/-! ### The construction ends -/

omit nodup postordered in
private theorem leads_placing (done left : List Nat) :
    Leads graph roots (.ofOrder order) (.placing left (initialParents (.ofOrder order) done))
      (.placing [] (initialParents (.ofOrder order) (done ++ left))) := by
  induction left generalizing done with
  | nil =>
    rw [List.append_nil]
    exact .refl
  | cons root left ih =>
    have rest := ih (done ++ [root])
    rw [List.append_assoc, List.singleton_append] at rest
    exact .head (next?_placing root done left) rest

private theorem leads_pass {start parents : Parents} {turn : Nat} {changed : Bool}
    (within : (layoutOf graph roots order).Within start turn parents)
    (noticed : changed = true ↔ parents ≠ start) :
    Leads graph roots (.ofOrder order) (.passing (order.take turn).reverse changed parents)
      (.passing [] (decide ((layoutOf graph roots order).pass start ≠ start))
        ((layoutOf graph roots order).pass start)) := by
  induction turn generalizing parents changed with
  | zero =>
    rw [← within.eq_pass, ← Bool.eq_iff_iff.mpr (noticed.trans decide_eq_true_iff.symm)]
    exact .refl
  | succ turn ih =>
    refine .head (next?_passing nodup within.bounded changed parents)
      (ih (within.refine postordered) ?_)
    rw [within.changed_iff, Bool.or_eq_true, noticed, decide_eq_true_iff]

/-- Pass follows pass up to one that changes nothing. -/
theorem leads_close (budget : Nat) (parents : Parents)
    (settled : (layoutOf graph roots order).Settled parents)
    (enough : order.length * (order.length + 1) <
      (layoutOf graph roots order).progress parents + budget) :
    Leads graph roots (.ofOrder order) (.passing order.reverse false parents)
      (.passing [] false (close graph roots (.ofOrder order) budget parents)) := by
  have one_pass : ∀ parents, (layoutOf graph roots order).Settled parents →
      Leads graph roots (.ofOrder order) (.passing order.reverse false parents)
        (.passing [] (decide ((layoutOf graph roots order).pass parents ≠ parents))
          ((layoutOf graph roots order).pass parents)) := by
    intro parents settled
    have unchanged : false = true ↔ parents ≠ parents := by simp
    have pass := leads_pass nodup postordered settled.within unchanged
    rwa [show (layoutOf graph roots order).size = order.length from rfl, List.take_length] at pass
  -- The passes are repeated as the construction repeats them, until one of them changes nothing.
  refine close_rec nodup postordered (motive := fun parents final =>
    Leads graph roots (.ofOrder order) (.passing order.reverse false parents)
      (.passing [] false final))
    ?_ ?_ budget parents settled enough
  · intro parents settled fixed
    have pass := one_pass parents settled
    rw [fixed] at pass
    simpa using pass
  · intro parents final settled changes rest
    have pass := one_pass parents settled
    rw [decide_eq_true changes] at pass
    exact pass.trans (.head rfl rest)

end

/-- The numbers lead to `c`, and `c` leads to whatever both of them lead to. -/
def LowestCommon (parents : Parents) (a b c : Nat) : Prop :=
  Climbs parents a c ∧ Climbs parents b c ∧ ∀ above, Climbs parents a above →
    Climbs parents b above → Climbs parents c above

private theorem Rooted.lowestCommon {root a b : Nat} {parents : Parents}
    (rooted : Rooted root parents) (a_placed : a ∈ parents) (b_placed : b ∈ parents) :
    LowestCommon parents a b (commonAncestor parents root a b) := by
  have meets := rooted.commonAncestor_climbs_iff a b a_placed b_placed
  obtain ⟨from_a, from_b⟩ := (meets _).mp (climbs_refl _ _)
  exact ⟨from_a, from_b, fun above a_climbs b_climbs => (meets above).mpr ⟨a_climbs, b_climbs⟩⟩

/-- At every stage of the construction the parents of all numbers but the virtual root are greater
than these, following parents leads from placed numbers to placed numbers and ends at the virtual
root, all fingers that are about to start meet without ever lacking a parent, and where they meet is
the lowest common ancestor. A refinement moves its node below where the last of them meet. Once a
number has a parent, later stages only raise it, and the construction comes to an end, with the
parents of which the forest is made. -/
theorem construction_stages (graph : Graph N E) (built : graph.Built) (roots : List Nat) :
    let numbering := Numbering.ofOrder (graph.postorder roots)
    let root := numbering.virtualRoot
    let start := Stage.start numbering roots
    (∀ stage, Leads graph roots numbering start stage →
      stage.parents[root]? = some root ∧
      (∀ number parent, stage.parents[number]? = some parent → number ≠ root → number < parent) ∧
      (∀ number ∈ stage.parents, Climbs stage.parents number root ∧
        ∀ above, Climbs stage.parents number above → above ∈ stage.parents) ∧
      (∀ fingers ∈ stage.fingers graph numbering,
        FingersClimb stage.parents fingers.1 fingers.2
            (commonAncestor stage.parents root fingers.1 fingers.2) ∧
          LowestCommon stage.parents fingers.1 fingers.2
            (commonAncestor stage.parents root fingers.1 fingers.2)) ∧
      (∀ id left changed parents first rest, stage = .passing (id :: left) changed parents →
        placedPreds graph numbering parents id = first :: rest →
        rest.foldl (commonAncestor parents root) first = (stage.fingers graph numbering).foldl
          (fun _ fingers => commonAncestor parents root fingers.1 fingers.2) first) ∧
      ∀ later, Leads graph roots numbering stage later → ∀ number old : Nat,
        stage.parents[number]? = some old → ∃ new, later.parents[number]? = some new ∧ old ≤ new) ∧
    ∃ final, Leads graph roots numbering start (.passing [] false final) ∧
      (Stage.passing [] false final).next? graph roots numbering = none ∧
      ofRoots graph roots = ofParents numbering final := by
  intro numbering root start
  have nodup := Graph.nodup_postorder graph roots
  have postordered := postordered_layoutOf built.coherent nodup
    (Graph.laterPredecessor_postorder built.coherent roots)
  constructor
  · intro stage reached
    -- Whatever holds of a single stage follows from its parents forming a tree below the virtual
    -- root.
    obtain ⟨valid, _⟩ := (valid_start graph roots (graph.postorder roots)).leads nodup
      postordered reached
    have rooted : Rooted root stage.parents := valid.rooted nodup
    refine ⟨rooted.top, fun _ _ => rooted.ascends,
      fun number placed => ⟨rooted.climbs_root placed, ?_⟩, ?_, ?_, ?_⟩
    · exact fun above => rooted.climbs_mem placed
    · intro fingers starting
      obtain ⟨left_placed, right_placed⟩ := Stage.mem_of_mem_fingers rooted fingers starting
      exact ⟨rooted.fingersClimb _ _ left_placed right_placed,
        rooted.lowestCommon left_placed right_placed⟩
    · rintro id left changed parents first rest rfl preds
      simp only [Stage.fingers, preds]
      exact (foldl_fingerStarts parents root first rest).symm
    · exact fun later leads => (valid.leads nodup postordered leads).2
  · refine ⟨_, ?_, rfl, rfl⟩
    have placed : Leads graph roots numbering start
        (.placing [] (initialParents numbering roots)) :=
      leads_placing [] roots
    have passed := leads_close nodup postordered (passBudget numbering) _
      (settled_initialParents nodup) (initial_budget graph roots (graph.postorder roots) _)
    exact placed.trans (.head rfl passed)

private theorem leads_of_iterate {graph : Graph N E} {roots : List Nat} {numbering : Numbering}
    (steps : Nat) {stage later : Stage}
    (runs : (·.bind (Stage.next? graph roots numbering))^[steps] (some stage) = some later) :
    Leads graph roots numbering stage later := by
  induction steps generalizing later with
  | zero =>
    obtain rfl := Option.some.inj runs
    exact .refl
  | succ steps ih =>
    rw [Function.iterate_succ_apply'] at runs
    obtain ⟨middle, before, follows⟩ := Option.bind_eq_some_iff.mp runs
    exact .tail (ih before) follows

/-- A node with a loop, between a root and another node that leads back to the root. -/
def circling : Graph Unit Unit :=
  (((((((∅ : Graph Unit Unit).insertNode 0 ()).insertNode 1 ()).insertNode 2 ()).addEdge 0 1
    ()).addEdge 1 1 ()).addEdge 1 2 ()).addEdge 2 0 ()

def circlingNumbering : Numbering := .ofOrder (circling.postorder [7, 0])

/-- At the turn of the node with the loop in the second pass, one of the fingers starts at this node
itself. -/
theorem circling_stages : circling.Built ∧
    (∃ stage, Leads circling [7, 0] circlingNumbering (.start circlingNumbering [7, 0]) stage ∧
      stage.fingers circling circlingNumbering = [(2, 1)] ∧
      FingersClimb stage.parents 2 1 2 ∧ LowestCommon stage.parents 2 1 2) ∧
    ∃ final, Leads circling [7, 0] circlingNumbering (.start circlingNumbering [7, 0])
      (.passing [] false final) := by
  have built : circling.Built := by
    have empty : (∅ : Graph Unit Unit).Built := .empty
    have nodes := ((empty.insertNode 0 ()).insertNode 1 ()).insertNode 2 ()
    have looped := (nodes.addEdge 0 1 () (by decide) (by decide)).addEdge 1 1 ()
      (by decide) (by decide)
    exact (looped.addEdge 1 2 () (by decide) (by decide)).addEdge 2 0 () (by decide) (by decide)
  have run : ((·.bind (Stage.next? circling [7, 0] circlingNumbering))^[8]
      (some (.start circlingNumbering [7, 0]))).map
        (fun stage => (stage.fingers circling circlingNumbering,
        commonAncestor stage.parents circlingNumbering.virtualRoot 2 1)) = some ([(2, 1)], 2) := by
    decide +kernel
  obtain ⟨stage, eighth, facts⟩ := Option.map_eq_some_iff.mp run
  obtain ⟨starting, meeting⟩ := Prod.mk.inj facts
  have reached := leads_of_iterate 8 eighth
  obtain ⟨at_stages, final, ends, _⟩ := construction_stages circling built [7, 0]
  obtain ⟨_, _, _, fingers_meet, _⟩ := at_stages stage reached
  have climb : FingersClimb stage.parents 2 1 2 ∧ LowestCommon stage.parents 2 1 2 := by
    have found := fingers_meet (2, 1) (starting ▸ List.mem_singleton_self (2, 1))
    rwa [show commonAncestor stage.parents
      (Numbering.ofOrder (circling.postorder [7, 0])).virtualRoot 2 1 = 2 from meeting] at found
  exact ⟨built, ⟨stage, reached, starting, climb⟩, final, ends⟩

end FlowIR.DominatorForest
