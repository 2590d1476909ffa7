import FlowIR.Proofs.Dominance.Climbing
import Mathlib.Algebra.Order.BigOperators.Group.Finset

/-!
# Refinement of parents, pass by pass

The passes only see postorder numbers: which of them are roots, and the predecessors of each. All
they need to know about postorder is that every number that is not a root has a greater predecessor.

Three facts carry the construction.

* The parents over-approximate dominance: every number leads to all its dominators. One refinement
  keeps this, because a number that is led to is also the start of a way on which the numbers only
  fall.
* A whole pass only takes numbers away from what a number leads to. This is not true of a single
  refinement. It rests on what the previous pass has left: what all predecessors lead to, the number
  leads to as well.
* So parents only rise from pass to pass, and their sum bounds the number of passes.
-/
namespace FlowIR.DominatorForest

/-- A graph on its postorder numbers. -/
structure Layout where
  size : Nat
  isRoot : Nat → Bool
  preds : Nat → List Nat

namespace Layout

structure Postordered (layout : Layout) : Prop where
  preds_lt : ∀ {number pred : Nat}, pred ∈ layout.preds number → pred < layout.size
  later_pred : ∀ {number : Nat}, number < layout.size → layout.isRoot number = false →
    ∃ pred ∈ layout.preds number, number < pred

/-- Moves one number below the closest common ancestor of its placed predecessors. -/
def refine (layout : Layout) (parents : Parents) (number : Nat) : Parents :=
  if layout.isRoot number then parents
  else
    match (layout.preds number).filter (· ∈ parents) with
    | [] => parents
    | first :: rest =>
      parents.insert number (rest.foldl (commonAncestor parents layout.size) first)

/-- The refinements of the numbers below a bound, the greatest number first. -/
def refineBelow (layout : Layout) (bound : Nat) (parents : Parents) : Parents :=
  (List.range bound).reverse.foldl layout.refine parents

def pass (layout : Layout) (parents : Parents) : Parents := layout.refineBelow layout.size parents

/-- A way on which the numbers only fall. -/
def Descends (layout : Layout) : Nat → Nat → Prop :=
  Relation.ReflTransGen fun above below => above ∈ layout.preds below ∧ below < above

/-- A way from a root that does not go through `x`. -/
inductive Avoidable (layout : Layout) (x : Nat) : Nat → Prop
  | root {number : Nat} (bound : number < layout.size) (root : layout.isRoot number = true)
      (other : number ≠ x) : Avoidable layout x number
  | step {pred number : Nat} (before : Avoidable layout x pred) (edge : pred ∈ layout.preds number)
      (bound : number < layout.size) (other : number ≠ x) : Avoidable layout x number

/-- The parents when all numbers from `turn` on had their turn in the current pass. -/
structure Underway (layout : Layout) (turn : Nat) (parents : Parents) : Prop where
  rooted : Rooted layout.size parents
  placed : ∀ {number : Nat}, turn ≤ number → number ≤ layout.size → number ∈ parents
  root_parent : ∀ {number : Nat}, number < layout.size → layout.isRoot number = true →
    parents[number]? = some layout.size
  descends : ∀ {number parent : Nat}, parents[number]? = some parent → parent ≠ layout.size →
    layout.Descends parent number
  dominated : ∀ {number x : Nat}, number ∈ parents → number < layout.size → x < layout.size →
    ¬ layout.Avoidable x number → Climbs parents number x

variable {layout : Layout}

private theorem descends_le {above below : Nat} (descends : layout.Descends above below) :
    below ≤ above := by
  induction descends with
  | refl => exact Nat.le_refl above
  | tail _ step ih => exact Nat.le_trans (Nat.le_of_lt step.2) ih

/-- A way that only falls stays clear of everything above its start. -/
theorem Avoidable.along {x above below : Nat} (avoidable : layout.Avoidable x above)
    (descends : layout.Descends above below) (less : above < x) (bound : x < layout.size) :
    layout.Avoidable x below := by
  induction descends with
  | refl => exact avoidable
  | @tail middle below descends step ih =>
    have middle_le := descends_le descends
    exact .step ih step.1 (by omega) (by omega)

/-! ### One refinement -/

theorem refine_other (parents : Parents) {number other : Nat} (different : number ≠ other) :
    (layout.refine parents number)[other]? = parents[other]? := by
  rw [refine]
  split
  · rfl
  · split
    · rfl
    · exact getElem?_insert_of_ne different

/-- What the turn of a number does: nothing at a root, and else the number gets a greater parent
that leads to exactly what all placed predecessors lead to. -/
theorem refine_cases (postordered : layout.Postordered) {number : Nat} {parents : Parents}
    (bound : number < layout.size) (underway : layout.Underway (number + 1) parents) :
    (layout.isRoot number = true ∧ layout.refine parents number = parents) ∨
      (layout.isRoot number = false ∧ ∃ parent,
        layout.refine parents number = parents.insert number parent ∧ number < parent ∧
        parent ∈ parents ∧ ∀ above, Climbs parents parent above ↔
          ∀ pred ∈ layout.preds number, pred ∈ parents → Climbs parents pred above) := by
  cases root : layout.isRoot number with
  | true => exact Or.inl ⟨rfl, by simp [refine, root]⟩
  | false =>
    refine Or.inr ⟨rfl, ?_⟩
    obtain ⟨later, later_pred, greater⟩ := postordered.later_pred bound root
    have later_placed : later ∈ parents :=
      underway.placed greater (Nat.le_of_lt (postordered.preds_lt later_pred))
    have listed : later ∈ (layout.preds number).filter (· ∈ parents) := by
      simp [later_pred, later_placed]
    cases preds : (layout.preds number).filter (· ∈ parents) with
    | nil => simp [preds] at listed
    | cons first rest =>
      -- The later predecessor leads to the new parent, which is why the parent is greater and
      -- placed.
      have all_placed : ∀ pred ∈ first :: rest, pred ∈ parents := by
        intro pred member
        rw [← preds] at member
        simpa using (List.mem_filter.mp member).2
      have meets := underway.rooted.foldl_commonAncestor_climbs_iff first rest all_placed
      have from_pred := fun pred member =>
        (meets (rest.foldl (commonAncestor parents layout.size) first)).mp
          (climbs_refl _ _) pred member
      have from_later := from_pred later (preds ▸ listed)
      refine ⟨rest.foldl (commonAncestor parents layout.size) first, ?_, ?_, ?_, ?_⟩
      · simp [refine, root, preds]
      · exact Nat.lt_of_lt_of_le greater (underway.rooted.climbs_le from_later)
      · exact underway.rooted.climbs_mem later_placed from_later
      · intro above
        rw [meets, ← preds]
        simp [List.mem_filter]

namespace Underway

variable {turn number : Nat} {parents : Parents}

/-- The way up along parents is a way down along edges. -/
theorem descends_of_climbs (underway : layout.Underway turn parents) {below above : Nat}
    (climbs : Climbs parents below above) (inner : above ≠ layout.size) :
    layout.Descends above below := by
  induction climbs using Relation.ReflTransGen.head_induction_on with
  | refl => exact Relation.ReflTransGen.refl
  | @head below next step rest ih =>
    -- No way leads on from the virtual root, so it does not lie on the way to anything else.
    have next_inner : next ≠ layout.size := by
      rintro rfl
      exact inner (underway.rooted.eq_root_of_climbs rest)
    exact ih.trans (underway.descends step next_inner)

private theorem insert_dominated (underway : layout.Underway (number + 1) parents) {parent : Nat}
    (bound : number < layout.size) (greater : number < parent)
    (meets : ∀ above, Climbs parents parent above ↔
      ∀ pred ∈ layout.preds number, pred ∈ parents → Climbs parents pred above)
    (preds_lt : ∀ pred ∈ layout.preds number, pred < layout.size) {other x : Nat}
    (placed : other ∈ parents.insert number parent) (other_bound : other < layout.size)
    (x_bound : x < layout.size) (unavoidable : ¬ layout.Avoidable x other) :
    Climbs (parents.insert number parent) other x := by
  have same_above : ∀ above, number + 1 ≤ above →
      (parents.insert number parent)[above]? = parents[above]? :=
    fun above later => getElem?_insert_of_ne (by omega)
  -- The changed number itself: its dominators dominate all its predecessors.
  have at_number : ¬ layout.Avoidable x number →
      Climbs (parents.insert number parent) number x := by
    intro unavoidable
    by_cases same : number = x
    · subst same
      exact climbs_refl _ _
    · have parent_climbs : Climbs parents parent x := by
        rw [meets]
        intro pred member pred_placed
        refine underway.dominated pred_placed (preds_lt pred member) x_bound fun avoidable => ?_
        exact unavoidable (.step avoidable member bound same)
      refine .head (b := parent) (by simp) ?_
      exact parent_climbs.congr underway.rooted same_above greater
  by_cases here : number = other
  · subst here
    exact at_number unavoidable
  · have old_placed : other ∈ parents := by
      rcases Std.ExtTreeMap.mem_insert.mp placed with same | old
      · exact absurd (Nat.compare_eq_eq.mp same) here
      · exact old
    have climbs := underway.dominated old_placed other_bound x_bound unavoidable
    -- The others lost nothing, or go through the changed number, which they are reached from.
    rcases climbs.insert_cases number parent with kept | ⟨before, after, onwards⟩
    · exact kept
    · by_cases same : number = x
      · subst same
        exact after
      · have less : number < x := by
          have ordered := underway.rooted.climbs_le onwards
          omega
        refine after.trans (at_number fun avoidable => unavoidable ?_)
        exact avoidable.along (underway.descends_of_climbs before (by omega)) less x_bound

/-- The turn of one number. -/
theorem refine (postordered : layout.Postordered) (bound : number < layout.size)
    (underway : layout.Underway (number + 1) parents) :
    layout.Underway number (layout.refine parents number) := by
  rcases refine_cases postordered bound underway with
    ⟨root, unchanged⟩ | ⟨inner, parent, changed, greater, parent_placed, meets⟩
  · rw [unchanged]
    refine { underway with placed := fun {other} from_turn bounded => ?_ }
    by_cases here : other = number
    · subst here
      exact mem_of_parent (underway.root_parent bound root)
    · exact underway.placed (by omega) bounded
  · rw [changed]
    constructor
    · exact underway.rooted.insert bound greater parent_placed
    · intro other from_turn bounded
      by_cases here : number = other
      · simp [here]
      · simp [underway.placed (show number + 1 ≤ other by omega) bounded]
    · intro other other_bound root
      have different : number ≠ other := by
        rintro rfl
        simp [root] at inner
      rw [getElem?_insert_of_ne different]
      exact underway.root_parent other_bound root
    · intro other above found not_root
      rcases getElem?_insert_cases found with ⟨rfl, rfl⟩ | ⟨_, old⟩
      · -- A falling way leads from the new parent to the later predecessor, and on to the number.
        obtain ⟨later, edge, later_greater⟩ := postordered.later_pred bound inner
        have later_placed :=
          underway.placed later_greater (Nat.le_of_lt (postordered.preds_lt edge))
        have climbs := (meets parent).mp (climbs_refl _ _) later edge later_placed
        exact (underway.descends_of_climbs climbs not_root).tail ⟨edge, later_greater⟩
      · exact underway.descends old not_root
    · intro other x placed other_bound x_bound unavoidable
      exact underway.insert_dominated bound greater meets
        (fun _ member => postordered.preds_lt member) placed other_bound x_bound unavoidable

end Underway

/-! ### One pass -/

theorem refineBelow_succ (bound : Nat) (parents : Parents) :
    layout.refineBelow (bound + 1) parents =
      layout.refineBelow bound (layout.refine parents bound) := by
  rw [refineBelow, List.range_succ, List.reverse_append]
  rfl

/-- The parents when it is the turn of one number in the pass from `before` to `after`. -/
structure Midway (layout : Layout) (before after : Parents) (number : Nat) (midway : Parents) :
    Prop where
  underway : layout.Underway (number + 1) midway
  above : ∀ other : Nat, number < other → midway[other]? = after[other]?
  below : ∀ other : Nat, other ≤ number → midway[other]? = before[other]?
  result : after[number]? = (layout.refine midway number)[number]?

theorem refineBelow_spec (postordered : layout.Postordered) (bound : Nat) (before : Parents)
    (bounded : bound ≤ layout.size) (underway : layout.Underway bound before) :
    layout.Underway 0 (layout.refineBelow bound before) ∧
      (∀ other, bound ≤ other → (layout.refineBelow bound before)[other]? = before[other]?) ∧
      ∀ number < bound, ∃ midway,
        layout.Midway before (layout.refineBelow bound before) number midway := by
  -- The greatest number below the bound has its turn first, and the induction covers the others.
  induction bound generalizing before with
  | zero =>
    refine ⟨underway, fun _ _ => rfl, ?_⟩
    intro number impossible
    omega
  | succ bound ih =>
    rw [refineBelow_succ]
    have stepped := underway.refine postordered (by omega)
    obtain ⟨final_underway, kept, turns⟩ := ih (layout.refine before bound) (by omega) stepped
    have kept_above : ∀ other, bound < other →
        (layout.refineBelow bound (layout.refine before bound))[other]? = before[other]? := by
      intro other later
      rw [kept other (by omega), refine_other before (by omega)]
    refine ⟨final_underway, fun other later => kept_above other (by omega), ?_⟩
    intro number turn
    by_cases last : number = bound
    · subst last
      refine ⟨before, underway, ?_, fun _ _ => rfl, kept number (Nat.le_refl number)⟩
      exact fun other later => (kept_above other later).symm
    · obtain ⟨midway, state⟩ := turns number (by omega)
      refine ⟨midway, state.underway, state.above, ?_, state.result⟩
      intro other earlier
      rw [state.below other earlier, refine_other before (by omega)]

/-- A whole pass, seen from the turns of its numbers. -/
structure Passes (layout : Layout) (before after : Parents) : Prop where
  done : layout.Underway 0 after
  outside : ∀ other : Nat, layout.size ≤ other → after[other]? = before[other]?
  turns : ∀ number < layout.size, ∃ midway, layout.Midway before after number midway

theorem pass_passes (postordered : layout.Postordered) {before : Parents}
    (underway : layout.Underway layout.size before) :
    layout.Passes before (layout.pass before) := by
  obtain ⟨done, outside, turns⟩ :=
    refineBelow_spec postordered layout.size before (Nat.le_refl _) underway
  exact ⟨done, outside, turns⟩

/-- What holds of the parents between two passes. -/
structure Settled (layout : Layout) (parents : Parents) : Prop where
  underway : layout.Underway layout.size parents
  lowest : ∀ {number : Nat}, number < layout.size → layout.isRoot number = false →
    number ∈ parents → ∀ above,
    (∀ pred ∈ layout.preds number, pred ∈ parents → Climbs parents pred above) →
      Climbs parents number above

section Pass

variable {before after : Parents}

/-- Above the number whose turn it is, the pass is already done. -/
theorem Midway.climbs_iff {number : Nat} {midway : Parents}
    (state : layout.Midway before after number midway) (done : layout.Underway 0 after)
    {below above : Nat} (later : number < below) :
    Climbs midway below above ↔ Climbs after below above := by
  constructor
  · exact fun climbs => climbs.congr state.underway.rooted
      (fun other beyond => (state.above other beyond).symm) later
  · exact fun climbs =>
      climbs.congr done.rooted (fun other beyond => state.above other beyond) later

/-- The new parent of a number that is not a root leads to what the predecessors led to at its
turn. -/
theorem Midway.parent (postordered : layout.Postordered) {number : Nat} {midway : Parents}
    (state : layout.Midway before after number midway) (done : layout.Underway 0 after)
    (bound : number < layout.size) (inner : layout.isRoot number = false) :
    ∃ parent, after[number]? = some parent ∧ number < parent ∧
      ∀ above, Climbs after parent above ↔
        ∀ pred ∈ layout.preds number, pred ∈ midway → Climbs midway pred above := by
  rcases refine_cases postordered bound state.underway with
    ⟨root, _⟩ | ⟨_, parent, changed, greater, _, meets⟩
  · simp [root] at inner
  · refine ⟨parent, ?_, greater, fun above => ?_⟩
    · rw [state.result, changed]
      simp
    · rw [← state.climbs_iff done greater, meets]

/-- What a number leads to after its turn it led to before the pass, if the same holds of all
greater numbers. -/
theorem Midway.climbs_before {number : Nat} {midway : Parents}
    (state : layout.Midway before after number midway) (start : Rooted layout.size before)
    (done : layout.Underway 0 after)
    (greater : ∀ other, number < other → other ∈ before → ∀ above,
      Climbs after other above → Climbs before other above)
    {below above : Nat} (placed : below ∈ before) (climbs : Climbs midway below above) :
    Climbs before below above := by
  induction climbs using Relation.ReflTransGen.head_induction_on with
  | refl => exact climbs_refl before above
  | @head below next step rest ih =>
    -- The way starts with old parents up to the first number that had its turn already.
    by_cases later : number < below
    · exact greater below later placed above ((state.climbs_iff done later).mp (.head step rest))
    · rw [state.below below (by omega)] at step
      exact .head step (ih (start.closed step))

namespace Passes

/-- A pass takes numbers away from what a number leads to and adds none. -/
theorem climbs_before (postordered : layout.Postordered) (passes : layout.Passes before after)
    (settled : layout.Settled before) {number above : Nat} (placed : number ∈ before)
    (climbs : Climbs after number above) : Climbs before number above := by
  have start := settled.underway
  have rooted := passes.done.rooted
  have number_le := start.rooted.le_root placed
  by_cases same : number = above
  · subst same
    exact climbs_refl before number
  by_cases at_root : number = layout.size
  · subst at_root
    rw [rooted.eq_root_of_climbs climbs]
    exact climbs_refl before layout.size
  have bound : number < layout.size := by omega
  cases kind : layout.isRoot number with
  | true =>
    have top := climbs.cases_first same (passes.done.root_parent bound kind)
    rw [rooted.eq_root_of_climbs top]
    exact start.rooted.climbs_root placed
  | false =>
    obtain ⟨midway, state⟩ := passes.turns number bound
    obtain ⟨parent, found, greater, meets⟩ := state.parent postordered passes.done bound kind
    have from_preds := (meets parent).mp (climbs_refl _ _)
    -- What the predecessors lead to at the turn they led to before, and so did the number.
    have to_parent : Climbs before number parent := by
      refine settled.lowest bound kind placed parent fun pred member pred_placed => ?_
      have pred_midway : pred ∈ midway := by
        by_cases later : number < pred
        · exact state.underway.placed later (Nat.le_of_lt (postordered.preds_lt member))
        · rw [Std.ExtTreeMap.mem_iff_isSome_getElem?, state.below pred (by omega)]
          exact Std.ExtTreeMap.mem_iff_isSome_getElem?.mp pred_placed
      exact state.climbs_before start.rooted passes.done
        (fun other _ other_placed _ other_climbs =>
          passes.climbs_before postordered settled other_placed other_climbs)
        pred_placed (from_preds pred member pred_midway)
    exact to_parent.trans (passes.climbs_before postordered settled
      (start.rooted.climbs_mem placed to_parent) (climbs.cases_first same found))
termination_by layout.size - number
decreasing_by all_goals omega

/-- After a pass, what a number leads to is led to from all its greater predecessors. -/
theorem climbs_later_pred (postordered : layout.Postordered) (passes : layout.Passes before after)
    {number pred above : Nat} (edge : pred ∈ layout.preds number) (later : number < pred)
    (beyond : number < above) (climbs : Climbs after number above) : Climbs after pred above := by
  have pred_bound := postordered.preds_lt edge
  have bound : number < layout.size := by omega
  cases kind : layout.isRoot number with
  | true =>
    have top := climbs.cases_first (by omega) (passes.done.root_parent bound kind)
    rw [passes.done.rooted.eq_root_of_climbs top]
    exact passes.done.rooted.climbs_root (passes.done.placed (Nat.zero_le _) (by omega))
  | false =>
    obtain ⟨midway, state⟩ := passes.turns number bound
    obtain ⟨parent, found, _, meets⟩ := state.parent postordered passes.done bound kind
    have pred_midway := state.underway.placed later (Nat.le_of_lt pred_bound)
    have from_pred := (meets above).mp (climbs.cases_first (by omega) found) pred edge pred_midway
    exact (state.climbs_iff passes.done later).mp from_pred

private theorem climbs_of_descends (postordered : layout.Postordered)
    (passes : layout.Passes before after) {start number above : Nat}
    (descends : layout.Descends start number) (beyond : start < above)
    (climbs : Climbs after number above) : Climbs after start above := by
  induction descends with
  | refl => exact climbs
  | @tail middle number descends step ih =>
    have middle_le := descends_le descends
    have falls := step.2
    exact ih (passes.climbs_later_pred postordered step.1 falls (by omega) climbs)

/-- What a number leads to after the pass it led to at the turn of a number that is not below it. -/
theorem climbs_midway (postordered : layout.Postordered) (passes : layout.Passes before after)
    (settled : layout.Settled before) {number pred above : Nat} {midway : Parents}
    (state : layout.Midway before after number midway) (placed : pred ∈ midway)
    (climbs : Climbs after pred above) : Climbs midway pred above := by
  by_cases later : number < pred
  · exact (state.climbs_iff passes.done later).mpr climbs
  have pred_placed : pred ∈ before := by
    rw [Std.ExtTreeMap.mem_iff_isSome_getElem?, ← state.below pred (by omega)]
    exact Std.ExtTreeMap.mem_iff_isSome_getElem?.mp placed
  -- Follow the way before the pass up to the first number that had its turn. From there on the way
  -- after the pass is taken. It has not lost `above`, since falling edges lead back to the
  -- predecessor.
  suffices follow : ∀ {current}, Climbs before pred current → Climbs before current above →
      Climbs midway current above from
    follow (climbs_refl before pred) (passes.climbs_before postordered settled pred_placed climbs)
  intro current from_pred to_above
  have current_le := settled.underway.rooted.climbs_le to_above
  induction to_above using Relation.ReflTransGen.head_induction_on with
  | refl => exact climbs_refl midway above
  | @head current next step rest ih =>
    by_cases had_turn : number < current
    · by_cases same : current = above
      · subst same
        exact climbs_refl midway current
      · have above_le : above ≤ layout.size := by
          have above_placed := passes.done.rooted.climbs_mem
            (passes.done.placed (Nat.zero_le _) (settled.underway.rooted.le_root pred_placed))
            climbs
          exact passes.done.rooted.le_root above_placed
        have descends := settled.underway.descends_of_climbs from_pred (by omega)
        rw [state.climbs_iff passes.done had_turn]
        exact passes.climbs_of_descends postordered descends (by omega) climbs
    · have same_step : midway[current]? = some next := (state.below current (by omega)).trans step
      exact .head same_step (ih (from_pred.tail step) (settled.underway.rooted.climbs_le rest))

theorem settled (postordered : layout.Postordered) (passes : layout.Passes before after)
    (settled : layout.Settled before) : layout.Settled after where
  underway :=
    { passes.done with placed := fun _ bounded => passes.done.placed (Nat.zero_le _) bounded }
  lowest := by
    intro number bound inner placed above from_preds
    obtain ⟨midway, state⟩ := passes.turns number bound
    obtain ⟨parent, found, _, meets⟩ := state.parent postordered passes.done bound inner
    refine .head found ((meets above).mpr fun pred member pred_midway => ?_)
    have pred_le := Nat.le_of_lt (postordered.preds_lt member)
    have pred_after := passes.done.placed (Nat.zero_le pred) pred_le
    exact passes.climbs_midway postordered settled state pred_midway
      (from_preds pred member pred_after)

/-- No parent falls. -/
theorem parent_le (postordered : layout.Postordered) (passes : layout.Passes before after)
    (settled : layout.Settled before) {number old new : Nat} (found : before[number]? = some old)
    (changed : after[number]? = some new) : old ≤ new := by
  by_cases at_root : number = layout.size
  · subst at_root
    rw [settled.underway.rooted.top] at found
    rw [passes.done.rooted.top] at changed
    exact Nat.le_of_eq ((Option.some.inj found).symm.trans (Option.some.inj changed))
  · have rises := passes.done.rooted.ascends changed at_root
    have climbs := passes.climbs_before postordered settled (mem_of_parent found)
      (Relation.ReflTransGen.single changed)
    exact settled.underway.rooted.climbs_le (climbs.cases_first (by omega) found)

end Passes

end Pass

/-! ### The passes end -/

/-- A number without a parent counts less than one with any parent. -/
def rank (parents : Parents) (number : Nat) : Nat := (parents[number]?.map (· + 1)).getD 0

def progress (layout : Layout) (parents : Parents) : Nat :=
  ∑ number ∈ Finset.range layout.size, rank parents number

theorem progress_le {parents : Parents} (rooted : Rooted layout.size parents) :
    layout.progress parents ≤ layout.size * (layout.size + 1) := by
  have each : ∀ number ∈ Finset.range layout.size, rank parents number ≤ layout.size + 1 := by
    intro number _
    cases found : parents[number]? with
    | none => simp [rank, found]
    | some parent => simpa [rank, found] using rooted.bounded found
  simpa [progress] using Finset.sum_le_card_nsmul _ _ _ each

private theorem rank_le_pass (postordered : layout.Postordered) {before after : Parents}
    (passes : layout.Passes before after) (settled : layout.Settled before) {number : Nat}
    (bound : number < layout.size) : rank before number ≤ rank after number := by
  obtain ⟨new, changed⟩ :=
    exists_parent (passes.done.placed (Nat.zero_le number) (Nat.le_of_lt bound))
  cases found : before[number]? with
  | none => simp [rank, found]
  | some old =>
    have risen := passes.parent_le postordered settled found changed
    simpa [rank, found, changed] using risen

theorem progress_lt_pass (postordered : layout.Postordered) {parents : Parents}
    (settled : layout.Settled parents) (changes : layout.pass parents ≠ parents) :
    layout.progress parents < layout.progress (layout.pass parents) := by
  have passes := pass_passes postordered settled.underway
  -- Some parent changes, all parents rise or stay, so the sum of their ranks grows.
  obtain ⟨number, differs⟩ : ∃ number : Nat, (layout.pass parents)[number]? ≠ parents[number]? := by
    by_contra same
    exact changes (Std.ExtTreeMap.ext_getElem? fun number => not_exists_not.mp same number)
  have bound : number < layout.size := by
    by_contra outside
    exact differs (passes.outside number (by omega))
  apply Finset.sum_lt_sum
  · exact fun other member => rank_le_pass postordered passes settled (Finset.mem_range.mp member)
  · refine ⟨number, Finset.mem_range.mpr bound, ?_⟩
    have risen := rank_le_pass postordered passes settled bound
    obtain ⟨new, changed⟩ :=
      exists_parent (passes.done.placed (Nat.zero_le number) (Nat.le_of_lt bound))
    cases found : parents[number]? with
    | none => simp [rank, found, changed]
    | some old =>
      have different : new ≠ old := by simpa [found, changed] using differs
      simp only [rank, found, changed, Option.map_some, Option.getD_some] at risen ⊢
      omega

/-! ### Where the passes end -/

/-- Where a pass changes nothing, a parent leads to exactly what all predecessors lead to. -/
theorem fixed_parent (postordered : layout.Postordered) {parents : Parents}
    (settled : layout.Settled parents) (fixed : layout.pass parents = parents) {number : Nat}
    (bound : number < layout.size) (inner : layout.isRoot number = false) :
    ∃ parent, parents[number]? = some parent ∧
      ∀ above, Climbs parents parent above ↔
        ∀ pred ∈ layout.preds number, Climbs parents pred above := by
  have passes := pass_passes postordered settled.underway
  rw [fixed] at passes
  -- The parents at the turn of the number are partly those after the pass and partly those before.
  obtain ⟨midway, state⟩ := passes.turns number bound
  have unchanged : midway = parents := by
    apply Std.ExtTreeMap.ext_getElem?
    intro other
    by_cases later : number < other
    · exact state.above other later
    · exact state.below other (by omega)
  subst unchanged
  obtain ⟨parent, found, _, meets⟩ := state.parent postordered passes.done bound inner
  refine ⟨parent, found, fun above => ?_⟩
  rw [meets]
  have all_placed : ∀ pred ∈ layout.preds number, pred ∈ midway := fun pred member =>
    passes.done.placed (Nat.zero_le pred) (Nat.le_of_lt (postordered.preds_lt member))
  exact ⟨fun each pred member => each pred member (all_placed pred member),
    fun each pred member _ => each pred member⟩

private theorem fixed_not_avoidable (postordered : layout.Postordered) {parents : Parents}
    (settled : layout.Settled parents) (fixed : layout.pass parents = parents) {number x : Nat}
    (inner : x < layout.size) (avoidable : layout.Avoidable x number) :
    ¬ Climbs parents number x := by
  have rooted := settled.underway.rooted
  -- From a root the only other way is to the virtual root.
  have from_root : ∀ {root : Nat}, root < layout.size → layout.isRoot root = true → root ≠ x →
      ¬ Climbs parents root x := by
    intro root bound kind other climbs
    have top := climbs.cases_first other (settled.underway.root_parent bound kind)
    have at_top := rooted.eq_root_of_climbs top
    omega
  induction avoidable with
  | root bound root other => exact from_root bound root other
  | @step pred number before edge bound other ih =>
    cases kind : layout.isRoot number with
    | true => exact from_root bound kind other
    | false =>
      -- What the number leads to, all its predecessors lead to, the one on the avoiding way too.
      intro climbs
      obtain ⟨parent, found, meets⟩ := fixed_parent postordered settled fixed bound kind
      exact ih ((meets x).mp (climbs.cases_first other found) pred edge)

/-- Where the passes end, a number leads to exactly its dominators and the virtual root. -/
theorem fixed_climbs_iff (postordered : layout.Postordered) {parents : Parents}
    (settled : layout.Settled parents) (fixed : layout.pass parents = parents) {number x : Nat}
    (bound : number < layout.size) (inner : x < layout.size) :
    Climbs parents number x ↔ ¬ layout.Avoidable x number := by
  have passes := pass_passes postordered settled.underway
  rw [fixed] at passes
  constructor
  · exact fun climbs avoidable =>
      fixed_not_avoidable postordered settled fixed inner avoidable climbs
  · exact settled.underway.dominated (passes.done.placed (Nat.zero_le _) (Nat.le_of_lt bound)) bound
      inner

end Layout

end FlowIR.DominatorForest
