import FlowIR.Proofs.Dataflow.Convergence
import Mathlib.Data.Nat.Choose.Basic

/-!
# Runs with many visits

Let some nodes be handed out one after the other, such that each of them feeds the one before it.
What such a rung contributes goes down to the first one before the next rung is handed out for the
first time, since lower rungs come first. So each new rung costs a visit of every rung below it, and
the number of visits is quadratic in the number of rungs, however simple the facts are.
-/
namespace FlowIR

variable {N E D : Type}

/-- Different nodes that are queued are handed out by their places in the order. -/
theorem Worklist.pop?_least {worklist rest : Worklist} {id other : Nat}
    (distinct : worklist.order.Nodup) (popped : worklist.pop? = some (id, rest))
    (queued : other ∈ worklist.queued) (ranked : other ∈ worklist.order) :
    other = id ∨ worklist.order.idxOf id < worklist.order.idxOf other := by
  have ordered : worklist.order.Pairwise fun early late =>
      worklist.order.idxOf early < worklist.order.idxOf late := by
    rw [List.pairwise_iff_getElem]
    intro i j i_lt j_lt before
    rwa [distinct.idxOf_getElem i i_lt, distinct.idxOf_getElem j j_lt]
  exact pop?_first ordered popped queued ranked

theorem Worklist.nodup_flowOrder (direction : Direction) (graph : Graph N E) :
    (flowOrder direction graph).Nodup :=
  List.nodup_reverse.mpr (Graph.nodup_postorder _ _)

namespace Problem

variable [DecidableEq D] {problem : Problem N E D} {rungs : List Nat} {carries : D → Nat → Prop}

private theorem length_visits_runFrom_le (budget : Nat) (run : Run D) :
    (problem.runFrom budget run).visits.length ≤ budget + run.visits.length := by
  induction budget generalizing run with
  | zero => simp [runFrom]
  | succ budget ih =>
    rw [runFrom]
    split
    next => omega
    next id rest _ =>
      have one_more : (problem.visit run id rest).visits.length ≤ run.visits.length + 1 := by
        cases labelled : problem.graph.label? id with
        | none => simp [visit, labelled]
        | some label => simp [visits_visit labelled]
      have later := ih (problem.visit run id rest)
      omega

/-! ### Who carries what -/

open Classical in
/-- How many of these nodes have a fact that carries the rung. -/
noncomputable def carriers (problem : Problem N E D) (carries : D → Nat → Prop)
    (outputs : Std.ExtTreeMap Nat D) (rung : Nat) (ids : List Nat) : Nat :=
  ids.countP fun id => carries (problem.factsOf outputs id) rung

section

variable {outputs : Std.ExtTreeMap Nat D} {rung : Nat} {ids : List Nat}

omit [DecidableEq D]

private theorem carriers_eq_zero
    (none_carries : ∀ id ∈ ids, ¬ carries (problem.factsOf outputs id) rung) :
    problem.carriers carries outputs rung ids = 0 := by
  simpa [carriers, List.countP_eq_zero] using none_carries

private theorem carriers_eq_length
    (all_carry : ∀ id ∈ ids, carries (problem.factsOf outputs id) rung) :
    problem.carriers carries outputs rung ids = ids.length := by
  simpa [carriers, List.countP_eq_length] using all_carry

private theorem carriers_le_length : problem.carriers carries outputs rung ids ≤ ids.length :=
  List.countP_le_length

private theorem carriers_append (others : List Nat) :
    problem.carriers carries outputs rung (ids ++ others) =
    problem.carriers carries outputs rung ids + problem.carriers carries outputs rung others :=
  List.countP_append

private theorem carriers_congr {changed : Std.ExtTreeMap Nat D}
    (same : ∀ id ∈ ids, problem.factsOf changed id = problem.factsOf outputs id) :
    problem.carriers carries changed rung ids = problem.carriers carries outputs rung ids := by
  apply List.countP_congr
  intro id member
  rw [same id member]

end

/-- Only one fact changes in a visit. -/
theorem carriers_visit_le {run : Run D} {id : Nat} {label : N}
    (labelled : problem.graph.label? id = some label) (rest : Worklist) (rung : Nat)
    {ids : List Nat} (distinct : ids.Nodup) :
    problem.carriers carries (problem.visit run id rest).outputs rung ids ≤
      problem.carriers carries run.outputs rung ids + 1 := by
  have unchanged : ∀ other ≠ id, problem.factsOf (problem.visit run id rest).outputs other =
      problem.factsOf run.outputs other := by
    intro other different
    rw [factsOf_visit labelled, if_neg different.symm]
  by_cases listed : id ∈ ids
  · -- The nodes before and after the visited one are counted as before.
    obtain ⟨before, after, rfl⟩ := List.append_of_mem listed
    obtain ⟨_, behind, apart⟩ := List.nodup_append.mp distinct
    have front : problem.carriers carries (problem.visit run id rest).outputs rung before =
        problem.carriers carries run.outputs rung before :=
      carriers_congr fun other member => unchanged other (apart other member id List.mem_cons_self)
    have back : problem.carriers carries (problem.visit run id rest).outputs rung after =
        problem.carriers carries run.outputs rung after :=
      carriers_congr fun other member => unchanged other fun same =>
        (List.nodup_cons.mp behind).1 (same ▸ member)
    have middle : problem.carriers carries (problem.visit run id rest).outputs rung [id] ≤ 1 :=
      carriers_le_length
    rw [← List.singleton_append, carriers_append, carriers_append, carriers_append,
      carriers_append, front, back]
    omega
  · rw [carriers_congr fun other member => unchanged other fun same => listed (same ▸ member)]
    exact Nat.le_succ _

/-! ### Ladders -/

/-- Rungs that are handed out upwards and feed each other downwards. A fact carries a rung if the
rung has contributed to it. -/
structure Ladder (problem : Problem N E D) (rungs : List Nat)
    (carries : D → Nat → Prop) : Prop where
  collects : problem.Collects fun nodes fact => ∀ rung ∈ rungs, carries fact rung ↔ rung ∈ nodes
  nodes : ∀ rung ∈ rungs, rung ∈ problem.graph
  upwards : rungs.Pairwise fun lower upper =>
    (Worklist.flowOrder problem.direction problem.graph).idxOf lower <
      (Worklist.flowOrder problem.direction problem.graph).idxOf upper
  downwards : rungs.IsChain fun lower upper => problem.direction.Feeds problem.graph upper lower

/-- Where a run stands on the ladder. The rungs that are left have not been visited, and nothing is
known of them. There were enough visits to carry each of the other rungs down, and the last of them
as far as it is carried now. -/
structure Climb (problem : Problem N E D) (rungs : List Nat) (carries : D → Nat → Prop)
    (run : Run D) (done left : List Nat) : Prop where
  split : done ++ left = rungs
  waiting : ∀ rung ∈ left, rung ∈ run.worklist.queued
  unknown : ∀ rung ∈ left, ∀ id, ¬ carries (problem.factsOf run.outputs id) rung
  own : ∀ rung ∈ done, carries (problem.factsOf run.outputs rung) rung
  counted : ∀ top, done.getLast? = some top →
    done.length.choose 2 + problem.carriers carries run.outputs top done ≤ run.visits.length

/-- A new rung adds as many visits as there are rungs below it. -/
theorem triangle (rungs : Nat) : (rungs + 1).choose 2 = rungs + rungs.choose 2 := by
  rw [Nat.choose_succ_succ', Nat.choose_one_right]

namespace Ladder

variable (ladder : problem.Ladder rungs carries) {run : Run D} {id : Nat} {rest : Worklist}
  {done left : List Nat}
include ladder

omit [DecidableEq D] in
/-- The fact after a node carries the node itself, and what the facts carry that flow in. -/
theorem carries_output {label : N} (labelled : problem.graph.label? id = some label)
    (outputs : Std.ExtTreeMap Nat D) {rung : Nat} (listed : rung ∈ rungs) :
    carries (problem.visitOutput outputs id label) rung ↔
      rung = id ∨ ∃ other, problem.direction.Feeds problem.graph other id ∧
        carries (problem.factsOf outputs other) rung := by
  have flowing := @Collects.inputOf _ _ _ _ _ ladder.collects (problem.factsOf outputs)
    (fun other => {mark | carries (problem.factsOf outputs other) mark}) id fun _ _ _ _ => Iff.rfl
  exact ladder.collects.transfer labelled flowing rung listed

omit [DecidableEq D] in
private theorem climb_start : problem.Climb rungs carries problem.start [] rungs where
  split := rfl
  waiting := fun rung listed =>
    problem.orderly_start.waiting rung (ladder.nodes rung listed) (by simp [start])
  unknown := by
    intro rung listed other
    rw [factsOf_start, ladder.collects.initial rung listed]
    exact Set.notMem_empty rung
  own := by simp
  counted := by simp

omit [DecidableEq D] in
/-- If none of the rungs that were visited is queued, then all of them carry the last one. -/
theorem carried (consistent : problem.Consistent run)
    (climb : problem.Climb rungs carries run done left)
    (unqueued : ∀ rung ∈ done, rung ∉ run.worklist.queued) {top : Nat}
    (last : done.getLast? = some top) :
    ∀ rung ∈ done, carries (problem.factsOf run.outputs rung) top := by
  have top_mem : top ∈ done := List.mem_of_getLast? last
  have subset : ∀ rung ∈ done, rung ∈ rungs := fun rung member =>
    climb.split ▸ List.mem_append_left left member
  have own := climb.own top top_mem
  have top_listed := subset top top_mem
  have chain := ladder.downwards
  rw [← climb.split] at chain
  replace chain := chain.left_of_append
  -- Downwards from the last rung: each one feeds the one below, where the equation holds.
  clear climb top_mem
  induction done with
  | nil => simp
  | cons lower above ih =>
    cases above with
    | nil =>
      obtain rfl : lower = top := by simpa using last
      simpa using own
    | cons upper further =>
      rw [List.isChain_cons_cons] at chain
      have carried_above := ih
        (fun rung member => unqueued rung (List.mem_cons_of_mem lower member)) (by simpa using last)
        (fun rung member => subset rung (List.mem_cons_of_mem lower member)) chain.2
      obtain ⟨label, labelled⟩ := Graph.mem_iff_label?.mp
        (ladder.nodes lower (subset lower List.mem_cons_self))
      intro rung member
      rcases List.mem_cons.mp member with rfl | later
      · rw [consistent.solved rung label labelled (unqueued rung List.mem_cons_self),
          ladder.carries_output labelled run.outputs top_listed]
        exact Or.inr ⟨upper, chain.1, carried_above upper List.mem_cons_self⟩
      · exact carried_above rung later

section

variable (coherent : problem.graph.Coherent) (orderly : problem.Orderly run)
  (climb : problem.Climb rungs carries run done left) (popped : run.worklist.pop? = some (id, rest))
include coherent orderly climb popped

omit [DecidableEq D] in
/-- The next rung is handed out only when no lower one is queued, and no later one is handed out
before it. -/
theorem next_of_mem_left (waiting : id ∈ left) :
    ∃ later, left = id :: later ∧ ∀ rung ∈ done, rung ∉ run.worklist.queued := by
  have upwards := ladder.upwards
  rw [← climb.split, ← orderly.order, List.pairwise_append] at upwards
  obtain ⟨_, among_left, across⟩ := upwards
  have distinct : run.worklist.order.Nodup := orderly.order ▸ Worklist.nodup_flowOrder _ _
  -- Of all queued rungs the one that is handed out comes first in the order.
  have least : ∀ rung ∈ rungs, rung ∈ run.worklist.queued →
      rung = id ∨ run.worklist.order.idxOf id < run.worklist.order.idxOf rung := by
    intro rung listed queued
    apply Worklist.pop?_least distinct popped queued
    rw [orderly.order]
    exact Worklist.mem_flowOrder coherent _ (ladder.nodes rung listed)
  cases left with
  | nil => cases waiting
  | cons next later =>
    have here : next = id := by
      rcases List.mem_cons.mp waiting with same | behind
      · exact same.symm
      · have before := (List.pairwise_cons.mp among_left).1 id behind
        rcases least next (by simp [← climb.split]) (climb.waiting next List.mem_cons_self)
          with same | after
        · exact same
        · omega
    refine ⟨later, by rw [here], fun rung member queued => ?_⟩
    have before := across rung member id waiting
    rcases least rung (by simp [← climb.split, member]) queued with same | after
    · rw [same] at before
      omega
    · omega

end

/-- Visiting one node makes none of the other rungs known that are left. -/
theorem unknown_visit (climb : problem.Climb rungs carries run done left) {label : N}
    (labelled : problem.graph.label? id = some label) {rung : Nat} (member : rung ∈ left)
    (other : rung ≠ id) (node : Nat) :
    ¬ carries (problem.factsOf (problem.visit run id rest).outputs node) rung := by
  rw [factsOf_visit labelled]
  split
  · rw [ladder.carries_output labelled run.outputs
      (climb.split ▸ List.mem_append_right done member)]
    rintro (same | ⟨source, _, carried⟩)
    · exact other same
    · exact climb.unknown rung member source carried
  · exact climb.unknown rung member node

private theorem own_visit (climb : problem.Climb rungs carries run done left) {label : N}
    (labelled : problem.graph.label? id = some label) {rung : Nat} (listed : rung ∈ rungs)
    (known : rung = id ∨ rung ∈ done) :
    carries (problem.factsOf (problem.visit run id rest).outputs rung) rung := by
  rw [factsOf_visit labelled]
  split
  next here => exact (ladder.carries_output labelled run.outputs listed).mpr (Or.inl here.symm)
  next other => exact climb.own rung (known.resolve_left (Ne.symm other))

omit [DecidableEq D] in
private theorem nodup : rungs.Nodup :=
  ladder.upwards.imp fun before same => by simp [same] at before

/-- The first visit of a rung. Up to then all rungs below have come to carry the one before it. -/
theorem climb_next {later : List Nat} (consistent : problem.Consistent run)
    (climb : problem.Climb rungs carries run done (id :: later))
    (unqueued : ∀ rung ∈ done, rung ∉ run.worklist.queued)
    (popped : run.worklist.pop? = some (id, rest)) :
    problem.Climb rungs carries (problem.visit run id rest) (done ++ [id]) later := by
  have listed : id ∈ rungs := by simp [← climb.split]
  obtain ⟨label, labelled⟩ := Graph.mem_iff_label?.mp (ladder.nodes id listed)
  have distinct := ladder.nodup
  rw [← climb.split, List.nodup_append, List.nodup_cons] at distinct
  obtain ⟨_, ⟨not_later, _⟩, apart⟩ := distinct
  have other_later : ∀ rung ∈ later, rung ≠ id := fun rung member same => not_later (same ▸ member)
  have other_done : ∀ rung ∈ done, rung ≠ id :=
    fun rung member => apart rung member id List.mem_cons_self
  constructor
  case split => simp [← climb.split]
  case waiting =>
    intro rung member
    have queued := climb.waiting rung (List.mem_cons_of_mem id member)
    exact ((queued_visit popped rung).1 queued).resolve_left (other_later rung member)
  case unknown =>
    intro rung member node
    exact ladder.unknown_visit climb labelled (List.mem_cons_of_mem id member)
      (other_later rung member) node
  case own =>
    intro rung member
    rw [List.mem_append, List.mem_singleton] at member
    refine ladder.own_visit climb labelled ?_ member.symm
    rcases member with below | rfl
    · simp [← climb.split, below]
    · exact listed
  case counted =>
    intro top last
    obtain rfl : id = top := by simpa using last
    -- The new rung is carried nowhere but at itself.
    have nowhere : problem.carriers carries (problem.visit run id rest).outputs id done = 0 := by
      apply carriers_eq_zero
      intro rung member
      rw [factsOf_visit labelled, if_neg (other_done rung member).symm]
      exact climb.unknown id List.mem_cons_self rung
    have enough : done.length.choose 2 + done.length ≤ run.visits.length := by
      cases last_done : done.getLast? with
      | none => simp [List.getLast?_eq_none_iff.mp last_done]
      | some before =>
        have counted := climb.counted before last_done
        rwa [carriers_eq_length (ladder.carried consistent climb unqueued last_done)] at counted
    have alone : problem.carriers carries (problem.visit run id rest).outputs id [id] ≤ 1 :=
      carriers_le_length
    rw [List.length_append, List.length_singleton, carriers_append, nowhere, triangle,
      visits_visit labelled, List.length_cons]
    omega

/-- A visit of a rung that was visited before, or of another node. -/
theorem climb_again (climb : problem.Climb rungs carries run done left) {label : N}
    (labelled : problem.graph.label? id = some label) (not_left : id ∉ left)
    (popped : run.worklist.pop? = some (id, rest)) :
    problem.Climb rungs carries (problem.visit run id rest) done left := by
  have other_left : ∀ rung ∈ left, rung ≠ id := fun rung member same => not_left (same ▸ member)
  constructor
  case split => exact climb.split
  case waiting =>
    intro rung member
    exact ((queued_visit popped rung).1 (climb.waiting rung member)).resolve_left
      (other_left rung member)
  case unknown =>
    intro rung member node
    exact ladder.unknown_visit climb labelled member (other_left rung member) node
  case own =>
    intro rung member
    exact ladder.own_visit climb labelled (climb.split ▸ List.mem_append_left left member)
      (Or.inr member)
  case counted =>
    intro top last
    have distinct := ladder.nodup
    rw [← climb.split, List.nodup_append] at distinct
    -- The visit may have added one carrier, and it is one more visit.
    have one_more : problem.carriers carries (problem.visit run id rest).outputs top done ≤
        problem.carriers carries run.outputs top done + 1 :=
          carriers_visit_le labelled rest top distinct.1
    have counted := climb.counted top last
    rw [visits_visit labelled, List.length_cons]
    omega

private theorem exists_climb (coherent : problem.graph.Coherent) (budget : Nat) :
    problem.Consistent (problem.runFrom budget problem.start) ∧
      ∃ done left, problem.Climb rungs carries (problem.runFrom budget problem.start)
        done left := by
  have kept : problem.Consistent (problem.runFrom budget problem.start) ∧
      problem.Orderly (problem.runFrom budget problem.start) ∧
      ∃ done left, problem.Climb rungs carries (problem.runFrom budget problem.start)
          done left := by
    apply runFrom_keeps fun run => problem.Consistent run ∧ problem.Orderly run ∧
      ∃ done left, problem.Climb rungs carries run done left
    · rintro run id rest ⟨consistent, orderly, done, left, climb⟩ popped
      refine ⟨consistent.visit coherent popped, orderly.visit coherent popped, ?_⟩
      obtain ⟨label, labelled⟩ := orderly.label_of_pop? popped
      -- The run is at the next rung, at one that it has visited before, or beside the ladder.
      by_cases waiting : id ∈ left
      · obtain ⟨later, rfl, unqueued⟩ :=
          ladder.next_of_mem_left coherent orderly climb popped waiting
        exact ⟨done ++ [id], later, ladder.climb_next consistent climb unqueued popped⟩
      · exact ⟨done, left, ladder.climb_again climb labelled waiting popped⟩
    · exact ⟨problem.consistent_start, problem.orderly_start, [], rungs, ladder.climb_start⟩
  exact ⟨kept.1, kept.2.2⟩

/-- A ladder takes more visits than the sum of the places of its rungs. -/
theorem solve_eq_error (coherent : problem.graph.Coherent) {nodeLimit fuel : Nat}
    (few : problem.budget nodeLimit fuel < (rungs.length + 1).choose 2) :
    problem.solve nodeLimit fuel = .error { processed := problem.budget nodeLimit fuel } := by
  apply solve_eq_error_of_queued coherent
  rw [Bool.eq_false_iff]
  intro settled
  obtain ⟨consistent, done, left, climb⟩ :=
    ladder.exists_climb coherent (problem.budget nodeLimit fuel)
  have unqueued := Worklist.not_mem_of_isEmpty settled
  -- When nothing is queued, no rung is left, and all rungs carry the last one.
  obtain rfl : left = [] := List.eq_nil_iff_forall_not_mem.mpr fun rung member =>
    unqueued rung (climb.waiting rung member)
  obtain rfl : done = rungs := by simpa using climb.split
  have permitted := problem.length_visits_runFrom_le (problem.budget nodeLimit fuel) problem.start
  cases last : done.getLast? with
  | none => simp [List.getLast?_eq_none_iff.mp last] at few
  | some top =>
    have counted := climb.counted top last
    rw [carriers_eq_length (ladder.carried consistent climb (fun rung _ => unqueued rung)
      last)] at counted
    have no_visit : problem.start.visits.length = 0 := rfl
    rw [triangle] at few
    omega

end Ladder

end Problem

end FlowIR
