import FlowIR.Dominance.Forest
import Mathlib.Logic.Relation
import Mathlib.Tactic.Common

/-!
# Climbing a map of parents

While a dominator forest is built, every number leads to a greater one until the virtual root is
reached. In such a map the two fingers of `commonAncestor` always meet, and where they meet is the
lowest number that both of them lead to: what it leads to is exactly what both lead to.
-/
namespace FlowIR.DominatorForest

abbrev Parents := Std.ExtTreeMap Nat Nat

/-- Going from parent to parent any number of times. -/
def Climbs (parents : Parents) : Nat → Nat → Prop :=
  Relation.ReflTransGen fun below above => parents[below]? = some above

structure Rooted (root : Nat) (parents : Parents) : Prop where
  top : parents[root]? = some root
  ascends : ∀ {below above : Nat}, parents[below]? = some above → below ≠ root → below < above
  bounded : ∀ {below above : Nat}, parents[below]? = some above → above ≤ root
  closed : ∀ {below above : Nat}, parents[below]? = some above → above ∈ parents

theorem climbs_refl (parents : Parents) (number : Nat) : Climbs parents number number :=
  Relation.ReflTransGen.refl

theorem Climbs.cases_first {parents : Parents} {below above parent : Nat}
    (climbs : Climbs parents below above) (different : below ≠ above)
    (found : parents[below]? = some parent) : Climbs parents parent above := by
  rcases Relation.ReflTransGen.cases_head climbs with same | ⟨next, step, rest⟩
  · exact absurd same different
  · obtain rfl : next = parent := Option.some.inj (step.symm.trans found)
    exact rest

theorem mem_of_parent {parents : Parents} {below above : Nat}
    (found : parents[below]? = some above) :
    below ∈ parents := by
  rw [Std.ExtTreeMap.mem_iff_isSome_getElem?, found]
  rfl

theorem exists_parent {parents : Parents} {number : Nat} (placed : number ∈ parents) :
    ∃ parent, parents[number]? = some parent :=
  Option.isSome_iff_exists.mp (Std.ExtTreeMap.mem_iff_isSome_getElem?.mp placed)

namespace Rooted

variable {root : Nat} {parents : Parents}

theorem root_mem (rooted : Rooted root parents) : root ∈ parents := mem_of_parent rooted.top

private theorem step_le (rooted : Rooted root parents) {below above : Nat}
    (found : parents[below]? = some above) : below ≤ above := by
  by_cases at_root : below = root
  · subst at_root
    rw [rooted.top] at found
    exact Nat.le_of_eq (Option.some.inj found)
  · exact Nat.le_of_lt (rooted.ascends found at_root)

theorem climbs_le (rooted : Rooted root parents) {below above : Nat}
    (climbs : Climbs parents below above) : below ≤ above := by
  induction climbs with
  | refl => exact Nat.le_refl below
  | tail _ step ih => exact Nat.le_trans ih (rooted.step_le step)

theorem climbs_mem (rooted : Rooted root parents) {below above : Nat} (placed : below ∈ parents)
    (climbs : Climbs parents below above) : above ∈ parents := by
  induction climbs with
  | refl => exact placed
  | tail _ step _ => exact rooted.closed step

theorem le_root (rooted : Rooted root parents) {number : Nat} (placed : number ∈ parents) :
    number ≤ root := by
  obtain ⟨parent, found⟩ := exists_parent placed
  exact Nat.le_trans (rooted.step_le found) (rooted.bounded found)

/-- The root leads nowhere else. -/
theorem eq_root_of_climbs (rooted : Rooted root parents) {number : Nat}
    (climbs : Climbs parents root number) : number = root :=
  Nat.le_antisymm (rooted.le_root (rooted.climbs_mem rooted.root_mem climbs))
    (rooted.climbs_le climbs)

theorem climbs_root (rooted : Rooted root parents) {number : Nat} (placed : number ∈ parents) :
    Climbs parents number root := by
  obtain ⟨parent, found⟩ := exists_parent placed
  by_cases at_root : number = root
  · subst at_root
    exact climbs_refl parents number
  · -- The parent is closer to the root, which is what the recursion counts.
    have above := rooted.ascends found at_root
    have below_root := rooted.bounded found
    exact .head found (rooted.climbs_root (rooted.closed found))
termination_by root - number

/-! ### Common ancestors -/

/-- A placed number below another one has a parent to which its finger may go. -/
theorem parent_in_range (rooted : Rooted root parents) {lower upper parent : Nat}
    (upper_placed : upper ∈ parents) (less : lower < upper)
    (found : parents[lower]? = some parent) :
    lower < parent ∧ parent ≤ root := by
  have upper_le := rooted.le_root upper_placed
  exact ⟨rooted.ascends found (by omega), rooted.bounded found⟩

/-- One step of the lower finger changes nothing about what both fingers lead to. -/
theorem climbs_parent_iff (rooted : Rooted root parents) {lower upper parent above : Nat}
    (less : lower < upper) (found : parents[lower]? = some parent)
    (to_above : Climbs parents upper above) :
    Climbs parents parent above ↔ Climbs parents lower above := by
  constructor
  · exact fun climbs => .head found climbs
  · intro climbs
    -- Where the upper finger leads is above the lower finger, so the lower one takes a step.
    have upper_le := rooted.climbs_le to_above
    exact climbs.cases_first (by omega) found

theorem commonAncestor_climbs_iff (rooted : Rooted root parents) (a b : Nat)
    (a_placed : a ∈ parents) (b_placed : b ∈ parents) (above : Nat) :
    Climbs parents (commonAncestor parents root a b) above ↔
      Climbs parents a above ∧ Climbs parents b above := by
  -- The fingers have met, or the lower one goes to its parent. It has one, and it is in range.
  fun_induction commonAncestor parents root a b with
  | case1 => rw [and_self]
  | case2 a b _ _ absent => simp [Std.ExtTreeMap.mem_iff_isSome_getElem?, absent] at a_placed
  | case3 a b _ less parent found _ ih =>
    rw [ih (rooted.closed found) b_placed]
    exact and_congr_left (rooted.climbs_parent_iff less found)
  | case4 a b _ less parent found stuck =>
    exact absurd (rooted.parent_in_range b_placed less found) stuck
  | case5 a b _ _ absent => simp [Std.ExtTreeMap.mem_iff_isSome_getElem?, absent] at b_placed
  | case6 a b different not_less parent found _ ih =>
    rw [ih a_placed (rooted.closed found)]
    exact and_congr_right (rooted.climbs_parent_iff (by omega) found)
  | case7 a b different not_less parent found stuck =>
    exact absurd (rooted.parent_in_range a_placed (by omega) found) stuck

theorem commonAncestor_mem (rooted : Rooted root parents) {a b : Nat} (a_placed : a ∈ parents)
    (b_placed : b ∈ parents) : commonAncestor parents root a b ∈ parents := by
  have climbs := (rooted.commonAncestor_climbs_iff a b a_placed b_placed _).mp (climbs_refl _ _)
  exact rooted.climbs_mem a_placed climbs.1

/-- What the common ancestor of several numbers leads to is what all of them lead to. -/
theorem foldl_commonAncestor_climbs_iff (rooted : Rooted root parents) (first : Nat)
    (rest : List Nat) (placed : ∀ number ∈ first :: rest, number ∈ parents) (above : Nat) :
    Climbs parents (rest.foldl (commonAncestor parents root) first) above ↔
      ∀ number ∈ first :: rest, Climbs parents number above := by
  induction rest generalizing first with
  | nil => simp
  | cons second rest ih =>
    have first_placed := placed first (by simp)
    have second_placed := placed second (by simp)
    have joined_placed := rooted.commonAncestor_mem first_placed second_placed
    rw [List.foldl_cons, ih]
    · simp [rooted.commonAncestor_climbs_iff first second first_placed second_placed, and_assoc]
    · intro number member
      rcases List.mem_cons.mp member with rfl | later
      · exact joined_placed
      · exact placed number (by simp [later])

end Rooted

/-! ### Changing one parent -/

theorem getElem?_insert_of_ne {parents : Parents} {number parent other : Nat}
    (different : number ≠ other) : (parents.insert number parent)[other]? = parents[other]? := by
  simp [Std.ExtTreeMap.getElem?_insert, different]

theorem getElem?_insert_cases {parents : Parents} {number parent below above : Nat}
    (found : (parents.insert number parent)[below]? = some above) :
    number = below ∧ parent = above ∨ number ≠ below ∧ parents[below]? = some above := by
  by_cases here : number = below
  · subst here
    exact Or.inl ⟨rfl, by simpa using found⟩
  · exact Or.inr ⟨here, (getElem?_insert_of_ne here).symm.trans found⟩

theorem Rooted.insert {root number parent : Nat} {parents : Parents}
    (rooted : Rooted root parents) (bound : number < root) (greater : number < parent)
    (placed : parent ∈ parents) : Rooted root (parents.insert number parent) where
  top := by
    rw [getElem?_insert_of_ne (by omega)]
    exact rooted.top
  ascends := by
    intro below above found inner
    rcases getElem?_insert_cases found with ⟨rfl, rfl⟩ | ⟨_, old⟩
    · exact greater
    · exact rooted.ascends old inner
  bounded := by
    intro below above found
    rcases getElem?_insert_cases found with ⟨rfl, rfl⟩ | ⟨_, old⟩
    · exact rooted.le_root placed
    · exact rooted.bounded old
  closed := by
    intro below above found
    rcases getElem?_insert_cases found with ⟨rfl, rfl⟩ | ⟨_, old⟩
    · simp [placed]
    · simp [rooted.closed old]

/-- After a change, the old way is still there or it goes through the number that was changed. -/
theorem Climbs.insert_cases {parents : Parents} {below above : Nat}
    (climbs : Climbs parents below above) (number parent : Nat) :
    Climbs (parents.insert number parent) below above ∨
      Climbs parents below number ∧ Climbs (parents.insert number parent) below number ∧
        Climbs parents number above := by
  induction climbs using Relation.ReflTransGen.head_induction_on with
  | refl => exact Or.inl (climbs_refl _ _)
  | @head below next step rest ih =>
    by_cases here : number = below
    · subst here
      exact Or.inr ⟨climbs_refl _ _, climbs_refl _ _, .head step rest⟩
    · -- This step is untouched, so only the rest of the way can meet the change.
      have kept : (parents.insert number parent)[below]? = some next :=
        (getElem?_insert_of_ne here).trans step
      rcases ih with climbs | ⟨before, after, onwards⟩
      · exact Or.inl (.head kept climbs)
      · exact Or.inr ⟨.head step before, .head kept after, onwards⟩

/-- Two maps that agree from some number on lead from there to the same numbers. -/
theorem Climbs.congr {root bound : Nat} {before after : Parents} (rooted : Rooted root before)
    (agree : ∀ number, bound ≤ number → after[number]? = before[number]?) {below above : Nat}
    (from_bound : bound ≤ below) (climbs : Climbs before below above) :
    Climbs after below above := by
  induction climbs with
  | refl => exact climbs_refl after below
  | @tail middle next climbs step ih =>
    -- Climbing only goes up, so the last step starts at or above the bound as well.
    have middle_le := rooted.climbs_le climbs
    exact ih.tail ((agree middle (by omega)).trans step)

end FlowIR.DominatorForest
