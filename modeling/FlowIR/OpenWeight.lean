/-!
# Open weight

A search over a finite universe ends because every step closes one member for good. The open weight
is the sum of the weights of the members that are still open, and closing a member takes its weight
off.
-/
namespace FlowIR

variable {α : Type}

def openWeight (weight : α → Nat) (isOpen : α → Bool) (members : List α) : Nat :=
  (members.filter isOpen).foldr (fun member total => weight member + total) 0

private theorem openWeight_le (weight : α → Nat) (before after : α → Bool) (members : List α)
    (shrinks : ∀ x, after x → before x) :
    openWeight weight after members ≤ openWeight weight before members := by
  induction members with
  | nil => simp [openWeight]
  | cons first rest ih =>
    have first_shrinks := shrinks first
    simp only [openWeight, List.filter_cons] at *
    by_cases kept : after first = true
    · simp [kept, first_shrinks kept, ih]
    · by_cases was_open : before first = true <;> simp [kept, was_open] <;> omega

theorem openWeight_add_le (weight : α → Nat) (before after : α → Bool) (members : List α)
    (shrinks : ∀ x, after x → before x) (member : α) (listed : member ∈ members)
    (was_open : before member) (is_closed : ¬ after member) :
    openWeight weight after members + weight member ≤ openWeight weight before members := by
  induction members with
  | nil => simp at listed
  | cons first rest ih =>
    have rest_le := openWeight_le weight before after rest shrinks
    have first_shrinks := shrinks first
    simp only [openWeight, List.filter_cons] at *
    rcases List.mem_cons.mp listed with rfl | in_rest
    · simp_all
      omega
    · have step := ih in_rest
      by_cases kept : after first = true
      · simp [kept, first_shrinks kept]
        omega
      · by_cases first_open : before first = true <;> simp [kept, first_open] <;> omega

end FlowIR
