import Mathlib.Data.List.Forall2

/-!
# Computations that may fail

When a computation succeeds, and with which errors it may fail, follows from the same facts about
its parts. What a part gave when it succeeded may be used for the parts after it.
-/
namespace FlowIR

variable {ε δ α β : Type}

/-! ### Success -/

theorem bind_eq_ok_iff {first : Except ε α} {next : α → Except ε β} {result : β} :
    (first >>= next) = .ok result ↔ ∃ value, first = .ok value ∧ next value = .ok result := by
  cases first with
  | error error => simp [bind, Except.bind]
  | ok value => simp [bind, Except.bind]

theorem map_eq_ok_iff {computed : Except ε α} {f : α → β} {result : β} :
    computed.map f = .ok result ↔ ∃ value, computed = .ok value ∧ f value = result := by
  cases computed <;> simp [Except.map]

theorem eq_ok_of_mapError {computation : Except ε α} {f : ε → δ} {result : α}
    (succeeded : computation.mapError f = .ok result) : computation = .ok result := by
  cases computation with
  | error error => cases succeeded
  | ok other => exact congrArg Except.ok (Except.ok.inj succeeded)

theorem eq_error_of_map {computation : Except ε α} {f : α → β} {error : ε}
    (failed : computation.map f = .error error) : computation = .error error := by
  cases computation with
  | error other => exact congrArg Except.error (Except.error.inj failed)
  | ok result => cases failed

theorem toOption_eq_some_iff {computed : Except ε α} {result : α} :
    computed.toOption = some result ↔ computed = .ok result := by
  cases computed <;> simp [Except.toOption]

/-- What was computed out of a result shows that there is one. -/
theorem exists_ok_of_toOption_map {computed : Except ε α} {f : α → β} {value : β}
    (given : computed.toOption.map f = some value) :
    ∃ result, computed = .ok result ∧ f result = value := by
  obtain ⟨result, found, same⟩ := Option.map_eq_some_iff.mp given
  exact ⟨result, toOption_eq_some_iff.mp found, same⟩

theorem exists_ok_of_toOption_bind {computed : Except ε α} {f : α → Option β} {value : β}
    (given : computed.toOption.bind f = some value) :
    ∃ result, computed = .ok result ∧ f result = some value := by
  obtain ⟨result, found, continued⟩ := Option.bind_eq_some_iff.mp given
  exact ⟨result, toOption_eq_some_iff.mp found, continued⟩

theorem forall₂_of_mapM_eq_ok {body : α → Except ε β} {elements : List α}
    {results : List β} (succeeds : elements.mapM body = .ok results) :
    List.Forall₂ (fun element result => body element = .ok result) elements results := by
  induction elements generalizing results with
  | nil =>
    obtain rfl : [] = results := by simpa [pure, Except.pure] using succeeds
    exact .nil
  | cons first rest ih =>
    simp only [List.mapM_cons, bind_eq_ok_iff] at succeeds
    obtain ⟨result, first_succeeds, others, rest_succeed, same⟩ := succeeds
    obtain rfl := Except.ok.inj same
    exact .cons first_succeeds (ih rest_succeed)

/-- Every result of a loop that succeeded is that of one of its elements. -/
theorem exists_of_mem_mapM {body : α → Except ε β} {elements : List α} {results : List β}
    (succeeds : elements.mapM body = .ok results) {result : β} (member : result ∈ results) :
    ∃ element ∈ elements, body element = .ok result := by
  have each := forall₂_of_mapM_eq_ok succeeds
  clear succeeds
  induction each with
  | nil => cases member
  | cons first_succeeds _ ih =>
    rcases List.mem_cons.mp member with rfl | later
    · exact ⟨_, List.mem_cons_self, first_succeeds⟩
    · obtain ⟨element, listed, computed⟩ := ih later
      exact ⟨element, List.mem_cons_of_mem _ listed, computed⟩

theorem mapM_succeeds {body : α → Except ε β} {elements : List α}
    (each : ∀ element ∈ elements, ∃ result, body element = .ok result) :
    ∃ results, elements.mapM body = .ok results := by
  induction elements with
  | nil => exact ⟨[], rfl⟩
  | cons first rest ih =>
    obtain ⟨result, first_succeeds⟩ := each first List.mem_cons_self
    obtain ⟨others, rest_succeed⟩ :=
      ih fun element member => each element (List.mem_cons_of_mem _ member)
    refine ⟨result :: others, ?_⟩
    rw [List.mapM_cons, first_succeeds, rest_succeed]
    rfl

/-! ### Errors -/

variable {allowed : ε → Prop}

/-- The computation succeeds, or it fails with an allowed error. -/
def FailsOnly (allowed : ε → Prop) : Except ε α → Prop
  | .ok _ => True
  | .error error => allowed error

theorem FailsOnly.mono {stronger : ε → Prop} {computation : Except ε α}
    (fails : FailsOnly stronger computation) (implied : ∀ error, stronger error → allowed error) :
    FailsOnly allowed computation := by
  cases computation with
  | error error => exact implied error fails
  | ok result => trivial

theorem FailsOnly.bind {computation : Except ε α} {next : α → Except ε β}
    (starts : FailsOnly allowed computation)
    (continues : ∀ result, computation = .ok result → FailsOnly allowed (next result)) :
    FailsOnly allowed (computation >>= next) := by
  cases computation with
  | error error => exact starts
  | ok result => exact continues result rfl

theorem FailsOnly.map {computation : Except ε α} {f : α → β}
    (fails : FailsOnly allowed computation) :
    FailsOnly allowed (computation.map f) := by
  cases computation with
  | error error => exact fails
  | ok result => trivial

theorem failsOnly_mapError {allowed : δ → Prop} {computation : Except ε α} {f : ε → δ}
    (fails : FailsOnly (fun error => allowed (f error)) computation) :
    FailsOnly allowed (computation.mapError f) := by
  cases computation with
  | error error => exact fails
  | ok result => trivial

theorem failsOnly_mapM {body : α → Except ε β} {elements : List α}
    (each : ∀ element ∈ elements, FailsOnly allowed (body element)) :
    FailsOnly allowed (elements.mapM body) := by
  induction elements with
  | nil => trivial
  | cons first rest ih =>
    rw [List.mapM_cons]
    apply (each first List.mem_cons_self).bind
    intro result _
    apply (ih fun element member => each element (List.mem_cons_of_mem first member)).bind
    exact fun _ _ => trivial

theorem failsOnly_foldlM {step : β → α → Except ε β} {elements : List α} {start : β}
    (each : ∀ current element, FailsOnly allowed (step current element)) :
    FailsOnly allowed (elements.foldlM step start) := by
  induction elements generalizing start with
  | nil => trivial
  | cons first rest ih =>
    rw [List.foldlM_cons]
    exact (each start first).bind fun _ _ => ih

end FlowIR
