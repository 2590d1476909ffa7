import FlowIR.Link.State
import FlowIR.Proofs.Failure

/-!
# Reasoning about linking

What an action of linking establishes when it succeeds, and how this follows from what its parts
establish. Nothing is said there about an action that stops with an error. That an action succeeds
is a statement of its own, in which what its first parts establish is what the later ones need to
succeed.
-/
namespace FlowIR.Link

variable {σ α β : Type}

/-- If the action succeeds in this state, then its result and the state after it are as stated. -/
def Ensures (action : StateT σ (Except LinkError) α) (state : σ) (post : α → σ → Prop) : Prop :=
  ∀ result after, action.run state = .ok (result, after) → post result after

variable {state : σ} {post : β → σ → Prop}

theorem Ensures.mono {action : StateT σ (Except LinkError) α} {weak strong : α → σ → Prop}
    (ensures : Ensures action state strong)
    (implies : ∀ result after, strong result after → weak result after) :
    Ensures action state weak :=
  fun result after succeeds => implies result after (ensures result after succeeds)

theorem Ensures.and {action : StateT σ (Except LinkError) α} {first second : α → σ → Prop}
    (ensures : Ensures action state first) (also_ensures : Ensures action state second) :
    Ensures action state fun result after => first result after ∧ second result after :=
  fun result after succeeds => ⟨ensures result after succeeds, also_ensures result after succeeds⟩

theorem Ensures.exists_after {action : StateT σ (Except LinkError) β} {result : β}
    (ensures : Ensures action state post) (succeeds : action.run' state = .ok result) :
    ∃ after, post result after := by
  cases outcome : action.run state with
  | error error =>
    rw [StateT.run'_eq, outcome] at succeeds
    cases succeeds
  | ok pair =>
    rw [StateT.run'_eq, outcome] at succeeds
    obtain rfl := Except.ok.inj succeeds
    exact ⟨pair.2, ensures pair.1 pair.2 outcome⟩

/-! ### Single actions -/

theorem ensures_pure {result : β} (holds : post result state) :
    Ensures (pure result) state post := by
  rintro _ _ ⟨⟩
  exact holds

theorem ensures_throw (error : LinkError) : Ensures (throw error) state post := by
  rintro _ _ ⟨⟩

theorem ensures_get {post : σ → σ → Prop} (holds : post state state) :
    Ensures get state post := by
  rintro _ _ ⟨⟩
  exact holds

theorem ensures_modify {post : Unit → σ → Prop} {change : σ → σ}
    (holds : post () (change state)) : Ensures (modify change) state post := by
  rintro _ _ ⟨⟩
  exact holds

theorem ensures_modifyGet {change : σ → β × σ}
    (holds : post (change state).1 (change state).2) : Ensures (modifyGet change) state post := by
  rintro _ _ succeeds
  obtain ⟨rfl, rfl⟩ := Prod.mk.inj (Except.ok.inj succeeds)
  exact holds

/-- What does not touch the state establishes what follows from its success. -/
theorem ensures_lift {computation : Except LinkError β}
    (holds : ∀ result, computation = .ok result → post result state) :
    Ensures (liftM computation) state post := by
  cases computation with
  | error error => rintro _ _ ⟨⟩
  | ok result =>
    rintro _ _ ⟨⟩
    exact holds result rfl

/-! ### Sequences of actions -/

theorem ensures_bind {first : StateT σ (Except LinkError) α}
    {next : α → StateT σ (Except LinkError) β}
    (ensures : Ensures first state fun result after => Ensures (next result) after post) :
    Ensures (first >>= next) state post := by
  intro result after succeeds
  rw [StateT.run_bind, bind_eq_ok_iff] at succeeds
  obtain ⟨⟨value, between⟩, first_succeeds, next_succeeds⟩ := succeeds
  exact ensures value between first_succeeds result after next_succeeds

theorem ensures_map {action : StateT σ (Except LinkError) α} {change : α → β}
    (ensures : Ensures action state fun result after => post (change result) after) :
    Ensures (change <$> action) state post := by
  rw [map_eq_pure_bind]
  exact ensures_bind (ensures.mono fun _ _ holds => ensures_pure holds)

theorem ensures_discard {action : StateT σ (Except LinkError) α} {post : Unit → σ → Prop}
    (ensures : Ensures action state fun _ after => post () after) :
    Ensures (discard action) state post :=
  ensures_map ensures

/-- The invariant of a loop speaks of the elements that are done. -/
theorem ensures_forM (invariant : List α → σ → Prop) {body : α → StateT σ (Except LinkError) Unit}
    (elements : List α)
    (step : ∀ done element, element ∈ elements → ∀ state, invariant done state →
      Ensures (body element) state fun _ after => invariant (done ++ [element]) after)
    (start : invariant [] state) :
    Ensures (elements.forM body) state fun _ after => invariant elements after := by
  suffices loop : ∀ done state, invariant done state →
      Ensures (elements.forM body) state fun _ after => invariant (done ++ elements) after from
    loop [] state start
  clear start
  induction elements with
  | nil =>
    intro done state holds
    rw [List.append_nil]
    exact ensures_pure holds
  | cons element rest ih =>
    intro done state holds
    rw [List.append_cons]
    apply ensures_bind
    refine (step done element List.mem_cons_self state holds).mono fun _ after holds => ?_
    exact ih (fun done other member => step done other (List.mem_cons_of_mem element member))
      (done ++ [element]) after holds

/-- The same where the results of the loop are collected. -/
theorem ensures_mapM (invariant : List α → List β → σ → Prop)
    {body : α → StateT σ (Except LinkError) β} (elements : List α)
    (step : ∀ done results element, element ∈ elements → ∀ state, invariant done results state →
      Ensures (body element) state fun result after =>
        invariant (done ++ [element]) (results ++ [result]) after)
    (start : invariant [] [] state) :
    Ensures (elements.mapM body) state fun results after => invariant elements results after := by
  -- The loop may be entered with anything done before, which is what the recursion needs.
  suffices loop : ∀ done results state, invariant done results state →
      Ensures (elements.mapM body) state fun later after =>
        invariant (done ++ elements) (results ++ later) after from
    loop [] [] state start
  clear start
  induction elements with
  | nil =>
    intro done results state holds
    rw [List.mapM_nil]
    refine ensures_pure ?_
    rw [List.append_nil, List.append_nil]
    exact holds
  | cons element rest ih =>
    intro done results state holds
    rw [List.mapM_cons]
    apply ensures_bind
    refine (step done results element List.mem_cons_self state holds).mono fun result after holds =>
      ?_
    apply ensures_bind
    refine (ih (fun done results other member =>
      step done results other (List.mem_cons_of_mem element member)) (done ++ [element])
      (results ++ [result]) after holds).mono fun later after holds => ensures_pure ?_
    rw [List.append_cons, List.append_cons results]
    exact holds

/-! ### Success -/

def Succeeds (action : StateT σ (Except LinkError) α) (state : σ) : Prop :=
  ∃ result after, action.run state = .ok (result, after)

theorem succeeds_pure (result : α) : Succeeds (pure result) state := ⟨result, state, rfl⟩

theorem succeeds_get : Succeeds get state := ⟨state, state, rfl⟩

theorem succeeds_modify (change : σ → σ) : Succeeds (modify change) state := ⟨(), change state, rfl⟩

theorem succeeds_lift {computation : Except LinkError α} {result : α}
    (computed : computation = .ok result) : Succeeds (liftM computation) state := by
  subst computed
  exact ⟨result, state, rfl⟩

/-- What the first action establishes has to be enough for the second one. -/
theorem succeeds_bind {first : StateT σ (Except LinkError) α}
    {next : α → StateT σ (Except LinkError) β} (starts : Succeeds first state)
    (continues : Ensures first state fun result after => Succeeds (next result) after) :
    Succeeds (first >>= next) state := by
  obtain ⟨value, between, first_succeeds⟩ := starts
  obtain ⟨result, after, next_succeeds⟩ := continues value between first_succeeds
  refine ⟨result, after, ?_⟩
  rw [StateT.run_bind, bind_eq_ok_iff]
  exact ⟨(value, between), first_succeeds, next_succeeds⟩

theorem succeeds_map {action : StateT σ (Except LinkError) α} {change : α → β}
    (succeeds : Succeeds action state) : Succeeds (change <$> action) state := by
  rw [map_eq_pure_bind]
  exact succeeds_bind succeeds fun _ _ _ => succeeds_pure _

/-- A loop succeeds if its steps keep an invariant under which each of them does. -/
theorem succeeds_forM (invariant : σ → Prop) {body : α → StateT σ (Except LinkError) Unit}
    (elements : List α)
    (keeps : ∀ element ∈ elements, ∀ state, invariant state →
      Ensures (body element) state fun _ after => invariant after)
    (each : ∀ element ∈ elements, ∀ state, invariant state → Succeeds (body element) state)
    (start : invariant state) : Succeeds (elements.forM body) state := by
  induction elements generalizing state with
  | nil => exact succeeds_pure ()
  | cons element rest ih =>
    apply succeeds_bind (each element List.mem_cons_self state start)
    refine (keeps element List.mem_cons_self state start).mono fun _ after holds => ?_
    exact ih (fun other member => keeps other (List.mem_cons_of_mem element member))
      (fun other member => each other (List.mem_cons_of_mem element member)) holds

theorem succeeds_mapM (invariant : σ → Prop) {body : α → StateT σ (Except LinkError) β}
    (elements : List α)
    (keeps : ∀ element ∈ elements, ∀ state, invariant state →
      Ensures (body element) state fun _ after => invariant after)
    (each : ∀ element ∈ elements, ∀ state, invariant state → Succeeds (body element) state)
    (start : invariant state) : Succeeds (elements.mapM body) state := by
  induction elements generalizing state with
  | nil => exact succeeds_pure []
  | cons element rest ih =>
    rw [List.mapM_cons]
    apply succeeds_bind (each element List.mem_cons_self state start)
    refine (keeps element List.mem_cons_self state start).mono fun result after holds => ?_
    have rest_succeeds := ih (fun other member => keeps other (List.mem_cons_of_mem element member))
      (fun other member => each other (List.mem_cons_of_mem element member)) holds
    exact succeeds_bind rest_succeeds fun _ _ _ => succeeds_pure _

end FlowIR.Link
