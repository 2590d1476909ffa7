import FlowIR.Proofs.Link.Keyless

/-!
# Renaming the keys of a table

The key of a record serves to find it and for nothing else. To say so, two runs of linking are
compared, one with the keys of a table and one with the same keys renamed. Their states are equal up
to the keys that have numbers, their results are equal, and if one of them stops, the other one
stops at the same record.
-/
namespace FlowIR

namespace Table

/-! ### Tables with other keys -/

section

variable (newKey : Key → Key)

def InstructionFields.rename (fields : InstructionFields) : InstructionFields :=
  { fields with operands := fields.operands.map newKey }

def ExprFields.rename (fields : ExprFields) : ExprFields :=
  { fields with instruction := fields.instruction.rename newKey }

def ConstantFields.rename (fields : ConstantFields) : ConstantFields :=
  { fields with operands := fields.operands.map newKey, expr := fields.expr.map (·.rename newKey) }

def BlockFields.rename (fields : BlockFields) : BlockFields :=
  { instructions := fields.instructions.map newKey }

def FunctionFields.rename (fields : FunctionFields) : FunctionFields :=
  { fields with arguments := fields.arguments.map newKey, blocks := fields.blocks.map newKey }

def Payload.rename : Payload → Payload
  | .none => .none
  | .instruction fields => .instruction (fields.rename newKey)
  | .constant fields => .constant (fields.rename newKey)
  | .argument fields => .argument fields
  | .block fields => .block (fields.rename newKey)
  | .global fields => .global { fields with initializer := fields.initializer.map newKey }
  | .globalAlias fields => .globalAlias { fields with aliasee := newKey fields.aliasee }
  | .function fields => .function (fields.rename newKey)
  | .inlineAsm fields => .inlineAsm fields

def ValueRecord.rename (record : ValueRecord) : ValueRecord :=
  { record with key := newKey record.key, payload := record.payload.rename newKey }

/-- The keys of values are renamed. Those of types are not. -/
def rename (table : Table) : Table :=
  { table with
    values := table.values.map (·.rename newKey)
    globals := table.globals.map newKey
    aliases := table.aliases.map newKey
    functions := table.functions.map newKey }

end

/-! ### All keys of a table -/

/-- The keys in the fields, whether the tag of their record makes them count or not. -/
def Payload.keys : Payload → List Key
  | .instruction fields => fields.operands
  | .constant fields => fields.operands ++ (fields.expr.map (·.instruction.operands)).getD []
  | .block fields => fields.instructions
  | .global fields => fields.initializer.toList
  | .globalAlias fields => [fields.aliasee]
  | .function fields => fields.arguments ++ fields.blocks
  | .none | .argument _ | .inlineAsm _ => []

def ValueRecord.keys (record : ValueRecord) : List Key := record.key :: record.payload.keys

/-- The keys that a table mentions, as those of records or anywhere else. -/
def keys (table : Table) : List Key :=
  table.globals ++ table.aliases ++ table.functions ++ table.values.flatMap ValueRecord.keys

private theorem Payload.keys_rename (newKey : Key → Key) (payload : Payload) :
    (payload.rename newKey).keys = payload.keys.map newKey := by
  cases payload with
  | constant fields =>
    cases given : fields.expr <;>
      simp [rename, keys, ConstantFields.rename, ExprFields.rename, InstructionFields.rename, given]
  | global fields => cases given : fields.initializer <;> simp [rename, keys, given]
  | function fields => simp [rename, keys, FunctionFields.rename]
  | none | argument _ | inlineAsm _ | instruction _ | block _ | globalAlias _ => rfl

private theorem ValueRecord.keys_rename (newKey : Key → Key) (record : ValueRecord) :
    (record.rename newKey).keys = record.keys.map newKey := by
  simp [rename, keys, Payload.keys_rename]

theorem keys_rename (newKey : Key → Key) (table : Table) :
    (table.rename newKey).keys = table.keys.map newKey := by
  simp [rename, keys, List.map_flatMap, List.flatMap_map, ValueRecord.keys_rename]

end Table

open Table (Key)

/-- The same error about a record with another key. -/
def LinkError.rename (newKey : Key → Key) : LinkError → LinkError
  | knotTyingFailure key => knotTyingFailure (newKey key)
  | directGlobalReference key tag => directGlobalReference (newKey key) tag
  | duplicateKey key => duplicateKey (newKey key)
  | unknownValue key => unknownValue (newKey key)
  | unexpectedPayload key tag => unexpectedPayload (newKey key) tag
  | constantCycle key => constantCycle (newKey key)
  | error => error

theorem LinkError.rename_of_keyless {error : LinkError} (keyless : error.Keyless)
    (newKey : Key → Key) :
    error.rename newKey = error := by
  cases error <;> first | rfl | exact keyless.elim

namespace Link

variable {newKey : Key → Key} {known : List Key} {α β γ : Type}

/-! ### Two runs -/

/-- The states are equal, up to the names of the known keys. -/
structure State.Agrees (newKey : Key → Key) (known : List Key) (state renamed : State) : Prop where
  headers : renamed.headers = state.headers
  contents : renamed.contents = state.contents
  owners : renamed.owners = state.owners
  ids : ∀ key ∈ known, renamed.ids[newKey key]? = state.ids[key]?

theorem State.Agrees.mem_iff {state renamed : State} (agree : state.Agrees newKey known renamed)
    {key : Key} (member : key ∈ known) : newKey key ∈ renamed.ids ↔ key ∈ state.ids := by
  rw [Std.ExtTreeMap.mem_iff_isSome_getElem?, Std.ExtTreeMap.mem_iff_isSome_getElem?,
    agree.ids key member]

/-- Both runs have the same result and their states agree, or both have stopped at the same
record. -/
def Corresponds (newKey : Key → Key) (known : List Key) :
    Except LinkError (α × State) → Except LinkError (α × State) → Prop
  | .ok (result, after), .ok (same, renamed) => same = result ∧ after.Agrees newKey known renamed
  | .error error, .error same => same = error.rename newKey
  | _, _ => False

/-- Run in states that agree, the actions do the same. -/
def Follows (newKey : Key → Key) (known : List Key) (action renamed : LinkM α) : Prop :=
  ∀ state other, state.Agrees newKey known other →
    Corresponds newKey known (action.run state) (renamed.run other)

/-- What a computation outside of the state gives with other keys, when this is what becomes of a
result. -/
def renamedOutcome (newKey : Key → Key) (rename : α → β) : Except LinkError α → Except LinkError β
  | .ok result => .ok (rename result)
  | .error error => .error (error.rename newKey)

/-! ### Rules -/

theorem follows_pure (result : α) : Follows newKey known (pure result : LinkM α) (pure result) :=
  fun _ _ agree => ⟨rfl, agree⟩

theorem follows_throw (error : LinkError) :
    Follows newKey known (throw error : LinkM α) (throw (error.rename newKey)) :=
  fun _ _ _ => rfl

theorem follows_get_bind {next renamed : State → LinkM α}
    (continues : ∀ state other, state.Agrees newKey known other →
      Follows newKey known (next state) (renamed other)) :
    Follows newKey known (get >>= next) (get >>= renamed) :=
  fun state other agree => continues state other agree state other agree

private theorem follows_modify {change renamed : State → State}
    (keeps : ∀ state other, state.Agrees newKey known other →
      (change state).Agrees newKey known (renamed other)) :
    Follows newKey known (modify change : LinkM Unit) (modify renamed) :=
  fun state other agree => ⟨rfl, keeps state other agree⟩

theorem Follows.bind {first first' : LinkM α} {next next' : α → LinkM β}
    (starts : Follows newKey known first first')
    (continues : ∀ result, Follows newKey known (next result) (next' result)) :
    Follows newKey known (first >>= next) (first' >>= next') := by
  intro state other agree
  have corresponds := starts state other agree
  rw [StateT.run_bind, StateT.run_bind]
  -- If one run stops here, so does the other one. Otherwise they go on in states that agree.
  match first.run state, first'.run other, corresponds with
  | .error _, .error _, same => exact same
  | .ok (_, after), .ok (_, renamed), ⟨rfl, agree⟩ => exact continues _ after renamed agree

/-- What the computation gave is known in what follows. -/
theorem follows_lift_bind {computation : Except LinkError α} {renamed : Except LinkError β}
    {rename : α → β} {next : α → LinkM γ} {next' : β → LinkM γ}
    (same : renamed = renamedOutcome newKey rename computation)
    (continues : ∀ result, computation = .ok result →
      Follows newKey known (next result) (next' (rename result))) :
    Follows newKey known ((liftM computation : LinkM α) >>= next)
      ((liftM renamed : LinkM β) >>= next') := by
  subst same
  cases computation with
  | error error => exact fun _ _ _ => rfl
  | ok result => exact continues result rfl

theorem follows_lift {computation : Except LinkError α} (keyless : Keyless computation) :
    Follows newKey known (liftM computation : LinkM α) (liftM computation) := by
  cases computation with
  | error error => exact fun _ _ _ => (LinkError.rename_of_keyless keyless newKey).symm
  | ok result => exact follows_pure result

theorem follows_discard {action renamed : LinkM α} (follows : Follows newKey known action renamed) :
    Follows newKey known (discard action) (discard renamed) := by
  change Follows newKey known ((fun _ => ()) <$> action) ((fun _ => ()) <$> renamed)
  rw [map_eq_pure_bind, map_eq_pure_bind]
  exact follows.bind fun _ => follows_pure ()

section

variable {keys : List Key}

theorem follows_forM {body renamed : Key → LinkM Unit}
    (each : ∀ key ∈ keys, Follows newKey known (body key) (renamed (newKey key))) :
    Follows newKey known (keys.forM body) ((keys.map newKey).forM renamed) := by
  induction keys with
  | nil => exact follows_pure ()
  | cons first rest ih =>
    apply (each first List.mem_cons_self).bind
    exact fun _ => ih fun key member => each key (List.mem_cons_of_mem first member)

theorem follows_mapM {body renamed : Key → LinkM ValueId}
    (each : ∀ key ∈ keys, Follows newKey known (body key) (renamed (newKey key))) :
    Follows newKey known (keys.mapM body) ((keys.map newKey).mapM renamed) := by
  induction keys with
  | nil => exact follows_pure []
  | cons first rest ih =>
    rw [List.map_cons, List.mapM_cons, List.mapM_cons]
    apply (each first List.mem_cons_self).bind
    intro id
    apply (ih fun key member => each key (List.mem_cons_of_mem first member)).bind
    exact fun _ => follows_pure _

theorem follows_option_mapM {body renamed : Key → LinkM ValueId} {key? : Option Key}
    (each : ∀ key ∈ key?, Follows newKey known (body key) (renamed (newKey key))) :
    Follows newKey known (key?.mapM body) ((key?.map newKey).mapM renamed) := by
  cases key? with
  | none => exact follows_pure none
  | some key => exact (each key rfl).bind fun _ => follows_pure _

end

/-! ### Numbers -/

theorem follows_idOf {key : Key} (member : key ∈ known) :
    Follows newKey known (idOf key) (idOf (newKey key)) := by
  apply follows_get_bind
  intro state other agree
  rw [agree.ids key member]
  cases state.ids[key]? with
  | none => exact follows_throw _
  | some id => exact follows_pure id

theorem follows_define (id : ValueId) (content : Content) :
    Follows newKey known (define id content) (define id content) :=
  follows_modify fun _ _ agree =>
    { agree with contents := congrArg (·.insert id content) agree.contents }

theorem follows_define_idOf {key : Key} (member : key ∈ known) (content : Content) :
    Follows newKey known (do define (← idOf key) content)
      (do define (← idOf (newKey key)) content) :=
  (follows_idOf member).bind fun id => follows_define id content

theorem follows_setOwner (id owner : ValueId) :
    Follows newKey known (setOwner id owner) (setOwner id owner) :=
  follows_modify fun _ _ agree => { agree with owners := congrArg (·.insert id owner) agree.owners }

end Link

end FlowIR
