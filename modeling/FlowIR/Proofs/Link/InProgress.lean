import FlowIR.Proofs.Link.Calls
import FlowIR.Proofs.Link.Keyless
import FlowIR.Proofs.Link.WellFormed

/-!
# Constants in progress

While constants are linked, each one on the path contains the one above it, and so everything that
is asked for now. If this is a constant on the path, then it contains itself. A constant gets its
number after all that it contains, so none that leads to a cycle ever gets one. All this is kept by
every step of the machine, whatever its calls return.
-/
namespace FlowIR

open Table (Key ValueRecord InstructionFields ConstantFields)

/-- The constant is contained in itself, or it contains such a constant. -/
def Table.LeadsToCycle (table : Table) (key : Key) : Prop :=
  ∃ entry, Relation.ReflTransGen table.Contains key entry ∧
    Relation.TransGen table.Contains entry entry

theorem Table.LeadsToCycle.exists_inner {table : Table} {key : Key}
    (leads : table.LeadsToCycle key) :
    ∃ inner, table.Contains key inner ∧ table.LeadsToCycle inner := by
  obtain ⟨entry, reaches, cycle⟩ := leads
  rcases reaches.cases_head with rfl | ⟨inner, contains, inner_reaches⟩
  · -- The key is on the cycle itself, and so is what comes after it.
    obtain ⟨inner, contains, back⟩ := Relation.TransGen.head'_iff.mp cycle
    exact ⟨inner, contains, key, back, cycle⟩
  · exact ⟨inner, contains, entry, inner_reaches, cycle⟩

/-- A constant that is reported as a cycle contains itself. -/
def LinkError.CyclesIn (table : Table) : LinkError → Prop
  | constantCycle key => Relation.TransGen table.Contains key key
  | _ => True

namespace Link

/-! ### Calls and frames -/

/-- The keys that have numbers when the call succeeds. -/
def Call.keys : Call → List Key
  | operand key => [key]
  | operands keys => keys
  | constant record _ => [record.key]
  | content record _ => record.references
  | instruction _ fields => fields.operands

/-- The rest of linking asks for operands and instructions only. -/
def Call.IsOutermost : Call → Prop
  | operand _ | instruction _ _ => True
  | _ => False

def Control.call : Control → Call
  | calling call | returning call _ => call

/-- The call that waits. -/
def Frame.call : Frame → Call
  | operand key => .operand key
  | first key rest | others key _ rest => .operands (key :: rest)
  | constant record tag => .constant record tag
  | elements record tag _ => .content record tag
  | expression record => .content record .expr
  | instruction tag fields => .instruction tag fields

/-- The frame waits for this call. -/
inductive Awaits (table : Table) (state : State) : Frame → Call → Prop where
  | operand {key : Key} {record : ValueRecord} {tag : ConstantTag}
      (found : table.record? key = some record)
      (tagged : record.tag = .constant tag) : Awaits table state (.operand key)
        (.constant record tag)
  | first (key : Key) (rest : List Key) : Awaits table state (.first key rest) (.operand key)
  | others {key : Key} (id : ValueId) (rest : List Key) (numbered : key ∈ state.ids) :
      Awaits table state (.others key id rest) (.operands rest)
  | constant {record : ValueRecord} {tag : ConstantTag}
      (found : table.record? record.key = some record)
      (tagged : record.tag = .constant tag) : Awaits table state (.constant record tag)
        (.content record tag)
  | elements {record : ValueRecord} {tag : ConstantTag} {fields : ConstantFields}
      (references : record.references = fields.references tag) :
      Awaits table state (.elements record tag fields) (.operands (fields.references tag))
  | expression {record : ValueRecord} (tag : Tag) {fields : InstructionFields}
      (references : record.references = fields.operands) :
      Awaits table state (.expression record) (.instruction tag fields)
  | instruction (tag : Tag) (fields : InstructionFields) :
      Awaits table state (.instruction tag fields) (.operands fields.operands)

/-- Each frame waits for the call above it. -/
inductive Stacked (table : Table) (state : State) : List Frame → Call → Prop where
  | outermost {call : Call} (outermost : call.IsOutermost) : Stacked table state [] call
  | waiting {frame : Frame} {frames : List Frame} {call : Call}
      (awaits : Awaits table state frame call)
      (below : Stacked table state frames frame.call) : Stacked table state (frame :: frames) call

variable {source : Source} {table : Table} {machine later : Machine} {state after : State}
  {frame : Frame} {frames : List Frame} {call : Call} {keys : List Key} {record : ValueRecord}
  {tag : ConstantTag} {α β : Type}

namespace Stacked

private theorem mono (stacked : Stacked table state frames call)
    (grows : ∀ key ∈ state.ids, key ∈ after.ids) :
    Stacked table after frames call := by
  induction stacked with
  | outermost outermost => exact .outermost outermost
  | waiting awaits below ih =>
    apply Stacked.waiting _ ih
    cases awaits with
    | operand found tagged => exact .operand found tagged
    | first key rest => exact .first key rest
    | others id rest numbered => exact .others id rest (grows _ numbered)
    | constant found tagged => exact .constant found tagged
    | elements references => exact .elements references
    | expression tag references => exact .expression tag references
    | instruction tag fields => exact .instruction tag fields

/-- A call for a constant is about a record of the table. -/
theorem record_of_constant (stacked : Stacked table state frames (.constant record tag)) :
    table.record? record.key = some record ∧ record.tag = .constant tag := by
  cases stacked with
  | outermost outermost => exact outermost.elim
  | waiting awaits below =>
    cases awaits with
    | operand found tagged =>
      rw [Table.key_of_record? found]
      exact ⟨found, tagged⟩

private theorem tag_of_content (stacked : Stacked table state frames (.content record tag)) :
    record.tag = .constant tag := by
  cases stacked with
  | outermost outermost => exact outermost.elim
  | waiting awaits below =>
    cases awaits with
    | constant found tagged => exact tagged

/-- By induction on the frames. Only the frame of a constant adds to the path, and it waits for what
the constant contains. -/
theorem contains (stacked : Stacked table state frames call) :
    ∀ outer ∈ path frames, ∀ key ∈ call.keys, Relation.TransGen table.Contains outer key := by
  induction stacked with
  | outermost => exact fun outer member => absurd member List.not_mem_nil
  | waiting awaits below ih =>
    intro outer member key asked
    cases awaits with
    | operand found tagged =>
      obtain rfl := List.mem_singleton.mp asked
      rw [Table.key_of_record? found]
      exact ih outer member _ List.mem_cons_self
    | first first rest =>
      obtain rfl := List.mem_singleton.mp asked
      exact ih outer member key List.mem_cons_self
    | others id rest numbered => exact ih outer member key (List.mem_cons_of_mem _ asked)
    | @constant record tag found tagged =>
      have contains : table.Contains record.key key := ⟨record, found, by rw [tagged]; rfl, asked⟩
      rcases List.mem_cons.mp member with rfl | around
      · exact .single contains
      · exact (ih outer around record.key List.mem_cons_self).tail contains
    | elements references | expression tag references =>
      apply ih outer member key
      rw [Frame.call, Call.keys, references]
      exact asked
    | instruction tag fields => exact ih outer member key asked

end Stacked

/-! ### What calls return -/

/-- The keys have numbers if the call succeeded. If it failed with a cycle, then there is one. -/
structure Warranted (table : Table) (state : State) (keys : List Key)
    (answer : Except LinkError α) : Prop where
  fails_only : FailsOnly (LinkError.CyclesIn table) answer
  numbered : ∀ result, answer = .ok result → ∀ key ∈ keys, key ∈ state.ids

namespace Warranted

private theorem error {error : LinkError} (cycles : error.CyclesIn table) :
    Warranted table state keys (.error error : Except LinkError α) where
  fails_only := cycles
  numbered := by rintro _ ⟨⟩

private theorem ok {result : α} (numbered : ∀ key ∈ keys, key ∈ state.ids) :
    Warranted table state keys (.ok result) where
  fails_only := trivial
  numbered := fun _ _ => numbered

private theorem of_numbered {answer : Except LinkError α}
    (fails_only : FailsOnly (LinkError.CyclesIn table) answer)
    (numbered : ∀ key ∈ keys, key ∈ state.ids) : Warranted table state keys answer where
  fails_only := fails_only
  numbered := fun _ _ => numbered

private theorem bind {answer : Except LinkError α} {next : α → Except LinkError β}
    (warranted : Warranted table state keys answer)
    (continues : ∀ result, FailsOnly (LinkError.CyclesIn table) (next result)) :
    Warranted table state keys (answer >>= next) where
  fails_only := warranted.fails_only.bind fun result _ => continues result
  numbered := by
    intro result succeeds
    obtain ⟨value, answered, _⟩ := bind_eq_ok_iff.mp succeeds
    exact warranted.numbered value answered

private theorem map {answer : Except LinkError α} {change : α → β}
    (warranted : Warranted table state keys answer) :
    Warranted table state keys (answer.map change) where
  fails_only := warranted.fails_only.map
  numbered := by
    intro result succeeds
    obtain ⟨value, answered, _⟩ := map_eq_ok_iff.mp succeeds
    exact warranted.numbered value answered

private theorem cons {answer : Except LinkError α} {key : Key}
    (warranted : Warranted table state keys answer) (numbered : key ∈ state.ids) :
    Warranted table state (key :: keys) answer where
  fails_only := warranted.fails_only
  numbered := fun result succeeds =>
    List.forall_mem_cons.mpr ⟨numbered, warranted.numbered result succeeds⟩

end Warranted

/-- Most errors do not report a cycle. -/
theorem cyclesIn_of_keyless {computation : Except LinkError α} (keyless : Keyless computation) :
    FailsOnly (LinkError.CyclesIn table) computation := by
  apply keyless.mono
  intro error nameless
  cases error with
  | constantCycle key => exact nameless.elim
  | _ => trivial

private theorem cyclesIn_constantFields (record : ValueRecord) :
    FailsOnly (LinkError.CyclesIn table) (constantFields record) := by
  rw [constantFields]
  split <;> trivial

private theorem cyclesIn_assembleConstant (record : ValueRecord) (fields : ConstantFields)
    (ids : List ValueId) (tag : ConstantTag) :
    FailsOnly (LinkError.CyclesIn table) (assembleConstant record fields ids tag) := by
  have present : ∀ {γ : Type} (given : Option γ),
      FailsOnly (LinkError.CyclesIn table) (present record given) := by
    intro γ given
    cases given <;> trivial
  cases tag with
  | int | float | string => exact (present _).map
  | blockAddress => exact cyclesIn_of_keyless (keyless_linkBlockAddress record ids)
  | _ => trivial

private theorem cyclesIn_settle (record : ValueRecord) (content : Content) (state : State) :
    FailsOnly (LinkError.CyclesIn table) ((settle source record content).run state) := by
  have fails_only : FailsOnly (LinkError.CyclesIn table) (lookupType source.typeIds record.ty) :=
    cyclesIn_of_keyless (keyless_lookupType source.typeIds record.ty)
  simp only [settle, allocate, StateT.run_bind]
  cases looked_up : lookupType source.typeIds record.ty with
  | error error =>
    rw [looked_up] at fails_only
    exact fails_only
  | ok ty => trivial

/-! ### The invariant -/

structure Valid (table : Table) (machine : Machine) : Prop where
  /-- No constant is asked for inside of itself. -/
  distinct : (path machine.frames).Nodup
  guarded : machine.Guarded
  /-- What leads to a cycle has no number. -/
  acyclic : ∀ key ∈ machine.state.ids, ¬ table.LeadsToCycle key
  stacked : Stacked table machine.state machine.frames machine.control.call
  warranted : ∀ call answer, machine.control = .returning call answer →
    Warranted table machine.state call.keys answer

namespace Valid

private theorem answer (valid : Valid table { machine with control := .calling call })
    {answer : Except LinkError call.Answer}
    (warranted : Warranted table machine.state call.keys answer) :
    Valid table (machine.answer call answer) where
  distinct := valid.distinct
  guarded := valid.guarded
  acyclic := valid.acyclic
  stacked := valid.stacked
  warranted := by
    rintro _ _ ⟨⟩
    exact warranted

/-- A frame that is not that of a constant leaves the path as it is. -/
theorem wait (valid : Valid table { machine with control := .calling frame.call })
    (plain : path (frame :: machine.frames) = path machine.frames)
    (awaits : Awaits table machine.state frame call) : Valid table (machine.call frame call) where
  distinct := by
    show (path (frame :: machine.frames)).Nodup
    rw [plain]
    exact valid.distinct
  guarded := by
    intro key
    show key ∈ machine.inProgress ↔ key ∈ path (frame :: machine.frames)
    rw [plain]
    exact valid.guarded key
  acyclic := valid.acyclic
  stacked := .waiting awaits valid.stacked
  warranted := by rintro _ _ ⟨⟩

private theorem enclose
    (valid : Valid table { machine with control := .calling (.constant record tag) })
    (fresh : record.key ∉ machine.inProgress) : Valid table (machine.enclose record tag) := by
  obtain ⟨found, tagged⟩ := valid.stacked.record_of_constant
  have guarded : machine.Guarded := valid.guarded
  exact {
    distinct := List.nodup_cons.mpr ⟨(guarded record.key).not.mp fresh, valid.distinct⟩
    guarded := guarded.enclose record tag
    acyclic := valid.acyclic
    stacked := .waiting (.constant found tagged) valid.stacked
    warranted := by rintro _ _ ⟨⟩ }

/-- The call that has waited goes on as if it had just been made. -/
theorem again {answer : Except LinkError call.Answer}
    (valid : Valid table
      { machine with control := .returning call answer, frames := frame :: machine.frames })
    (plain : path (frame :: machine.frames) = path machine.frames) :
    Valid table { machine with control := .calling frame.call } where
  distinct := plain ▸ valid.distinct
  guarded := by
    intro key
    rw [← plain]
    exact valid.guarded key
  acyclic := valid.acyclic
  stacked := by
    cases valid.stacked with
    | waiting awaits below => exact below
  warranted := by rintro _ _ ⟨⟩

section

variable {content : Except LinkError Content}
  (valid : Valid table
    { machine with
      control := .returning (.content record tag) content
      frames := .constant record tag :: machine.frames })
include valid

/-- A constant leaves the set together with its frame. It was on the path only once. -/
theorem leave : Valid table
    { machine with
      control := .calling (.constant record tag)
      inProgress := machine.inProgress.erase record.key } := by
  obtain ⟨outside, distinct⟩ := List.nodup_cons.mp valid.distinct
  have guarded : ∀ key, key ∈ machine.inProgress ↔ key ∈ record.key :: path machine.frames :=
    valid.guarded
  exact {
    distinct
    guarded := by
      intro key
      show key ∈ machine.inProgress.erase record.key ↔ key ∈ path machine.frames
      rw [Std.ExtTreeSet.mem_erase, guarded, ne_eq, Std.LawfulEqCmp.compare_eq_iff_eq,
        List.mem_cons]
      constructor
      · rintro ⟨different, same | member⟩
        · exact absurd same.symm different
        · exact member
      · intro member
        exact ⟨fun same => outside (same ▸ member), Or.inr member⟩
    acyclic := valid.acyclic
    stacked := by
      cases valid.stacked with
      | waiting awaits below => exact below
    warranted := by rintro _ _ ⟨⟩ }

/-- All that the constant contains has a number, and so no cycle is ahead of it. -/
theorem not_leadsToCycle {linked : Content} (succeeded : content = .ok linked) :
    ¬ table.LeadsToCycle record.key := by
  intro leads
  obtain ⟨inner, ⟨other, found, _, referred⟩, inner_leads⟩ := leads.exists_inner
  obtain ⟨own_found, _⟩ := valid.leave.stacked.record_of_constant
  obtain rfl := Option.some.inj (found.symm.trans own_found)
  have warranted := valid.warranted (.content other tag) content rfl
  exact valid.acyclic inner (warranted.numbered linked succeeded inner referred) inner_leads

private theorem close : Valid table (machine.close source record tag content) := by
  cases content with
  | error error => exact valid.leave.answer (.error (valid.warranted _ _ rfl).fails_only)
  | ok linked =>
    have fails_only : FailsOnly (LinkError.CyclesIn table)
        ((settle source record linked).run machine.state) :=
      cyclesIn_settle record linked machine.state
    have not_leads := valid.not_leadsToCycle rfl
    simp only [Machine.close]
    cases settled : (settle source record linked).run machine.state with
    | error error =>
      rw [settled] at fails_only
      exact valid.leave.answer (.error fails_only)
    | ok pair =>
      obtain ⟨id, after⟩ := pair
      have inserted := ensures_settle record linked machine.state id after settled
      have mem_after : ∀ key, key ∈ after.ids ↔ record.key = key ∨ key ∈ machine.state.ids := by
        intro key
        rw [inserted, Std.ExtTreeMap.mem_insert, Std.LawfulEqCmp.compare_eq_iff_eq]
      -- The state has one number more, and nothing else has changed since the constant has left the
      -- set.
      have left := valid.leave
      exact {
        distinct := left.distinct
        guarded := left.guarded
        acyclic := by
          intro key member
          rcases (mem_after key).mp member with rfl | earlier
          · exact not_leads
          · exact valid.acyclic key earlier
        stacked := left.stacked.mono fun key earlier => (mem_after key).mpr (Or.inr earlier)
        warranted := by
          rintro _ _ ⟨⟩
          apply Warranted.ok
          intro key asked
          obtain rfl := List.mem_singleton.mp asked
          exact (mem_after record.key).mpr (Or.inl rfl) }

end

/-! ### Steps -/

/-- A key without a number is that of a constant, or it is refused. -/
theorem start_operand {key : Key} (indexes : source.Indexes table)
    (valid : Valid table { machine with control := .calling (.operand key) }) :
    Valid table (machine.start source (.operand key)) := by
  simp only [Machine.start]
  split
  next id numbered =>
    apply valid.answer
    apply Warranted.ok
    intro other asked
    obtain rfl := List.mem_singleton.mp asked
    rw [Std.ExtTreeMap.mem_iff_isSome_getElem?, numbered]
    rfl
  next unknown =>
    split
    next missing => exact valid.answer (.error trivial)
    next record found =>
      rw [indexes.records] at found
      split
      next tag tagged => exact valid.wait rfl (.operand found tagged)
      next =>
        split
        · exact valid.answer (.error trivial)
        · exact valid.answer (.error trivial)

/-- The operands that are asked for are the references of the record. Which ones these are depends
on the tag. -/
theorem start_content
    (valid : Valid table { machine with control := .calling (.content record tag) }) :
    Valid table (machine.start source (.content record tag)) := by
  have tagged := valid.stacked.tag_of_content
  simp only [Machine.start]
  split
  next assembly =>
    -- Inline assembly refers to nothing, whatever its record holds.
    have nothing : record.references = [] := by
      rw [assembly] at tagged
      cases payload : record.payload <;>
        simp [ValueRecord.references, tagged, payload, ConstantFields.references]
    apply valid.answer
    apply Warranted.of_numbered
    · rw [assemblyContent]
      split <;> trivial
    · rw [Call.keys, nothing]
      exact fun _ member => absurd member List.not_mem_nil
  next =>
    split
    next error failed =>
      have fails_only : FailsOnly (LinkError.CyclesIn table) (constantFields record) :=
        cyclesIn_constantFields record
      rw [failed] at fails_only
      exact valid.answer (.error fails_only)
    next fields read =>
      have references := (constantFields_spec tagged read).1
      split
      next expr described _ =>
        simp only [ConstantFields.references, described] at references
        exact valid.wait rfl (.expression expr.opcode references)
      next => exact valid.wait rfl (.elements references)

private theorem start (indexes : source.Indexes table)
    (valid : Valid table { machine with control := .calling call }) :
    Valid table (machine.start source call) := by
  cases call with
  | operand key => exact valid.start_operand indexes
  | operands keys =>
    cases keys with
    | nil => exact valid.answer (.ok fun _ member => absurd member List.not_mem_nil)
    | cons key rest => exact valid.wait rfl (.first key rest)
  | constant record tag =>
    simp only [Machine.start]
    split
    next cycle =>
      -- The constant is on the path, and everything on the path contains it.
      have around := (valid.guarded record.key).mp cycle
      exact valid.answer
        (.error (valid.stacked.contains record.key around record.key List.mem_cons_self))
    next fresh => exact valid.enclose fresh
  | content record tag => exact valid.start_content
  | instruction tag fields => exact valid.wait rfl (.instruction tag fields)

/-- What was returned is what the frame has waited for, so the call that it belongs to goes on. -/
theorem resume {answer : Except LinkError call.Answer}
    (valid : Valid table
      { machine with control := .returning call answer, frames := frame :: machine.frames })
    (resumes : machine.resume source frame call answer = some later) : Valid table later := by
  have warranted := valid.warranted call answer rfl
  cases valid.stacked with
  | waiting awaits below =>
    cases awaits with
    | operand found tagged =>
      obtain rfl := Option.some.inj resumes
      obtain rfl := Table.key_of_record? found
      exact (valid.again rfl).answer warranted
    | first key rest =>
      cases answer with
      | error error =>
        obtain rfl := Option.some.inj resumes
        exact (valid.again rfl).answer (.error warranted.fails_only)
      | ok id =>
        obtain rfl := Option.some.inj resumes
        have others_valid :
            Valid table { machine with control := .calling (Frame.others key id rest).call } :=
          valid.again rfl
        -- The first operand has its number now, so it is enough to wait for the others.
        exact others_valid.wait rfl
          (.others id rest (warranted.numbered id rfl key List.mem_cons_self))
    | others id rest numbered =>
      obtain rfl := Option.some.inj resumes
      exact (valid.again rfl).answer (warranted.map.cons numbered)
    | constant found tagged =>
      obtain rfl := Option.some.inj resumes
      exact valid.close
    | @elements record tag fields references =>
      obtain rfl := Option.some.inj resumes
      have elements_warranted : Warranted table machine.state record.references answer := by
        rwa [references]
      apply (valid.again rfl).answer
      exact elements_warranted.bind fun ids => (cyclesIn_assembleConstant record fields ids tag).map
    | @expression record tag fields references =>
      obtain rfl := Option.some.inj resumes
      have operands_warranted : Warranted table machine.state record.references answer := by
        rwa [references]
      exact (valid.again rfl).answer operands_warranted.map
    | instruction tag fields =>
      obtain rfl := Option.some.inj resumes
      apply (valid.again rfl).answer
      exact warranted.bind fun ids => cyclesIn_of_keyless (keyless_decode tag fields ids)

theorem step (indexes : source.Indexes table) (valid : Valid table machine)
    (steps : machine.step source = some later) : Valid table later := by
  obtain ⟨control, frames, inProgress, state⟩ := machine
  cases control with
  | calling call =>
    obtain rfl := Option.some.inj steps
    exact valid.start indexes
  | returning call answer =>
    cases frames with
    | nil => cases steps
    | cons frame frames =>
      have resumes : Machine.resume source ⟨.returning call answer, frames, inProgress, state⟩
          frame call answer = some later := steps
      exact resume valid resumes

end Valid

end Link

end FlowIR
