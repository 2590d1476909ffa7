import FlowIR.Link.Module
import FlowIR.Proofs.Link.Contents
import Mathlib.Data.Set.Function
import Mathlib.Order.Interval.Set.Defs

/-!
# The values of a linked module

Linking replaces every key that the lists of a module lead to by a number of its own. Nothing is
linked twice, nothing is left out, and the contents are those of the table with numbers in place of
keys.
-/
namespace FlowIR

namespace Table

/-- The module is the table with this number in place of each key. -/
structure IsLinked (table : Table) (number : Key → ValueId) (module : Module) : Prop where
  /-- The keys that the lists lead to have different numbers, and each value belongs to one of
  them. -/
  bijective : Set.BijOn number {key | table.Reachable key} (Set.Iio module.values.length)
  /-- The value of a key says what its record says. -/
  realized : ∀ key, table.Reachable key → ∃ record value, table.record? key = some record ∧
    module.value? (number key) = some value ∧ value.id = number key ∧
    value.header.name = record.name ∧ value.header.location = record.location ∧
    table.typeId? record.ty = some value.header.ty ∧ record.decode number = .ok value.content
  globals : module.globals = table.globals.map number
  aliases : module.aliases = table.aliases.map number
  functions : module.functions = table.functions.map number
  /-- The numbers follow the order of the lists. -/
  listed_first : table.listedKeys.map number = List.range table.listedKeys.length
  /-- All constants come after everything else. -/
  constants_last : ∀ key record, table.Reachable key → table.record? key = some record →
    (record.tag.isConstant = true ↔ table.listedKeys.length ≤ number key)

private theorem HasTag.mono {table : Table} {key : Key} {strong weak : Tag → Bool}
    (tagged : table.HasTag strong key) (implies : ∀ tag, strong tag = true → weak tag = true) :
    table.HasTag weak key := by
  obtain ⟨record, found, holds⟩ := tagged
  exact ⟨record, found, implies record.tag holds⟩

/-- No list holds a constant. -/
theorem WellTagged.not_constant {table : Table} (tagged : table.WellTagged) {key : Key}
    (listed : key ∈ table.listedKeys) : table.HasTag (fun tag => !tag.isConstant) key := by
  simp only [listedKeys, List.mem_append, List.mem_flatMap] at listed
  -- The four parts of the list, and for the last one the place inside of the function.
  rcases listed with ((global | other_name) | function) | ⟨function, listed, inner⟩
  · exact (tagged.globals key global).mono (by simp [Tag.isConstant])
  · exact (tagged.aliases key other_name).mono (by simp [Tag.isConstant])
  · obtain ⟨record, _, found, tag, _⟩ := tagged.functions key function
    exact ⟨record, found, by simp [tag, Tag.isConstant]⟩
  · obtain ⟨record, fields, found, _, payload, arguments, blocks⟩ :=
      tagged.functions function listed
    rw [bodyKeys_eq found payload, List.mem_append, List.mem_flatMap] at inner
    rcases inner with argument | ⟨block, member, inner⟩
    · exact (arguments key argument).mono (by simp [Tag.isConstant])
    · obtain ⟨record, fields, found, tag, payload, instructions⟩ := blocks block member
      rw [blockKeys_eq found payload, List.mem_cons] at inner
      rcases inner with rfl | instruction
      · exact ⟨record, found, by simp [tag, Tag.isConstant]⟩
      · refine (instructions key instruction).mono fun tag is_instruction => ?_
        cases tag <;> simp_all [Tag.isInstruction, Tag.isConstant]

end Table

namespace Link

open Table (Key ValueRecord)

variable {source : Source} {table : Table} {order : List Key} {state : State}

/-! ### The values at the end -/

private theorem length_values {values : List Value} (collected : state.values = .ok values) :
    values.length = state.headers.length := by
  simpa using (forall₂_of_mapM_eq_ok collected).length_eq.symm

/-- Every value has a content, or there would be none of them. -/
theorem getElem?_values {values : List Value} (collected : state.values = .ok values) {id : ValueId}
    {header : Header} (headed : state.headers[id]? = some header) :
    ∃ content, state.contents[id]? = some content ∧ values[id]? = some { id, header, content } := by
  obtain ⟨bound, rfl⟩ := List.getElem?_eq_some_iff.mp headed
  have value_bound : id < values.length := length_values collected ▸ bound
  have here := (List.forall₂_iff_get.mp (forall₂_of_mapM_eq_ok collected)).2 id
    (by simpa using bound) value_bound
  simp only [List.get_eq_getElem, List.getElem_zipIdx, Nat.zero_add] at here
  split at here
  next content defined =>
    exact ⟨content, defined, by rw [List.getElem?_eq_getElem value_bound, ← Except.ok.inj here]⟩
  next => cases here

theorem linkParts_ensures (indexes : source.Indexes table) (types : List Ty) :
    Ensures (linkParts source types table) {} fun module after => table.WellTagged ∧ ∃ order,
      Grows table table.listedKeys order ∧ Progress table [] order after ∧
      after.values = .ok module.values ∧ module.globals = table.globals.map order.idxOf ∧
      module.aliases = table.aliases.map order.idxOf ∧
      module.functions = table.functions.map order.idxOf := by
  refine ensures_bind ((registerAll_ensures indexes).mono ?_)
  rintro _ _ ⟨progress, tagged⟩
  refine ensures_bind ((linkContents_ensures indexes tagged progress).mono ?_)
  rintro _ _ ⟨order, grows, _, progress, _⟩
  refine ensures_bind (ensures_get (ensures_bind (ensures_lift fun values collected => ?_)))
  refine ensures_bind ((mapM_idOf_ensures progress table.globals).mono ?_)
  rintro globals _ ⟨rfl, _, globals_eq⟩
  refine ensures_bind ((mapM_idOf_ensures progress table.aliases).mono ?_)
  rintro aliases _ ⟨rfl, _, aliases_eq⟩
  refine ensures_bind ((mapM_idOf_ensures progress table.functions).mono ?_)
  rintro functions _ ⟨rfl, _, functions_eq⟩
  exact ensures_pure ⟨tagged, order, grows, progress, collected, globals_eq,
    aliases_eq, functions_eq⟩

/-! ### Numbers and reachable keys -/

section

variable {values : List Value} (progress : Progress table [] order state)
  (collected : state.values = .ok values)
include progress collected

theorem exists_value {key : Key} (member : key ∈ order) : ∃ header content,
    table.HasHeader key header ∧ table.Describes order key content ∧
      values[order.idxOf key]? = some { id := order.idxOf key, header, content } := by
  have bound : order.idxOf key < order.length := List.idxOf_lt_length_of_mem member
  have header_bound : order.idxOf key < state.headers.length := progress.headed.length_eq ▸ bound
  have headed := (List.forall₂_iff_get.mp progress.headed).2 _ bound header_bound
  rw [List.get_eq_getElem, List.getElem_idxOf] at headed
  obtain ⟨content, defined, value⟩ :=
    getElem?_values collected (List.getElem?_eq_getElem header_bound)
  -- The content was described for the key at this number, which is the key that was asked for.
  obtain ⟨other, numbered, describes⟩ := progress.described _ content defined
  obtain rfl : key = other := Option.some.inj ((List.getElem?_idxOf member).symm.trans numbered)
  exact ⟨_, content, headed, describes, value⟩

/-- The records of numbered keys only refer to numbered keys, so no reachable key is left out. -/
theorem mem_order_iff (grows : Grows table table.listedKeys order) {key : Key} :
    key ∈ order ↔ table.Reachable key := by
  refine ⟨progress.reachable key, fun reachable => ?_⟩
  induction reachable with
  | global listed => exact grows.subset (by simp [Table.listedKeys, listed])
  | globalAlias listed => exact grows.subset (by simp [Table.listedKeys, listed])
  | function listed => exact grows.subset (by simp [Table.listedKeys, listed])
  | reference _ found referred ih =>
    obtain ⟨_, _, _, ⟨record, other_found, known, _⟩, _⟩ := exists_value progress collected ih
    obtain rfl := Option.some.inj (found.symm.trans other_found)
    exact known referred

end

private theorem map_idxOf_self {keys : List Key} (distinct : keys.Nodup) :
    keys.map keys.idxOf = List.range keys.length := by
  apply List.ext_getElem
  · simp
  · intro id bound _
    rw [List.getElem_map, List.getElem_range, distinct.idxOf_getElem id (by simpa using bound)]

private theorem constant_iff_le_idxOf (tagged : table.WellTagged)
    (grows : Grows table table.listedKeys order) {key : Key} {record : ValueRecord}
    (member : key ∈ order) (found : table.record? key = some record) :
    record.tag.isConstant = true ↔ table.listedKeys.length ≤ order.idxOf key := by
  obtain ⟨added, rfl, constants⟩ := grows.exists_added
  by_cases listed : key ∈ table.listedKeys
  · have other_tag := (tagged.not_constant listed).of_record found
    have early := List.idxOf_lt_length_of_mem listed
    rw [List.idxOf_append_of_mem listed]
    simp_all
  · have late : key ∈ added := (List.mem_append.mp member).resolve_left listed
    have constant := (constants key late).of_record found
    rw [List.idxOf_append_of_notMem listed]
    simp [constant]

theorem isLinked_of_progress {module : Module} (tagged : table.WellTagged)
    (grows : Grows table table.listedKeys order) (progress : Progress table [] order state)
    (collected : state.values = .ok module.values)
    (globals : module.globals = table.globals.map order.idxOf)
    (aliases : module.aliases = table.aliases.map order.idxOf)
    (functions : module.functions = table.functions.map order.idxOf) :
    table.IsLinked order.idxOf module where
  bijective := by
    have same_length : module.values.length = order.length :=
      (length_values collected).trans progress.headed.length_eq.symm
    -- Numbers are in range, differ for different keys, and none is left over.
    refine ⟨fun key reachable => ?_, fun key reachable other _ same => ?_, fun id bound => ?_⟩
    · have member := (mem_order_iff progress collected grows).mpr reachable
      exact same_length ▸ List.idxOf_lt_length_of_mem member
    · exact (List.idxOf_inj ((mem_order_iff progress collected grows).mpr reachable)).mp same
    · have in_order : id < order.length := same_length ▸ bound
      refine ⟨order[id], progress.reachable _ (List.getElem_mem in_order), ?_⟩
      exact progress.nodup.idxOf_getElem id in_order
  realized := by
    intro key reachable
    have member := (mem_order_iff progress collected grows).mpr reachable
    obtain ⟨header, content, headed, describes, value⟩ := exists_value progress collected member
    obtain ⟨record, found, name, location, ty⟩ := headed
    obtain ⟨other, other_found, _, decoded⟩ := describes
    obtain rfl := Option.some.inj (found.symm.trans other_found)
    exact ⟨record, _, found, value, rfl, name, location, ty, decoded⟩
  globals := globals
  aliases := aliases
  functions := functions
  listed_first := by
    have distinct := progress.nodup
    obtain ⟨added, rfl, _⟩ := grows.exists_added
    rw [Table.map_idxOf_append (List.Subset.refl _),
      map_idxOf_self (List.nodup_append.mp distinct).1]
  constants_last := fun key record reachable found =>
    constant_iff_le_idxOf tagged grows ((mem_order_iff progress collected grows).mpr reachable)
      found

end Link

/-- Two globals share an initializer, which holds one of them and a constant that a function
returns. -/
def Table.sharing : Table :=
  { types := [{ key := 1, ty := .integer 32 }]
    values :=
      [{ key := 10, tag := .globalVariable, ty := 1,
         payload := .global { initializer := some 21 } },
       { key := 11, tag := .globalVariable, ty := 1,
         payload := .global { initializer := some 21 } },
       { key := 20, tag := .constant .int, ty := 1, payload := .constant { intValue := some 7 } },
       { key := 21, tag := .constant .struct, ty := 1,
         payload := .constant { operands := [11, 20] } },
       { key := 30, tag := .function, ty := 1, payload := .function { blocks := [31] } },
       { key := 31, tag := .basicBlock, ty := 1, payload := .block { instructions := [32] } },
       { key := 32, tag := .instruction .ret, ty := 1,
         payload := .instruction { operands := [20] } }]
    globals := [10, 11]
    functions := [30] }

end FlowIR
