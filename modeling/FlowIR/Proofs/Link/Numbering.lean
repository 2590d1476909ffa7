import FlowIR.Proofs.Link.Ensures
import FlowIR.Proofs.Link.References
import Mathlib.Data.List.Nodup

/-!
# Numbers of keys

The keys that have a number form a list, in the order of their numbers. Linking only ever appends to
it, so a number never changes, and what was linked with some numbers stays right while further keys
get theirs.
-/
namespace FlowIR

namespace Table

/-- What the record of a key says about every value. -/
def HasHeader (table : Table) (key : Key) (header : Header) : Prop :=
  ∃ record, table.record? key = some record ∧ header.name = record.name ∧
    header.location = record.location ∧ table.typeId? record.ty = some header.ty

/-- The record of a key has this content once the keys of the list are numbered in their order. It
refers to no other keys. -/
def Describes (table : Table) (order : List Key) (key : Key) (content : Content) : Prop :=
  ∃ record, table.record? key = some record ∧ record.references ⊆ order ∧
    record.decode order.idxOf = .ok content

theorem getElem?_append_of_eq_some {order : List Key} {id : Nat} {key : Key}
    (numbered : order[id]? = some key) (added : List Key) : (order ++ added)[id]? = some key := by
  obtain ⟨bound, _⟩ := List.getElem?_eq_some_iff.mp numbered
  rw [List.getElem?_append_left bound, numbered]

private theorem getElem?_concat_eq_some_iff {order : List Key} {key other : Key} {id : Nat} :
    (order ++ [key])[id]? = some other ↔
      order[id]? = some other ∨ id = order.length ∧ key = other := by
  rw [List.getElem?_append]
  split
  next old =>
    refine ⟨Or.inl, fun either => either.elim (fun numbered => numbered) fun new => ?_⟩
    omega
  next later =>
    rw [List.getElem?_eq_none (Nat.le_of_not_lt later), List.getElem?_singleton]
    simp only [reduceCtorEq, false_or]
    split <;> simp <;> omega

theorem map_idxOf_append {keys order : List Key} (known : keys ⊆ order) (added : List Key) :
    keys.map (order ++ added).idxOf = keys.map order.idxOf :=
  List.map_congr_left fun _ member => List.idxOf_append_of_mem (known member)

theorem Describes.append {table : Table} {order : List Key} {key : Key} {content : Content}
    (describes : table.Describes order key content) (added : List Key) :
    table.Describes (order ++ added) key content := by
  obtain ⟨record, found, known, decoded⟩ := describes
  refine ⟨record, found, List.Subset.trans known (List.subset_append_left order added), ?_⟩
  rw [← decoded]
  exact ValueRecord.decode_congr fun inner referred => List.idxOf_append_of_mem (known referred)

end Table

namespace Link

open Table (Key ValueRecord)

/-- The state of linking when these keys have their numbers. The enclosing keys are those of the
constants that are being linked, and they have none yet. -/
structure Progress (table : Table) (enclosing order : List Key) (state : State) : Prop where
  numbered : ∀ (key : Key) (id : ValueId), state.ids[key]? = some id ↔ order[id]? = some key
  headed : List.Forall₂ table.HasHeader order state.headers
  described : ∀ (id : ValueId) content, state.contents[id]? = some content →
    ∃ key, order[id]? = some key ∧ table.Describes order key content
  reachable : ∀ key ∈ order, table.Reachable key
  unnumbered : ∀ key ∈ enclosing, key ∉ order

variable {source : Source} {table : Table} {enclosing order : List Key} {state : State} {key : Key}

theorem progress_initial (table : Table) : Progress table [] [] {} where
  numbered := by simp
  headed := .nil
  described := by simp
  reachable := by simp
  unnumbered := by simp

namespace Progress

theorem nodup (progress : Progress table enclosing order state) : order.Nodup := by
  -- A key that stood at two places would have two numbers.
  rw [List.nodup_iff_injective_get]
  intro left right same
  have at_left : order[left.1]? = some (order.get left) := List.getElem?_eq_getElem left.2
  have at_right : order[right.1]? = some (order.get left) := same ▸ List.getElem?_eq_getElem right.2
  rw [← progress.numbered] at at_left at_right
  exact Fin.ext (Option.some.inj (at_left.symm.trans at_right))

theorem idxOf_eq (progress : Progress table enclosing order state) {id : Nat}
    (numbered : order[id]? = some key) : order.idxOf key = id := by
  obtain ⟨bound, rfl⟩ := List.getElem?_eq_some_iff.mp numbered
  exact progress.nodup.idxOf_getElem id bound

theorem mem_iff (progress : Progress table enclosing order state) :
    key ∈ order ↔ key ∈ state.ids := by
  rw [Std.ExtTreeMap.mem_iff_isSome_getElem?, Option.isSome_iff_exists, List.mem_iff_getElem?]
  simp only [progress.numbered]

/-- A constant that does not have a number yet may be linked next. -/
theorem enclose (progress : Progress table enclosing order state) (fresh : key ∉ order) :
    Progress table (key :: enclosing) order state :=
  { progress with
    unnumbered := by
      intro other member
      rcases List.mem_cons.mp member with rfl | outer
      · exact fresh
      · exact progress.unnumbered other outer }

theorem leave (progress : Progress table (key :: enclosing) order state) :
    Progress table enclosing order state :=
  { progress with
    unnumbered := fun other member => progress.unnumbered other (List.mem_cons_of_mem key member) }

end Progress

/-! ### Single steps -/

theorem lookupType_eq_ok_iff {ids : TypeIds} {key : Table.TypeKey} {id : TypeId} :
    lookupType ids key = .ok id ↔ ids[key]? = some id := by
  rw [lookupType]
  split <;> simp_all

theorem record_eq_ok_iff (indexes : source.Indexes table) {record : ValueRecord} :
    source.record key = .ok record ↔ table.record? key = some record := by
  rw [Source.record, indexes.records]
  split <;> simp_all

section

variable (progress : Progress table enclosing order state)
include progress

theorem allocate_ensures (indexes : source.Indexes table) {record : ValueRecord}
    (found : table.record? key = some record) (fresh : key ∉ order) (open_key : key ∉ enclosing)
    (reachable : table.Reachable key) :
    Ensures (allocate source record) state fun id after =>
      id = order.length ∧ Progress table enclosing (order ++ [key]) after := by
  refine ensures_bind (ensures_lift fun ty typed => ensures_modifyGet ?_)
  have same_key : record.key = key := Table.key_of_record? found
  have same_length : state.headers.length = order.length := progress.headed.length_eq.symm
  refine ⟨same_length, ?_⟩
  -- The fields of the invariant in turn. Only the first two concern what is new.
  constructor
  · intro other id
    have unknown : state.ids[key]? = none :=
      Std.ExtTreeMap.getElem?_eq_none (progress.mem_iff.not.mp fresh)
    rw [same_key, same_length, Std.ExtTreeMap.getElem?_insert, Table.getElem?_concat_eq_some_iff,
      ← progress.numbered]
    by_cases same : key = other
    · subst same
      simp [unknown, eq_comm]
    · simp [same]
  · apply List.rel_append progress.headed
    refine .cons ⟨record, found, rfl, rfl, ?_⟩ .nil
    rw [← indexes.types, ← lookupType_eq_ok_iff]
    exact typed
  · intro id content defined
    obtain ⟨other, numbered, describes⟩ := progress.described id content defined
    exact ⟨other, Table.getElem?_append_of_eq_some numbered [key], describes.append [key]⟩
  · intro other member
    rcases List.mem_append.mp member with old | new
    · exact progress.reachable other old
    · exact List.mem_singleton.mp new ▸ reachable
  · intro other outer member
    rcases List.mem_append.mp member with old | new
    · exact progress.unnumbered other outer old
    · exact open_key (List.mem_singleton.mp new ▸ outer)

theorem define_ensures {id : ValueId} {content : Content} (numbered : order[id]? = some key)
    (describes : table.Describes order key content) :
    Ensures (define id content) state fun _ after => Progress table enclosing order after := by
  refine ensures_modify { progress with described := ?_ }
  intro other found defined
  rw [Std.ExtTreeMap.getElem?_insert] at defined
  split at defined
  next same =>
    obtain rfl : id = other := Nat.compare_eq_eq.mp same
    exact ⟨key, numbered, Option.some.inj defined ▸ describes⟩
  next => exact progress.described other found defined

theorem setOwner_ensures (id owner : ValueId) :
    Ensures (setOwner id owner) state fun _ after => Progress table enclosing order after :=
  ensures_modify { progress with }

theorem idOf_ensures (key : Key) :
    Ensures (idOf key) state fun id after => after = state ∧ order[id]? = some key := by
  refine ensures_bind (ensures_get ?_)
  split
  next id found => exact ensures_pure ⟨rfl, (progress.numbered key id).mp found⟩
  next => exact ensures_throw _

theorem mapM_idOf_ensures (keys : List Key) :
    Ensures (keys.mapM idOf) state fun ids after =>
      after = state ∧ keys ⊆ order ∧ ids = keys.map order.idxOf := by
  refine ensures_mapM (fun done ids after => after = state ∧ done ⊆ order ∧
    ids = done.map order.idxOf) keys ?_ ⟨rfl, List.nil_subset order, rfl⟩
  rintro done ids key _ _ ⟨rfl, known, rfl⟩
  refine (idOf_ensures progress key).mono fun id after numbered => ?_
  obtain ⟨rfl, numbered⟩ := numbered
  refine ⟨rfl, List.append_subset.mpr ⟨known, ?_⟩, ?_⟩
  · simpa using List.mem_of_getElem? numbered
  · rw [List.map_append, List.map_singleton, progress.idxOf_eq numbered]

end

end Link

end FlowIR
