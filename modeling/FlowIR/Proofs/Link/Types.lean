import FlowIR.Link.Module
import FlowIR.Proofs.Link.References
import FlowIR.Proofs.Link.Ensures
import Mathlib.Data.List.Nodup

/-!
# Linking types

The types of a table can be linked if every key has one record, no record is only a reference, and
all references inside of the records lead somewhere. Every number in the linked types is then that
of a type.

A layer of a type is put together from the numbers of its parts, whatever its constructor is. So
what is proved here is proved about lists of parts, by induction on how deep types stand inside of
each other.
-/
namespace FlowIR

/-- All numbers in a type, also that of a type with a name. -/
def Ty.inners : Ty → List TypeId
  | named _ inner => [inner]
  | ty => ty.components

theorem Ty.components_subset_inners (ty : Ty) : ty.components ⊆ ty.inners := by
  cases ty <;> simp [inners, components]

namespace Table.TypeExpr

/-- A reference is not a type of its own, it stands for one. -/
def isReference : TypeExpr → Bool
  | ref _ | upref _ => true
  | _ => false

/-- What stands directly inside of a type. -/
def parts : TypeExpr → List TypeExpr
  | pointer pointee _ => [pointee]
  | array _ elem => [elem]
  | vector _ elem => [elem]
  | function ret params _ => ret :: params
  | struct fields _ => fields
  | named _ inner => [inner]
  | _ => []

theorem parts_of_isReference {expr : TypeExpr} (reference : expr.isReference = true) :
    expr.parts = [] := by
  cases expr <;> simp_all [isReference, parts]

/-- The last type stands inside of the first one, with so many types around it up to the first
one. -/
inductive Nested : TypeExpr → Nat → TypeExpr → Prop where
  | part {outer inner : TypeExpr} (member : inner ∈ outer.parts) : Nested outer 1 inner
  | deeper {outer middle inner : TypeExpr} {depth : Nat} (member : middle ∈ outer.parts)
      (nested : Nested middle depth inner) : Nested outer (depth + 1) inner

/-- All references inside of a type lead to a known record or to a type around them, where so many
types stand around the type itself. -/
structure Resolvable (known : TypeKey → Prop) (around : Nat) (expr : TypeExpr) : Prop where
  refs : ∀ depth key, Nested expr depth (.ref key) → known key
  uprefs : ∀ depth level, Nested expr depth (.upref level) → level.toNat < around + depth

/-- The same of a part, which may itself be a reference. -/
structure Fits (known : TypeKey → Prop) (around : Nat) (part : TypeExpr) : Prop where
  ref : ∀ key, part = .ref key → known key
  upref : ∀ level, part = .upref level → level.toNat < around
  inside : part.Resolvable known around

theorem resolvable_iff_parts {known : TypeKey → Prop} {around : Nat} {expr : TypeExpr} :
    expr.Resolvable known around ↔ ∀ part ∈ expr.parts, part.Fits known (around + 1) := by
  constructor
  · intro resolvable part member
    refine ⟨?_, ?_, ?_, ?_⟩
    · rintro key rfl
      exact resolvable.refs 1 key (.part member)
    · rintro level rfl
      exact resolvable.uprefs 1 level (.part member)
    · intro depth key nested
      exact resolvable.refs (depth + 1) key (.deeper member nested)
    · intro depth level nested
      -- Inside of the part there is one type more around a reference.
      have bound := resolvable.uprefs (depth + 1) level (.deeper member nested)
      omega
  · intro fit
    constructor
    · intro depth key nested
      cases nested with
      | part member => exact (fit _ member).ref key rfl
      | deeper member nested => exact (fit _ member).inside.refs _ key nested
    · intro depth level nested
      cases nested with
      | part member => exact (fit _ member).upref level rfl
      | deeper member nested =>
        have bound := (fit _ member).inside.uprefs _ level nested
        omega

/-- The linked type with these numbers in place of the parts. -/
def assemble : TypeExpr → List TypeId → Ty
  | label, _ => .label
  | metadata, _ => .metadata
  | integer width, _ => .integer width
  | float kind, _ => .float kind
  | opaqueType name, _ => .opaqueType name
  | pointer _ addrSpace, [pointee] => .pointer pointee addrSpace
  | array len _, [elem] => .array len elem
  | vector len _, [elem] => .vector len elem
  | function _ _ vararg, ret :: params => .function ret params vararg
  | struct _ packed, fields => .struct fields packed
  | named name _, [inner] => .named name inner
  | _, _ => .void

private theorem inners_assemble_subset (expr : TypeExpr) (ids : List TypeId) :
    (expr.assemble ids).inners ⊆ ids := by
  -- Either the numbers are those of the parts, or the type has no parts.
  fun_cases assemble expr ids <;> simp [Ty.inners, Ty.components]

private theorem sizeOf_lt_of_mem_parts {outer inner : TypeExpr} (member : inner ∈ outer.parts) :
    sizeOf inner < sizeOf outer := by
  cases outer <;> simp only [parts, List.mem_cons, List.not_mem_nil, or_false] at member
  case pointer | array | vector | named =>
    subst member
    simp only [pointer.sizeOf_spec, array.sizeOf_spec, vector.sizeOf_spec, named.sizeOf_spec]
    omega
  case function ret params vararg =>
    simp only [function.sizeOf_spec]
    rcases member with rfl | later
    · omega
    · have smaller := List.sizeOf_lt_of_mem later
      omega
  case struct fields packed =>
    have smaller := List.sizeOf_lt_of_mem member
    simp only [struct.sizeOf_spec]
    omega

/-- What holds of a type if it holds of its parts holds of all types. -/
theorem induction_on_parts {property : TypeExpr → Prop}
    (step : ∀ expr, (∀ part ∈ expr.parts, property part) → property expr) (expr : TypeExpr) :
    property expr :=
  step expr fun part _member => induction_on_parts step part
termination_by sizeOf expr
decreasing_by exact sizeOf_lt_of_mem_parts _member

end Table.TypeExpr

/-- A record that is a type of its own, with references that lead somewhere. -/
structure Table.TypeRecord.IsLinkable (known : TypeKey → Prop) (record : TypeRecord) : Prop where
  proper : record.ty.isReference = false
  resolvable : record.ty.Resolvable known 0

namespace Link

open Table (TypeExpr TypeKey TypeRecord)

variable {ids : TypeIds} {expr : TypeExpr} {arena : TypeArena}

/-! ### Layers -/

theorem typeLayer_eq (ids : TypeIds) (enclosing : List TypeId) (proper : expr.isReference = false) :
    typeLayer ids enclosing expr = expr.assemble <$> typeLayers ids enclosing expr.parts := by
  cases expr <;> simp_all [typeLayer, typeLayers, TypeExpr.parts, TypeExpr.assemble,
    TypeExpr.isReference]
  case struct => rfl

theorem component_eq (ids : TypeIds) (enclosing : List TypeId) (layer : List TypeId → TypeM Ty)
    (proper : expr.isReference = false) :
    component ids enclosing expr layer = (do
      let id ← reserveType
      defineType id (← layer (id :: enclosing))
      return id) := by
  cases expr <;> simp_all [component, TypeExpr.isReference]

/-! ### What linking does to the arena -/

/-- The numbers in the types are those of types. -/
def TypeArena.Sound (arena : TypeArena) : Prop :=
  ∀ (id : TypeId) (ty : Ty), arena.types[id]? = some ty → ∀ inner ∈ ty.inners, inner < arena.size

/-- New numbers were given out, and all of them are defined. -/
structure Extended (before after : TypeArena) : Prop where
  size_le : before.size ≤ after.size
  kept : ∀ id, id ∈ before.types → id ∈ after.types
  filled : ∀ id, before.size ≤ id → id < after.size → id ∈ after.types
  sound : before.Sound → after.Sound

private theorem Extended.refl (arena : TypeArena) : Extended arena arena where
  size_le := Nat.le_refl _
  kept := fun _ member => member
  filled := by omega
  sound := fun sound => sound

private theorem Extended.trans {before between after : TypeArena} (first : Extended before between)
    (second : Extended between after) : Extended before after where
  size_le := Nat.le_trans first.size_le second.size_le
  kept := fun id member => second.kept id (first.kept id member)
  filled := by
    intro id old new
    by_cases early : id < between.size
    · exact second.kept id (first.filled id old early)
    · exact second.filled id (by omega) new
  sound := fun sound => second.sound (first.sound sound)

/-- References only lead to numbers that were given out. -/
structure InRange (ids : TypeIds) (enclosing : List TypeId) (arena : TypeArena) : Prop where
  known : ∀ (key : TypeKey) id, ids[key]? = some id → id < arena.size
  around : ∀ id ∈ enclosing, id < arena.size

private theorem InRange.mono {enclosing : List TypeId} {after : TypeArena}
    (in_range : InRange ids enclosing arena) (grown : arena.size ≤ after.size) :
    InRange ids enclosing after where
  known := fun key id found => Nat.lt_of_lt_of_le (in_range.known key id found) grown
  around := fun id member => Nat.lt_of_lt_of_le (in_range.around id member) grown

private theorem defineType_sound {id : TypeId} {ty : Ty} (sound : arena.Sound)
    (in_range : ∀ inner ∈ ty.inners, inner < arena.size) :
    TypeArena.Sound { arena with types := arena.types.insert id ty } := by
  intro other found defined
  rw [Std.ExtTreeMap.getElem?_insert] at defined
  split at defined
  · cases defined
    exact in_range
  · exact sound other found defined

/-- What linking a layer establishes when it succeeds. -/
def LayerEnsures (ids : TypeIds) (expr : TypeExpr) : Prop :=
  ∀ own outer arena, InRange ids (own :: outer) arena →
    Ensures (typeLayer ids (own :: outer) expr) arena fun ty after =>
      Extended arena after ∧ (∀ inner ∈ ty.inners, inner < after.size) ∧
        expr.Resolvable (· ∈ ids) outer.length

/-- A number that is reserved is in range for everything inside of its type. -/
theorem InRange.reserve {enclosing : List TypeId} (in_range : InRange ids enclosing arena) :
    InRange ids (arena.size :: enclosing) { arena with size := arena.size + 1 } := by
  have grown : InRange ids enclosing { arena with size := arena.size + 1 } :=
    in_range.mono (Nat.le_succ _)
  refine ⟨grown.known, fun id member => ?_⟩
  rcases List.mem_cons.mp member with rfl | outer
  · exact Nat.lt_succ_self _
  · exact grown.around id outer

/-- The reserved number itself is defined last. -/
theorem Extended.define {after : TypeArena} {ty : Ty}
    (extended : Extended { arena with size := arena.size + 1 } after)
    (in_range : ∀ inner ∈ ty.inners, inner < after.size) :
    Extended arena { after with types := after.types.insert arena.size ty } where
  size_le := Nat.le_of_succ_le extended.size_le
  kept := fun id member => Std.ExtTreeMap.mem_insert.mpr (Or.inr (extended.kept id member))
  filled := by
    intro id old new
    rw [Std.ExtTreeMap.mem_insert]
    by_cases own : arena.size = id
    · exact Or.inl (by simp [own])
    · exact Or.inr (extended.filled id (show arena.size + 1 ≤ id by omega) new)
  sound := by
    intro sound
    refine defineType_sound (extended.sound fun id ty found inner member => ?_) in_range
    exact Nat.lt_succ_of_lt (sound id ty found inner member)

/-- A reference is looked up and changes nothing. -/
theorem component_ensures_of_isReference {part : TypeExpr} (reference : part.isReference = true)
    (layer : List TypeId → TypeM Ty) {enclosing : List TypeId}
    (in_range : InRange ids enclosing arena) :
    Ensures (component ids enclosing part layer) arena fun id after =>
      Extended arena after ∧ id < after.size ∧ part.Fits (· ∈ ids) enclosing.length := by
  have inside : part.Resolvable (· ∈ ids) enclosing.length := by
    rw [TypeExpr.resolvable_iff_parts, TypeExpr.parts_of_isReference reference]
    simp
  cases part <;> simp only [TypeExpr.isReference, Bool.false_eq_true] at reference
  case ref key =>
    refine ensures_lift fun id found => ?_
    rw [lookupType] at found
    split at found
    next known =>
      cases found
      refine ⟨.refl arena, in_range.known key id known, ?_, by simp, inside⟩
      rintro _ ⟨⟩
      exact Std.ExtTreeMap.mem_iff_isSome_getElem?.mpr (by simp [known])
    next => cases found
  case upref level =>
    rw [component]
    split
    next id found =>
      have bound := (List.getElem?_eq_some_iff.mp found).1
      refine ensures_pure ⟨.refl arena, in_range.around id (List.mem_of_getElem? found),
        by simp, ?_, inside⟩
      rintro _ ⟨⟩
      exact bound
    next => exact ensures_throw _

private theorem component_ensures {part : TypeExpr} (layer : LayerEnsures ids part)
    (enclosing : List TypeId) (in_range : InRange ids enclosing arena) :
    Ensures (component ids enclosing part (typeLayer ids · part)) arena fun id after =>
      Extended arena after ∧ id < after.size ∧ part.Fits (· ∈ ids) enclosing.length := by
  by_cases reference : part.isReference = true
  · exact component_ensures_of_isReference reference _ in_range
  · rw [Bool.not_eq_true] at reference
    rw [component_eq ids enclosing _ reference]
    refine ensures_bind (ensures_modifyGet ?_)
    refine ensures_bind ((layer _ enclosing _ in_range.reserve).mono ?_)
    rintro ty after ⟨extended, inners, inside⟩
    refine ensures_bind
      (ensures_modify (ensures_pure ⟨extended.define inners, extended.size_le, ?_, ?_, inside⟩))
    -- A type of its own is neither kind of reference.
    · rintro key rfl
      simp [TypeExpr.isReference] at reference
    · rintro level rfl
      simp [TypeExpr.isReference] at reference

private theorem typeLayers_ensures (exprs : List TypeExpr)
    (layers : ∀ expr ∈ exprs, LayerEnsures ids expr) (enclosing : List TypeId)
    (in_range : InRange ids enclosing arena) :
    Ensures (typeLayers ids enclosing exprs) arena fun inners after =>
      Extended arena after ∧ (∀ inner ∈ inners, inner < after.size) ∧
        ∀ expr ∈ exprs, expr.Fits (· ∈ ids) enclosing.length := by
  induction exprs generalizing arena with
  | nil =>
    rw [typeLayers]
    exact ensures_pure ⟨.refl arena, by simp, by simp⟩
  | cons expr rest ih =>
    rw [typeLayers]
    refine ensures_bind
      ((component_ensures (layers expr List.mem_cons_self) enclosing in_range).mono ?_)
    rintro id between ⟨extended, bound, fits⟩
    have rest_layers := fun other member => layers other (List.mem_cons_of_mem expr member)
    refine ensures_bind ((ih rest_layers (in_range.mono extended.size_le)).mono ?_)
    rintro inners after ⟨extended_later, bounds, rest_fits⟩
    -- The number of the first part stays in range while the others are linked.
    refine ensures_pure ⟨extended.trans extended_later, ?_, ?_⟩
    · intro inner member
      rcases List.mem_cons.mp member with rfl | later
      · exact Nat.lt_of_lt_of_le bound extended_later.size_le
      · exact bounds inner later
    · intro other member
      rcases List.mem_cons.mp member with rfl | later
      · exact fits
      · exact rest_fits other later

private theorem typeLayer_ensures (ids : TypeIds) (expr : TypeExpr) : LayerEnsures ids expr := by
  induction expr using TypeExpr.induction_on_parts with
  | step expr ih =>
    intro own outer arena in_range
    cases reference : expr.isReference with
    | true =>
      -- A reference has no layer of its own.
      cases expr <;> simp only [TypeExpr.isReference, Bool.false_eq_true] at reference
      all_goals
        rw [typeLayer]
        exact ensures_throw _
    | false =>
      rw [typeLayer_eq ids _ reference]
      refine ensures_map ((typeLayers_ensures expr.parts ih (own :: outer) in_range).mono ?_)
      rintro inners after ⟨extended, bounds, fits⟩
      refine ⟨extended, ?_, TypeExpr.resolvable_iff_parts.mpr fits⟩
      exact fun inner member => bounds inner (expr.inners_assemble_subset inners member)

/-! ### Success -/

def LayerSucceeds (ids : TypeIds) (expr : TypeExpr) : Prop :=
  expr.isReference = false → ∀ own outer arena, expr.Resolvable (· ∈ ids) outer.length →
    Succeeds (typeLayer ids (own :: outer) expr) arena

private theorem component_succeeds {part : TypeExpr} (layer : LayerSucceeds ids part)
    (enclosing : List TypeId) (fits : part.Fits (· ∈ ids) enclosing.length) :
    Succeeds (component ids enclosing part (typeLayer ids · part)) arena := by
  by_cases reference : part.isReference = true
  · cases part <;> simp only [TypeExpr.isReference, Bool.false_eq_true] at reference
    case ref key =>
      have known := Std.ExtTreeMap.mem_iff_isSome_getElem?.mp (fits.ref key rfl)
      obtain ⟨id, found⟩ := Option.isSome_iff_exists.mp known
      have looked_up : lookupType ids key = .ok id := by simp [lookupType, found]
      exact succeeds_lift looked_up
    case upref level =>
      have found := List.getElem?_eq_getElem (fits.upref level rfl)
      simp only [component, found]
      exact succeeds_pure _
  · rw [Bool.not_eq_true] at reference
    rw [component_eq ids enclosing _ reference]
    -- A number can always be reserved, and its type can always be defined.
    refine succeeds_bind ⟨_, _, rfl⟩ fun id between _ => ?_
    refine succeeds_bind (layer reference id enclosing between fits.inside) fun ty after _ => ?_
    exact succeeds_bind (succeeds_modify _) fun _ _ _ => succeeds_pure id

private theorem typeLayers_succeeds (exprs : List TypeExpr)
    (layers : ∀ expr ∈ exprs, LayerSucceeds ids expr) (enclosing : List TypeId)
    (fits : ∀ expr ∈ exprs, expr.Fits (· ∈ ids) enclosing.length) :
    Succeeds (typeLayers ids enclosing exprs) arena := by
  induction exprs generalizing arena with
  | nil =>
    rw [typeLayers]
    exact succeeds_pure []
  | cons expr rest ih =>
    rw [typeLayers]
    have first : Succeeds (component ids enclosing expr (typeLayer ids · expr)) arena :=
      component_succeeds (layers expr List.mem_cons_self) enclosing (fits expr List.mem_cons_self)
    refine succeeds_bind first fun id between _ => ?_
    have others : Succeeds (typeLayers ids enclosing rest) between :=
      ih (fun other member => layers other (List.mem_cons_of_mem expr member))
        fun other member => fits other (List.mem_cons_of_mem expr member)
    exact succeeds_bind others fun _ _ _ => succeeds_pure _

private theorem typeLayer_succeeds (ids : TypeIds) (expr : TypeExpr) : LayerSucceeds ids expr := by
  induction expr using TypeExpr.induction_on_parts with
  | step expr ih =>
    intro reference own outer arena resolvable
    rw [typeLayer_eq ids _ reference]
    exact succeeds_map (typeLayers_succeeds expr.parts ih (own :: outer)
      (TypeExpr.resolvable_iff_parts.mp resolvable))

/-! ### Records -/

theorem linkTypeRecord_eq (ids : TypeIds) (record : TypeRecord) (id : TypeId) :
    linkTypeRecord ids record id =
      if record.ty.isReference then throw (.malformedType record.key)
      else (do defineType id (← typeLayer ids [id] record.ty)) := by
  obtain ⟨key, ty⟩ := record
  cases ty <;> simp [linkTypeRecord, TypeExpr.isReference]

private theorem linkTypeRecord_ensures (record : TypeRecord) {id : TypeId}
    (in_range : InRange ids [id] arena) :
    Ensures (linkTypeRecord ids record id) arena fun _ after =>
      Extended arena after ∧ id ∈ after.types ∧ record.IsLinkable (· ∈ ids) := by
  rw [linkTypeRecord_eq]
  split
  · exact ensures_throw _
  next proper =>
    refine ensures_bind ((typeLayer_ensures ids record.ty id [] arena in_range).mono ?_)
    rintro ty after ⟨extended, inners, resolvable⟩
    refine ensures_modify ⟨?_, by simp, by simpa using proper, resolvable⟩
    -- The number of a record was reserved before all others, so no number is added here.
    have defined : Extended after { after with types := after.types.insert id ty } :=
      { size_le := Nat.le_refl _
        kept := fun other member => Std.ExtTreeMap.mem_insert.mpr (Or.inr member)
        filled := fun other old new => absurd new (Nat.not_lt.mpr old)
        sound := fun sound => defineType_sound sound inners }
    exact extended.trans defined

private theorem linkTypeRecord_succeeds {record : TypeRecord}
    (linkable : record.IsLinkable (· ∈ ids)) (id : TypeId) :
    Succeeds (linkTypeRecord ids record id) arena := by
  rw [linkTypeRecord_eq, linkable.proper]
  have layer := typeLayer_succeeds ids record.ty linkable.proper id [] arena linkable.resolvable
  exact succeeds_bind layer fun _ _ _ => succeeds_modify _

/-! ### All types -/

/-- The arena before any type is linked. The records have their numbers. -/
def TypeArena.start (records : List TypeRecord) : TypeArena :=
  { size := records.length, types := ∅ }

def linkRecords (ids : TypeIds) (records : List TypeRecord) : TypeM Unit :=
  records.zipIdx.forM fun (record, id) => linkTypeRecord ids record id

variable {records : List TypeRecord}

private theorem numberTypes_lt {key : TypeKey} {id : TypeId}
    (numbered : numberTypes records = .ok ids)
    (found : ids[key]? = some id) : id < records.length := by
  have looked_up := @numberTypes_getElem? { types := records } ids numbered key
  rw [found, Table.typeId?] at looked_up
  exact (List.findIdx?_eq_some_iff_findIdx_eq.mp looked_up.symm).1

private theorem mem_numberTypes {key : TypeKey} (numbered : numberTypes records = .ok ids) :
    key ∈ ids ↔ key ∈ records.map TypeRecord.key := by
  have looked_up := @numberTypes_getElem? { types := records } ids numbered key
  rw [Std.ExtTreeMap.mem_iff_isSome_getElem?, looked_up, Table.typeId?, List.findIdx?_isSome]
  simp

private theorem linkRecords_ensures (numbered : numberTypes records = .ok ids) :
    Ensures (linkRecords ids records) (.start records) fun _ after =>
      Extended (.start records) after ∧ ∀ entry ∈ records.zipIdx,
        entry.2 ∈ after.types ∧ entry.1.IsLinkable (· ∈ ids) := by
  refine ensures_forM (fun done after => Extended (.start records) after ∧ ∀ entry ∈ done,
    entry.2 ∈ after.types ∧ entry.1.IsLinkable (· ∈ ids)) records.zipIdx ?_ ⟨.refl _, by simp⟩
  rintro done ⟨record, id⟩ listed arena ⟨extended, all_done⟩
  have bound : id < records.length := by
    obtain ⟨_, bound, _⟩ := List.mem_zipIdx listed
    omega
  -- The records have the first numbers, and the arena has at least as many.
  have in_range : InRange ids [id] arena := by
    constructor
    · intro key other found
      exact Nat.lt_of_lt_of_le (numberTypes_lt numbered found) extended.size_le
    · intro other member
      rw [List.mem_singleton.mp member]
      exact Nat.lt_of_lt_of_le bound extended.size_le
  refine (linkTypeRecord_ensures record in_range).mono ?_
  rintro _ after ⟨extended_later, defined, linkable⟩
  refine ⟨extended.trans extended_later, fun entry member => ?_⟩
  rcases List.mem_append.mp member with old | new
  · exact ⟨extended_later.kept _ (all_done entry old).1, (all_done entry old).2⟩
  · rw [List.mem_singleton.mp new]
    exact ⟨defined, linkable⟩

private theorem linkRecords_succeeds (linkable : ∀ record ∈ records, record.IsLinkable (· ∈ ids)) :
    Succeeds (linkRecords ids records) arena := by
  apply succeeds_forM (fun _ => True) records.zipIdx
  · exact fun _ _ _ _ _ _ _ => trivial
  · rintro ⟨record, id⟩ listed arena _
    exact linkTypeRecord_succeeds (linkable record (List.fst_mem_of_mem_zipIdx listed)) id
  · trivial

/-- Every number that was given out has its type. -/
theorem filled_of_linkRecords {after : TypeArena} (extended : Extended (.start records) after)
    (defined : ∀ entry ∈ records.zipIdx, entry.2 ∈ after.types) {id : TypeId}
    (bound : id < after.size) :
    id ∈ after.types := by
  by_cases record : id < records.length
  · have listed : (records[id], id) ∈ records.zipIdx :=
      List.mk_mem_zipIdx_iff_getElem?.mpr (List.getElem?_eq_getElem record)
    exact defined _ listed
  · exact extended.filled id (Nat.le_of_not_lt record) bound

theorem toList_getElem? {types : List Ty} (listed : arena.toList = .ok types) :
    types.length = arena.size ∧ ∀ id < arena.size, types[id]? = arena.types[id]? := by
  have each := forall₂_of_mapM_eq_ok listed
  have same_length : types.length = arena.size := by simpa using each.length_eq.symm
  refine ⟨same_length, fun id bound => ?_⟩
  have here := (List.forall₂_iff_get.mp each).2 id (by simpa using bound) (same_length ▸ bound)
  simp only [List.get_eq_getElem, List.getElem_range] at here
  rw [List.getElem?_eq_getElem (same_length ▸ bound)]
  split at here
  next ty found => rw [found, Except.ok.inj here]
  next => cases here

theorem linkTypes_eq (records : List TypeRecord) : linkTypes records = (do
    let ids ← numberTypes records
    let (_, arena) ← (linkRecords ids records).run (.start records)
    return (ids, ← arena.toList)) := rfl

/-- What is true of all types once they are linked. -/
theorem linkTypes_ensures {types : List Ty} (linked : linkTypes records = .ok (ids, types)) :
    numberTypes records = .ok ids ∧ (∀ record ∈ records, record.IsLinkable (· ∈ ids)) ∧
      records.length ≤ types.length ∧ ∀ ty ∈ types, ∀ inner ∈ ty.inners, inner < types.length := by
  rw [linkTypes_eq] at linked
  simp only [bind_eq_ok_iff] at linked
  obtain ⟨numbers, numbered, ⟨_, arena⟩, succeeds, found, listed, same⟩ := linked
  obtain ⟨rfl, rfl⟩ := Prod.mk.inj (Except.ok.inj same)
  obtain ⟨extended, all_done⟩ := linkRecords_ensures numbered _ _ succeeds
  obtain ⟨same_length, same_types⟩ := toList_getElem? listed
  -- The list of types is the arena, read in the order of the numbers.
  refine ⟨numbered, ?_, same_length ▸ extended.size_le, ?_⟩
  · intro record member
    obtain ⟨id, at_id⟩ := List.mem_iff_getElem?.mp member
    exact (all_done (record, id) (List.mk_mem_zipIdx_iff_getElem?.mpr at_id)).2
  · intro ty member inner inside
    obtain ⟨id, at_id⟩ := List.mem_iff_getElem?.mp member
    have bound : id < arena.size := same_length ▸ (List.getElem?_eq_some_iff.mp at_id).1
    rw [same_length]
    have sound : (TypeArena.start records).Sound := by simp [TypeArena.Sound, TypeArena.start]
    exact extended.sound sound id ty ((same_types id bound).symm.trans at_id) inner inside

private theorem linkTypes_succeeds (numbered : numberTypes records = .ok ids)
    (linkable : ∀ record ∈ records, record.IsLinkable (· ∈ ids)) :
    ∃ types, linkTypes records = .ok (ids, types) := by
  have linked : Succeeds (linkRecords ids records) (.start records) := linkRecords_succeeds linkable
  obtain ⟨result, arena, succeeds⟩ := linked
  obtain ⟨extended, all_done⟩ := linkRecords_ensures numbered _ _ succeeds
  -- No number is left without a type, so the arena can be listed.
  have listed : ∃ types, arena.toList = .ok types := by
    apply mapM_succeeds
    intro id member
    have filled := filled_of_linkRecords extended (fun entry inside => (all_done entry inside).1)
      (List.mem_range.mp member)
    rw [Std.ExtTreeMap.mem_iff_isSome_getElem?] at filled
    obtain ⟨ty, found⟩ := Option.isSome_iff_exists.mp filled
    exact ⟨ty, by rw [found]⟩
  obtain ⟨types, listed⟩ := listed
  refine ⟨types, ?_⟩
  rw [linkTypes_eq, numbered]
  simp only [bind, Except.bind, succeeds, listed]
  rfl

/-- The types can be linked if and only if no key comes twice, no record is only a reference, and
all references lead to a record or to a type around them. -/
theorem linkTypes_succeeds_iff : (∃ linked, linkTypes records = .ok linked) ↔
    (records.map TypeRecord.key).Nodup ∧
      ∀ record ∈ records, record.IsLinkable (· ∈ records.map TypeRecord.key) := by
  rw [← numberTypes_succeeds_iff]
  constructor
  · rintro ⟨⟨ids, types⟩, linked⟩
    obtain ⟨numbered, linkable, _⟩ := linkTypes_ensures linked
    have same : (fun key => key ∈ ids) = fun key => key ∈ records.map TypeRecord.key :=
      funext fun key => propext (mem_numberTypes numbered)
    exact ⟨⟨ids, numbered⟩, same ▸ linkable⟩
  · rintro ⟨⟨ids, numbered⟩, linkable⟩
    have same : (fun key => key ∈ ids) = fun key => key ∈ records.map TypeRecord.key :=
      funext fun key => propext (mem_numberTypes numbered)
    obtain ⟨types, linked⟩ := linkTypes_succeeds numbered (same ▸ linkable)
    exact ⟨(ids, types), linked⟩

/-! ### The types of a linked module -/

private theorem linkParts_types (source : Source) (types : List Ty) (table : Table)
    (state : State) :
    Ensures (linkParts source types table) state fun module _ => module.types = types := by
  -- Only the last step says what the module is.
  refine ensures_bind fun _ _ _ => ensures_bind fun _ _ _ => ensures_bind fun _ _ _ => ?_
  refine ensures_bind fun _ _ _ => ensures_bind fun _ _ _ => ensures_bind fun _ _ _ => ?_
  exact ensures_bind fun _ _ _ => ensures_pure rfl

end Link

open Link in
/-- The four steps of linking a table. -/
theorem Table.link_eq_ok_iff {table : Table} {module : Module} : table.link = .ok module ↔
    table.error = none ∧ ∃ records ids types, recordsByKey table.values = .ok records ∧
      linkTypes table.types = .ok (ids, types) ∧
      (linkParts { records, typeIds := ids } types table).run' {} = .ok module := by
  rw [Table.link]
  cases table.error with
  | some message => simp [throw, throwThe, MonadExceptOf.throw]
  | none => simp [bind_eq_ok_iff]

open Link in
/-- Every number in the types of a linked module is that of a type, and so are the numbers of the
records. -/
theorem Table.types_of_link {table : Table} {module : Module} (linked : table.link = .ok module) :
    table.types.length ≤ module.types.length ∧
      ∀ ty ∈ module.types, ∀ inner ∈ ty.inners, inner < module.types.length := by
  obtain ⟨_, records, ids, types, _, typed, finished⟩ := link_eq_ok_iff.mp linked
  obtain ⟨_, same⟩ := (linkParts_types _ types table {}).exists_after finished
  obtain ⟨_, _, enough, closed⟩ := linkTypes_ensures typed
  rw [same]
  exact ⟨enough, closed⟩

end FlowIR
