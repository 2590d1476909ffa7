import FlowIR.Proofs.Link.Types
import Mathlib.Data.List.DropRight
import Mathlib.Data.Set.Function
import Mathlib.Order.Interval.Set.Defs

/-!
# Which number a type gets

A type stands at a place: in a record, and there at a path that takes one part after another. The
records have the first numbers. The types inside of them come after that, in the order of a walk
that takes every type before its parts and every part before the next one. A reference to a type
around it leads to a beginning of its own place.

The numbers are fixed before anything is linked. What linking does is then compared to them, by
induction on the walk.
-/
namespace FlowIR

/-- Where a type stands: the record, and then which part to take, from the outside to the inside. -/
abbrev TypePlace := List Nat

namespace Table

/-! ### Places -/

namespace TypeExpr

/-- What stands inside of a type at a path of parts. -/
def inside? (expr : TypeExpr) : List Nat → Option TypeExpr
  | [] => some expr
  | index :: path => expr.parts[index]?.bind (·.inside? path)

private theorem sizeOf_parts_le (expr : TypeExpr) : sizeOf expr.parts ≤ sizeOf expr + 1 := by
  cases expr <;> simp [parts]
  all_goals omega

/-- All types that are not references, in the order of a walk over neighbouring parts of the type at
this place. The first of them is the part with this index. -/
def walk (place : TypePlace) (index : Nat) : List TypeExpr → List (TypePlace × TypeExpr)
  | [] => []
  | expr :: rest =>
    if expr.isReference then walk place (index + 1) rest
    else (place ++ [index], expr) :: walk (place ++ [index]) 0 expr.parts ++
      walk place (index + 1) rest
termination_by exprs => sizeOf exprs
decreasing_by
  all_goals
    have smaller := sizeOf_parts_le expr
    have positive : 0 < sizeOf rest := by cases rest <;> simp +arith
    simp only [List.cons.sizeOf_spec]
    omega

/-- A type stands at this place inside of neighbouring parts of the type at the outer place. -/
def StandsIn (outer : TypePlace) (index : Nat) (exprs : List TypeExpr) (place : TypePlace)
    (expr : TypeExpr) : Prop :=
  ∃ offset path part, exprs[offset]? = some part ∧ part.inside? path = some expr ∧
    place = outer ++ (index + offset) :: path

private theorem not_standsIn_nil (outer : TypePlace) (index : Nat) (place : TypePlace)
    (expr : TypeExpr) :
    ¬StandsIn outer index [] place expr := by
  simp [StandsIn]

private theorem standsIn_cons {outer place : TypePlace} {index : Nat} {first expr : TypeExpr}
    {rest : List TypeExpr} :
    StandsIn outer index (first :: rest) place expr ↔
      (∃ path, first.inside? path = some expr ∧ place = outer ++ index :: path) ∨
        StandsIn outer (index + 1) rest place expr := by
  constructor
  · rintro ⟨offset, path, part, found, inside, rfl⟩
    cases offset with
    | zero =>
      obtain rfl : first = part := by simpa using found
      exact Or.inl ⟨path, inside, rfl⟩
    | succ offset =>
      exact Or.inr ⟨offset, path, part, found, inside, by rw [Nat.add_right_comm, Nat.add_assoc]⟩
  · rintro (⟨path, inside, rfl⟩ | ⟨offset, path, part, found, inside, rfl⟩)
    · exact ⟨0, path, first, rfl, inside, rfl⟩
    · exact ⟨offset + 1, path, part, found, inside, by rw [Nat.add_right_comm, Nat.add_assoc]⟩

/-- A part is either meant itself, or what is meant stands inside of its own parts. -/
theorem exists_inside?_iff {outer place : TypePlace} {index : Nat} {part expr : TypeExpr} :
    (∃ path, part.inside? path = some expr ∧ place = outer ++ index :: path) ↔
      (place, expr) = (outer ++ [index], part) ∨
        StandsIn (outer ++ [index]) 0 part.parts place expr := by
  constructor
  · rintro ⟨path, inside, rfl⟩
    cases path with
    | nil =>
      obtain rfl := Option.some.inj inside
      exact Or.inl rfl
    | cons offset path =>
      obtain ⟨inner, found, inside⟩ := Option.bind_eq_some_iff.mp inside
      exact Or.inr ⟨offset, path, inner, found, inside, by simp⟩
  · rintro (⟨rfl, rfl⟩ | ⟨offset, path, inner, found, inside, rfl⟩)
    · exact ⟨[], rfl, rfl⟩
    · exact ⟨offset :: path, Option.bind_eq_some_iff.mpr ⟨inner, found, inside⟩, by simp⟩

/-- The walk meets exactly the types inside of the parts. -/
theorem mem_walk {outer place : TypePlace} {index : Nat} {exprs : List TypeExpr} {expr : TypeExpr} :
    (place, expr) ∈ walk outer index exprs ↔
      expr.isReference = false ∧ StandsIn outer index exprs place expr := by
  fun_induction walk outer index exprs with
  | case1 => simp [not_standsIn_nil]
  | case2 outer index first rest reference ih =>
    -- A reference is not met, and has no parts.
    rw [ih, standsIn_cons, exists_inside?_iff, parts_of_isReference reference]
    refine and_congr_right fun proper => ?_
    have other : (place, expr) ≠ (outer ++ [index], first) := by
      rintro ⟨rfl, rfl⟩
      simp [reference] at proper
    simp [other, not_standsIn_nil]
  | case3 outer index first rest proper ih_parts ih_rest =>
    rw [List.cons_append, List.mem_cons, List.mem_append, ih_parts, ih_rest, standsIn_cons,
      exists_inside?_iff]
    have own : (place, expr) = (outer ++ [index], first) → expr.isReference = false := by
      rintro ⟨rfl, rfl⟩
      simpa using proper
    tauto

private theorem place_lt {outer path other : TypePlace} {index later : Nat}
    (before : index < later) :
    outer ++ index :: path < outer ++ later :: other :=
  List.append_left_lt (List.cons_lt_cons_iff.mpr (Or.inl before))

/-- The walk follows the order of the places: a type comes before its parts, and a part before the
next one. -/
theorem walk_sorted (outer : TypePlace) (index : Nat) (exprs : List TypeExpr) :
    (walk outer index exprs).Pairwise (·.1 < ·.1) := by
  fun_induction walk outer index exprs with
  | case1 => exact .nil
  | case2 outer index first rest reference ih => exact ih
  | case3 outer index first rest proper ih_parts ih_rest =>
    -- The places of the parts begin with the place of the type, and those of what follows are later
    -- at its last number.
    have own_first : ∀ entry ∈ walk (outer ++ [index]) 0 first.parts ++ walk outer (index + 1) rest,
        outer ++ [index] < entry.1 := by
      rintro ⟨place, expr⟩ member
      rcases List.mem_append.mp member with inside | later
      · obtain ⟨_, _, _, _, _, _, rfl⟩ := mem_walk.mp inside
        rw [List.append_assoc]
        exact List.append_left_lt (List.cons_lt_cons_iff.mpr (Or.inr ⟨rfl, List.nil_lt_cons _ _⟩))
      · obtain ⟨_, _, _, _, _, _, rfl⟩ := mem_walk.mp later
        exact place_lt (by omega)
    refine List.pairwise_cons.mpr ⟨own_first, List.pairwise_append.mpr ⟨ih_parts, ih_rest, ?_⟩⟩
    rintro ⟨place, expr⟩ inside ⟨other, next⟩ later
    obtain ⟨_, _, _, _, _, _, rfl⟩ := mem_walk.mp inside
    obtain ⟨_, _, _, _, _, _, rfl⟩ := mem_walk.mp later
    rw [List.append_assoc]
    exact place_lt (by omega)

/-- The number of a part of the type at this place. References have no number of their own: one
leads to the record with a key, the other one as many levels out as it says. -/
def partNumber? (record? : TypeKey → Option TypeId) (number : TypePlace → TypeId)
    (place : TypePlace) (index : Nat) :
    TypeExpr → Option TypeId
  | ref key => record? key
  | upref level =>
    if level.toNat < place.length then some (number (place.rdrop level.toNat)) else none
  | _ => some (number (place ++ [index]))

/-- The numbers of neighbouring parts of the type at this place, from the part with this index
on. -/
def partNumbers? (record? : TypeKey → Option TypeId) (number : TypePlace → TypeId)
    (place : TypePlace) (index : Nat) (exprs : List TypeExpr) : Option (List TypeId) :=
  (exprs.zipIdx index).mapM fun (part, index) => part.partNumber? record? number place index

theorem partNumbers?_cons {record? : TypeKey → Option TypeId} {number : TypePlace → TypeId}
    {place : TypePlace} {index : Nat} {part : TypeExpr} {rest : List TypeExpr} {id : TypeId}
    {ids : List TypeId} (first : part.partNumber? record? number place index = some id)
    (others : partNumbers? record? number place (index + 1) rest = some ids) :
    partNumbers? record? number place index (part :: rest) = some (id :: ids) := by
  rw [partNumbers?, List.zipIdx_cons, List.mapM_cons]
  exact Option.bind_eq_some_iff.mpr ⟨id, first, Option.bind_eq_some_iff.mpr ⟨ids, others, rfl⟩⟩

end TypeExpr

/-- What stands at a place. -/
def typeAt? (records : List TypeRecord) : TypePlace → Option TypeExpr
  | [] => none
  | index :: path => records[index]?.bind (·.ty.inside? path)

/-- The types inside of a record with this index, in the order of the walk. -/
def TypeRecord.nestedTypes (record : TypeRecord) (index : Nat) : List (TypePlace × TypeExpr) :=
  TypeExpr.walk [index] 0 record.ty.parts

/-- The types inside of all records, one record after the other. -/
def nestedTypes (records : List TypeRecord) : List (TypePlace × TypeExpr) :=
  records.zipIdx.flatMap fun (record, index) => record.nestedTypes index

private theorem mem_nestedTypes {records : List TypeRecord} {place : TypePlace} {expr : TypeExpr} :
    (place, expr) ∈ nestedTypes records ↔
      typeAt? records place = some expr ∧ expr.isReference = false ∧ 1 < place.length := by
  simp only [nestedTypes, TypeRecord.nestedTypes, List.mem_flatMap, Prod.exists,
    List.mk_mem_zipIdx_iff_getElem?, TypeExpr.mem_walk]
  constructor
  · rintro ⟨record, index, listed, proper, offset, path, part, found, inside, rfl⟩
    refine ⟨?_, proper, by simp⟩
    simp [typeAt?, listed, TypeExpr.inside?, found, inside]
  · rintro ⟨found, proper, deep⟩
    -- A place with more than one number leads into the parts of a record.
    obtain ⟨index, offset, path, rfl⟩ : ∃ index offset path, place = index :: offset :: path := by
      match place, deep with
      | index :: offset :: path, _ => exact ⟨index, offset, path, rfl⟩
    obtain ⟨record, listed, inside⟩ := Option.bind_eq_some_iff.mp found
    obtain ⟨part, found, inside⟩ := Option.bind_eq_some_iff.mp inside
    exact ⟨record, index, listed, proper, offset, path, part, found, inside, by simp⟩

private theorem nestedTypes_sorted (records : List TypeRecord) :
    (nestedTypes records).Pairwise (·.1 < ·.1) := by
  rw [nestedTypes, List.pairwise_flatMap]
  refine ⟨fun entry _ => TypeExpr.walk_sorted _ _ _, ?_⟩
  have indices_sorted : records.zipIdx.Pairwise (·.2 < ·.2) := by
    rw [← List.pairwise_map, List.zipIdx_map_snd]
    exact List.pairwise_lt_range'
  -- Places in different records differ in the first index already.
  refine indices_sorted.imp ?_
  rintro ⟨record, index⟩ ⟨other, later⟩ before ⟨place, _⟩ inside ⟨other_place, _⟩ also_inside
  obtain ⟨_, _, _, _, _, _, rfl⟩ := TypeExpr.mem_walk.mp inside
  obtain ⟨_, _, _, _, _, _, rfl⟩ := TypeExpr.mem_walk.mp also_inside
  exact @TypeExpr.place_lt [] _ _ _ _ before

/-- The number of the type at a place. A record has its own index. -/
def typeNumber (records : List TypeRecord) : TypePlace → TypeId
  | [index] => index
  | place => records.length + ((nestedTypes records).map Prod.fst).idxOf place

end Table

namespace Link

open Table (TypeExpr TypeKey TypeRecord)

variable {ids : TypeIds} {number : TypePlace → TypeId}

/-! ### Numbers in a row -/

/-- The types have the numbers from the given one on. -/
def NumberedFrom (number : TypePlace → TypeId) (start : Nat)
    (entries : List (TypePlace × TypeExpr)) : Prop :=
  entries.map (fun entry => number entry.1) = List.range' start entries.length

private theorem numberedFrom_cons {start : Nat} {entry : TypePlace × TypeExpr}
    {rest : List (TypePlace × TypeExpr)} :
    NumberedFrom number start (entry :: rest) ↔
      number entry.1 = start ∧ NumberedFrom number (start + 1) rest := by
  simp [NumberedFrom, List.range'_succ]

private theorem numberedFrom_append {start : Nat} {first second : List (TypePlace × TypeExpr)} :
    NumberedFrom number start (first ++ second) ↔
      NumberedFrom number start first ∧ NumberedFrom number (start + first.length) second := by
  rw [NumberedFrom, List.length_append, ← List.range'_append, Nat.one_mul, List.map_append]
  constructor
  · exact fun same => List.append_inj same (by simp)
  · rintro ⟨numbered, numbered_later⟩
    exact congrArg₂ (· ++ ·) numbered numbered_later

private theorem NumberedFrom.bounds {start : Nat} {entries : List (TypePlace × TypeExpr)}
    (numbered : NumberedFrom number start entries) {entry : TypePlace × TypeExpr}
    (member : entry ∈ entries) :
    start ≤ number entry.1 ∧ number entry.1 < start + entries.length := by
  have listed : number entry.1 ∈ List.range' start entries.length :=
    numbered ▸ List.mem_map_of_mem member
  exact List.mem_range'_1.mp listed

private theorem NumberedFrom.bijOn {start : Nat} {entries : List (TypePlace × TypeExpr)}
    (numbered : NumberedFrom number start entries) :
    Set.BijOn number {place | ∃ expr, (place, expr) ∈ entries}
      (Set.Ico start (start + entries.length)) := by
  refine ⟨?_, ?_, ?_⟩
  · rintro place ⟨expr, member⟩
    exact numbered.bounds member
  · rintro place ⟨expr, member⟩ other ⟨other_expr, other_member⟩ same
    have distinct : (entries.map fun entry => number entry.1).Nodup := by
      rw [numbered]
      exact List.nodup_range'
    exact congrArg Prod.fst (List.inj_on_of_nodup_map distinct member other_member same)
  · intro id bounds
    have listed : id ∈ entries.map fun entry => number entry.1 := by
      rw [numbered]
      exact List.mem_range'_1.mpr bounds
    obtain ⟨⟨place, expr⟩, member, rfl⟩ := List.mem_map.mp listed
    exact ⟨place, ⟨expr, member⟩, rfl⟩

/-! ### What linking does along the walk -/

/-- The numbers of the types around a part of the type at this place, the innermost first. -/
def around (number : TypePlace → TypeId) (place : TypePlace) : List TypeId :=
  (List.range place.length).map fun level => number (place.rdrop level)

private theorem around_concat (number : TypePlace → TypeId) (place : TypePlace) (index : Nat) :
    around number (place ++ [index]) = number (place ++ [index]) :: around number place := by
  rw [around, List.length_append, List.length_singleton, List.range_succ_eq_map, List.map_cons,
    List.map_map, List.rdrop_zero]
  simp [around, Function.comp_def, List.rdrop_concat_succ]

private theorem around_getElem? (number : TypePlace → TypeId) (place : TypePlace) (level : Nat) :
    (around number place)[level]? = if level < place.length then some (number (place.rdrop level))
      else none := by
  rw [around, List.getElem?_map]
  split
  next inside => rw [List.getElem?_range inside, Option.map_some]
  next outside => simp [outside]

/-- The arena has the type at this place, with the numbers of its parts. -/
def TypeArena.Holds (arena : TypeArena) (ids : TypeIds) (number : TypePlace → TypeId)
    (entry : TypePlace × TypeExpr) :
    Prop :=
  ∃ inners, TypeExpr.partNumbers? (ids[·]?) number entry.1 0 entry.2.parts = some inners ∧
    arena.types[number entry.1]? = some (entry.2.assemble inners)

/-- New types got the next numbers, some that had a number already were defined as well, and nothing
else changed. -/
structure Walked (ids : TypeIds) (number : TypePlace → TypeId)
    (defined added : List (TypePlace × TypeExpr)) (before after : TypeArena) : Prop where
  size : after.size = before.size + added.length
  kept : ∀ id < before.size, (∀ entry ∈ defined, number entry.1 ≠ id) →
    after.types[id]? = before.types[id]?
  holds_defined : ∀ entry ∈ defined, after.Holds ids number entry
  holds_added : ∀ entry ∈ added, after.Holds ids number entry

private theorem Walked.size_le {defined added : List (TypePlace × TypeExpr)}
    {before after : TypeArena} (walked : Walked ids number defined added before after) :
    before.size ≤ after.size := by
  rw [walked.size]
  exact Nat.le_add_right _ _

private theorem Walked.refl (arena : TypeArena) : Walked ids number [] [] arena arena := by
  constructor <;> simp

private theorem TypeArena.Holds.of_kept {before after : TypeArena} {entry : TypePlace × TypeExpr}
    (holds : before.Holds ids number entry)
    (kept : after.types[number entry.1]? = before.types[number entry.1]?) :
    after.Holds ids number entry := by
  obtain ⟨inners, numbered, found⟩ := holds
  exact ⟨inners, numbered, kept.trans found⟩

/-- What was defined and added first is still there if what is defined later has other numbers. -/
theorem Walked.trans {defined added defined_later added_later : List (TypePlace × TypeExpr)}
    {before between after : TypeArena} (first : Walked ids number defined added before between)
    (second : Walked ids number defined_later added_later between after)
    (numbered : NumberedFrom number before.size added)
    (old : ∀ entry ∈ defined ++ defined_later, number entry.1 < before.size)
    (distinct : ∀ entry ∈ defined, ∀ later ∈ defined_later, number later.1 ≠ number entry.1) :
    Walked ids number (defined ++ defined_later) (added ++ added_later) before after where
  size := by rw [second.size, first.size, List.length_append, Nat.add_assoc]
  kept := by
    intro id bound others
    have later_bound := Nat.lt_of_lt_of_le bound first.size_le
    rw [second.kept id later_bound fun entry member =>
      others entry (List.mem_append_right _ member)]
    exact first.kept id bound fun entry member => others entry (List.mem_append_left _ member)
  holds_defined := by
    intro entry member
    rcases List.mem_append.mp member with early | late
    · have bound : number entry.1 < between.size :=
        Nat.lt_of_lt_of_le (old entry (List.mem_append_left _ early)) first.size_le
      exact (first.holds_defined entry early).of_kept (second.kept _ bound (distinct entry early))
    · exact second.holds_defined entry late
  holds_added := by
    intro entry member
    rcases List.mem_append.mp member with early | late
    · -- The new numbers are larger than those of all types that are defined later.
      obtain ⟨above, below⟩ := numbered.bounds early
      refine (first.holds_added entry early).of_kept
        (second.kept _ (by rwa [first.size]) fun later member => ?_)
      exact Nat.ne_of_lt (Nat.lt_of_lt_of_le (old later (List.mem_append_right _ member)) above)
    · exact second.holds_added entry late

private theorem ensures_component_reference {part : TypeExpr} (reference : part.isReference = true)
    (place : TypePlace) (index : Nat) (layer : List TypeId → TypeM Ty) (arena : TypeArena) :
    Ensures (component ids (around number place) part layer) arena fun id after =>
      part.partNumber? (ids[·]?) number place index = some id ∧ after = arena := by
  cases part <;> simp only [TypeExpr.isReference, Bool.false_eq_true] at reference
  case ref key =>
    refine ensures_lift fun id found => ⟨?_, rfl⟩
    rw [lookupType] at found
    split at found
    next known => exact known.trans (congrArg some (Except.ok.inj found))
    next => cases found
  case upref level =>
    rw [component, around_getElem?]
    split
    next id found => exact ensures_pure ⟨found, rfl⟩
    next => exact ensures_throw _

/-- Linking the parts of a type gives their numbers. -/
def PartsWalked (ids : TypeIds) (number : TypePlace → TypeId) (place : TypePlace) (index : Nat)
    (exprs : List TypeExpr) : Prop :=
  ∀ arena, NumberedFrom number arena.size (TypeExpr.walk place index exprs) →
    Ensures (typeLayers ids (around number place) exprs) arena fun inners after =>
      TypeExpr.partNumbers? (ids[·]?) number place index exprs = some inners ∧
        Walked ids number [] (TypeExpr.walk place index exprs) arena after

/-- A type is defined once its layer is linked. -/
theorem ensures_typeLayer_defined {place : TypePlace} {expr : TypeExpr}
    (proper : expr.isReference = false) (parts : PartsWalked ids number place 0 expr.parts)
    {arena : TypeArena} (own : number place < arena.size)
    (numbered : NumberedFrom number arena.size (TypeExpr.walk place 0 expr.parts)) :
    Ensures (typeLayer ids (around number place) expr) arena fun ty after =>
      Walked ids number [(place, expr)] (TypeExpr.walk place 0 expr.parts) arena
        { after with types := after.types.insert (number place) ty } := by
  rw [typeLayer_eq ids _ proper]
  refine ensures_map ((parts arena numbered).mono ?_)
  rintro inners after ⟨inners_eq, walked⟩
  constructor
  · exact walked.size
  · intro id bound other
    have different : number place ≠ id := other _ List.mem_cons_self
    rw [Std.ExtTreeMap.getElem?_insert, if_neg (by simpa using different)]
    exact walked.kept id bound (by simp)
  · intro entry member
    rw [List.mem_singleton.mp member]
    exact ⟨inners, inners_eq, by simp⟩
  · -- The types inside have larger numbers, so they are still there when the type itself is
    -- defined.
    intro entry member
    have different : number place ≠ number entry.1 :=
      Nat.ne_of_lt (Nat.lt_of_lt_of_le own (numbered.bounds member).1)
    refine (walked.holds_added entry member).of_kept ?_
    rw [Std.ExtTreeMap.getElem?_insert, if_neg (by simpa using different)]

private theorem ensures_component {place : TypePlace} {index : Nat} {expr : TypeExpr}
    (proper : expr.isReference = false)
    (parts : PartsWalked ids number (place ++ [index]) 0 expr.parts) {arena : TypeArena}
    (numbered : NumberedFrom number arena.size
      ((place ++ [index], expr) :: TypeExpr.walk (place ++ [index]) 0 expr.parts)) :
    Ensures (component ids (around number place) expr (typeLayer ids · expr)) arena fun id after =>
      expr.partNumber? (ids[·]?) number place index = some id ∧
        Walked ids number []
          ((place ++ [index], expr) :: TypeExpr.walk (place ++ [index]) 0 expr.parts)
          arena after := by
  obtain ⟨own, numbered⟩ := numberedFrom_cons.mp numbered
  rw [component_eq ids _ _ proper]
  refine ensures_bind (ensures_modifyGet ?_)
  have reserved : number (place ++ [index]) < arena.size + 1 := by
    rw [own]
    exact Nat.lt_succ_self _
  have layer := @ensures_typeLayer_defined ids number _ expr proper parts
    { arena with size := arena.size + 1 } reserved numbered
  rw [around_concat, own] at layer
  refine ensures_bind (layer.mono fun ty after walked => ?_)
  refine ensures_bind (ensures_modify (ensures_pure ⟨?_, ?_⟩))
  · cases expr <;> simp_all [TypeExpr.isReference, TypeExpr.partNumber?]
  · -- Seen from before its number was reserved, the type is one of those that were added.
    constructor
    · have size := walked.size
      rw [List.length_cons]
      exact size.trans (Nat.add_right_comm _ _ _)
    · intro id bound _
      refine walked.kept id (Nat.lt_succ_of_lt bound) fun entry member => ?_
      rw [List.mem_singleton.mp member, own]
      exact Nat.ne_of_gt bound
    · simp
    · exact List.forall_mem_cons.mpr ⟨walked.holds_defined _ List.mem_cons_self, walked.holds_added⟩

private theorem partsWalked (ids : TypeIds) (number : TypePlace → TypeId) (place : TypePlace)
    (index : Nat) (exprs : List TypeExpr) : PartsWalked ids number place index exprs := by
  fun_induction TypeExpr.walk place index exprs with
  | case1 place index =>
    intro arena _
    rw [typeLayers]
    exact ensures_pure ⟨rfl, by rw [TypeExpr.walk]; exact .refl arena⟩
  | case2 place index first rest reference ih =>
    intro arena numbered
    -- A reference takes no number, so the others have all of them.
    rw [TypeExpr.walk, if_pos reference] at numbered ⊢
    rw [typeLayers]
    refine ensures_bind ((ensures_component_reference reference place index _ arena).mono ?_)
    rintro id _ ⟨id_eq, rfl⟩
    refine ensures_bind ((ih _ numbered).mono ?_)
    rintro inners after ⟨inners_eq, walked⟩
    exact ensures_pure ⟨TypeExpr.partNumbers?_cons id_eq inners_eq, walked⟩
  | case3 place index first rest proper ih_parts ih_rest =>
    intro arena numbered
    rw [TypeExpr.walk, if_neg proper] at numbered ⊢
    rw [Bool.not_eq_true] at proper
    -- The first part and what is inside of it take the first numbers, the other parts go on after
    -- them.
    obtain ⟨numbered_first, numbered_rest⟩ := numberedFrom_append.mp numbered
    rw [typeLayers]
    refine ensures_bind ((ensures_component proper ih_parts numbered_first).mono ?_)
    rintro id between ⟨id_eq, walked_first⟩
    rw [← walked_first.size] at numbered_rest
    refine ensures_bind ((ih_rest _ numbered_rest).mono ?_)
    rintro inners after ⟨inners_eq, walked_rest⟩
    exact ensures_pure ⟨TypeExpr.partNumbers?_cons id_eq inners_eq,
      walked_first.trans walked_rest numbered_first (by simp) (by simp)⟩

/-! ### Records -/

private theorem ensures_linkTypeRecord {record : TypeRecord} {index : Nat} {arena : TypeArena}
    (own : number [index] = index) (bound : index < arena.size)
    (numbered : NumberedFrom number arena.size (record.nestedTypes index)) :
    Ensures (linkTypeRecord ids record index) arena fun _ after => record.ty.isReference = false ∧
      Walked ids number [([index], record.ty)] (record.nestedTypes index) arena after := by
  rw [linkTypeRecord_eq]
  split
  next => exact ensures_throw _
  next proper =>
    rw [Bool.not_eq_true] at proper
    have parts := partsWalked ids number [index] 0 record.ty.parts
    have layer := ensures_typeLayer_defined proper parts (own.symm ▸ bound) numbered
    -- Nothing stands around a record.
    have alone : around number [index] = [index] := by simp [around, own]
    rw [alone, own] at layer
    exact ensures_bind (layer.mono fun ty after walked => ensures_modify ⟨proper, walked⟩)

private theorem ensures_forM_linkTypeRecord (entries : List (TypeRecord × Nat)) {arena : TypeArena}
    (own : ∀ entry ∈ entries, number [entry.2] = entry.2 ∧ entry.2 < arena.size)
    (distinct : entries.Pairwise (·.2 ≠ ·.2))
    (numbered : NumberedFrom number arena.size
      (entries.flatMap fun (record, index) => record.nestedTypes index)) :
    Ensures (entries.forM fun (record, index) => linkTypeRecord ids record index) arena
      fun _ after =>
      (∀ entry ∈ entries, entry.1.ty.isReference = false) ∧
        Walked ids number (entries.map fun (record, index) => ([index], record.ty))
          (entries.flatMap fun (record, index) => record.nestedTypes index) arena after := by
  induction entries generalizing arena with
  | nil => exact ensures_pure ⟨by simp, .refl arena⟩
  | cons entry rest ih =>
    obtain ⟨record, index⟩ := entry
    obtain ⟨differs, distinct⟩ := List.pairwise_cons.mp distinct
    obtain ⟨⟨own_first, bound⟩, own_rest⟩ := List.forall_mem_cons.mp own
    rw [List.flatMap_cons, numberedFrom_append] at numbered
    refine ensures_bind ((ensures_linkTypeRecord own_first bound numbered.1).mono ?_)
    rintro _ between ⟨proper, walked⟩
    have own_later : ∀ entry ∈ rest, number [entry.2] = entry.2 ∧ entry.2 < between.size :=
      fun entry member =>
        ⟨(own_rest entry member).1, Nat.lt_of_lt_of_le (own_rest entry member).2 walked.size_le⟩
    refine (ih own_later distinct (by rw [walked.size]; exact numbered.2)).mono ?_
    rintro _ after ⟨proper_later, walked_later⟩
    refine ⟨List.forall_mem_cons.mpr ⟨proper, proper_later⟩,
      walked.trans walked_later numbered.1 ?_ ?_⟩
    · -- The records have their numbers from the start.
      have old : ∀ entry ∈ (record, index) :: rest, number [entry.2] < arena.size :=
        fun entry member => (own entry member).1.symm ▸ (own entry member).2
      rw [List.forall_mem_append, List.forall_mem_singleton, List.forall_mem_map]
      exact List.forall_mem_cons.mp old
    · rw [List.forall_mem_singleton, List.forall_mem_map]
      intro entry member
      rw [(own_rest entry member).1, own_first]
      exact (differs entry member).symm

end Link

/-! ### All types -/

namespace Table

/-- The types are those at the places in the records, with numbers in place of the parts. -/
structure TypesNumbered (records : List TypeRecord) (number : TypePlace → TypeId)
    (types : List Ty) : Prop where
  /-- The records are types of their own and have the first numbers, in their order. -/
  records_first : ∀ index record, records[index]? = some record →
    record.ty.isReference = false ∧ number [index] = index
  /-- Every other number belongs to exactly one type inside of a record. -/
  nested_bijective : Set.BijOn number
    {place | ∃ expr, typeAt? records place = some expr ∧ expr.isReference = false ∧
      1 < place.length}
    (Set.Ico records.length types.length)
  /-- The numbers follow the walk. -/
  nested_in_order : (nestedTypes records).map (fun entry => number entry.1) =
    List.range' records.length (types.length - records.length)
  /-- The type with a number is the one at its place. -/
  realized : ∀ place expr, typeAt? records place = some expr → expr.isReference = false →
    ∃ inners, types[number place]? = some (expr.assemble inners) ∧
      TypeExpr.partNumbers? (fun key => records.findIdx? (·.key = key)) number place 0 expr.parts =
        some inners

private theorem nodup_nestedTypes (records : List TypeRecord) :
    ((nestedTypes records).map Prod.fst).Nodup := by
  rw [List.Nodup, List.pairwise_map]
  refine (nestedTypes_sorted records).imp fun before same => ?_
  rw [same] at before
  exact List.lt_irrefl _ before

private theorem typeNumber_nested {records : List TypeRecord} {place : TypePlace}
    (deep : 1 < place.length) :
    typeNumber records place =
      records.length + ((nestedTypes records).map Prod.fst).idxOf place := by
  match place, deep with
  | _ :: _ :: _, _ => rfl

/-- The number of a type inside of a record is where the walk meets it. -/
theorem numberedFrom_typeNumber (records : List TypeRecord) :
    Link.NumberedFrom (typeNumber records) records.length (nestedTypes records) := by
  refine List.ext_getElem (by simp) fun position bound _ => ?_
  rw [List.length_map] at bound
  have deep : 1 < (nestedTypes records)[position].1.length :=
    (mem_nestedTypes.mp (List.getElem_mem bound)).2.2
  have found := (nodup_nestedTypes records).idxOf_getElem position (by simpa using bound)
  rw [List.getElem_map] at found
  rw [List.getElem_map, typeNumber_nested deep, found, List.getElem_range', Nat.one_mul]

end Table

namespace Link

open Table (TypeExpr TypeKey TypeRecord nestedTypes typeNumber)

/-- What linking all records leaves in the arena. -/
theorem linkRecords_walked {records : List TypeRecord} {ids : TypeIds} :
    Ensures (linkRecords ids records) (.start records) fun _ after =>
      (∀ entry ∈ records.zipIdx, entry.1.ty.isReference = false) ∧
        Walked ids (typeNumber records)
          (records.zipIdx.map fun (record, index) => ([index], record.ty))
          (nestedTypes records) (.start records) after := by
  refine ensures_forM_linkTypeRecord records.zipIdx ?_ ?_ (Table.numberedFrom_typeNumber records)
  · rintro ⟨record, index⟩ listed
    exact ⟨rfl, (List.getElem?_eq_some_iff.mp (List.mk_mem_zipIdx_iff_getElem?.mp listed)).1⟩
  · rw [← List.pairwise_map, List.zipIdx_map_snd]
    exact List.nodup_range'

private theorem numberTypes_record {records : List TypeRecord} {ids : TypeIds}
    (numbered : numberTypes records = .ok ids) {index : Nat} {record : TypeRecord}
    (found : records[index]? = some record) : ids[record.key]? = some index := by
  obtain ⟨bound, rfl⟩ := List.getElem?_eq_some_iff.mp found
  have distinct : (records.map TypeRecord.key).Nodup := numberTypes_succeeds_iff.mp ⟨ids, numbered⟩
  rw [@numberTypes_getElem? { types := records } ids numbered, Table.typeId?,
    List.findIdx?_eq_some_iff_getElem]
  refine ⟨bound, by simp, fun earlier before same => ?_⟩
  -- The keys are different, so the record is the first one with its key.
  rw [List.Nodup, List.pairwise_map] at distinct
  exact List.pairwise_iff_getElem.mp distinct earlier index (Nat.lt_trans before bound) bound before
    (by simpa using same)

/-- What the arena holds at the number of a type inside of a record or of the record itself. -/
theorem holds_of_linkRecords {records : List TypeRecord} {ids : TypeIds} {after : TypeArena}
    (walked : Walked ids (typeNumber records)
      (records.zipIdx.map fun (record, index) => ([index], record.ty)) (nestedTypes records)
      (.start records) after)
    {place : TypePlace} {expr : TypeExpr} (found : Table.typeAt? records place = some expr)
    (proper : expr.isReference = false) :
    typeNumber records place < after.size ∧ after.Holds ids (typeNumber records) (place, expr) := by
  by_cases deep : 1 < place.length
  · have member := Table.mem_nestedTypes.mpr ⟨found, proper, deep⟩
    refine ⟨?_, walked.holds_added _ member⟩
    rw [walked.size]
    exact ((Table.numberedFrom_typeNumber records).bounds member).2
  · -- A place is not empty, so this one is that of a record.
    match place, deep, found with
    | [index], _, found =>
      obtain ⟨record, listed, inside⟩ := Option.bind_eq_some_iff.mp found
      obtain rfl : record.ty = expr := Option.some.inj inside
      have member := List.mk_mem_zipIdx_iff_getElem?.mpr listed
      refine ⟨?_, walked.holds_defined _ (List.mem_map_of_mem member)⟩
      exact Nat.lt_of_lt_of_le (List.getElem?_eq_some_iff.mp listed).1 walked.size_le
    | _ :: _ :: _, shallow, _ => simp at shallow

/-- The records have the first numbers, in their order. The types inside of them come after that, in
the order of the walk, and every number belongs to one type. -/
theorem linkTypes_numbered {records : List TypeRecord} {ids : TypeIds} {types : List Ty}
    (linked : linkTypes records = .ok (ids, types)) :
    (∀ index (record : TypeRecord), records[index]? = some record → ids[record.key]? = some index) ∧
      records.length ≤ types.length ∧ Table.TypesNumbered records (typeNumber records) types := by
  rw [linkTypes_eq] at linked
  simp only [bind_eq_ok_iff] at linked
  obtain ⟨numbers, numbered, ⟨_, arena⟩, succeeds, found, listed, same⟩ := linked
  obtain ⟨rfl, rfl⟩ := Prod.mk.inj (Except.ok.inj same)
  obtain ⟨proper, walked⟩ := linkRecords_walked _ _ succeeds
  obtain ⟨same_length, same_types⟩ := toList_getElem? listed
  -- The arena has grown by the types inside of the records, which have the numbers after those of
  -- the records.
  have in_row := Table.numberedFrom_typeNumber records
  have size : found.length = records.length + (nestedTypes records).length :=
    same_length.trans walked.size
  refine ⟨fun index record => numberTypes_record numbered, by omega, ?_⟩
  constructor
  · intro index record listed
    exact ⟨proper (record, index) (List.mk_mem_zipIdx_iff_getElem?.mpr listed), rfl⟩
  · have bijective := in_row.bijOn
    simp only [Table.mem_nestedTypes] at bijective
    rwa [size]
  · rw [size, Nat.add_sub_cancel_left]
    exact in_row
  · intro place expr at_place proper
    obtain ⟨bound, inners, inners_eq, held⟩ := holds_of_linkRecords walked at_place proper
    -- A reference by key was looked up among the numbers, which are the indices of the records.
    have known : (fun key : TypeKey => numbers[key]?) = fun key => records.findIdx? (·.key = key) :=
      funext (@numberTypes_getElem? { types := records } numbers numbered)
    rw [known] at inners_eq
    exact ⟨inners, (same_types _ bound).trans held, inners_eq⟩

/-- Two records that lead to each other, with types that lead back to a record from several levels
inside of it. -/
def knotted : List TypeRecord := [
  { key := 7
    ty := .struct [.pointer (.upref 1) 0, .ref 9, .array 4 (.named "node" (.pointer (.upref 3) 0))]
      false },
  { key := 9
    ty := .function (.pointer (.upref 1) 0) [.ref 7, .integer 8] true }]

/-- The innermost pointer of the first record is the last of the types inside of it, and points to
the record. -/
theorem knotted_numbered :
    ∃ ids types, linkTypes knotted = .ok (ids, types) ∧ ids[(9 : TypeKey)]? = some 1 ∧
    typeNumber knotted [0, 2, 0, 0] = 5 ∧ types[5]? = some (.pointer 0 0) ∧
    Table.TypesNumbered knotted (typeNumber knotted) types := by
  have run : (linkTypes knotted).toOption.map (fun _ => ()) = some () := by decide +kernel
  obtain ⟨⟨ids, types⟩, linked, _⟩ := exists_ok_of_toOption_map run
  obtain ⟨first, _, numbered⟩ := linkTypes_numbered linked
  have number : typeNumber knotted [0, 2, 0, 0] = 5 := by
    simp [typeNumber, nestedTypes, knotted, TypeRecord.nestedTypes, TypeExpr.walk, TypeExpr.parts,
      TypeExpr.isReference]
  obtain ⟨inners, held, inners_eq⟩ := numbered.realized [0, 2, 0, 0] (.pointer (.upref 3) 0) rfl rfl
  obtain rfl : [0] = inners := Option.some.inj inners_eq
  exact ⟨ids, types, linked, first 1 _ rfl, number, number ▸ held, numbered⟩

end Link

end FlowIR
