import FlowIR.Proofs.Json.RoundTrip
import FlowIR.Proofs.Table.Records

/-!
# Tables that are read back

The text of a table is read as the same table if its numbers are finite, the format reads them back
one by one, and its types do not nest too deeply. Every type takes as many levels in the text as the
reader counts for it, so the limit on the text is all that is needed.
-/
namespace FlowIR.Json

mutual

/-- How many lists and objects are open at once in the text of a document. -/
def nesting : Json → Nat
  | list items => itemsNesting items + 1
  | object fields => fieldsNesting fields + 1
  | _ => 0

def itemsNesting : List Json → Nat
  | [] => 0
  | item :: items => max (nesting item) (itemsNesting items)

def fieldsNesting : List (Option String × Json) → Nat
  | [] => 0
  | (_, value) :: fields => max (nesting value) (fieldsNesting fields)

end

private theorem nesting_lt_list {items : List Json} {item : Json} (mem : item ∈ items) :
    item.nesting < (list items).nesting := by
  rw [nesting, Nat.lt_succ_iff]
  induction items with
  | nil => simp at mem
  | cons first rest ih =>
    rw [itemsNesting]
    rcases List.mem_cons.mp mem with rfl | later
    · exact Nat.le_max_left _ _
    · exact Nat.le_trans (ih later) (Nat.le_max_right _ _)

private theorem nesting_lt_object {fields : List (Option String × Json)}
    {field : Option String × Json} (mem : field ∈ fields) :
    field.2.nesting < (object fields).nesting := by
  rw [nesting, Nat.lt_succ_iff]
  induction fields with
  | nil => simp at mem
  | cons first rest ih =>
    rw [fieldsNesting]
    rcases List.mem_cons.mp mem with rfl | later
    · exact Nat.le_max_left _ _
    · exact Nat.le_trans (ih later) (Nat.le_max_right _ _)

end FlowIR.Json

namespace FlowIR.Table

open Encode
open Json (Printable listOf?)

variable {α : Type}

/-! ### Types -/

namespace TypeExpr

/-- A list of types, where the list itself takes a level. -/
def listOfJson? : Nat → Json → Option (List TypeExpr)
  | 0, _ => none
  | room + 1, document => listOf? (ofJson? room) document

private theorem ofJson?_scalar {name : String} {data : Json} {room : Nat} {ty : TypeExpr}
    (shallow : (choice name data).nesting ≤ room) (not_plain : plain? name = none)
    (scalar : ∀ room, scalar? room name data = some ty) :
    ofJson? room (choice name data) = some ty := by
  have opened : 0 < (choice name data).nesting := Nat.zero_lt_succ _
  obtain ⟨inside, rfl⟩ : ∃ inside, room = inside + 1 := ⟨room - 1, by omega⟩
  simp [choice, object, ofJson?, not_plain, scalar]

/-- The choice and the record of a type with types in it take two levels. -/
theorem ofJson?_compound {name : String} {data : Json} {room : Nat} (not_plain : plain? name = none)
    (not_scalar : scalar? (room + 1) name data = none) :
    ofJson? (room + 2) (choice name data) =
      compound? (ofJson? room) (listOfJson? room) name data := by
  cases room with
  | zero =>
    -- No level is left for a list, not even for an empty one.
    have no_list : listOfJson? 0 = fun _ => none := rfl
    simp [choice, object, ofJson?, not_plain, not_scalar, no_list]
  | succ room =>
    have some_list : listOfJson? (room + 1) = listOf? (ofJson? room) := rfl
    simp [choice, object, ofJson?, not_plain, not_scalar, some_list]

private theorem exists_room {name : String} {fields : List (String × Json)} {room : Nat}
    (shallow : (choice name (object fields)).nesting ≤ room) :
    ∃ inside, room = inside + 2 ∧ ∀ field ∈ fields, field.2.nesting ≤ inside := by
  have record : (object fields).nesting < (choice name (object fields)).nesting :=
    @Json.nesting_lt_object _ (some name, object fields) List.mem_cons_self
  have opened : 0 < (object fields).nesting := Nat.zero_lt_succ _
  refine ⟨room - 2, by omega, fun field mem => ?_⟩
  have inner : field.2.nesting < (object fields).nesting :=
    @Json.nesting_lt_object _ (some field.1, field.2) (by simpa [object] using mem)
  omega

private theorem listOfJson?_list {documents : List Json} {tys : List TypeExpr} {room : Nat}
    (shallow : (Json.list documents).nesting ≤ room)
    (read : ∀ inside, (∀ document ∈ documents, document.nesting ≤ inside) →
      documents.mapM (ofJson? inside) = some tys) :
    listOfJson? room (.list documents) = some tys := by
  have opened : 0 < (Json.list documents).nesting := Nat.zero_lt_succ _
  obtain ⟨inside, rfl⟩ : ∃ inside, room = inside + 1 := ⟨room - 1, by omega⟩
  apply read
  intro document mem
  have := Json.nesting_lt_list mem
  omega

mutual

private theorem ofJson?_toJson :
    ∀ (ty : TypeExpr) {room : Nat}, ty.toJson.nesting ≤ room → ofJson? room ty.toJson = some ty
  | .void, room, _ => by cases room <;> rfl
  | .label, room, _ => by cases room <;> rfl
  | .metadata, room, _ => by cases room <;> rfl
  | .integer width, _, shallow => ofJson?_scalar shallow (by decide) (by simp [scalar?])
  | .float kind, _, shallow => ofJson?_scalar shallow (by decide) (by simp [scalar?])
  | .opaqueType name, _, shallow => ofJson?_scalar shallow (by decide) (by simp [scalar?])
  | .ref key, _, shallow => ofJson?_scalar shallow (by decide) (by simp [scalar?])
  | .upref level, _, shallow => ofJson?_scalar shallow (by decide) (by simp [scalar?])
  | .pointer pointee addrSpace, room, shallow => by
    -- Two levels are taken by the type itself, and what is left is enough for the types in it.
    obtain ⟨room, rfl, inside⟩ := exists_room shallow
    have pointee_read := ofJson?_toJson pointee (inside ("pointee", _) (by simp))
    rw [toJson, ofJson?_compound (by decide) rfl]
    refine read_record rfl (by decide) ?_
    apply read_field (required?_eq rfl pointee_read)
    apply read_field (uint32Field?_eq rfl)
    rfl
  | .array len elem, room, shallow => by
    obtain ⟨room, rfl, inside⟩ := exists_room shallow
    have elem_read := ofJson?_toJson elem (inside ("elem", _) (by simp))
    rw [toJson, ofJson?_compound (by decide) rfl]
    refine read_record rfl (by decide) ?_
    apply read_field (required?_eq rfl (uint64?_ofUInt64 len))
    apply read_field (required?_eq rfl elem_read)
    rfl
  | .vector len elem, room, shallow => by
    obtain ⟨room, rfl, inside⟩ := exists_room shallow
    have elem_read := ofJson?_toJson elem (inside ("elem", _) (by simp))
    rw [toJson, ofJson?_compound (by decide) rfl]
    refine read_record rfl (by decide) ?_
    apply read_field (required?_eq rfl (uint64?_ofUInt64 len))
    apply read_field (required?_eq rfl elem_read)
    rfl
  | .function ret params vararg, room, shallow => by
    obtain ⟨room, rfl, inside⟩ := exists_room shallow
    have ret_read := ofJson?_toJson ret (inside ("ret", _) (by simp))
    have params_read := listOfJson?_list (inside ("params", .list (listToJson params)) (by simp))
        fun within fit =>
      mapM_ofJson?_listToJson params fit
    rw [toJson, ofJson?_compound (by decide) rfl]
    refine read_record rfl (by decide) ?_
    apply read_field (required?_eq rfl ret_read)
    apply read_field (defaulted?_eq rfl params_read)
    apply read_field (boolField?_eq rfl)
    rfl
  | .struct fields packed, room, shallow => by
    obtain ⟨room, rfl, inside⟩ := exists_room shallow
    have fields_read := listOfJson?_list (inside ("fields", .list (listToJson fields)) (by simp))
        fun within fit =>
      mapM_ofJson?_listToJson fields fit
    rw [toJson, ofJson?_compound (by decide) rfl]
    refine read_record rfl (by decide) ?_
    apply read_field (required?_eq rfl fields_read)
    apply read_field (boolField?_eq rfl)
    rfl
  | .named name inner, room, shallow => by
    obtain ⟨room, rfl, inside⟩ := exists_room shallow
    have inner_read := ofJson?_toJson inner (inside ("inner", _) (by simp))
    rw [toJson, ofJson?_compound (by decide) rfl]
    refine read_record rfl (by decide) ?_
    apply read_field (required?_eq rfl (string?_ofText name))
    apply read_field (required?_eq rfl inner_read)
    rfl

theorem mapM_ofJson?_listToJson : ∀ (tys : List TypeExpr) {room : Nat},
    (∀ document ∈ listToJson tys, document.nesting ≤ room) →
      (listToJson tys).mapM (ofJson? room) = some tys
  | [], _, _ => rfl
  | ty :: tys, room, shallow => by
    have first := ofJson?_toJson ty (shallow ty.toJson (by simp [listToJson]))
    have rest := mapM_ofJson?_listToJson tys fun document mem =>
      shallow document (by simp [listToJson, mem])
    rw [listToJson, List.mapM_cons, first, rest]
    rfl

end

end TypeExpr

/-! ### Written documents -/

section

variable {encode : α → Json}

@[simp] theorem printable_bool (value : Bool) : Printable (.bool value) := .bool value

@[simp] theorem printable_ofText (text : String) : (ofText text).Printable := .text text

@[simp] theorem printable_ofInt (n : Int) : (ofInt n).Printable :=
  .number (Decimal.Numeral.isValid_ofInt n)

@[simp] theorem printable_ofUInt32 (n : UInt32) : (ofUInt32 n).Printable := printable_ofInt n.toNat

@[simp] theorem printable_ofUInt64 (n : UInt64) : (ofUInt64 n).Printable := printable_ofInt n.toNat

@[simp] theorem printable_ofOption {value : Option α} :
    (ofOption encode value).Printable ↔ ∀ content ∈ value, (encode content).Printable := by
  cases value <;> simp [ofOption, Printable.null]

@[simp] theorem printable_list {items : List Json} :
    Printable (.list items) ↔ ∀ item ∈ items, item.Printable :=
  ⟨fun printable => by cases printable; assumption, .list⟩

@[simp] theorem printable_ofList {items : List α} :
    (ofList encode items).Printable ↔ ∀ item ∈ items, (encode item).Printable := by
  simp [ofList]

@[simp] theorem printable_ofKeys (keys : List Key) : (ofKeys keys).Printable := by
  simp [ofKeys]

@[simp] theorem printable_object {fields : List (String × Json)} :
    (object fields).Printable ↔ ∀ field ∈ fields, field.2.Printable := by
  constructor
  · intro printable field mem
    cases printable with
    | object _ values => exact values (some field.1, field.2) (by simpa using mem)
  · intro values
    apply Printable.object
    · intro field mem
      obtain ⟨written, -, rfl⟩ := List.mem_map.mp mem
      rfl
    · intro field mem
      obtain ⟨written, among, rfl⟩ := List.mem_map.mp mem
      exact values written among

@[simp] theorem printable_choice {name : String} {data : Json} :
    (choice name data).Printable ↔ data.Printable := by
  simp [choice]

end

mutual

private theorem TypeExpr.printable_toJson : ∀ ty : TypeExpr, ty.toJson.Printable
  | .void | .label | .metadata => by simp [TypeExpr.toJson]
  | .integer _ | .float _ | .opaqueType _ | .ref _ | .upref _ => by simp [TypeExpr.toJson]
  | .pointer pointee _ => by simp [TypeExpr.toJson, pointee.printable_toJson]
  | .array _ elem | .vector _ elem => by simp [TypeExpr.toJson, elem.printable_toJson]
  | .function ret params _ => by
    simpa [TypeExpr.toJson, ret.printable_toJson] using TypeExpr.printable_listToJson params
  | .struct fields _ => by simpa [TypeExpr.toJson] using TypeExpr.printable_listToJson fields
  | .named _ inner => by simp [TypeExpr.toJson, inner.printable_toJson]

theorem TypeExpr.printable_listToJson :
    ∀ tys : List TypeExpr, ∀ document ∈ TypeExpr.listToJson tys, document.Printable
  | [] => by simp [TypeExpr.listToJson]
  | ty :: tys => by
    simpa [TypeExpr.listToJson, ty.printable_toJson] using TypeExpr.printable_listToJson tys

end

private theorem printable_convention (convention : CallingConvention) :
    (conventionToJson convention).Printable := by
  cases convention <;> simp [conventionToJson]

private theorem InstructionFields.printable_toFields (fields : InstructionFields) :
    ∀ field ∈ fields.toFields, field.2.Printable := by
  simp [toFields, printable_convention]

section

variable {format : Double.Format}

private theorem ConstantFields.printable_toJson {fields : ConstantFields}
    (reads_back : ∀ d ∈ fields.floatValue, format.ReadsBack d) :
    (fields.toJson format).Printable := by
  have number : ∀ d ∈ fields.floatValue, (ofDouble format d).Printable := by
    intro d mem
    rw [ofDouble]
    split
    · exact .number (reads_back d mem).isValid
    · exact .null
  have expr : ∀ expr : ExprFields, expr.toJson.Printable := by
    intro expr
    simpa [ExprFields.toJson] using expr.instruction.printable_toFields
  simpa [ConstantFields.toJson, expr] using number

private theorem Payload.printable_toJson {payload : Payload}
    (reads_back : ∀ d ∈ payload.number?, format.ReadsBack d) :
    (payload.toJson format).Printable := by
  cases payload with
  | constant fields => simpa [Payload.toJson] using ConstantFields.printable_toJson reads_back
  | instruction fields => simpa [Payload.toJson] using fields.printable_toFields
  | _ =>
    simp [Payload.toJson, ArgumentFields.toJson, BlockFields.toJson, GlobalFields.toJson,
      AliasFields.toJson, FunctionFields.toJson, AsmFields.toJson, printable_convention]

private theorem ValueRecord.printable_toJson {record : ValueRecord}
    (reads_back : ∀ d ∈ record.payload.number?, format.ReadsBack d) :
    (record.toJson format).Printable := by
  simp [ValueRecord.toJson, Location.toJson, Payload.printable_toJson reads_back]

/-- The numbers of a table, in the order of its values. -/
def numbers (table : Table) : List Double :=
  table.values.filterMap fun record => record.payload.number?

private theorem mem_numbers {table : Table} {record : ValueRecord} {d : Double}
    (mem : record ∈ table.values) (held : d ∈ record.payload.number?) : d ∈ table.numbers :=
  List.mem_filterMap.mpr ⟨record, mem, held⟩

private theorem printable_toJson {table : Table}
    (reads_back : ∀ d ∈ table.numbers, format.ReadsBack d) :
    (table.toJson format).Printable := by
  have types : ∀ record ∈ table.types, record.toJson.Printable := by
    intro record _
    simp [TypeRecord.toJson, record.ty.printable_toJson]
  have values : ∀ record ∈ table.values, (record.toJson format).Printable :=
    fun record mem => ValueRecord.printable_toJson fun d held => reads_back d (mem_numbers mem held)
  simpa [Table.toJson] using ⟨types, values⟩

/-! ### Tables -/

private theorem TypeRecord.ofJson?_toJson {record : TypeRecord}
    (shallow : record.ty.toJson.nesting ≤ maxNesting - 3) :
    TypeRecord.ofJson? record.toJson = some record := by
  refine read_record rfl (by decide) ?_
  apply read_field (required?_eq rfl (uint64?_ofUInt64 record.key))
  apply read_field (required?_eq rfl (TypeExpr.ofJson?_toJson record.ty shallow))
  rfl

/-- The table, its list of types and the record are open around a type. -/
theorem nesting_type_le {table : Table} {record : TypeRecord} (mem : record ∈ table.types) :
    record.ty.toJson.nesting + 3 ≤ (table.toJson format).nesting := by
  have of_record : record.ty.toJson.nesting < record.toJson.nesting :=
    @Json.nesting_lt_object _ (some "ty", record.ty.toJson) (by simp)
  have of_list : record.toJson.nesting < (ofList TypeRecord.toJson table.types).nesting :=
    Json.nesting_lt_list (List.mem_map_of_mem mem)
  have of_table : (ofList TypeRecord.toJson table.types).nesting < (table.toJson format).nesting :=
    @Json.nesting_lt_object _ (some "types", ofList TypeRecord.toJson table.types) (by simp)
  omega

private theorem ofJsonWith?_toJson {table : Table} (finite : ∀ d ∈ table.numbers, d.isFinite)
    (reads_back : ∀ d ∈ table.numbers, format.ReadsBack d)
    (shallow : (table.toJson format).nesting ≤ maxNesting) :
    ofJsonWith? format (table.toJson format) = some table := by
  have types : listOf? TypeRecord.ofJson? (ofList TypeRecord.toJson table.types) =
      some table.types := by
    apply listOf?_ofList
    intro record mem
    apply TypeRecord.ofJson?_toJson
    have : record.ty.toJson.nesting + 3 ≤ (table.toJson format).nesting := nesting_type_le mem
    omega
  have values : listOf? (ValueRecord.ofJson? format)
      (ofList (ValueRecord.toJson format) table.values) = some table.values := by
    apply listOf?_ofList
    intro record mem
    apply ValueRecord.ofJson?_toJson
    · exact fun d held => finite d (mem_numbers mem held)
    · exact fun d held => reads_back d (mem_numbers mem held)
  refine read_record rfl (by decide) ?_
  apply read_field (stringField?_eq rfl)
  apply read_field (stringField?_eq rfl)
  apply read_field (stringField?_eq rfl)
  apply read_field (stringField?_eq rfl)
  apply read_field (textField?_eq rfl)
  apply read_field (boolField?_eq rfl)
  apply read_field (uint32Field?_eq rfl)
  apply read_field (defaulted?_eq rfl types)
  apply read_field (defaulted?_eq rfl values)
  apply read_field (keysField?_eq rfl)
  apply read_field (keysField?_eq rfl)
  apply read_field (keysField?_eq rfl)
  rfl

/-- A table with finite numbers is read back from its text if the text nests no deeper than the
reader goes. How numbers are written and read is not fixed, but each of them has to be read back on
its own. -/
theorem parseWith?_printWith (format : Double.Format) (table : Table)
    (finite : ∀ d ∈ table.numbers, d.isFinite)
    (reads_back : ∀ d ∈ table.numbers, format.ReadsBack d)
    (shallow : (table.toJson format).nesting ≤ maxNesting) :
    parseWith? format (table.printWith format) = some table := by
  rw [parseWith?, printWith, Json.parse?_print (printable_toJson reads_back)]
  exact ofJsonWith?_toJson finite reads_back shallow

end

/-- With the fewest digits and the nearest numbers, every finite number is read back. -/
theorem numberFormat_readsBack {d : Double} (finite : d.isFinite) : numberFormat.ReadsBack d where
  isValid := Double.isValid_numeral finite (by decide)
  double?_eq := Double.ofNumeral?_numeral finite (by decide)

/-- Every kind of record, with texts, keys and numbers at their limits and a type as deep as the
reader goes. -/
def crowded : Table where
  identifier := "tab\there \"quoted\" \\ bell\x07 naïve 型 😀"
  dataLayout := "e-p:64:64:64"
  targetTriple := "x86_64-unknown-linux-gnu"
  inlineAsm := ".globl f\r\n"
  error := some ""
  littleEndian := true
  pointerSize := 4294967295
  types :=
    [{ key := 18446744073709551615,
       ty := (List.range 62).foldl (fun ty _ => .pointer ty 4294967295) .void },
     { key := 0,
       ty := .function (.named "node\x00" (.upref 1))
        [.label, .metadata, .ref 18446744073709551615] true },
     { key := 1,
       ty := .struct [.integer 64, .float .ppcFp128, .opaqueType "", .struct [] false] true },
     { key := 2, ty := .array 18446744073709551615 (.vector 0 (.float .half)) }]
  values :=
    [{ key := 0, tag := .function, name := some "f\x7f", ty := 0,
       location := some { file := "a\\b.c", line := 4294967295 },
       payload := .function
        { external := true, visibility := .protectedVisibility, linkage := .privateLinkage,
          sectionName := some ".text", callingConvention := .other 4294967295,
          gc := some "shadow", arguments := [1], blocks := [2, 2], vararg := true } },
     { key := 1, tag := .argument, ty := 1,
       payload := .argument { sret := true, noCapture := true } },
     { key := 2, tag := .basicBlock, ty := 1, payload := .block { instructions := [3] } },
     { key := 3, tag := .instruction .icmp, ty := 1,
       payload := .instruction
        { operands := [1, 1], predicate := some 32, indices := [0, 4294967295] } },
     { key := 4, tag := .constant .int, ty := 1,
       payload := .constant { intValue := some Int64.minValue } },
     -- A tenth, minus zero, the least and the greatest number.
     { key := 5, tag := .constant .float, ty := 1,
       payload := .constant { floatValue := some ⟨0x3FB999999999999A⟩ } },
     { key := 6, tag := .constant .float, ty := 1,
       payload := .constant { floatValue := some ⟨0x8000000000000000⟩ } },
     { key := 7, tag := .constant .float, ty := 1,
       payload := .constant { floatValue := some ⟨1⟩ } },
     { key := 8, tag := .constant .float, ty := 1,
       payload := .constant { floatValue := some ⟨0x7FEFFFFFFFFFFFFF⟩ } },
     { key := 9, tag := .constant .expr, ty := 1,
       payload := .constant
        { operands := [4], stringValue := some "\n",
          expr := some
            { opcode := .instruction (.cast .bitCast),
              instruction :=
                { operands := [0], inBounds := true, callingConvention := .other 64 } } } },
     { key := 10, tag := .globalVariable, ty := 1,
       payload := .global
        { align := 16, linkage := .common, threadLocal := true, initializer := some 4 } },
     { key := 11, tag := .globalAlias, ty := 1,
       payload := .globalAlias { aliasee := 18446744073709551615 } },
     { key := 12, tag := .constant .inlineAsm, ty := 1,
       payload := .inlineAsm { asm := "nop", constraints := "~\x7bmemory\x7d" } },
     { key := 13, tag := .constant .undef, ty := 1 }]
  globals := [10]
  aliases := [11]
  functions := [0, 0]

theorem crowded_read_back :
    (∀ d ∈ crowded.numbers, d.isFinite) ∧ (∀ d ∈ crowded.numbers, numberFormat.ReadsBack d) ∧
      (crowded.toJson numberFormat).nesting = maxNesting ∧ parse? crowded.print = some crowded := by
  have finite : ∀ d ∈ crowded.numbers, d.isFinite := by decide
  have reads_back : ∀ d ∈ crowded.numbers, numberFormat.ReadsBack d :=
    fun d mem => numberFormat_readsBack (finite d mem)
  have deepest : (crowded.toJson numberFormat).nesting = maxNesting := by decide +kernel
  exact ⟨finite, reads_back, deepest,
    parseWith?_printWith numberFormat crowded finite reads_back deepest.le⟩

end FlowIR.Table
