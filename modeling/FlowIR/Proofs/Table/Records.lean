import FlowIR.Proofs.Double.Shortest
import FlowIR.Table.Decode
import FlowIR.Table.Encode

/-!
# Records that are read back

For each record of a table, what the reader finds under the names of the record is what was written
there. The reader asks for the fields one after the other, and all of them have been written, so no
default is ever taken. Of the format of numbers only what is assumed of it counts.
-/
namespace FlowIR

/-- What is assumed of a format: the text of the number is a number, and it is read as the one that
was written. -/
structure Double.Format.ReadsBack (format : Format) (d : Double) : Prop where
  isValid : (format.numeral d).IsValid
  double?_eq : format.double? (format.numeral d) = some d

/-! ### Names -/

/-- A name is found if no two members share one. -/
theorem find?_name {α : Type} {all : List α} {name : α → String} (distinct : (all.map name).Nodup)
    {member : α} (mem : member ∈ all) :
    all.find? (fun other => decide (name other = name member)) = some member := by
  induction all with
  | nil => simp at mem
  | cons first rest ih =>
    rw [List.map_cons, List.nodup_cons] at distinct
    rcases List.mem_cons.mp mem with rfl | later
    · simp
    · have other : name first ≠ name member :=
        fun same => distinct.1 (same ▸ List.mem_map_of_mem later)
      rw [List.find?_cons_of_neg (by simpa using other)]
      exact ih distinct.2 later

@[simp] theorem FloatKind.ofName?_name (kind : FloatKind) : ofName? kind.name = some kind :=
  find?_name (by decide) (by cases kind <;> decide)

@[simp] theorem Linkage.ofName?_name (linkage : Linkage) : ofName? linkage.name = some linkage :=
  find?_name (by decide) (by cases linkage <;> decide)

@[simp] theorem Visibility.ofName?_name (visibility : Visibility) :
    ofName? visibility.name = some visibility :=
  find?_name (by decide) (by cases visibility <;> decide)

private theorem Tag.mem_all (tag : Tag) : tag ∈ all := by
  have binary : ∀ op : BinaryOp, op ∈ BinaryOp.all := by intro op; cases op <;> decide
  have cast : ∀ op : CastOp, op ∈ CastOp.all := by intro op; cases op <;> decide
  have opcode : ∀ opcode : Opcode, opcode ∈ Opcode.all := by
    intro opcode
    cases opcode <;> simp [Opcode.all, binary, cast]
  have constant : ∀ tag : ConstantTag, tag ∈ ConstantTag.all := by intro tag; cases tag <;> decide
  cases tag <;> simp [all, opcode, constant]

@[simp] theorem Tag.ofName?_name (tag : Tag) : ofName? tag.name = some tag :=
  find?_name (by decide +kernel) tag.mem_all

namespace Table

open Encode
open Json (record? required? defaulted? choice? listOf? nullable? uint32? uint64? int64? bool?
  string? double?)

variable {α : Type}

/-! ### Plain values -/

private theorem intWithin?_ofInt {least greatest n : Int} (lower : least ≤ n)
    (upper : n ≤ greatest) :
    Json.intWithin? least greatest (ofInt n) = some n := by
  simp [Json.intWithin?, ofInt, lower, upper]

@[simp] theorem uint32?_ofUInt32 (n : UInt32) : uint32? (ofUInt32 n) = some n := by
  have below := n.toNat_lt
  have within : Json.intWithin? 0 (UInt32.size - 1 : Nat) (ofUInt32 n) = some (n.toNat : Int) :=
    intWithin?_ofInt (by omega) (by simp; omega)
  rw [uint32?, within]
  simp

@[simp] theorem uint64?_ofUInt64 (n : UInt64) : uint64? (ofUInt64 n) = some n := by
  have below := n.toNat_lt
  have within : Json.intWithin? 0 (UInt64.size - 1 : Nat) (ofUInt64 n) = some (n.toNat : Int) :=
    intWithin?_ofInt (by omega) (by simp; omega)
  rw [uint64?, within]
  simp

@[simp] theorem int64?_ofInt (n : Int64) : int64? (ofInt n.toInt) = some n := by
  have lower : Int64.minValue.toInt ≤ n.toInt := n.minValue_le_toInt
  rw [int64?, intWithin?_ofInt lower n.toInt_le]
  simp

@[simp] theorem string?_ofText (text : String) : string? (ofText text) = some text := rfl

@[simp] theorem bool?_bool (value : Bool) : bool? (.bool value) = some value := rfl

@[simp] theorem choice?_ofText (room : Nat) (ofName? : String → Option α) (name : String) :
    choice? room ofName? (ofText name) = ofName? name := rfl

private theorem double?_ofDouble {format : Double.Format} {d : Double} (finite : d.isFinite)
    (reads_back : format.ReadsBack d) : double? format (ofDouble format d) = some d := by
  rw [ofDouble, if_pos finite]
  exact reads_back.double?_eq

theorem listOf?_ofList {decode : Json → Option α} {encode : α → Json} {items : List α}
    (each : ∀ item ∈ items, decode (encode item) = some item) :
    listOf? decode (ofList encode items) = some items := by
  simp only [ofList, listOf?]
  induction items with
  | nil => rfl
  | cons item items ih =>
    rw [List.map_cons, List.mapM_cons, each item (by simp),
      ih fun other mem => each other (by simp [mem])]
    rfl

private theorem nullable?_ofOption {decode : Json → Option α} {encode : α → Json} {value : Option α}
    (given : ∀ content ∈ value, encode content ≠ .null)
    (each : ∀ content ∈ value, decode (encode content) = some content) :
    nullable? decode (ofOption encode value) = some value := by
  cases value with
  | none => rfl
  | some content =>
    have present := given content rfl
    have read := each content rfl
    simp only [ofOption]
    unfold nullable?
    -- A value that is written as null could not be told from no value.
    split
    · contradiction
    · rw [read]
      rfl

@[simp] theorem listOf?_ofKeys (keys : List Key) : listOf? uint64? (ofKeys keys) = some keys :=
  listOf?_ofList fun key _ => uint64?_ofUInt64 key

@[simp] theorem listOf?_indices (indices : List UInt32) :
    listOf? uint32? (ofList ofUInt32 indices) = some indices :=
  listOf?_ofList fun index _ => uint32?_ofUInt32 index

@[simp] theorem nullable?_ofText (text : Option String) :
    nullable? string? (ofOption ofText text) = some text :=
  nullable?_ofOption (by simp [ofText]) (by simp)

@[simp] theorem nullable?_ofUInt32 (n : Option UInt32) :
    nullable? uint32? (ofOption ofUInt32 n) = some n :=
  nullable?_ofOption (by simp [ofUInt32, ofNat]) (by simp)

@[simp] theorem nullable?_ofUInt64 (n : Option UInt64) :
    nullable? uint64? (ofOption ofUInt64 n) = some n :=
  nullable?_ofOption (by simp [ofUInt64, ofNat]) (by simp)

@[simp] theorem nullable?_ofInt (n : Option Int64) :
    nullable? int64? (ofOption (fun n : Int64 => ofInt n.toInt) n) = some n :=
  nullable?_ofOption (by simp [ofInt]) (by simp)

/-! ### Fields -/

private theorem conventionOfJson?_toJson (convention : CallingConvention) :
    conventionOfJson? (conventionToJson convention) = some convention := by
  cases convention with
  | other number => simp [conventionToJson, conventionOfJson?, choice, object]
  | _ => rfl

private theorem conventionInExpr?_toJson (convention : CallingConvention) :
    conventionInExpr? (conventionToJson convention) = some convention := by
  -- The two readers differ only on documents that are never written.
  have same : conventionInExpr? (conventionToJson convention) =
      conventionOfJson? (conventionToJson convention) := by
    cases convention <;> rfl
  rw [same, conventionOfJson?_toJson]

/-- Every key that is written is a text. -/
theorem mapM_keys (fields : List (String × Json)) :
    (fields.map fun (name, value) => (some name, value)).mapM
      (fun ((key, value) : Option String × Json) => key.map (·, value)) = some fields := by
  induction fields with
  | nil => rfl
  | cons field fields ih =>
    rw [List.map_cons, List.mapM_cons, ih]
    rfl

/-- A record that is written with its fields in their order is read with the same fields. -/
theorem knownFields?_object {names : List String} {fields : List (String × Json)}
    (named : fields.map Prod.fst = names) (distinct : names.Nodup) :
    Json.knownFields? names (fields.map fun (name, value) => (some name, value)) = some fields := by
  rw [Json.knownFields?, mapM_keys, Option.bind_eq_bind, Option.bind_some, List.filter_eq_self.mpr]
  · simp [named, distinct]
  · intro field mem
    simpa [← named] using ⟨field.2, mem⟩

section

variable {β : Type} {fields : List (String × Json)} {name : String} {document : Json} {result : β}

/-- The reader of a record goes on with its fields. -/
theorem read_record {names : List String} {next : List (String × Json) → Option β}
    (named : fields.map Prod.fst = names) (distinct : names.Nodup)
    (rest : next fields = some result) :
    (record? names (object fields) >>= next) = some result := by
  have known : record? names (object fields) = some fields := knownFields?_object named distinct
  rw [known]
  exact rest

/-- The reader of a field goes on with what it has found. -/
theorem read_field {field : Option α} {value : α} {next : α → Option β} (found : field = some value)
    (rest : next value = some result) : (field >>= next) = some result := by
  rw [found]
  exact rest

theorem required?_eq {decode : Json → Option α} {value : α}
    (found : fields.lookup name = some document) (read : decode document = some value) :
    required? fields name decode = some value := by
  rw [required?, found]
  exact read

theorem defaulted?_eq {decode : Json → Option α} {default value : α}
    (found : fields.lookup name = some document) (read : decode document = some value) :
    defaulted? fields name default decode = some value := by
  rw [defaulted?, found]
  exact read

theorem boolField?_eq {value : Bool} (found : fields.lookup name = some (.bool value)) :
    boolField? fields name = some value :=
  defaulted?_eq found (bool?_bool value)

theorem uint32Field?_eq {n : UInt32} (found : fields.lookup name = some (ofUInt32 n)) :
    uint32Field? fields name = some n :=
  defaulted?_eq found (uint32?_ofUInt32 n)

theorem keysField?_eq {keys : List Key} (found : fields.lookup name = some (ofKeys keys)) :
    keysField? fields name = some keys :=
  defaulted?_eq found (listOf?_ofKeys keys)

theorem stringField?_eq {text : String} (found : fields.lookup name = some (ofText text)) :
    stringField? fields name = some text :=
  defaulted?_eq found (string?_ofText text)

theorem textField?_eq {text : Option String}
    (found : fields.lookup name = some (ofOption ofText text)) :
    optionField? fields name string? = some text :=
  defaulted?_eq found (nullable?_ofText text)

private theorem visibilityField?_eq {visibility : Visibility}
    (found : fields.lookup "visibility" = some (ofText visibility.name)) :
    visibilityField? fields = some visibility :=
  defaulted?_eq found (Visibility.ofName?_name visibility)

private theorem linkageField?_eq {linkage : Linkage}
    (found : fields.lookup "linkage" = some (ofText linkage.name)) :
    linkageField? fields = some linkage :=
  defaulted?_eq found (Linkage.ofName?_name linkage)

end

/-! ### Records

The fields of a record stand in the order in which its reader asks for them. -/

private theorem Location.ofJson?_toJson (location : Location) :
    Location.ofJson? location.toJson = some location := by
  refine read_record rfl (by decide) ?_
  apply read_field (required?_eq rfl (string?_ofText location.file))
  apply read_field (required?_eq rfl (uint32?_ofUInt32 location.line))
  apply read_field (uint32Field?_eq rfl)
  rfl

private theorem InstructionFields.ofFields?_toFields (fields : InstructionFields)
    {convention : Json → Option CallingConvention}
    (read : convention (conventionToJson fields.callingConvention) =
      some fields.callingConvention) :
    ofFields? fields.toFields convention = some fields := by
  apply read_field (keysField?_eq rfl)
  apply read_field (defaulted?_eq rfl (nullable?_ofUInt32 fields.predicate))
  apply read_field (boolField?_eq rfl)
  apply read_field (defaulted?_eq rfl (listOf?_indices fields.indices))
  apply read_field (boolField?_eq rfl)
  apply read_field (uint32Field?_eq rfl)
  apply read_field (uint32Field?_eq rfl)
  apply read_field (defaulted?_eq rfl read)
  apply read_field (boolField?_eq rfl)
  apply read_field (boolField?_eq rfl)
  rfl

private theorem InstructionFields.ofJson?_object (fields : InstructionFields) :
    InstructionFields.ofJson? (object fields.toFields) = some fields :=
  read_record rfl (by decide) (ofFields?_toFields fields (conventionOfJson?_toJson _))

private theorem ArgumentFields.ofJson?_toJson (fields : ArgumentFields) :
    ArgumentFields.ofJson? fields.toJson = some fields := by
  refine read_record rfl (by decide) ?_
  apply read_field (boolField?_eq rfl)
  apply read_field (boolField?_eq rfl)
  apply read_field (boolField?_eq rfl)
  apply read_field (boolField?_eq rfl)
  apply read_field (boolField?_eq rfl)
  rfl

private theorem BlockFields.ofJson?_toJson (fields : BlockFields) :
    BlockFields.ofJson? fields.toJson = some fields := by
  refine read_record rfl (by decide) ?_
  apply read_field (keysField?_eq rfl)
  rfl

private theorem GlobalFields.ofJson?_toJson (fields : GlobalFields) :
    GlobalFields.ofJson? fields.toJson = some fields := by
  refine read_record rfl (by decide) ?_
  apply read_field (boolField?_eq rfl)
  apply read_field (uint32Field?_eq rfl)
  apply read_field (visibilityField?_eq rfl)
  apply read_field (linkageField?_eq rfl)
  apply read_field (textField?_eq rfl)
  apply read_field (boolField?_eq rfl)
  apply read_field (boolField?_eq rfl)
  apply read_field (defaulted?_eq rfl (nullable?_ofUInt64 fields.initializer))
  rfl

private theorem AliasFields.ofJson?_toJson (fields : AliasFields) :
    AliasFields.ofJson? fields.toJson = some fields := by
  refine read_record rfl (by decide) ?_
  apply read_field (visibilityField?_eq rfl)
  apply read_field (linkageField?_eq rfl)
  apply read_field (required?_eq rfl (uint64?_ofUInt64 fields.aliasee))
  rfl

private theorem FunctionFields.ofJson?_toJson (fields : FunctionFields) :
    FunctionFields.ofJson? fields.toJson = some fields := by
  refine read_record rfl (by decide) ?_
  apply read_field (boolField?_eq rfl)
  apply read_field (uint32Field?_eq rfl)
  apply read_field (visibilityField?_eq rfl)
  apply read_field (linkageField?_eq rfl)
  apply read_field (textField?_eq rfl)
  apply read_field (defaulted?_eq rfl (conventionOfJson?_toJson fields.callingConvention))
  apply read_field (textField?_eq rfl)
  apply read_field (keysField?_eq rfl)
  apply read_field (keysField?_eq rfl)
  apply read_field (boolField?_eq rfl)
  rfl

private theorem AsmFields.ofJson?_toJson (fields : AsmFields) :
    AsmFields.ofJson? fields.toJson = some fields := by
  refine read_record rfl (by decide) ?_
  apply read_field (stringField?_eq rfl)
  apply read_field (stringField?_eq rfl)
  apply read_field (boolField?_eq rfl)
  rfl

/-! ### Constants -/

section

variable (format : Double.Format) (room : Nat)

private theorem fits_ofNat {n : Nat} (small : n < UInt64.size) :
    Json.fits format room (ofNat n) := by
  have negative : Int64.minValue.toInt ≤ 0 := by decide
  have in_range : Int64.minValue.toInt ≤ (n : Int) ∧ (n : Int) < UInt64.size :=
    ⟨by omega, Int.ofNat_lt.mpr small⟩
  rw [ofNat, Json.fits, Json.numeralFits, Decimal.Numeral.int?_ofInt, Option.any_some,
    Bool.or_eq_true]
  exact Or.inl (decide_eq_true in_range)

@[simp] theorem fits_ofUInt64 (n : UInt64) : Json.fits format room (ofUInt64 n) :=
  fits_ofNat format room n.toNat_lt_size

@[simp] theorem fits_ofUInt32 (n : UInt32) : Json.fits format room (ofUInt32 n) :=
  fits_ofNat format room (Nat.lt_trans n.toNat_lt_size (by decide))

private theorem fits_ofList {encode : α → Json} (items : List α)
    (each : ∀ item, Json.fits format room (encode item)) :
    Json.fits format (room + 1) (ofList encode items) := by
  simp only [ofList, Json.fits]
  induction items with
  | nil => rfl
  | cons item items ih => simp [Json.itemsFit, each item, ih]

@[simp] theorem fits_convention (convention : CallingConvention) :
    Json.fits format (room + 1) (conventionToJson convention) := by
  cases convention with
  | other number => simp [conventionToJson, choice, object, Json.fits, Json.fieldsFit]
  | _ => rfl

private theorem InstructionFields.fieldsFit_toFields (fields : InstructionFields) :
    Json.fieldsFit format (room + 1)
      (fields.toFields.map fun (name, value) => (some name, value)) := by
  have keys : Json.fits format (room + 1) (ofKeys fields.operands) :=
    fits_ofList format room _ (fits_ofUInt64 format room)
  have indices : Json.fits format (room + 1) (ofList ofUInt32 fields.indices) :=
    fits_ofList format room _ (fits_ofUInt32 format room)
  have predicate : Json.fits format (room + 1) (ofOption ofUInt32 fields.predicate) := by
    cases fields.predicate <;> simp [ofOption, Json.fits]
  simp [toFields, Json.fieldsFit, keys, indices, predicate, Json.fits]

end

/-- The opcode is not a field of the instruction. -/
theorem InstructionFields.ofFields?_opcode (document : Json) (fields : List (String × Json))
    (convention : Json → Option CallingConvention) :
    ofFields? (("opcode", document) :: fields) convention = ofFields? fields convention := rfl

/-- No other field is called like the opcode. -/
theorem ExprFields.withoutOpcode (fields : ExprFields) :
    ((("opcode", ofText fields.opcode.name) :: fields.instruction.toFields).map
      fun (name, value) => (some name, value)).filter (fun ((key, _) : Option String × Json) =>
        key ≠ some "opcode") =
      fields.instruction.toFields.map fun (name, value) => (some name, value) := by
  simp [InstructionFields.toFields]

private theorem ExprFields.ofJson?_toJson (format : Double.Format) (fields : ExprFields) :
    ExprFields.ofJson? format fields.toJson = some fields := by
  have known : Json.knownFields? ("opcode" :: InstructionFields.names)
        ((("opcode", ofText fields.opcode.name) :: fields.instruction.toFields).map
          fun (name, value) => (some name, value)) =
      some (("opcode", ofText fields.opcode.name) :: fields.instruction.toFields) :=
    knownFields?_object rfl (by decide)
  have fit : Json.fieldsFit format room
      (fields.instruction.toFields.map fun (name, value) => (some name, value)) :=
    fields.instruction.fieldsFit_toFields format 120
  have instruction :
      InstructionFields.ofFields? fields.instruction.toFields conventionInExpr? =
          some fields.instruction :=
    fields.instruction.ofFields?_toFields (conventionInExpr?_toJson _)
  apply read_field known
  rw [fields.withoutOpcode, guard, if_pos fit]
  apply read_field rfl
  apply read_field (required?_eq rfl (Tag.ofName?_name fields.opcode))
  rw [InstructionFields.ofFields?_opcode]
  apply read_field instruction
  rfl

section

variable {format : Double.Format}

private theorem ConstantFields.ofJson?_toJson {fields : ConstantFields}
    (finite : ∀ d ∈ fields.floatValue, d.isFinite)
    (reads_back : ∀ d ∈ fields.floatValue, format.ReadsBack d) :
    ConstantFields.ofJson? format (fields.toJson format) = some fields := by
  have number : nullable? (double? format) (ofOption (ofDouble format) fields.floatValue) =
      some fields.floatValue :=
    nullable?_ofOption (fun d mem => by simp [ofDouble, finite d mem])
      fun d mem => double?_ofDouble (finite d mem) (reads_back d mem)
  have expr : nullable? (ExprFields.ofJson? format) (ofOption ExprFields.toJson fields.expr) =
      some fields.expr :=
    nullable?_ofOption (by simp [ExprFields.toJson, object]) fun expr _ =>
      ExprFields.ofJson?_toJson format expr
  refine read_record rfl (by decide) ?_
  apply read_field (keysField?_eq rfl)
  apply read_field (defaulted?_eq rfl (nullable?_ofInt fields.intValue))
  apply read_field (defaulted?_eq rfl number)
  apply read_field (textField?_eq rfl)
  apply read_field (defaulted?_eq rfl expr)
  rfl

/-! ### Values and their payloads -/

/-- Only constants hold numbers. -/
def Payload.number? : Payload → Option Double
  | .constant fields => fields.floatValue
  | _ => Option.none

private theorem Payload.ofJson?_toJson {payload : Payload}
    (finite : ∀ d ∈ payload.number?, d.isFinite)
    (reads_back : ∀ d ∈ payload.number?, format.ReadsBack d) :
    Payload.ofJson? format (payload.toJson format) = some payload := by
  cases payload with
  | none => rfl
  | constant fields =>
    have inner : ConstantFields.ofJson? format (fields.toJson format) = some fields :=
      ConstantFields.ofJson?_toJson finite reads_back
    simp [Payload.ofJson?, Payload.toJson, choice, object, inner]
  | instruction fields =>
    have inner := InstructionFields.ofJson?_object fields
    rw [object] at inner
    simp [Payload.ofJson?, Payload.toJson, choice, object, inner]
  | argument fields =>
    simp [Payload.ofJson?, Payload.toJson, choice, object, ArgumentFields.ofJson?_toJson]
  | block fields =>
    simp [Payload.ofJson?, Payload.toJson, choice, object, BlockFields.ofJson?_toJson]
  | global fields =>
    simp [Payload.ofJson?, Payload.toJson, choice, object, GlobalFields.ofJson?_toJson]
  | globalAlias fields =>
    simp [Payload.ofJson?, Payload.toJson, choice, object, AliasFields.ofJson?_toJson]
  | function fields =>
    simp [Payload.ofJson?, Payload.toJson, choice, object, FunctionFields.ofJson?_toJson]
  | inlineAsm fields =>
    simp [Payload.ofJson?, Payload.toJson, choice, object, AsmFields.ofJson?_toJson]

theorem ValueRecord.ofJson?_toJson {record : ValueRecord}
    (finite : ∀ d ∈ record.payload.number?, d.isFinite)
    (reads_back : ∀ d ∈ record.payload.number?, format.ReadsBack d) :
    ValueRecord.ofJson? format (record.toJson format) = some record := by
  have location : nullable? Location.ofJson? (ofOption Location.toJson record.location) =
      some record.location :=
    nullable?_ofOption (by simp [Location.toJson, object]) fun location _ =>
      Location.ofJson?_toJson location
  refine read_record rfl (by decide) ?_
  apply read_field (required?_eq rfl (uint64?_ofUInt64 record.key))
  apply read_field (required?_eq rfl (Tag.ofName?_name record.tag))
  apply read_field (textField?_eq rfl)
  apply read_field (required?_eq rfl (uint64?_ofUInt64 record.ty))
  apply read_field (defaulted?_eq rfl location)
  apply read_field (defaulted?_eq rfl (Payload.ofJson?_toJson finite reads_back))
  rfl

end

end Table

end FlowIR
