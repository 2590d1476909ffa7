import FlowIR.Module.Text
import FlowIR.Proofs.Link.Ownership

/-!
# Every value has its texts

No text of a sound module has to name something that is not there. A constant among operands is
written out with the constants in it, and nothing looks out for cycles. This ends since the numbers
fall: linking gives a number to a constant after everything in it.

`Names` and `Prints` give the two texts of a value by rules that say nothing of a bound. The
functions that take the number of a value as a bound on the nesting give the same texts.
-/
namespace FlowIR

/-! ### Texts out of texts -/

theorem isSome_bind {α β : Type} {first : Option α} {next : α → Option β}
    (present : first.isSome = true) (continues : ∀ value, (next value).isSome = true) :
    (first >>= next).isSome = true := by
  obtain ⟨value, rfl⟩ := Option.isSome_iff_exists.mp present
  exact continues value

theorem isSome_mapM {α β : Type} {f : α → Option β} {elements : List α}
    (each : ∀ element ∈ elements, (f element).isSome = true) : (elements.mapM f).isSome = true := by
  induction elements with
  | nil => rfl
  | cons first rest ih =>
    rw [List.mapM_cons]
    apply isSome_bind (each first List.mem_cons_self)
    intro result
    apply isSome_bind (ih fun element member => each element (List.mem_cons_of_mem first member))
    exact fun _ => rfl

theorem mapM_congr {α β : Type} {f g : α → Option β} {elements : List α}
    (same : ∀ element ∈ elements, f element = g element) : elements.mapM f = elements.mapM g := by
  induction elements with
  | nil => rfl
  | cons first rest ih =>
    rw [List.mapM_cons, List.mapM_cons, same first List.mem_cons_self,
      ih fun element member => same element (List.mem_cons_of_mem first member)]

section

variable {name? other? : ValueId → Option String}

private theorem Instruction.isSome_text? {instruction : Instruction}
    (named : ∀ id ∈ instruction.operands, (name? id).isSome = true) :
    (instruction.text? name?).isSome = true := by
  rw [text?]
  exact isSome_bind (isSome_mapM named) fun _ => rfl

private theorem Constant.isSome_text? {constant : Constant}
    (named : ∀ id ∈ constant.references, (name? id).isSome = true) :
    (constant.text? name?).isSome = true := by
  cases constant with
  | array | struct | vector =>
    rw [text?, Option.isSome_map]
    exact isSome_mapM named
  | blockAddress function block =>
    rw [text?]
    apply isSome_bind (named function (by simp [references]))
    intro _
    exact isSome_bind (named block (by simp [references])) fun _ => rfl
  | expr instruction =>
    rw [text?, Option.isSome_map]
    exact Instruction.isSome_text? named
  | _ => rfl

private theorem Instruction.text?_congr {instruction : Instruction}
    (same : ∀ id ∈ instruction.operands, name? id = other? id) :
    instruction.text? name? = instruction.text? other? := by
  rw [text?, text?, mapM_congr same]

private theorem Constant.text?_congr {constant : Constant}
    (same : ∀ id ∈ constant.references, name? id = other? id) :
    constant.text? name? = constant.text? other? := by
  cases constant with
  | array | struct | vector => exact congrArg (Option.map _) (mapM_congr same)
  | blockAddress function block =>
    rw [text?, text?, same function (by simp [references]), same block (by simp [references])]
  | expr => exact congrArg (Option.map _) (Instruction.text?_congr same)
  | _ => rfl

end

/-! ### Rules for texts -/

/-- What stands before the name of a value. Constants and inline assembly are written out. -/
def Content.mark? : Content → Option String
  | function _ | globalVariable _ | globalAlias _ => some "@"
  | argument _ | basicBlock _ | instruction _ => some "%"
  | constant _ | inlineAsm _ => none

private theorem Tag.Agrees.isConstant_eq {tag : Tag} {content : Content}
    (agrees : tag.Agrees content) :
    tag.isConstant = content.mark?.isNone := by
  cases tag <;> cases content <;> first | rfl | exact agrees.elim

namespace Module

variable {module : Module} {id : ValueId} {text : String}

/-- The text of a value among operands. -/
inductive Names (module : Module) : ValueId → String → Prop
  | marked {id : ValueId} {value : Value} {mark : String} (found : module.value? id = some value)
      (has_mark : value.content.mark? = some mark) : Names module id (nameText mark value)
  | inlineAsm {id : ValueId} {fields : Table.AsmFields} (found : module.content? id =
      some (.inlineAsm fields)) : Names module id ("asm \"" ++ fields.asm ++ "\"")
  | constant {id : ValueId} {constant : Constant} {name : ValueId → String} {text : String}
      (found : module.content? id = some (.constant constant))
      (named : ∀ inner ∈ constant.references, Names module inner (name inner))
      (written : constant.text? (fun inner => some (name inner)) = some text) : Names module id text

/-- The text of an instruction after the names of its operands. -/
def Describes (module : Module) (instruction : Instruction) (text : String) : Prop :=
  ∃ name : ValueId → String, (∀ inner ∈ instruction.operands, module.Names inner (name inner)) ∧
    instruction.text? (fun inner => some (name inner)) = some text

/-- The line of a value. Instructions name their result if they have one. -/
inductive Prints (module : Module) : ValueId → String → Prop
  | effect {id : ValueId} {value : Value} {instruction : Instruction} {text : String}
      (found : module.value? id = some value) (content : value.content = .instruction instruction)
      (no_result : module.types[value.header.ty]? = some .void)
        (described : module.Describes instruction text) :
      Prints module id text
  | result {id : ValueId} {value : Value} {instruction : Instruction} {ty : Ty} {own text : String}
      (found : module.value? id = some value) (content : value.content = .instruction instruction)
      (typed : module.types[value.header.ty]? = some ty) (has_result : ty ≠ .void)
      (named : module.Names id own) (described : module.Describes instruction text) :
      Prints module id (own ++ " = " ++ text)
  | block {id : ValueId} {body : BlockInfo} {own : String} (found : module.block? id = some body)
      (named : module.Names id own) : Prints module id (own ++ ":")
  | operand {id : ValueId} {own : String} (no_instruction : module.instruction? id = none)
      (no_block : module.block? id = none) (named : module.Names id own) : Prints module id own

/-! ### The functions follow the rules -/

private theorem operandText?_marked {value : Value} {mark : String}
    (found : module.value? id = some value) (has_mark : value.content.mark? = some mark)
    (depth : Nat) :
    module.operandText? (depth + 1) id = some (nameText mark value) := by
  cases content : value.content <;> simp_all [operandText?, Content.mark?]

private theorem operandText?_inlineAsm {fields : Table.AsmFields}
    (found : module.content? id = some (.inlineAsm fields)) (depth : Nat) :
    module.operandText? (depth + 1) id = some ("asm \"" ++ fields.asm ++ "\"") := by
  obtain ⟨value, valued, content⟩ := Option.map_eq_some_iff.mp found
  simp [operandText?, valued, content]

private theorem operandText?_constant {constant : Constant}
    (found : module.content? id = some (.constant constant)) (depth : Nat) :
    module.operandText? (depth + 1) id = constant.text? (module.operandText? depth) := by
  obtain ⟨value, valued, content⟩ := Option.map_eq_some_iff.mp found
  simp [operandText?, valued, content]

namespace Sound

variable (sound : module.Sound)
include sound

theorem isSome_typeOf? (bound : id < module.values.length) : (module.typeOf? id).isSome = true := by
  have found : module.value? id = some module.values[id] := List.getElem?_eq_getElem bound
  have in_range := sound.typed id _ found
  rw [typeOf?, found, Option.bind_some, List.getElem?_eq_getElem in_range]
  rfl

/-- The number of a value bounds how deep constants nest in it. -/
theorem operandText?_of_names (named : module.Names id text) {depth : Nat} (deep : id ≤ depth) :
    module.operandText? (depth + 1) id = some text := by
  induction named generalizing depth with
  | marked found has_mark => exact operandText?_marked found has_mark depth
  | inlineAsm found => exact operandText?_inlineAsm found depth
  | constant found named written ih =>
    rw [operandText?_constant found, ← written]
    apply Constant.text?_congr
    intro inner referred
    -- The numbers fall, so one level less is still enough for what is in the constant.
    have smaller := Nat.lt_of_lt_of_le (sound.descending _ _ found inner referred) deep
    obtain ⟨depth, rfl⟩ := Nat.exists_eq_add_one_of_ne_zero (Nat.ne_zero_of_lt smaller)
    exact ih inner referred (Nat.le_of_lt_succ smaller)

private theorem operandName?_of_names (named : module.Names id text) :
    module.operandName? id = some text :=
  sound.operandText?_of_names named (Nat.le_refl id)

/-- The induction is on the number, since a constant refers to smaller ones. -/
theorem exists_names (bound : id < module.values.length) : ∃ text, module.Names id text := by
  induction id using Nat.strong_induction_on with
  | _ id ih =>
    have found : module.value? id = some module.values[id] := List.getElem?_eq_getElem bound
    cases content : module.values[id].content with
    | constant constant =>
      have constant_found := content ▸ content?_eq_some_of_value? found
      have each : ∀ inner ∈ constant.references, ∃ text, module.Names inner text := by
        intro inner referred
        have smaller : inner < id := sound.descending id constant constant_found inner referred
        exact ih inner smaller (Nat.lt_trans smaller bound)
      choose! name named using each
      have complete : (constant.text? fun inner => some (name inner)).isSome = true :=
        Constant.isSome_text? fun _ _ => rfl
      obtain ⟨text, written⟩ := Option.isSome_iff_exists.mp complete
      exact ⟨text, .constant constant_found named written⟩
    | inlineAsm fields => exact ⟨_, .inlineAsm (content ▸ content?_eq_some_of_value? found)⟩
    | _ => exact ⟨_, .marked found (by rw [content]; rfl)⟩

theorem isSome_operandName? (bound : id < module.values.length) :
    (module.operandName? id).isSome = true := by
  obtain ⟨text, named⟩ := sound.exists_names bound
  rw [sound.operandName?_of_names named]
  rfl

private theorem operandName?_eq_some_iff :
    module.operandName? id = some text ↔ module.Names id text := by
  refine ⟨fun written => ?_, sound.operandName?_of_names⟩
  obtain ⟨_, found, _⟩ := Option.bind_eq_some_iff.mp written
  have bound : id < module.values.length := (List.getElem?_eq_some_iff.mp found).1
  obtain ⟨own, named⟩ := sound.exists_names bound
  rwa [Option.some.inj (written.symm.trans (sound.operandName?_of_names named))]

private theorem text?_of_describes {instruction : Instruction}
    (described : module.Describes instruction text) :
    instruction.text? module.operandName? = some text := by
  obtain ⟨name, named, written⟩ := described
  rw [← written]
  exact Instruction.text?_congr fun inner operand =>
    sound.operandName?_of_names (named inner operand)

private theorem exists_describes {instruction : Instruction}
    (found : module.content? id = some (.instruction instruction)) :
    ∃ text, module.Describes instruction text := by
  have each : ∀ inner ∈ instruction.operands, ∃ text, module.Names inner text :=
    fun inner operand => sound.exists_names (sound.closed id _ found inner operand)
  choose! name named using each
  have complete : (instruction.text? fun inner => some (name inner)).isSome = true :=
    Instruction.isSome_text? fun _ _ => rfl
  obtain ⟨text, written⟩ := Option.isSome_iff_exists.mp complete
  exact ⟨text, name, named, written⟩

private theorem valueText?_of_prints (prints : module.Prints id text) :
    module.valueText? id = some text := by
  cases prints with
  | effect found content no_result described =>
    simp [valueText?, found, content, sound.text?_of_describes described, no_result]
  | result found content typed has_result named described =>
    simp [valueText?, found, content, sound.text?_of_describes described, typed, has_result,
      sound.operandName?_of_names named]
  | block found named =>
    obtain ⟨value, valued, content⟩ := Option.map_eq_some_iff.mp (content?_of_block? found)
    simp [valueText?, valued, content, sound.operandName?_of_names named]
  | operand no_instruction no_block named =>
    have written := sound.operandName?_of_names named
    obtain ⟨value, found, _⟩ := Option.bind_eq_some_iff.mp written
    have content_found := content?_eq_some_of_value? found
    cases content : value.content with
    | instruction | basicBlock =>
      simp [instruction?, block?, content_found, content] at no_instruction no_block
    | _ => simp [valueText?, found, content, written]

private theorem exists_prints (bound : id < module.values.length) :
    ∃ text, module.Prints id text := by
  have found : module.value? id = some module.values[id] := List.getElem?_eq_getElem bound
  have content_found := content?_eq_some_of_value? found
  obtain ⟨own, named⟩ := sound.exists_names bound
  cases content : module.values[id].content with
  | instruction instruction =>
    obtain ⟨text, described⟩ := sound.exists_describes (content ▸ content_found)
    have typed := List.getElem?_eq_getElem (sound.typed id _ found)
    by_cases no_result : module.types[module.values[id].header.ty]? = some .void
    · exact ⟨text, .effect found content no_result described⟩
    · exact ⟨_, .result found content typed (fun same => no_result (same ▸ typed)) named described⟩
  | basicBlock body => exact ⟨_, .block (by rw [block?, content_found, content]) named⟩
  | _ =>
    exact ⟨own, .operand (by rw [instruction?, content_found, content])
      (by rw [block?, content_found, content]) named⟩

theorem isSome_valueText? (bound : id < module.values.length) :
    (module.valueText? id).isSome = true := by
  obtain ⟨text, prints⟩ := sound.exists_prints bound
  rw [sound.valueText?_of_prints prints]
  rfl

private theorem valueText?_eq_some_iff :
    module.valueText? id = some text ↔ module.Prints id text := by
  refine ⟨fun written => ?_, sound.valueText?_of_prints⟩
  obtain ⟨_, found, _⟩ := Option.bind_eq_some_iff.mp written
  have bound : id < module.values.length := (List.getElem?_eq_some_iff.mp found).1
  obtain ⟨line, prints⟩ := sound.exists_prints bound
  rwa [Option.some.inj (written.symm.trans (sound.valueText?_of_prints prints))]

end Sound

/-- The texts of all values are found by writing out constants, which have larger numbers than all
that they refer to and than all values with a mark. -/
structure WrittenOut (module : Module) : Prop where
  descending : ∀ id constant, module.content? id = some (.constant constant) →
    ∀ inner ∈ constant.references, inner < id
  marked_first : ∀ early late marked unmarked, module.content? early = some marked →
    marked.mark? ≠ none →
    module.content? late = some unmarked → unmarked.mark? = none → early < late
  exists_name : ∀ id < module.values.length, ∃ text, module.Names id text
  operandName?_iff : ∀ id text, module.operandName? id = some text ↔ module.Names id text
  exists_line : ∀ id < module.values.length, ∃ text, module.Prints id text
  valueText?_iff : ∀ id text, module.valueText? id = some text ↔ module.Prints id text

end Module

namespace Table

variable {table : Table} {module : Module}

/-- The numbers of the lists of the table come before those of what is written out. -/
theorem IsLinked.mark?_eq_none_iff {number : Key → ValueId} (linked : table.IsLinked number module)
    {id : ValueId} {content : Content} (found : module.content? id = some content) :
    content.mark? = none ↔ table.listedKeys.length ≤ id := by
  obtain ⟨value, valued, rfl⟩ := Option.map_eq_some_iff.mp found
  obtain ⟨key, record, reachable, rfl, recorded, _, _, decoded⟩ := linked.exists_key valued
  rw [← linked.constants_last key record reachable recorded,
    (ValueRecord.agrees_of_decode decoded).isConstant_eq, Option.isNone_iff_eq_none]

/-- In a linked module no text is missing, and none is looked for without end. -/
theorem writtenOut_of_link (linked : table.link = .ok module) : module.WrittenOut := by
  obtain ⟨number, is_linked, _⟩ := exists_owners_of_link linked
  have sound := sound_of_link linked
  constructor
  case descending => exact sound.descending
  case marked_first =>
    intro early late marked unmarked early_found has_mark late_found no_mark
    rw [Ne, is_linked.mark?_eq_none_iff early_found] at has_mark
    rw [is_linked.mark?_eq_none_iff late_found] at no_mark
    exact Nat.lt_of_lt_of_le (Nat.lt_of_not_le has_mark) no_mark
  case exists_name => exact fun id bound => sound.exists_names bound
  case operandName?_iff => exact fun id text => sound.operandName?_eq_some_iff
  case exists_line => exact fun id bound => sound.exists_prints bound
  case valueText?_iff => exact fun id text => sound.valueText?_eq_some_iff

/-- The initializer of a global holds an array, which holds the address of the global. A block
address is in both, and an instruction refers to all of it. -/
def nesting : Table :=
  { types := [{ key := 1, ty := .integer 32 }, { key := 2, ty := .void }]
    values :=
      [{ key := 10, tag := .globalVariable, name := some "g", ty := 1,
         payload := .global { initializer := some 24 } },
       { key := 20, tag := .constant .blockAddress, ty := 1,
         payload := .constant { operands := [30, 31] } },
       { key := 21, tag := .constant .inlineAsm, ty := 1, payload := .inlineAsm { asm := "nop" } },
       { key := 22, tag := .constant .expr, ty := 1,
         payload :=
           .constant { expr := some ⟨.instruction (.cast .bitCast), { operands := [10] }⟩ } },
       { key := 23, tag := .constant .array, ty := 1,
         payload := .constant { operands := [22, 20] } },
       { key := 24, tag := .constant .struct, ty := 1,
         payload := .constant { operands := [23, 20, 21] } },
       { key := 30, tag := .function, name := some "f", ty := 1,
         payload := .function { blocks := [31] } },
       { key := 31, tag := .basicBlock, ty := 1, payload := .block { instructions := [32] } },
       { key := 32, tag := .instruction .ret, ty := 2,
         payload := .instruction { operands := [24] } }]
    globals := [10]
    functions := [30] }

theorem nesting_writtenOut : ∃ module text, nesting.link = .ok module ∧
    text = "\x7b[(bitcast @g), blockaddress(@f, %2)], blockaddress(@f, %2), asm \"nop\"\x7d" ∧
    module.Names 8 text ∧ module.Prints 3 ("ret " ++ text) ∧
    module.content? 8 = some (.constant (.struct [6, 5, 7])) ∧ ∃ inner, module.Names 6 inner := by
  have run : (nesting.link.toOption.map fun module =>
      (module.content? 8, module.operandName? 8, module.valueText? 3)) =
      some (some (.constant (.struct [6, 5, 7])),
        some "\x7b[(bitcast @g), blockaddress(@f, %2)], blockaddress(@f, %2), asm \"nop\"\x7d",
        some
          "ret \x7b[(bitcast @g), blockaddress(@f, %2)], blockaddress(@f, %2), asm \"nop\"\x7d") := by
    decide +kernel
  obtain ⟨module, linked, run⟩ := exists_ok_of_toOption_map run
  simp only [Prod.mk.injEq] at run
  obtain ⟨found, name, line⟩ := run
  have written := writtenOut_of_link linked
  have inside : 6 < module.values.length :=
    Nat.lt_trans (written.descending 8 _ found 6 (by decide)) (Module.lt_of_content? found)
  exact ⟨module, _, linked, rfl, (written.operandName?_iff 8 _).mp name,
    (written.valueText?_iff 3 _).mp line, found, written.exists_name 6 inside⟩

end Table

end FlowIR
