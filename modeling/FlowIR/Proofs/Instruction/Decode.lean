import FlowIR.Instruction.Decode
import Mathlib.Tactic.Common

/-!
# What opcodes admit

Whether an instruction can be decoded depends on the number of its operands and on the code of its
predicate, and not on the operands themselves. Where control goes from it depends on their places.
-/
namespace FlowIR

namespace Opcode

/-- There may be so many operands. -/
def Admits : Opcode → Nat → Prop
  | ret, count | alloca, count => count ≤ 1
  | br, count => count = 1 ∨ count = 3
  | switch, count => 2 ≤ count ∧ count % 2 = 0
  | phi, count => 0 < count ∧ count % 2 = 0
  | indirectBr, count | call, count | getElementPtr, count => 1 ≤ count
  | invoke, count => 3 ≤ count
  | unwind, count | unreachable, count => count = 0
  | cast _, count | load, count | vaArg, count | extractValue, count => count = 1
  | binary _, count | icmp, count | fcmp, count | store, count | extractElement, count
  | insertValue, count => count = 2
  | select, count | insertElement, count | shuffleVector, count => count = 3

/-- Only comparisons look at the predicate. -/
def AdmitsPredicate : Opcode → Option UInt32 → Prop
  | icmp, predicate => ∃ code, predicate = some code ∧ 32 ≤ code.toNat ∧ code.toNat ≤ 41
  | fcmp, predicate => ∃ code, predicate = some code ∧ code.toNat ≤ 15
  | _, _ => True

/-- The second, the fourth and so on. -/
def everySecond {α : Type} : List α → List α
  | _ :: second :: rest => second :: everySecond rest
  | _ => []

/-- The operands to which control may go. -/
def targets {α : Type} : Opcode → List α → List α
  | br, [target] => [target]
  | br, [_, thenBlock, elseBlock] => [thenBlock, elseBlock]
  | switch, _ :: defaultBlock :: cases => defaultBlock :: everySecond cases
  | indirectBr, _ :: targets => targets
  | invoke, operands => operands.drop (operands.length - 2)
  | _, _ => []

private theorem everySecond_map {α β : Type} (f : α → β) (elements : List α) :
    everySecond (elements.map f) = (everySecond elements).map f := by
  fun_induction everySecond elements with
  | case1 first second rest ih => simp [everySecond, ih]
  | case2 elements short =>
    match elements, short with
    | [], _ => rfl
    | [_], _ => rfl
    | first :: second :: rest, short => exact absurd rfl (short first second rest)

/-- Targets are found by place, so it does not matter what the operands are. -/
theorem targets_map {α β : Type} (f : α → β) (opcode : Opcode) (operands : List α) :
    opcode.targets (operands.map f) = (opcode.targets operands).map f := by
  cases opcode
  case br => rcases operands with _ | ⟨_, _ | ⟨_, _ | ⟨_, _ | ⟨_, _⟩⟩⟩⟩ <;> rfl
  case switch => rcases operands with _ | ⟨_, _ | ⟨_, cases⟩⟩ <;> simp [targets, everySecond_map]
  case indirectBr => cases operands <;> rfl
  case invoke => simp [targets, List.map_drop]
  all_goals rfl

end Opcode

namespace Instruction

open Table (InstructionFields)

/-! ### Parts of decoding -/

private theorem pairUp?_isSome_iff (ids : List ValueId) :
    (pairUp? ids).isSome = true ↔ ids.length % 2 = 0 := by
  fun_induction pairUp? ids with
  | case1 => simp
  | case2 => simp
  | case3 first second rest ih =>
    simp only [Option.isSome_map, ih, List.length_cons]
    omega

private theorem map_snd_pairUp? {ids : List ValueId} {pairs : List (ValueId × ValueId)}
    (paired : pairUp? ids = some pairs) : pairs.map Prod.snd = Opcode.everySecond ids := by
  fun_induction pairUp? ids generalizing pairs with
  | case1 =>
    cases paired
    rfl
  | case2 => cases paired
  | case3 first second rest ih =>
    obtain ⟨others, rest_paired, rfl⟩ := Option.map_eq_some_iff.mp paired
    simp [Opcode.everySecond, ih rest_paired]

private theorem decodeInvoke?_isSome_iff (fields : InstructionFields) (operands : List ValueId) :
    (decodeInvoke? fields operands).isSome = true ↔ 3 ≤ operands.length := by
  cases operands with
  | nil => simp [decodeInvoke?]
  | cons callee rest =>
    rw [List.length_cons, ← List.length_reverse]
    rcases reversed : rest.reverse with _ | ⟨_, _ | ⟨_, _⟩⟩ <;> simp [decodeInvoke?, reversed]

private theorem intPredicate_succeeds_iff (fields : InstructionFields) :
    (∃ predicate, intPredicate fields = .ok predicate) ↔
      Opcode.icmp.AdmitsPredicate fields.predicate := by
  cases given : fields.predicate with
  | none => simp [intPredicate, given, Opcode.AdmitsPredicate]
  | some code =>
    have codes : (∃ predicate, IntPredicate.ofCode? code = some predicate) ↔
        32 ≤ code.toNat ∧ code.toNat ≤ 41 := by
      rw [IntPredicate.ofCode?]
      split
      · simp
        omega
      · rw [← Option.isSome_iff_exists]
        simp [IntPredicate.all]
        omega
    cases found : IntPredicate.ofCode? code with
    | none => simpa [intPredicate, given, found, Opcode.AdmitsPredicate] using codes
    | some predicate => simpa [intPredicate, given, found, Opcode.AdmitsPredicate] using codes

private theorem floatPredicate_succeeds_iff (fields : InstructionFields) :
    (∃ predicate, floatPredicate fields = .ok predicate) ↔
      Opcode.fcmp.AdmitsPredicate fields.predicate := by
  cases given : fields.predicate with
  | none => simp [floatPredicate, given, Opcode.AdmitsPredicate]
  | some code =>
    have codes : (∃ predicate, FloatPredicate.ofCode? code = some predicate) ↔ code.toNat ≤ 15 := by
      rw [FloatPredicate.ofCode?, ← Option.isSome_iff_exists]
      simp [FloatPredicate.all]
      omega
    cases found : FloatPredicate.ofCode? code with
    | none => simpa [floatPredicate, given, found, Opcode.AdmitsPredicate] using codes
    | some predicate => simpa [floatPredicate, given, found, Opcode.AdmitsPredicate] using codes

/-! ### Decoding -/

private theorem getD_map_ok_iff {candidate : Option Instruction} {error : LinkError} :
    (∃ instruction, (candidate.map Except.ok).getD (.error error) = .ok instruction) ↔
      candidate.isSome = true := by
  cases candidate <;> simp

theorem map_ok_iff {α β : Type} {computed : Except LinkError α} {f : α → β} :
    (∃ result, computed.map f = .ok result) ↔ ∃ result, computed = .ok result := by
  cases computed <;> simp [Except.map]

private theorem decodeOpcode_succeeds_iff (fields : InstructionFields) (opcode : Opcode)
    (operands : List ValueId) :
    (∃ instruction, decodeOpcode fields opcode operands = .ok instruction) ↔
      opcode.Admits operands.length ∧ opcode.AdmitsPredicate fields.predicate := by
  -- All other opcodes look at no more than three operands.
  cases opcode
  case switch =>
    rcases operands with _ | ⟨value, _ | ⟨defaultBlock, cases⟩⟩
    · simp [decodeOpcode, decodeSwitch?, Opcode.Admits]
    · simp [decodeOpcode, decodeSwitch?, Opcode.Admits]
    · simp only [decodeOpcode, getD_map_ok_iff, decodeSwitch?, Option.isSome_map,
        pairUp?_isSome_iff, Opcode.Admits, Opcode.AdmitsPredicate, List.length_cons, and_true]
      omega
  case phi =>
    cases operands with
    | nil => simp [decodeOpcode, decodePhi?, Opcode.Admits]
    | cons first rest =>
      simp only [decodeOpcode, getD_map_ok_iff, decodePhi?, Option.isSome_map, pairUp?_isSome_iff,
        Opcode.Admits, Opcode.AdmitsPredicate, List.length_cons, and_true]
      omega
  case invoke =>
    simp only [decodeOpcode, getD_map_ok_iff, decodeInvoke?_isSome_iff, Opcode.Admits,
      Opcode.AdmitsPredicate, and_true]
  case icmp =>
    rw [← intPredicate_succeeds_iff]
    rcases operands with _ | ⟨_, _ | ⟨_, _ | ⟨_, _⟩⟩⟩ <;>
      simp [decodeOpcode, map_ok_iff, Opcode.Admits]
  case fcmp =>
    rw [← floatPredicate_succeeds_iff]
    rcases operands with _ | ⟨_, _ | ⟨_, _ | ⟨_, _⟩⟩⟩ <;>
      simp [decodeOpcode, map_ok_iff, Opcode.Admits]
  all_goals
    rcases operands with _ | ⟨_, _ | ⟨_, _ | ⟨_, _ | ⟨_, _⟩⟩⟩⟩ <;>
      simp [decodeOpcode, Opcode.Admits, Opcode.AdmitsPredicate]

theorem decode_succeeds_iff (tag : Tag) (fields : InstructionFields) (operands : List ValueId) :
    (∃ instruction, decode tag fields operands = .ok instruction) ↔
      ∃ opcode, tag = .instruction opcode ∧ opcode.Admits operands.length ∧
        opcode.AdmitsPredicate fields.predicate := by
  cases tag with
  | instruction opcode =>
    rw [decode, decodeOpcode_succeeds_iff]
    simp
  | _ => simp [decode]

private theorem flattenPairs_pairUp? {ids : List ValueId} {pairs : List (ValueId × ValueId)}
    (paired : pairUp? ids = some pairs) : flattenPairs pairs = ids := by
  fun_induction pairUp? ids generalizing pairs with
  | case1 =>
    cases paired
    rfl
  | case2 => cases paired
  | case3 first second rest ih =>
    obtain ⟨others, rest_paired, rfl⟩ := Option.map_eq_some_iff.mp paired
    simpa [flattenPairs] using ih rest_paired

/-- Nothing is lost of the operands, and control goes to those of them that the opcode has as
targets. -/
theorem decodeOpcode_spec {fields : InstructionFields} {opcode : Opcode} {operands : List ValueId}
    {instruction : Instruction} (decoded : decodeOpcode fields opcode operands = .ok instruction) :
    instruction.operands = operands ∧ instruction.successorBlocks = opcode.targets operands := by
  cases opcode
  case switch =>
    rcases operands with _ | ⟨value, _ | ⟨defaultBlock, cases⟩⟩
    · simp [decodeOpcode, decodeSwitch?] at decoded
    · simp [decodeOpcode, decodeSwitch?] at decoded
    · cases paired : pairUp? cases with
      | none => simp [decodeOpcode, decodeSwitch?, paired] at decoded
      | some pairs =>
        obtain rfl : switch value defaultBlock pairs = instruction := by
          simpa [decodeOpcode, decodeSwitch?, paired] using decoded
        rw [Instruction.operands, successorBlocks, flattenPairs_pairUp? paired,
          map_snd_pairUp? paired, Opcode.targets]
        exact ⟨rfl, rfl⟩
  case phi =>
    cases decoded_phi : decodePhi? operands with
    | none => simp [decodeOpcode, decoded_phi] at decoded
    | some found =>
      obtain rfl : found = instruction := by simpa [decodeOpcode, decoded_phi] using decoded
      cases operands with
      | nil => cases decoded_phi
      | cons first rest =>
        obtain ⟨pairs, paired, rfl⟩ := Option.map_eq_some_iff.mp decoded_phi
        exact ⟨flattenPairs_pairUp? paired, rfl⟩
  case invoke =>
    cases operands with
    | nil => simp [decodeOpcode, decodeInvoke?] at decoded
    | cons callee rest =>
      rcases reversed : rest.reverse with _ | ⟨unwindBlock, _ | ⟨normalBlock, arguments⟩⟩
      · simp [decodeOpcode, decodeInvoke?, reversed] at decoded
      · simp [decodeOpcode, decodeInvoke?, reversed] at decoded
      · simp only [decodeOpcode, decodeInvoke?, reversed, Option.map_some, Option.getD_some,
          Except.ok.injEq] at decoded
        obtain rfl := decoded
        -- The two blocks stand at the end, in this order.
        obtain rfl : rest = arguments.reverse ++ [normalBlock, unwindBlock] := by
          rw [← List.reverse_reverse rest, reversed]
          simp
        have whole : callee :: (arguments.reverse ++ [normalBlock, unwindBlock]) =
            (callee :: arguments.reverse) ++ [normalBlock, unwindBlock] := rfl
        refine ⟨rfl, ?_⟩
        rw [successorBlocks, Opcode.targets, whole, List.length_append]
        exact (List.drop_left).symm
  case icmp =>
    rcases operands with _ | ⟨_, _ | ⟨_, _ | ⟨_, _⟩⟩⟩
    case cons.cons.nil =>
      cases found : intPredicate fields with
      | error error => simp [decodeOpcode, found, Except.map] at decoded
      | ok predicate =>
        simp only [decodeOpcode, found, Except.map, Except.ok.injEq] at decoded
        obtain rfl := decoded
        exact ⟨rfl, rfl⟩
    all_goals simp [decodeOpcode] at decoded
  case fcmp =>
    rcases operands with _ | ⟨_, _ | ⟨_, _ | ⟨_, _⟩⟩⟩
    case cons.cons.nil =>
      cases found : floatPredicate fields with
      | error error => simp [decodeOpcode, found, Except.map] at decoded
      | ok predicate =>
        simp only [decodeOpcode, found, Except.map, Except.ok.injEq] at decoded
        obtain rfl := decoded
        exact ⟨rfl, rfl⟩
    all_goals simp [decodeOpcode] at decoded
  all_goals
    rcases operands with _ | ⟨_, _ | ⟨_, _ | ⟨_, _ | ⟨_, _⟩⟩⟩⟩ <;>
      simp only [decodeOpcode, Except.ok.injEq, reduceCtorEq] at decoded <;>
      (obtain rfl := decoded; exact ⟨rfl, rfl⟩)

/-- Whether control stays among some blocks can be seen before operands have numbers. -/
theorem checkTargets_eq_ok_iff {blocks : List ValueId} {tag : Tag} {instruction : Instruction} :
    instruction.checkTargets blocks tag = .ok () ↔ instruction.successorBlocks ⊆ blocks := by
  have inside : (instruction.successorBlocks.all (· ∈ blocks)) = true ↔
      instruction.successorBlocks ⊆ blocks := by
    simp [List.subset_def]
  rw [← inside, checkTargets]
  split
  next all_inside => simp [all_inside]
  next =>
    simp only [*, Bool.false_eq_true, iff_false]
    split <;> simp

end Instruction

end FlowIR
