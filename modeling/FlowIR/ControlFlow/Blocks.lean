import FlowIR.Module.Basic

/-!
# Control flow between blocks
-/
namespace FlowIR.Module

/-- The blocks to which the last instruction of a block may go, in the order of its operands. -/
def blockSuccessors (module : Module) (block : ValueId) : List ValueId :=
  let last? := do module.instruction? (← (← module.block? block).terminator?)
  (last?.map Instruction.successorBlocks).getD []

/-- The blocks of the same function from which control may come. -/
def blockPredecessors (module : Module) (block : ValueId) : List ValueId :=
  let function? := do module.function? (← module.functionOf? block)
  (function?.map FunctionInfo.blocks).getD [] |>.filter (block ∈ module.blockSuccessors ·)

end FlowIR.Module
