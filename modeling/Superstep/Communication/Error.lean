import Superstep.Block.Describe
import Superstep.FlowGraph
import Superstep.Statement.Describe

namespace Superstep

/-- Why the communication of a procedure cannot be found or a block cannot be split. -/
inductive CommError where
  | receiverTraversal (block : BlockId) (stmt : Stmt)
  | innerLoopWithoutOuter (block : BlockId) (stmt : Stmt)
  | randomWriteWithoutOuter (block : BlockId) (stmt : Stmt)
  | randomWriteWithoutField (stmt : Stmt)
  | conflictingLoopRole (stmt : Stmt) (existing : LoopRole)
  | notVertexBlock (block : BlockId)
  | noReceivers (block : BlockId)
  | entryCount (block : BlockId) (found : Nat)
  | exitCount (block : BlockId) (found : Nat)
  | vertexPredecessor (block pred : BlockId)
  | vertexSuccessor (block succ : BlockId)
  | successorEntryCount (block succ : BlockId) (found : Nat)
  | edge (e : EdgeError)
deriving DecidableEq

namespace CommError

/-- The name of the cause. -/
def kind : CommError → String
  | receiverTraversal .. => "ReceiverTraversal"
  | innerLoopWithoutOuter .. => "InnerLoopWithoutOuter"
  | randomWriteWithoutOuter .. => "RandomWriteWithoutOuter"
  | randomWriteWithoutField .. => "RandomWriteWithoutField"
  | conflictingLoopRole .. => "ConflictingLoopRole"
  | notVertexBlock .. => "NotVertexBlock"
  | noReceivers .. => "NoReceivers"
  | entryCount .. => "EntryCount"
  | exitCount .. => "ExitCount"
  | vertexPredecessor .. => "VertexPredecessor"
  | vertexSuccessor .. => "VertexSuccessor"
  | successorEntryCount .. => "SuccessorEntryCount"
  | edge _ => "Cfg"

def message : CommError → String
  | receiverTraversal block stmt =>
    "statement " ++ describe stmt ++ " in " ++ blockName block ++
      " was reached through a receiver during detection"
  | innerLoopWithoutOuter block stmt =>
    "inner loop " ++ describe stmt ++ " in " ++ blockName block ++
      " is not nested inside an outer loop"
  | randomWriteWithoutOuter block stmt =>
    "random write " ++ describe stmt ++ " in " ++ blockName block ++
      " is not nested inside an outer loop"
  | randomWriteWithoutField stmt =>
    "random write " ++ describe stmt ++ " does not assign to a property"
  | conflictingLoopRole stmt existing =>
    "loop " ++ describe stmt ++ " is already classified as " ++ describe existing
  | notVertexBlock block => blockName block ++ " is not a vertex block"
  | noReceivers block => blockName block ++ " has no receivers"
  | entryCount block found =>
    blockName block ++ " must have exactly one entry, found " ++ toString found
  | exitCount block found =>
    blockName block ++ " must have exactly one exit, found " ++ toString found
  | vertexPredecessor block pred =>
    "predecessor " ++ blockName pred ++ " of " ++ blockName block ++ " is a vertex block"
  | vertexSuccessor block succ =>
    "successor " ++ blockName succ ++ " of " ++ blockName block ++ " is a vertex block"
  | successorEntryCount block succ found =>
    "successor " ++ blockName succ ++ " of " ++ blockName block ++
      " must have exactly one entry, found " ++ toString found
  | edge e => e.message

end CommError

end Superstep
