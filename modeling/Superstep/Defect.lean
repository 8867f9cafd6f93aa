import Superstep.Block.Describe
import Superstep.FlowGraph
import Superstep.KeySet

namespace Superstep

/-- What is wrong with a block graph. -/
inductive Defect where
  | listedTwice (block : BlockId)
  | sharedId (block : BlockId)
  | unlistedEntryBlock (block : BlockId)
  | exitToUnlisted (block succ : BlockId)
  | exitMismatch (block succ : BlockId) (exits entries : Nat)
  | entryFromUnlisted (block pred : BlockId)
  | entryMismatch (block pred : BlockId) (entries exits : Nat)
  | afterVertexNotSeq (block : BlockId)
  | receiversNotVertex (block : BlockId)
  | unregisteredUnit (block : BlockId) (unit : CommUnit)
  | repeatedUnit (block : BlockId) (unit : CommUnit)
deriving DecidableEq

def Defect.message : Defect → String
  | listedTwice block => blockName block ++ " is in the block list twice"
  | sharedId block => "block id " ++ blockName block ++ " is used by more than one block"
  | unlistedEntryBlock block => "entry block " ++ blockName block ++ " is not in the block list"
  | exitToUnlisted block succ =>
    blockName block ++ " has an exit to " ++ blockName succ ++ ", which is not in the block list"
  | exitMismatch block succ exits entries =>
    blockName block ++ " has " ++ toString exits ++ " exit(s) to " ++ blockName succ ++ ", but " ++
      blockName succ ++ " has " ++ toString entries ++ " entry(s) from " ++ blockName block
  | entryFromUnlisted block pred =>
    blockName block ++ " has an entry from " ++ blockName pred ++
      ", which is not in the block list"
  | entryMismatch block pred entries exits =>
    blockName block ++ " has " ++ toString entries ++ " entry(s) from " ++ blockName pred ++
      ", but " ++ blockName pred ++ " has " ++ toString exits ++ " exit(s) to " ++ blockName block
  | afterVertexNotSeq block =>
    blockName block ++ " is marked as following a vertex block, but is not sequential"
  | receiversNotVertex block => blockName block ++ " has receivers, but is not a vertex block"
  | unregisteredUnit block unit =>
    blockName block ++ " receives " ++ describe unit ++
      ", which is not a registered communication unit"
  | repeatedUnit block unit =>
    blockName block ++ " receives " ++ describe unit ++ " more than once"

namespace FlowGraph

/-- The defects of the layout, given the blocks registered before and their ids, and the blocks
that are registered after it. -/
def layoutDefects (g : FlowGraph) :
    List Block → BlockSet → List BlockId → Except Fault (List Defect × BlockSet)
  | [], registered, _ => .ok ([], registered)
  | b :: rest, registered, ids => do
    let data ← g.block b
    let marked := registered.insert b
    let others ← layoutDefects g rest marked.2 (data.id :: ids)
    return ((if marked.1 then [.listedTwice data.id] else []) ++
      (if data.id ∈ ids then [.sharedId data.id] else []) ++ others.1, others.2)

def entryDefects (g : FlowGraph) (registered : BlockSet) : Except Fault (List Defect) :=
  match g.entry.expand with
  | none => .ok []
  | some b =>
    if registered.contains b then .ok []
    else do
      let data ← g.block b
      return [.unlistedEntryBlock data.id]

/-- The defects of one exit: it leaves the layout, or its two ends count it differently. -/
def exitDefects (g : FlowGraph) (registered : BlockSet) (b : Block) (data : BlockData)
    (succ : Block) : Except Fault (List Defect) := do
  let succData ← g.block succ
  let exits := data.exits.count succ
  let entries := succData.entries.count b
  return (if registered.contains succ then [] else [.exitToUnlisted data.id succData.id]) ++
    if exits = entries then [] else [.exitMismatch data.id succData.id exits entries]

/-- The defects of one entry: it leaves the layout, or its two ends count it differently. -/
def entryEdgeDefects (g : FlowGraph) (registered : BlockSet) (b : Block) (data : BlockData)
    (pred : Block) : Except Fault (List Defect) := do
  let predData ← g.block pred
  let exits := predData.exits.count b
  let entries := data.entries.count pred
  return (if registered.contains pred then [] else [.entryFromUnlisted data.id predData.id]) ++
    if exits = entries then [] else [.entryMismatch data.id predData.id entries exits]

/-- The defects of received units, given those received before them. -/
def receiverDefects (g : FlowGraph) (id : BlockId) :
    List CommUnit → List CommUnit → List Defect
  | [], _ => []
  | unit :: rest, received =>
    (if (g.registry.commId? unit).isSome then [] else [.unregisteredUnit id unit]) ++
      (if unit ∈ received then [.repeatedUnit id unit] else []) ++
      receiverDefects g id rest (unit :: received)

/-- The defects of one listed block. -/
def blockDefects (g : FlowGraph) (registered : BlockSet) (b : Block) :
    Except Fault (List Defect) := do
  let data ← g.block b
  let exits ← data.exits.mapM (g.exitDefects registered b data)
  let entries ← data.entries.mapM (g.entryEdgeDefects registered b data)
  return exits.flatten ++ entries.flatten ++
    (if data.afterVertex ∧ data.kind ≠ .seq then [.afterVertexNotSeq data.id] else []) ++
    (if data.hasReceiver ∧ ¬data.isVertex then [.receiversNotVertex data.id] else []) ++
    g.receiverDefects data.id data.receivers []

/-- Everything that is wrong with a block graph: every edge is recorded on both of its ends, the
entry and every end of an edge is listed, blocks and ids are listed once, and only vertex blocks
receive, each unit once and only registered ones. -/
def defects (g : FlowGraph) : Except Fault (List Defect) := do
  let layout ← g.layoutDefects g.layout .empty []
  let entry ← g.entryDefects layout.2
  let blocks ← g.layout.mapM (g.blockDefects layout.2)
  return layout.1 ++ entry ++ blocks.flatten

end FlowGraph

end Superstep
