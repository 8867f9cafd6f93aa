import Superstep.Communication.Error
import Superstep.Log

namespace Superstep

/-- A block graph whose vertex blocks are being split. -/
structure Splitting where
  graph : FlowGraph
  ids : IdCounter
  log : List LogLine := []
deriving DecidableEq

/-- The blocks that a split vertex block becomes. -/
structure SplitBlocks where
  /-- The block that was split. It keeps its statements and sends. -/
  send : Block
  /-- The sequential block between the two vertex blocks. -/
  seq : Block
  /-- The vertex block that receives. -/
  receive : Block
deriving DecidableEq

namespace Splitting

abbrev Act (α : Type) := EStateM (Halt CommError) Splitting α

def look {α : Type} (f : FlowGraph → Except Fault α) : Act α := fun s =>
  match f s.graph with
  | .ok a => .ok a s
  | .error e => .error (.fault e) s

def fail {α : Type} (e : CommError) : Act α := throw (.error e)

def update (f : FlowGraph → Except Fault FlowGraph) : Act Unit :=
  updatePart graph (fun s graph => { s with graph }) .fault f

def createBlock (kind : BlockKind) : Act Block :=
  onPart (fun s => (s.graph, s.ids)) (fun s (graph, ids) => { s with graph, ids }) .fault
    (FlowGraph.createBlock kind)

/-- An edge by its number, where a missing one is an error of the split. -/
def nth (edge : FlowGraph → Except Fault (Except EdgeError Block)) : Act Block := do
  match ← look edge with
  | .ok b => return b
  | .error e => fail (.edge e)

/-- Checks that a block can be split, and answers the one block that it leads to: it is a vertex
block that receives, lies between one entry and one exit that are no vertex blocks, and is
the only entry of its exit as far as their number tells. -/
def requireSplittable (b : Block) : Act Block := do
  let data ← look (·.block b)
  let id := data.id
  unless data.isVertex do fail (.notVertexBlock id)
  unless data.hasReceiver do fail (.noReceivers id)
  unless data.entries.length = 1 do fail (.entryCount id data.entries.length)
  unless data.exits.length = 1 do fail (.exitCount id data.exits.length)
  let prev ← nth (·.nthEntry b 0)
  let next ← nth (·.nthExit b 0)
  let prevData ← look (·.block prev)
  if prevData.isVertex then fail (.vertexPredecessor id prevData.id)
  let nextData ← look (·.block next)
  if nextData.isVertex then fail (.vertexSuccessor id nextData.id)
  unless nextData.entries.length = 1 do
    fail (.successorEntryCount id nextData.id nextData.entries.length)
  return next

/-- Queues units in a block, one after the other. -/
def takeOver (b : Block) (units : List CommUnit) : Act Unit :=
  units.forM fun unit => update (·.updateBlock b (·.addReceiver unit))

/-- Turns `P → B → N` into `P → B → S → R → N`. The new `S` is sequential and follows a vertex
block, the new `R` is a vertex block that takes over what `B` received, and `B` keeps its
statements. -/
def splitVertexBlock (b : Block) : Act SplitBlocks := do
  let next ← requireSplittable b
  let data ← look (·.block b)
  let seq ← createBlock .seq
  let receive ← createBlock .beginVertex
  update (·.updateBlock seq (·.setAfterVertex true))
  takeOver receive data.receivers
  update (·.updateBlock b BlockData.clearReceivers)
  update (·.clearExits b)
  update (·.clearEntries next)
  update (·.addExit b seq)
  update (·.addExit seq receive)
  update (·.addExit receive next)
  update (·.appendBlock seq)
  update (·.appendBlock receive)
  let seqData ← look (·.block seq)
  let receiveData ← look (·.block receive)
  let text := "split " ++ blockName data.id ++ " into " ++ blockName data.id ++ " -> " ++
    blockName seqData.id ++ " -> " ++ blockName receiveData.id ++ ", moving " ++
    toString data.receivers.length ++ " receiver(s)"
  modify fun s => { s with log := s.log ++ [⟨.debug, text⟩] }
  return { send := b, seq, receive }

end Splitting

end Superstep
