import Superstep.FlowGraph
import Superstep.KeySet

namespace Superstep

namespace FlowGraph

/-- Blocks in depth-first preorder. The pending blocks come first to last, a block is entered
once, and its exits are pending before all others. Every step takes one block off the pending
ones, so `steps` bounds how often a block can become pending. -/
def preorder (g : FlowGraph) : Nat → List Block → List Block → BlockSet → Except Fault (List Block)
  | _, [], entered, _ => .ok entered
  | 0, _ :: _, entered, _ => .ok entered
  | steps + 1, b :: pending, entered, seen =>
    let marked := seen.insert b
    if marked.1 then preorder g steps pending entered marked.2
    else
      match g.block b with
      | .ok data => preorder g steps (data.exits ++ pending) (entered ++ [b]) marked.2
      | .error e => .error e

/-- The number of exits of all blocks together. -/
def exitCount (g : FlowGraph) : Nat :=
  g.blocks.values.foldl (fun n b => n + b.exits.length) 0

/-- The blocks that the entry block leads to, in depth-first preorder. The entry becomes pending
once, and a block's exits once each when the block is entered, which bounds the steps. -/
def reachable (g : FlowGraph) : Except Fault (List Block) :=
  g.preorder (g.exitCount + 1) g.entry.expand.toList [] .empty

end FlowGraph

end Superstep
