import Superstep.Ast
import Superstep.Reach

namespace Superstep

/-- What a procedure consists of: its statements and its blocks. -/
structure Body where
  ast : Ast := {}
  graph : FlowGraph := {}
deriving DecidableEq

/-- Where a statement is visited. -/
structure Scope where
  /-- The block whose statements or receivers are walked. -/
  block : Block
  /-- The innermost enclosing outer loop that the visitor has announced. -/
  outer : Option Stmt := none
  /-- Whether the statement is in the body of a received loop. -/
  underReceiver : Bool := false
deriving DecidableEq

/-- Which statements of each block a walk looks at. -/
structure WalkOptions where
  sents : Bool
  receivers : Bool
deriving DecidableEq

/-- What walks over the statements of a procedure. Its state `σ` holds the body that is walked,
and it ends a walk early with an error `ε`. -/
structure Visitor (σ ε : Type) where
  body : σ → Body
  /-- Whether a block is walked at all. -/
  accepts : Block → EStateM (Halt ε) σ Bool
  /-- Visits a statement, and answers the scope in which its children are visited. -/
  visit : Stmt → Scope → EStateM (Halt ε) σ Scope

namespace Visitor

variable {σ ε α : Type}

/-- Looks something up in the body as it stands. -/
def look (v : Visitor σ ε) (f : Body → Except Fault α) : EStateM (Halt ε) σ α := fun s =>
  match f (v.body s) with
  | .ok a => .ok a s
  | .error e => .error (.fault e) s

/-- Visits a statement and then everything inside it, in program order. The children are those
that the statement has after its own visit. -/
def walkStmt (v : Visitor σ ε) : Nat → Scope → Stmt → EStateM (Halt ε) σ Unit
  | 0, _, _ => throw (.fault .endlessTree)
  | depth + 1, scope, s => do
    let inner ← v.visit s scope
    let children ← v.look (·.ast.children s)
    children.forM (walkStmt v depth inner)

/-- No path through different statements is longer than the number of keys for them. -/
def deepest : Nat := 0x100000000

/-- The bodies of the inner loops among the receivers of a block. -/
def receivedBodies (ast : Ast) : List CommUnit → Except Fault (List Stmt)
  | [] => .ok []
  | .randomWrite _ _ :: rest => receivedBodies ast rest
  | .nested s :: rest => do
    let loop ← ast.foreach? s
    let bodies ← receivedBodies ast rest
    return (loop.map (·.body)).toList ++ bodies

/-- Walks a block: its statements, and then the bodies of the loops that it receives once its
statements have been visited. -/
def walkBlock (v : Visitor σ ε) (options : WalkOptions) (b : Block) : EStateM (Halt ε) σ Unit := do
  if ← v.accepts b then
    if options.sents then
      let data ← v.look (·.graph.block b)
      data.sents.forM (v.walkStmt deepest { block := b })
    if options.receivers then
      let bodies ← v.look fun body => do
        let data ← body.graph.block b
        receivedBodies body.ast data.receivers
      bodies.forM (v.walkStmt deepest { block := b, underReceiver := true })

/-- Walks every block that is reachable when the walk begins. -/
def walk (v : Visitor σ ε) (options : WalkOptions) : EStateM (Halt ε) σ Unit := do
  let blocks ← v.look (·.graph.reachable)
  blocks.forM (v.walkBlock options)

end Visitor

end Superstep
