import Superstep.Procedure

namespace Superstep

/-- A procedure in the making: statements are made before the statements that contain them. -/
structure Builder where
  context : Context
  body : Body := {}
deriving DecidableEq

namespace Builder

abbrev Act (α : Type) := EStateM Fault Builder α

def onAst {α : Type} (act : EStateM Fault Ast α) : Act α :=
  onPart (·.body.ast) (fun b ast => { b with body.ast := ast }) (·) act

def updateAst (f : Ast → Except Fault Ast) : Act Unit :=
  updatePart (·.body.ast) (fun b ast => { b with body.ast := ast }) (·) f

def updateGraph (f : FlowGraph → Except Fault FlowGraph) : Act Unit :=
  updatePart (·.body.graph) (fun b graph => { b with body.graph := graph }) (·) f

def insertString (s : String) : Act Str :=
  modifyGet fun b =>
    let (handle, context) := b.context.insertString s
    (handle, { b with context })

def symbol (name : String) (kind : SymbolKind) : Act Symbol := do
  let name ← insertString name
  onAst (Ast.createSymbol { name, kind })

/-- A statement that runs others one after the other. -/
def sentBlock (stmts : List Stmt) : Act Stmt := onAst (Ast.createStmt (.block stmts))

def foreach (iterator source : Symbol) (iter : IterKind) (body : Stmt) : Act Stmt :=
  onAst (Ast.createStmt (.foreach { iterator, source, iter, body }))

def assign (target : AssignTarget) (rhs : String) : Act Stmt := do
  let rhs ← insertString rhs
  onAst (Ast.createStmt (.assign { target, rhs }))

def assignField (driver property : Symbol) (rhs : String) : Act Stmt :=
  assign (.field { driver, property }) rhs

def assignScalar (symbol : Symbol) (rhs : String) : Act Stmt := assign (.scalar symbol) rhs

/-- Flags an assignment as a random write. No other statement can be one. -/
def markRandomWrite (s host : Stmt) : Act Unit :=
  updateAst fun ast => do
    match ← ast.setRandomWrite s host with
    | (true, ast) => return ast
    | (false, _) => .error .notAnAssignment

def ifStmt (cond : String) (positive : Stmt) (negative : Option Stmt) : Act Stmt := do
  let cond ← insertString cond
  let negative ← settle (·) (Packed.ofOption negative)
  onAst (Ast.createStmt (.branch { cond, positive, negative }))

def whileStmt (cond : String) (body : Stmt) : Act Stmt := do
  let cond ← insertString cond
  onAst (Ast.createStmt (.loop { cond, body }))

def verbatim (text : String) : Act Stmt := do
  let text ← insertString text
  onAst (Ast.createStmt (.verbatim text))

def setBody (s : Stmt) : Act Unit := updateAst (·.setBody s)

/-- Creates a block and lists it. -/
def createBlock (kind : BlockKind) : Act Block := do
  let block ← onPart (fun b => (b.body.graph, b.context.ids))
    (fun b (graph, ids) => { b with body.graph := graph, context.ids := ids }) (·)
    (FlowGraph.createBlock kind)
  updateGraph (·.appendBlock block)
  return block

def addSent (block : Block) (s : Stmt) : Act Unit := updateGraph (·.updateBlock block (·.addSent s))

def link (source target : Block) : Act Unit := updateGraph (·.addExit source target)

def setEntry (block : Block) : Act Unit := updateGraph (·.setEntry block)

end Builder

end Superstep
