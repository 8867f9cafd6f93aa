import Superstep.Statement
import Superstep.Step
import Superstep.Table

namespace Superstep

/-- The statements and symbols of a procedure. -/
structure Ast where
  stmts : Table Stmt Statement := {}
  symbols : Table Symbol Declaration := {}
  body : Packed "Stmt" 0xFFFFFFFF := Packed.none
deriving DecidableEq

namespace Ast

def createStmt (statement : Statement) : EStateM Fault Ast Stmt :=
  onPart stmts (fun ast stmts => { ast with stmts }) id (Table.insert statement)

def createSymbol (declaration : Declaration) : EStateM Fault Ast Symbol :=
  onPart symbols (fun ast symbols => { ast with symbols }) id (Table.insert declaration)

def stmt (ast : Ast) (s : Stmt) : Except Fault Statement := ast.stmts.get s

def symbol (ast : Ast) (y : Symbol) : Except Fault Declaration := ast.symbols.get y

/-- The loop that a key names, if the statement is one. -/
def foreach? (ast : Ast) (s : Stmt) : Except Fault (Option Foreach) :=
  (ast.stmt s).map Statement.foreach?

/-- The assignment that a key names, if the statement is one. -/
def assign? (ast : Ast) (s : Stmt) : Except Fault (Option Assign) :=
  (ast.stmt s).map Statement.assign?

def children (ast : Ast) (s : Stmt) : Except Fault (List Stmt) :=
  (ast.stmt s).map Statement.children

/-- Overwrites a statement. -/
def setStmt (ast : Ast) (s : Stmt) (statement : Statement) : Except Fault Ast := do
  let stmts ← ast.stmts.update s fun _ => statement
  return { ast with stmts }

/-- Gives a loop another role. -/
def setRole (ast : Ast) (s : Stmt) (loop : Foreach) (role : LoopRole) : Ast :=
  { ast with stmts := ast.stmts.set s (.foreach { loop with role }) }

/-- Flags an assignment as a random write whose message is hosted by `host`. Answers whether the
statement is an assignment. -/
def setRandomWrite (ast : Ast) (s host : Stmt) : Except Fault (Bool × Ast) := do
  match ← ast.assign? s with
  | some assignment =>
    let randomWrite ← Packed.some host
    return (true, { ast with stmts := ast.stmts.set s (.assign { assignment with randomWrite }) })
  | none => return (false, ast)

def setBody (ast : Ast) (s : Stmt) : Except Fault Ast := do
  let body ← Packed.some s
  return { ast with body }

end Ast

end Superstep
