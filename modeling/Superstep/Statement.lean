import Superstep.LoopRole
import Superstep.Packed

namespace Superstep

/-- What a loop runs over: the whole graph, or the neighbourhood of a vertex. -/
inductive IterKind where
  | allNodes
  | allEdges
  | outNbrs
  | inNbrs
  | upNbrs
  | downNbrs
deriving DecidableEq

def IterKind.isAllGraph : IterKind → Bool
  | allNodes | allEdges => true
  | _ => false

/-- What a symbol stands for. -/
inductive SymbolKind where
  | graph
  | node
  | edge
  | nodeProperty
  | edgeProperty
  | scalar
deriving DecidableEq

/-- What is known of a symbol. -/
structure Declaration where
  name : Str
  kind : SymbolKind
deriving DecidableEq

/-- A property of the vertex or edge that a symbol holds. -/
structure FieldAccess where
  driver : Symbol
  property : Symbol
deriving DecidableEq

/-- The left side of an assignment. -/
inductive AssignTarget where
  | scalar (symbol : Symbol)
  | field (access : FieldAccess)
deriving DecidableEq

def AssignTarget.field? : AssignTarget → Option FieldAccess
  | scalar _ => none
  | field access => some access

/-- A loop over a part of the graph. -/
structure Foreach where
  iterator : Symbol
  source : Symbol
  iter : IterKind
  body : Stmt
  role : LoopRole := .unclassified
deriving DecidableEq

/-- An assignment. It is a random write if it names the block that hosts its message. -/
structure Assign where
  target : AssignTarget
  rhs : Str
  randomWrite : Packed "Stmt" 0xFFFFFFFF := Packed.none
deriving DecidableEq

/-- A choice between two statements, the second of which may be missing. -/
structure Branch where
  cond : Str
  positive : Stmt
  negative : Packed "Stmt" 0xFFFFFFFF
deriving DecidableEq

/-- A statement repeated while a condition holds. -/
structure Loop where
  cond : Str
  body : Stmt
deriving DecidableEq

/-- A statement, whose parts are named by keys. -/
inductive Statement where
  | block (stmts : List Stmt)
  | foreach (f : Foreach)
  | assign (a : Assign)
  | branch (b : Branch)
  | loop (l : Loop)
  /-- A statement that is not looked into. -/
  | verbatim (text : Str)
deriving DecidableEq

namespace Statement

/-- The statements directly inside a statement, in program order. -/
def children : Statement → List Stmt
  | block stmts => stmts
  | foreach f => [f.body]
  | branch b => b.positive :: b.negative.expand.toList
  | loop l => [l.body]
  | assign _ | verbatim _ => []

/-- The word for a statement in a listing. -/
def word : Statement → String
  | block _ => "block"
  | foreach _ => "foreach"
  | assign _ => "assign"
  | branch _ => "if"
  | loop _ => "while"
  | verbatim _ => "opaque"

def foreach? : Statement → Option Foreach
  | foreach f => some f
  | _ => none

def assign? : Statement → Option Assign
  | assign a => some a
  | _ => none

end Statement

end Superstep
