import Superstep.Ast
import Superstep.CommFlags.Text
import Superstep.Describe

namespace Superstep

def IterKind.name : IterKind → String
  | allNodes => "AllNodes"
  | allEdges => "AllEdges"
  | outNbrs => "OutNbrs"
  | inNbrs => "InNbrs"
  | upNbrs => "UpNbrs"
  | downNbrs => "DownNbrs"

def SymbolKind.name : SymbolKind → String
  | graph => "Graph"
  | node => "Node"
  | edge => "Edge"
  | nodeProperty => "NodeProperty"
  | edgeProperty => "EdgeProperty"
  | scalar => "Scalar"

instance : Describe IterKind := ⟨IterKind.name⟩

instance : Describe SymbolKind := ⟨SymbolKind.name⟩

instance : Describe CommFlags where
  describe f := describeCase "CommFlags" (if f.bits = 0 then "0x0" else f.text)

instance : Describe LoopRole where
  describe
    | .unclassified => "Unclassified"
    | .outer flags => describeCase "Outer" (describe flags)
    | .inner => "Inner"

instance : Describe Declaration where
  describe d := describeFields "SymbolData" [("name", describe d.name), ("kind", describe d.kind)]

instance : Describe FieldAccess where
  describe a := describeFields "FieldAccess"
    [("driver", describe a.driver), ("property", describe a.property)]

instance : Describe AssignTarget where
  describe
    | .scalar symbol => describeCase "Scalar" (describe symbol)
    | .field access => describeCase "Field" (describe access)

instance : Describe Foreach where
  describe f := describeFields "ForeachStmt"
    [("iterator", describe f.iterator), ("source", describe f.source), ("iter", describe f.iter),
      ("body", describe f.body), ("role", describe f.role)]

instance : Describe Assign where
  describe a := describeFields "AssignStmt"
    [("target", describe a.target), ("rhs", describe a.rhs),
      ("random_write", describe a.randomWrite)]

instance : Describe Branch where
  describe b := describeFields "IfStmt"
    [("cond", describe b.cond), ("then", describe b.positive), ("otherwise", describe b.negative)]

instance : Describe Loop where
  describe l := describeFields "WhileStmt" [("cond", describe l.cond), ("body", describe l.body)]

instance : Describe Statement where
  describe
    | .block stmts => describeCase "Block" (describeFields "SentBlock" [("stmts", describe stmts)])
    | .foreach f => describeCase "Foreach" (describe f)
    | .assign a => describeCase "Assign" (describe a)
    | .branch b => describeCase "If" (describe b)
    | .loop l => describeCase "While" (describe l)
    | .verbatim text => describeCase "Opaque" (describe text)

def Ast.describe (ast : Ast) : Except Fault String := do
  let stmts ← ast.stmts.describe
  let symbols ← ast.symbols.describe
  return describeFields "Ast"
    [("stmts", stmts), ("symbols", symbols), ("body", Superstep.describe ast.body)]

end Superstep
