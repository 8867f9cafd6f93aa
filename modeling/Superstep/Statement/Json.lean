import Superstep.Json
import Superstep.Statement.Describe

namespace Superstep

def IterKind.all : List IterKind := [allNodes, allEdges, outNbrs, inNbrs, upNbrs, downNbrs]

def SymbolKind.all : List SymbolKind := [graph, node, edge, nodeProperty, edgeProperty, scalar]

instance : JsonForm IterKind where
  toJson k := .text k.name
  ofJson? j := j.caseName?.bind (ofName? IterKind.all IterKind.name)

instance : JsonForm SymbolKind where
  toJson k := .text k.name
  ofJson? j := j.caseName?.bind (ofName? SymbolKind.all SymbolKind.name)

instance : JsonForm CommFlags where
  toJson f := .text f.text
  ofJson?
    | .text s => CommFlags.ofText? s
    | _ => none

instance : JsonForm LoopRole where
  toJson
    | .unclassified => .text "Unclassified"
    | .outer flags => .ofCase "Outer" (toJson flags)
    | .inner => .text "Inner"
  ofJson? j :=
    match j.case? with
    | some ("Unclassified", .null) => some .unclassified
    | some ("Inner", .null) => some .inner
    | some ("Outer", flags) => (ofJson? flags).map .outer
    | _ => none

instance : JsonForm Declaration where
  toJson d := .object [("name", toJson d.name), ("kind", toJson d.kind)]
  ofJson? j :=
    match j.fields? ["name", "kind"] with
    | some [name, kind] => return { name := ← ofJson? name, kind := ← ofJson? kind }
    | _ => none

instance : JsonForm FieldAccess where
  toJson a := .object [("driver", toJson a.driver), ("property", toJson a.property)]
  ofJson? j :=
    match j.fields? ["driver", "property"] with
    | some [driver, property] => return { driver := ← ofJson? driver, property := ← ofJson? property }
    | _ => none

instance : JsonForm AssignTarget where
  toJson
    | .scalar symbol => .ofCase "Scalar" (toJson symbol)
    | .field access => .ofCase "Field" (toJson access)
  ofJson? j :=
    match j.caseWith? with
    | some ("Scalar", symbol) => (ofJson? symbol).map .scalar
    | some ("Field", access) => (ofJson? access).map .field
    | _ => none

instance : JsonForm Foreach where
  toJson f := .object
    [("iterator", toJson f.iterator), ("source", toJson f.source), ("iter", toJson f.iter),
      ("body", toJson f.body), ("role", toJson f.role)]
  ofJson? j :=
    match j.fields? ["iterator", "source", "iter", "body", "role"] with
    | some [iterator, source, iter, body, role] => return {
        iterator := ← ofJson? iterator
        source := ← ofJson? source
        iter := ← ofJson? iter
        body := ← ofJson? body
        role := ← ofJson? role }
    | _ => none

instance : JsonForm Assign where
  toJson a := .object
    [("target", toJson a.target), ("rhs", toJson a.rhs), ("random_write", toJson a.randomWrite)]
  ofJson? j :=
    match j.fields? ["target", "rhs", "random_write"] with
    | some [target, rhs, randomWrite] => return {
        target := ← ofJson? target
        rhs := ← ofJson? rhs
        randomWrite := ← ofJson? randomWrite }
    | _ => none

instance : JsonForm Branch where
  toJson b := .object
    [("cond", toJson b.cond), ("then", toJson b.positive), ("otherwise", toJson b.negative)]
  ofJson? j :=
    match j.fields? ["cond", "then", "otherwise"] with
    | some [cond, positive, negative] => return {
        cond := ← ofJson? cond
        positive := ← ofJson? positive
        negative := ← ofJson? negative }
    | _ => none

instance : JsonForm Loop where
  toJson l := .object [("cond", toJson l.cond), ("body", toJson l.body)]
  ofJson? j :=
    match j.fields? ["cond", "body"] with
    | some [cond, body] => return { cond := ← ofJson? cond, body := ← ofJson? body }
    | _ => none

instance : JsonForm Statement where
  toJson
    | .block stmts => .ofCase "Block" (.object [("stmts", toJson stmts)])
    | .foreach f => .ofCase "Foreach" (toJson f)
    | .assign a => .ofCase "Assign" (toJson a)
    | .branch b => .ofCase "If" (toJson b)
    | .loop l => .ofCase "While" (toJson l)
    | .verbatim text => .ofCase "Opaque" (toJson text)
  ofJson? j :=
    match j.caseWith? with
    | some ("Block", block) =>
      match block.fields? ["stmts"] with
      | some [stmts] => (ofJson? stmts).map .block
      | _ => none
    | some ("Foreach", f) => (ofJson? f).map .foreach
    | some ("Assign", a) => (ofJson? a).map .assign
    | some ("If", b) => (ofJson? b).map .branch
    | some ("While", l) => (ofJson? l).map .loop
    | some ("Opaque", text) => (ofJson? text).map .verbatim
    | _ => none

instance : JsonForm Ast where
  toJson ast := .object
    [("stmts", toJson ast.stmts), ("symbols", toJson ast.symbols), ("body", toJson ast.body)]
  ofJson? j :=
    match j.fields? ["stmts", "symbols", "body"] with
    | some [stmts, symbols, body] => return {
        stmts := ← ofJson? stmts
        symbols := ← ofJson? symbols
        body := ← ofJson? body }
    | _ => none

end Superstep
