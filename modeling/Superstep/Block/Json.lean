import Superstep.Block.Describe
import Superstep.Json

namespace Superstep

def BlockKind.all : List BlockKind := [seq, beginVertex, ifCond, whileCond]

instance : JsonForm BlockKind where
  toJson k := .text k.name
  ofJson? j := j.caseName?.bind (ofName? BlockKind.all BlockKind.name)

/-- The fields of a unit belong to its case and not to a structure of their own, so they are
named always. -/
instance : JsonForm CommUnit where
  toJson
    | .nested loop => .ofCase "Nested" (.object [("foreach", toJson loop)])
    | .randomWrite host symbol => .ofCase "RandomWrite"
      (.object [("sent_block", toJson host), ("symbol", toJson symbol)])
  ofJson? j :=
    match j.caseWith? with
    | some ("Nested", unit) =>
      match unit.named? ["foreach"] with
      | some [loop] => (ofJson? loop).map .nested
      | _ => none
    | some ("RandomWrite", unit) =>
      match unit.named? ["sent_block", "symbol"] with
      | some [host, symbol] => return .randomWrite (← ofJson? host) (← ofJson? symbol)
      | _ => none
    | _ => none

instance : JsonForm BlockData where
  toJson b := .object
    [("id", toJson b.id), ("kind", toJson b.kind), ("after_vertex", toJson b.afterVertex),
      ("entries", toJson b.entries), ("exits", toJson b.exits), ("sents", toJson b.sents),
      ("receivers", toJson b.receivers)]
  ofJson? j :=
    match j.fields? ["id", "kind", "after_vertex", "entries", "exits", "sents", "receivers"] with
    | some [id, kind, afterVertex, entries, exits, sents, receivers] => return {
        id := ← ofJson? id
        kind := ← ofJson? kind
        afterVertex := ← ofJson? afterVertex
        entries := ← ofJson? entries
        exits := ← ofJson? exits
        sents := ← ofJson? sents
        receivers := ← ofJson? receivers }
    | _ => none

end Superstep
