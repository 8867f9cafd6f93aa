import Superstep.Block
import Superstep.Describe

namespace Superstep

def BlockKind.name : BlockKind → String
  | seq => "Seq"
  | beginVertex => "BeginVertex"
  | ifCond => "IfCond"
  | whileCond => "WhileCond"

instance : Describe BlockKind := ⟨BlockKind.name⟩

instance : Describe CommUnit where
  describe
    | .nested loop => describeFields "Nested" [("foreach", describe loop)]
    | .randomWrite host symbol => describeFields "RandomWrite"
      [("sent_block", describe host), ("symbol", describe symbol)]

instance : Describe BlockData where
  describe b := describeFields "BasicBlock"
    [("id", describe b.id), ("kind", describe b.kind), ("after_vertex", describe b.afterVertex),
      ("entries", describe b.entries), ("exits", describe b.exits), ("sents", describe b.sents),
      ("receivers", describe b.receivers)]

end Superstep
