import Superstep.Registry

namespace Superstep

/-- The name of a block in listings and messages. -/
def blockName (id : BlockId) : String := "bb" ++ toString id.index

/-- What hands out block ids. They count up, and start again at zero after the greatest. -/
structure IdCounter where
  next : BlockId := Key.wrap 0
deriving DecidableEq

def IdCounter.issue (c : IdCounter) : BlockId × IdCounter :=
  (c.next, ⟨Key.wrap (c.next.index + 1)⟩)

inductive BlockKind where
  | seq
  | beginVertex
  | ifCond
  | whileCond
deriving DecidableEq

/-- The word for a kind of block in a listing. -/
def BlockKind.word : BlockKind → String
  | seq => "seq"
  | beginVertex => "begin-vertex"
  | ifCond => "if-cond"
  | whileCond => "while-cond"

/-- A block: its edges, the statements that it runs and the units that it receives before them. -/
structure BlockData where
  id : BlockId
  kind : BlockKind
  afterVertex : Bool := false
  entries : List Block := []
  exits : List Block := []
  sents : List Stmt := []
  receivers : List CommUnit := []
deriving DecidableEq

namespace BlockData

def isVertex (b : BlockData) : Bool := b.kind = .beginVertex

def hasReceiver (b : BlockData) : Bool := !b.receivers.isEmpty

def addSent (b : BlockData) (s : Stmt) : BlockData := { b with sents := b.sents ++ [s] }

def addReceiver (b : BlockData) (unit : CommUnit) : BlockData :=
  { b with receivers := b.receivers ++ [unit] }

def clearReceivers (b : BlockData) : BlockData := { b with receivers := [] }

def setAfterVertex (b : BlockData) (value : Bool) : BlockData := { b with afterVertex := value }

def addExit (b : BlockData) (target : Block) : BlockData :=
  { b with exits := b.exits ++ [target] }

def addEntry (b : BlockData) (source : Block) : BlockData :=
  { b with entries := b.entries ++ [source] }

/-- The random writes among the receivers. -/
def randomWrites (b : BlockData) : List (Stmt × Symbol) :=
  b.receivers.filterMap fun
    | .randomWrite host symbol => some (host, symbol)
    | .nested _ => none

end BlockData

end Superstep
