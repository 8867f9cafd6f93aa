import Superstep.Block
import Superstep.Packed

namespace Superstep

/-- The blocks of a procedure. The layout lists those that belong to it, in order. -/
structure FlowGraph where
  blocks : Table Block BlockData := {}
  layout : List Block := []
  entry : Packed "Block" 0xFFFFFFFF := Packed.none
  registry : Registry := {}
deriving DecidableEq

/-- An edge of a block was asked for by a number that it does not have. -/
inductive EdgeError where
  | entryOutOfRange (block : BlockId) (index found : Nat)
  | exitOutOfRange (block : BlockId) (index found : Nat)
deriving DecidableEq

/-- The name of the cause. -/
def EdgeError.kind : EdgeError → String
  | entryOutOfRange .. => "EntryOutOfRange"
  | exitOutOfRange .. => "ExitOutOfRange"

def EdgeError.message : EdgeError → String
  | entryOutOfRange block index found =>
    blockName block ++ " has " ++ toString found ++ " entry edge(s), entry #" ++ toString index ++
      " does not exist"
  | exitOutOfRange block index found =>
    blockName block ++ " has " ++ toString found ++ " exit edge(s), exit #" ++ toString index ++
      " does not exist"

namespace FlowGraph

def block (g : FlowGraph) (b : Block) : Except Fault BlockData := g.blocks.get b

def updateBlock (g : FlowGraph) (b : Block) (f : BlockData → BlockData) : Except Fault FlowGraph := do
  let blocks ← g.blocks.update b f
  return { g with blocks }

/-- Creates a block with a fresh id. It is not listed yet. -/
def createBlock (kind : BlockKind) : EStateM Fault (FlowGraph × IdCounter) Block := fun (g, ids) =>
  let (id, ids) := ids.issue
  onPart (fun s => s.1.blocks) (fun s blocks => ({ s.1 with blocks }, s.2)) (·)
    (Table.insert { id, kind }) (g, ids)

def isListed (g : FlowGraph) (b : Block) : Bool := b ∈ g.layout

/-- Lists a block at the end of the layout. Whether the block exists is not looked at. -/
def appendBlock (g : FlowGraph) (b : Block) : Except Fault FlowGraph :=
  if b ∈ g.layout then .error .listedTwice else .ok { g with layout := g.layout ++ [b] }

def setEntry (g : FlowGraph) (b : Block) : Except Fault FlowGraph := do
  let entry ← Packed.some b
  return { g with entry }

/-- Adds an edge, which both of its ends record. -/
def addExit (g : FlowGraph) (source target : Block) : Except Fault FlowGraph :=
  if source = target then g.updateBlock source fun b => (b.addExit target).addEntry source
  else do
    let blocks ← g.blocks.updatePair source target (·.addExit target) (·.addEntry source)
    return { g with blocks }

/-- Adds an edge, named from the end that it leads to. -/
def addEntry (g : FlowGraph) (target source : Block) : Except Fault FlowGraph :=
  g.addExit source target

/-- Forgets the exits of a block on its own side only. -/
def clearExits (g : FlowGraph) (b : Block) : Except Fault FlowGraph :=
  g.updateBlock b ({ · with exits := [] })

/-- Forgets the entries of a block on its own side only. -/
def clearEntries (g : FlowGraph) (b : Block) : Except Fault FlowGraph :=
  g.updateBlock b ({ · with entries := [] })

def nthEntry (g : FlowGraph) (b : Block) (i : Nat) : Except Fault (Except EdgeError Block) := do
  let data ← g.block b
  match data.entries[i]? with
  | some source => return .ok source
  | none => return .error (.entryOutOfRange data.id i data.entries.length)

def nthExit (g : FlowGraph) (b : Block) (i : Nat) : Except Fault (Except EdgeError Block) := do
  let data ← g.block b
  match data.exits[i]? with
  | some target => return .ok target
  | none => return .error (.exitOutOfRange data.id i data.exits.length)

end FlowGraph

end Superstep
