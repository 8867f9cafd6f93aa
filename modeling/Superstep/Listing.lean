import Superstep.Procedure

namespace Superstep

namespace Procedure

def blockNames (p : Procedure) (blocks : List Block) : Except Fault String := do
  let names ← blocks.mapM fun b => do
    let data ← p.graph.block b
    return blockName data.id
  return ", ".intercalate names

def stmtName (s : Stmt) : String := "s" ++ toString s.index

def sentLine (p : Procedure) (s : Stmt) : Except Fault String := do
  let statement ← p.ast.stmt s
  return "    sent " ++ stmtName s ++ " " ++ statement.word ++ "\n"

def receiverLine (p : Procedure) (strings : StringPool) (unit : CommUnit) : Except Fault String := do
  let comm :=
    match p.graph.registry.commId? unit with
    | some id => "comm#" ++ toString id.index
    | none => "unregistered"
  match unit with
  | .nested loop => return "    recv nested " ++ stmtName loop ++ " " ++ comm ++ "\n"
  | .randomWrite host symbol =>
    let declaration ← p.ast.symbol symbol
    let name ← strings.get declaration.name
    return "    recv random-write " ++ stmtName host ++ " to " ++ name ++ " " ++ comm ++ "\n"

def blockLines (p : Procedure) (strings : StringPool) (b : Block) : Except Fault String := do
  let data ← p.graph.block b
  let entries ← p.blockNames data.entries
  let exits ← p.blockNames data.exits
  let sents ← data.sents.mapM p.sentLine
  let receivers ← data.receivers.mapM (p.receiverLine strings)
  return "  " ++ blockName data.id ++ " " ++ data.kind.word ++
    (if data.afterVertex then " after-vertex" else "") ++
    (if data.entries.isEmpty then "" else " <- " ++ entries) ++
    (if data.exits.isEmpty then "" else " -> " ++ exits) ++ "\n" ++
    String.join sents ++ String.join receivers

/-- The block graph as text: a line for each listed block, with its statements and receivers
below it. -/
def listing (p : Procedure) (strings : StringPool) : Except Fault String := do
  let entry ←
    match p.graph.entry.expand with
    | some b => p.blockNames [b]
    | none => pure "none"
  let blocks ← p.graph.layout.mapM (p.blockLines strings)
  return "procedure " ++ p.name ++ " (entry " ++ entry ++ ") \x7b\n" ++ String.join blocks ++ "\x7d\n"

end Procedure

/-- The listings of all procedures, with a blank line between them. -/
def Program.listing (p : Program) (strings : StringPool) : Except Fault String := do
  let listings ← p.procedures.values.mapM (·.listing strings)
  return "\n".intercalate listings

end Superstep
