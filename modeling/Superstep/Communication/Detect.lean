import Superstep.Communication.Error
import Superstep.Communication.Targets
import Superstep.Log
import Superstep.Walk

namespace Superstep

/-- A procedure whose communication is being looked for, and the blocks found to communicate. -/
structure Detection where
  body : Body
  targets : TargetBlocks := {}
  log : List LogLine := []
deriving DecidableEq

/-- What communicates at a statement. -/
inductive Site where
  | outerLoop
  | innerLoop
  | randomWrite (host : Stmt)
  | nothing
deriving DecidableEq

def Statement.site : Statement → Site
  | .foreach f => if f.iter.isAllGraph then .outerLoop else .innerLoop
  | .assign a =>
    match a.randomWrite.expand with
    | some host => .randomWrite host
    | none => .nothing
  | _ => .nothing

namespace Detection

abbrev Act (α : Type) := EStateM (Halt CommError) Detection α

def look {α : Type} (f : Body → Except Fault α) : Act α := fun d =>
  match f d.body with
  | .ok a => .ok a d
  | .error e => .error (.fault e) d

def fail {α : Type} (e : CommError) : Act α := throw (.error e)

def trace (text : String) : Act Unit :=
  modify fun d => { d with log := d.log ++ [⟨.trace, text⟩] }

def isVertex (b : Block) : Act Bool := do
  let data ← look (·.graph.block b)
  return data.isVertex

def blockId (b : Block) : Act BlockId := do
  let data ← look (·.graph.block b)
  return data.id

/-- The loop that a key names. -/
def loop (s : Stmt) : Act Foreach := do
  match ← look (·.ast.foreach? s) with
  | some f => return f
  | none => throw (.fault .notALoop)

/-- Stops unless the role of a loop is an allowed one. -/
def ensureRole (s : Stmt) (allowed : LoopRole → Bool) : Act Unit := do
  let f ← loop s
  unless allowed f.role do fail (.conflictingLoopRole s f.role)

/-- Gives a loop the role that `mark` makes of its present one. -/
def markLoop (s : Stmt) (mark : LoopRole → Except LoopRole LoopRole) : Act Unit := do
  let f ← loop s
  match mark f.role with
  | .ok role => modify fun d => { d with body.ast := d.body.ast.setRole s f role }
  | .error existing => fail (.conflictingLoopRole s existing)

def onRegistry {α : Type} (act : EStateM Fault Registry α) : Act α :=
  onPart (·.body.graph.registry) (fun d r => { d with body.graph.registry := r }) .fault act

/-- Has a block receive a unit, once. -/
def queueReceiver (b : Block) (unit : CommUnit) : Act Unit :=
  updatePart (·.body.graph) (fun d graph => { d with body.graph := graph }) .fault
    (·.updateBlock b fun data => { data with receivers := appendNew data.receivers unit })

def addTarget (b : Block) : Act Unit :=
  modify fun d => { d with targets := (d.targets.insert b).2 }

/-- A loop over the whole graph is an outer loop, and the scope of what it contains. -/
def outerLoop (s : Stmt) (scope : Scope) : Act Scope := do
  markLoop s LoopRole.markOuter
  let id ← blockId scope.block
  trace ("outer loop " ++ describe s ++ " in " ++ blockName id)
  return { scope with outer := some s }

/-- What an inner loop does before the loop around it is marked. Both roles are looked at first, so
that a conflict leaves everything as it was. -/
def recordInner (s outer : Stmt) (b : Block) : Act BlockId := do
  let id ← blockId b
  ensureRole outer LoopRole.isOuter
  ensureRole s fun role => !role.isOuter
  markLoop s LoopRole.markInner
  discard <| onRegistry (Registry.registerNested s)
  queueReceiver b (.nested s)
  addTarget b
  return id

/-- A loop over a neighbourhood sends messages from the outer loop around it. -/
def innerLoop (s : Stmt) (scope : Scope) : Act Unit := do
  let some outer := scope.outer | fail (.innerLoopWithoutOuter (← blockId scope.block) s)
  let id ← recordInner s outer scope.block
  markLoop outer (·.markCommunication CommFlags.nested)
  trace ("inner loop " ++ describe s ++ " inside " ++ describe outer ++ " in " ++ blockName id)

/-- What a random write does before the loop around it is marked. -/
def recordWrite (s host outer : Stmt) (b : Block) : Act BlockId := do
  let id ← blockId b
  let assign ← look (·.ast.assign? s)
  let some access := assign.bind (·.target.field?) | fail (.randomWriteWithoutField s)
  ensureRole outer LoopRole.isOuter
  discard <| onRegistry (Registry.registerRandomWrite host access.driver)
  onRegistry (modify (·.addWrite host access.driver s))
  queueReceiver b (.randomWrite host access.driver)
  addTarget b
  return id

/-- A random write sends its message to the vertex that is written to. -/
def randomWrite (s host : Stmt) (scope : Scope) : Act Unit := do
  let some outer := scope.outer | fail (.randomWriteWithoutOuter (← blockId scope.block) s)
  let id ← recordWrite s host outer scope.block
  markLoop outer (·.markCommunication CommFlags.randomWrite)
  trace ("random write " ++ describe s ++ " through " ++ describe host ++ " inside " ++
    describe outer ++ " in " ++ blockName id)

/-- Records what a statement communicates. -/
def visit (s : Stmt) (scope : Scope) : Act Scope := do
  if scope.underReceiver then
    let id ← blockId scope.block
    fail (.receiverTraversal id s)
  let statement ← look (·.ast.stmt s)
  match statement.site with
  | .outerLoop => outerLoop s scope
  | .innerLoop =>
    innerLoop s scope
    return scope
  | .randomWrite host =>
    randomWrite s host scope
    return scope
  | .nothing => return scope

/-- Finds the communication of vertex blocks. -/
def visitor : Visitor Detection CommError where
  body := Detection.body
  accepts := isVertex
  visit := visit

/-- Finds the communication in the statements of every reachable vertex block. -/
def findCommunication : Act TargetBlocks := do
  visitor.walk { sents := true, receivers := false }
  let d ← get
  return d.targets

end Detection

end Superstep
