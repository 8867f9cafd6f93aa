import Superstep.Communication.Detect
import Superstep.Communication.Split
import Superstep.Listing
import Superstep.Defect

namespace Superstep

/-- Where text can be printed to. -/
inductive Stream where
  | stdout
  | stderr
  /-- The place that the caller keeps for text. -/
  | buffer
  /-- A place that takes nothing but the empty text. -/
  | closed
deriving DecidableEq

/-- What has been printed and logged. -/
structure Console where
  stdout : String := ""
  stderr : String := ""
  buffer : String := ""
  log : List LogLine := []
deriving DecidableEq

namespace Console

def print? (c : Console) (stream : Stream) (text : String) : Option Console :=
  match stream with
  | .stdout => some { c with stdout := c.stdout ++ text }
  | .stderr => some { c with stderr := c.stderr ++ text }
  | .buffer => some { c with buffer := c.buffer ++ text }
  | .closed => if text.isEmpty then some c else none

def report (c : Console) (level : LogLevel) (text : String) : Console :=
  { c with log := c.log ++ [⟨level, text⟩] }

end Console

/-- What a pass works on, what the procedures around it share, and what has been printed. -/
structure Stage (α : Type) where
  subject : α
  context : Context
  console : Console := {}

/-- What a pass did to the code that it ran over. -/
inductive PassEffect where
  | unchanged
  | modified
deriving DecidableEq

def PassEffect.name : PassEffect → String
  | unchanged => "Unchanged"
  | modified => "Modified"

def PassEffect.merge : PassEffect → PassEffect → PassEffect
  | unchanged, effect => effect
  | modified, _ => modified

/-- Work on one procedure. -/
abbrev ProcedurePass := EStateM Fault (Stage Procedure) PassEffect

/-- Work on a whole program. -/
abbrev ProgramPass := EStateM Fault (Stage Program) PassEffect

namespace Stage

variable {α β ε : Type}

def report (level : LogLevel) (text : String) : EStateM ε (Stage α) Unit :=
  modify fun s => { s with console := s.console.report level text }

/-- Prints to a stream, or stops with a fault if it takes no text. -/
def print (stream : Stream) (refused : Fault) (text : String) : EStateM Fault (Stage α) Unit :=
  updatePart (·.console) (fun s console => { s with console }) (·) fun console =>
    match console.print? stream text with
    | some console => .ok console
    | none => .error refused

/-- Runs work on one procedure of a program. -/
def onProcedure (key : Proc) (wrap : Fault → ε) (act : EStateM ε (Stage Procedure) β) :
    EStateM ε (Stage Program) β := fun s =>
  match s.subject.procedures.get key with
  | .error e => .error (wrap e) s
  | .ok procedure =>
    onPart (fun s => ({ s with subject := procedure } : Stage Procedure))
      (fun s t => { t with subject := { s.subject with
        procedures := s.subject.procedures.set key t.subject } })
      (·) act s

end Stage

namespace Procedure

/-- Finds the communication of a procedure. -/
def findCommunication : EStateM (Halt CommError) (Stage Procedure) TargetBlocks :=
  onPart (fun s => { body := s.subject.toBody, log := s.console.log })
    (fun s d => { s with subject.toBody := d.body, console.log := d.log }) (·)
    Detection.findCommunication

/-- Splits one vertex block. -/
def splitVertexBlock (b : Block) : EStateM (Halt CommError) (Stage Procedure) SplitBlocks :=
  onPart (fun s => { graph := s.subject.graph, ids := s.context.ids, log := s.console.log })
    (fun s t => { s with subject.graph := t.graph, context.ids := t.ids, console.log := t.log }) (·)
    (Splitting.splitVertexBlock b)

/-- Finds the communication of a procedure and splits every vertex block that communicates, in
the order they were found. A procedure without an entry is left alone. -/
def splitCommunication : EStateM (Halt CommError) (Stage Procedure) (List SplitBlocks) := do
  let s ← get
  if s.subject.graph.entry.isNone then return []
  let targets ← findCommunication
  Stage.report .debug ("found " ++ toString targets.size ++ " communicating vertex block(s) in `" ++
    s.subject.name ++ "`")
  targets.order.mapM splitVertexBlock

/-- Stops if the block graph has a defect, after printing the procedure and every defect. -/
def requireValid : EStateM Fault (Stage Procedure) Unit := do
  let s ← get
  let defects ← settle (·) s.subject.graph.defects
  unless defects.isEmpty do
    let listing ← settle (·) (s.subject.listing s.context.strings)
    Stage.print .stderr .procedureUnwritten (listing ++ "\n")
    defects.forM fun defect => do
      Stage.report .error (s.subject.name ++ ": " ++ defect.message)
      Stage.print .stderr .procedureUnwritten ("error: " ++ defect.message ++ "\n")
    throw (.failedVerification s.subject.name)

end Procedure

namespace ProcedurePass

/-- Splits the vertex blocks that communicate. An error is a broken promise of an earlier stage. -/
def splitComm : ProcedurePass := fun s =>
  match Procedure.splitCommunication s with
  | .ok [] s => .ok .unchanged s
  | .ok _ s => .ok .modified s
  | .error (.error e) t => .error (.brokenProcedure s.subject.name e.message) t
  | .error (.fault f) t => .error f t

def verify : ProcedurePass := do
  Procedure.requireValid
  return .unchanged

/-- Prints the listing of a procedure. -/
def write (stream : Stream) : ProcedurePass := do
  let s ← get
  let listing ← settle (·) (s.subject.listing s.context.strings)
  Stage.print stream .procedureUnwritten listing
  return .unchanged

end ProcedurePass

/-- Runs passes one after the other. -/
def runAll {α : Type} (passes : List (EStateM Fault (Stage α) PassEffect)) :
    EStateM Fault (Stage α) PassEffect :=
  passes.foldlM (fun effect pass => return effect.merge (← pass)) .unchanged

namespace ProgramPass

/-- Runs a pass over every procedure in the order of their declaration. -/
def eachProcedure (pass : ProcedurePass) : ProgramPass := do
  let s ← get
  let keys ← settle (·) s.subject.procedures.keys
  runAll (keys.map fun key => Stage.onProcedure key (·) pass)

/-- Prints the listings of all procedures. -/
def write (stream : Stream) : ProgramPass := do
  let s ← get
  let listing ← settle (·) (s.subject.listing s.context.strings)
  Stage.print stream .programUnwritten listing
  return .unchanged

end ProgramPass

end Superstep
