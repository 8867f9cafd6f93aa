import Superstep.Pass

namespace Superstep

/-- How a list of passes is run. -/
structure PassOptions where
  /-- Whether every procedure is checked before the first pass and after each. -/
  verify : Bool := true
  /-- Whether every procedure is printed after each pass. -/
  printAfter : Bool := false
deriving DecidableEq

/-- The passes that can be asked for by name. -/
inductive PassName where
  | splitComm
  | verify
  | printStdout
  | printStderr
deriving DecidableEq

namespace PassName

def ofString? : String → Option PassName
  | "split-comm" => some splitComm
  | "verify" => some verify
  | "print-stdout" => some printStdout
  | "print-stderr" => some printStderr
  | _ => none

def pass : PassName → ProcedurePass
  | splitComm => ProcedurePass.splitComm
  | verify => ProcedurePass.verify
  | printStdout => ProcedurePass.write .stdout
  | printStderr => ProcedurePass.write .stderr

end PassName

/-- The passes of a list of names, with those that the options ask for around them. -/
def pipeline (options : PassOptions) (names : List PassName) : List ProcedurePass :=
  let check := if options.verify then [ProcedurePass.verify] else []
  let print := if options.printAfter then [ProcedurePass.write .stderr] else []
  check ++ names.flatMap fun name => name.pass :: print ++ check

/-- The passes that a list of names asks for, or a fault for the first name that is not one. -/
def passNames (names : List String) : Except Fault (List PassName) :=
  names.mapM fun name =>
    match PassName.ofString? name with
    | some pass => .ok pass
    | none => .error (.unknownPass name)

/-- Runs passes by name over a program. -/
def runPasses (options : PassOptions) (names : List String) : ProgramPass := do
  let names ← settle (·) (passNames names)
  let passes := pipeline options names
  let s ← get
  let name ← settle (·) (s.context.strings.get s.subject.name)
  Stage.report .debug ("running " ++ toString passes.length ++ " pass(es) over program `" ++ name ++ "`")
  runAll (passes.map ProgramPass.eachProcedure)

end Superstep
