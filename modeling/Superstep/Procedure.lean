import Superstep.StringPool
import Superstep.Walk

namespace Superstep

/-- A named procedure. It knows the key under which its program keeps it. -/
structure Procedure extends Body where
  name : String
  key : Proc
deriving DecidableEq

/-- What all procedures of a program share: the strings, and the ids of the blocks. -/
structure Context where
  strings : StringPool := {}
  ids : IdCounter := {}
deriving DecidableEq

def Context.insertString (c : Context) (s : String) : Str × Context :=
  let (handle, strings) := c.strings.insert s
  (handle, { c with strings })

/-- A set of procedures, found by key or by the name under which they were declared. -/
structure Program where
  name : Str
  procedures : Table Proc Procedure := {}
  names : List (String × Proc) := []
deriving DecidableEq

namespace Program

/-- An empty program, whose name is the first string of its pool. -/
def create (name : String) : Program × Context :=
  let (handle, context) := ({} : Context).insertString name
  ({ name := handle }, context)

def find? (p : Program) (name : String) : Option Proc := p.names.lookup name

def procedure (p : Program) (key : Proc) : Except Fault Procedure := p.procedures.get key

/-- Declares a procedure that has no body yet. -/
def declare (name : String) : EStateM Fault Program Proc := fun p =>
  if (p.find? name).isSome then .error .nameTaken p
  else
    match p.procedures.nextKey with
    | .error e => .error e p
    | .ok key =>
      let procedures := p.procedures.push { name, key }
      .ok key { p with procedures, names := (name, key) :: p.names }

/-- Gives a declared procedure its body. -/
def define (p : Program) (key : Proc) (body : Body) : Except Fault Program := do
  let procedures ← p.procedures.update key ({ · with toBody := body })
  return { p with procedures }

end Program

end Superstep
