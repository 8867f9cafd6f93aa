import Superstep.Dict
import Superstep.Key

namespace Superstep

/-- Strings stored once each, in the order of their first use. -/
structure StringPool where
  strings : Array String := #[]
  /-- The handle of each string. -/
  refs : Dict String Str := {}
deriving DecidableEq

namespace StringPool

def size (pool : StringPool) : Nat := pool.strings.size

/-- The handle of a string, which is stored if it is new. -/
def insert (pool : StringPool) (s : String) : Str × StringPool :=
  match pool.refs.get? s with
  | some handle => (handle, pool)
  | none =>
    let handle := Key.wrap pool.size
    (handle, { strings := pool.strings.push s, refs := pool.refs.insert s handle })

def get? (pool : StringPool) (handle : Str) : Option String := pool.strings[handle.index]?

/-- The string of a handle, or a fault if there is none. -/
def get (pool : StringPool) (handle : Str) : Except Fault String :=
  match pool.get? handle with
  | some s => .ok s
  | none => .error .missingString

def toList (pool : StringPool) : List String := pool.strings.toList

/-- The pool in which the strings of a list were stored one after the other. -/
def ofList (strings : List String) : StringPool :=
  strings.foldl (fun pool s => (pool.insert s).2) {}

end StringPool

end Superstep
