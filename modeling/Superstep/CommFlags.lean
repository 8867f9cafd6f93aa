namespace Superstep

/-- Which kinds of messages an outer loop sends: eight bits, two of which have a name. -/
structure CommFlags where
  bits : UInt8 := 0
deriving DecidableEq

namespace CommFlags

/-- Messages to the neighbours of a vertex. -/
def nested : CommFlags := ⟨1⟩

/-- Messages to a vertex that is not a neighbour. -/
def randomWrite : CommFlags := ⟨2⟩

def union (a b : CommFlags) : CommFlags := ⟨a.bits ||| b.bits⟩

def contains (a b : CommFlags) : Bool := a.bits &&& b.bits == b.bits

/-- The flags that have a name, in the order they are written. -/
def named : List (String × CommFlags) := [("NESTED", nested), ("RANDOM_WRITE", randomWrite)]

end CommFlags

end Superstep
