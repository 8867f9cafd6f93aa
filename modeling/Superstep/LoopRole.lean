import Superstep.CommFlags

namespace Superstep

/-- The part that a loop plays in a superstep. An outer loop runs over the whole graph, an inner
loop over the neighbourhood of the vertex of an outer loop. -/
inductive LoopRole where
  | unclassified
  | outer (flags : CommFlags)
  | inner
deriving DecidableEq

namespace LoopRole

def isOuter : LoopRole → Bool
  | outer _ => true
  | _ => false

def flags : LoopRole → CommFlags
  | outer flags => flags
  | _ => {}

/-- The role of a loop that is found to be an outer one. An inner loop refuses. -/
def markOuter : LoopRole → Except LoopRole LoopRole
  | unclassified => .ok (outer {})
  | outer flags => .ok (outer flags)
  | inner => .error inner

/-- The role of a loop that is found to be an inner one. An outer loop refuses. -/
def markInner : LoopRole → Except LoopRole LoopRole
  | unclassified | inner => .ok inner
  | outer flags => .error (outer flags)

/-- The role of an outer loop that is found to send messages. Any other loop refuses. -/
def markCommunication (role : LoopRole) (sent : CommFlags) : Except LoopRole LoopRole :=
  match role with
  | outer flags => .ok (outer (flags.union sent))
  | _ => .error role

end LoopRole

end Superstep
