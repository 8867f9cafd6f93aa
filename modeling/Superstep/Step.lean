import Superstep.Fault

namespace Superstep

/-- Why a walk or a transformation ended early: an error of its own, or a fault. -/
inductive Halt (ε : Type) where
  | error (e : ε)
  | fault (f : Fault)
deriving DecidableEq

variable {ε δ σ τ α : Type}

/-- Ends with the outcome of a computation that changes no state. -/
def settle (wrap : δ → ε) : Except δ α → EStateM ε σ α
  | .ok a => pure a
  | .error e => throw (wrap e)

/-- Runs an operation on one part of the state. The part is put back also when the operation
stops early. -/
def onPart (part : σ → τ) (put : σ → τ → σ) (wrap : δ → ε) (act : EStateM δ τ α) :
    EStateM ε σ α := fun s =>
  match act (part s) with
  | .ok a t => .ok a (put s t)
  | .error e t => .error (wrap e) (put s t)

/-- Replaces one part of the state by what `f` makes of it, or stops and changes nothing. -/
def updatePart (part : σ → τ) (put : σ → τ → σ) (wrap : δ → ε) (f : τ → Except δ τ) :
    EStateM ε σ Unit := fun s =>
  match f (part s) with
  | .ok t => .ok () (put s t)
  | .error e => .error (wrap e) s

end Superstep
