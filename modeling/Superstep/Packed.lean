import Superstep.Key

namespace Superstep

/-- An optional key in the space of a key: the greatest key means that there is none. -/
structure Packed (label : String) (last : Nat) where
  raw : Key label last
deriving DecidableEq

namespace Packed

variable {label : String} {last : Nat}

def none : Packed label last := ⟨Key.reserved⟩

instance : Inhabited (Packed label last) := ⟨none⟩

/-- Stores a key that is present. The greatest key cannot be. -/
def some (k : Key label last) : Except Fault (Packed label last) :=
  if k = Key.reserved then .error .reservedKey else .ok ⟨k⟩

def ofOption : Option (Key label last) → Except Fault (Packed label last)
  | .none => .ok none
  | .some k => some k

def expand (p : Packed label last) : Option (Key label last) :=
  if p.raw = Key.reserved then .none else .some p.raw

/-- Stores a key in place of what was there, and answers the latter. -/
def replace (p : Packed label last) (k : Key label last) :
    Except Fault (Option (Key label last) × Packed label last) := do
  let packed ← some k
  return (p.expand, packed)

/-- Takes out what is there. -/
def take (p : Packed label last) : Option (Key label last) × Packed label last := (p.expand, none)

def isNone (p : Packed label last) : Bool := p.raw = Key.reserved

theorem expand_of_some {k : Key label last} {p : Packed label last} (h : some k = .ok p) :
    p.expand = .some k := by
  unfold some at h
  split at h
  next => simp at h
  next present =>
    cases h
    simp [expand, present]

end Packed

end Superstep
