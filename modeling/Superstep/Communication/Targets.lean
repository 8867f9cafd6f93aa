import Superstep.Describe

namespace Superstep

/-- Blocks in the order they were first found, each once. -/
structure TargetBlocks where
  order : List Block := []
  seen : BlockSet := {}
deriving DecidableEq

namespace TargetBlocks

/-- Adds a block, and answers whether it is new. -/
def insert (t : TargetBlocks) (b : Block) : Bool × TargetBlocks :=
  match t.seen.insert b with
  | (true, seen) => (false, { t with seen })
  | (false, seen) => (true, { order := t.order ++ [b], seen })

def contains (t : TargetBlocks) (b : Block) : Bool := t.seen.contains b

def size (t : TargetBlocks) : Nat := t.order.length

theorem insert_of_contains {t : TargetBlocks} {b : Block} (h : t.contains b = true) :
    t.insert b = (false, { t with seen := (t.seen.insert b).2 }) := by
  have was : (t.seen.insert b).1 = true := (KeySet.insert_fst ..).trans h
  unfold insert
  generalize t.seen.insert b = answer at was ⊢
  obtain ⟨known, seen⟩ := answer
  cases was
  rfl

theorem insert_of_not_contains {t : TargetBlocks} {b : Block} (h : t.contains b = false) :
    t.insert b = (true, { order := t.order ++ [b], seen := (t.seen.insert b).2 }) := by
  have was : (t.seen.insert b).1 = false := (KeySet.insert_fst ..).trans h
  unfold insert
  generalize t.seen.insert b = answer at was ⊢
  obtain ⟨known, seen⟩ := answer
  cases was
  rfl

end TargetBlocks

instance : Describe TargetBlocks where
  describe t := describeFields "TargetBlocks"
    [("order", describe t.order), ("seen", describe t.seen)]

end Superstep
