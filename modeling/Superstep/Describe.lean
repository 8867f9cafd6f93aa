import Superstep.KeySet
import Superstep.Packed
import Superstep.Table

namespace Superstep

/-- Values that have a one-line description. -/
class Describe (α : Type) where
  describe : α → String

export Describe (describe)

/-- `Name { field: value, field: value }`. -/
def describeFields (name : String) (fields : List (String × String)) : String :=
  name ++ " \x7b " ++ ", ".intercalate (fields.map fun f => f.1 ++ ": " ++ f.2) ++ " \x7d"

/-- `Name(value)`. -/
def describeCase (name value : String) : String := name ++ "(" ++ value ++ ")"

instance : Describe Int where
  describe n := toString n

instance : Describe Bool where
  describe b := if b then "true" else "false"

instance {label : String} {last : Nat} : Describe (Key label last) where
  describe k := describeCase label (toString k.index)

instance {α : Type} [Describe α] : Describe (Option α) where
  describe
    | some a => describeCase "Some" (describe a)
    | none => "None"

instance {α : Type} [Describe α] : Describe (List α) where
  describe as := "[" ++ ", ".intercalate (as.map describe) ++ "]"

instance {label : String} {last : Nat} : Describe (Packed label last) where
  describe p := describe p.expand

instance {label : String} {last : Nat} : Describe (KeySet label last) where
  describe s := "SecondarySet " ++ describe s.keys

/-- The values of a table with their keys, which a table with more values than keys does not
have. -/
def Table.describe {label : String} {last : Nat} {V : Type} [Describe V]
    (t : Table (Key label last) V) : Except Fault String := do
  let entries ← t.entries
  let parts := entries.map fun e => Superstep.describe e.1 ++ ": " ++ Superstep.describe e.2
  return "ArenaMap \x7b" ++ ", ".intercalate parts ++ "\x7d"

end Superstep
