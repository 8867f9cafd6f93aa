import Superstep.Packed
import Superstep.Table

namespace Superstep

/-- A JSON value. -/
inductive Json where
  | null
  | bool (b : Bool)
  | integer (n : Int)
  /-- A number that is written with a fraction or an exponent, also if its value is whole. It is
  `digits` divided by ten as often as there are `places`. -/
  | decimal (digits : Int) (places : Nat)
  | text (s : String)
  | list (items : List Json)
  | object (fields : List (String × Json))
deriving Inhabited

namespace Json

def ofNat (n : Nat) : Json := .integer n

/-- An integer that is not negative. -/
def nat? : Json → Option Nat
  | .integer (.ofNat n) => some n
  | _ => none

/-- The given fields of an object, which may have others. -/
def named? (names : List String) : Json → Option (List Json)
  | .object fields => names.mapM fun name => List.lookup name fields
  | _ => none

/-- The parts of a structure with the given fields. It is written as an object that has at least
these fields, or as a list of their values in order. -/
def fields? (names : List String) : Json → Option (List Json)
  | .list items => if items.length = names.length then some items else none
  | j => j.named? names

/-- The name of a case and what it holds. A case that holds nothing is written as its name. -/
def case? : Json → Option (String × Json)
  | .text name => some (name, .null)
  | .object [(name, value)] => some (name, value)
  | _ => none

/-- The name of a case that holds something, and what it holds. -/
def caseWith? : Json → Option (String × Json)
  | .object [(name, value)] => some (name, value)
  | _ => none

/-- The name of a case that holds nothing. -/
def caseName? (j : Json) : Option String :=
  match j.case? with
  | some (name, .null) => some name
  | _ => none

/-- A case that holds something. -/
def ofCase (name : String) (value : Json) : Json := .object [(name, value)]

end Json

/-- Values that have a JSON form. -/
class JsonForm (α : Type) where
  toJson : α → Json
  ofJson? : Json → Option α

export JsonForm (toJson ofJson?)

/-- The value with a given name among those listed. -/
def ofName? {α : Type} (all : List α) (name : α → String) (s : String) : Option α :=
  all.find? fun a => name a = s

instance : JsonForm Json where
  toJson j := j
  ofJson? j := some j

instance : JsonForm Bool where
  toJson b := .bool b
  ofJson?
    | .bool b => some b
    | _ => none

instance : JsonForm Int64 where
  toJson n := .integer n.toInt
  ofJson?
    | .integer n => if -0x8000000000000000 ≤ n ∧ n < 0x8000000000000000 then some (Int64.ofInt n) else none
    | _ => none

instance : JsonForm Nat where
  toJson n := .ofNat n
  ofJson? := Json.nat?

instance : JsonForm String where
  toJson s := .text s
  ofJson?
    | .text s => some s
    | _ => none

/-- A missing value is `null`. -/
instance {α : Type} [JsonForm α] : JsonForm (Option α) where
  toJson
    | some a => toJson a
    | none => .null
  ofJson?
    | .null => some none
    | j => (ofJson? j).map some

/-- A pair is a list of two. -/
instance {α β : Type} [JsonForm α] [JsonForm β] : JsonForm (α × β) where
  toJson p := .list [toJson p.1, toJson p.2]
  ofJson?
    | .list [a, b] => return (← ofJson? a, ← ofJson? b)
    | _ => none

instance {label : String} {last : Nat} : JsonForm (Key label last) where
  toJson k := .ofNat k.index
  ofJson? j := j.nat?.bind Key.ofNat?

instance {label : String} {last : Nat} : JsonForm (Packed label last) where
  toJson p := toJson p.raw
  ofJson? j := (ofJson? j).map (⟨·⟩)

instance {α : Type} [JsonForm α] : JsonForm (List α) where
  toJson as := .list (as.map toJson)
  ofJson?
    | .list items => items.mapM ofJson?
    | _ => none

instance {K V : Type} [JsonForm V] : JsonForm (Table K V) where
  toJson t := .object [("slots", toJson t.values), ("_unused", .null)]
  ofJson? j :=
    match j.fields? ["slots", "_unused"] with
    | some [slots, .null] => (ofJson? slots).map Table.ofList
    | _ => none

end Superstep
