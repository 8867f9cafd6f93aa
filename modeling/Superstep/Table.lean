import Superstep.Key

namespace Superstep

/-- Values in the order they were added, named by keys `0, 1, 2, …` of the type `K`. -/
structure Table (K V : Type) where
  slots : Array V := #[]

namespace Table

variable {K V : Type} {label : String} {last : Nat}

instance [DecidableEq V] : DecidableEq (Table K V) := fun s t =>
  decidable_of_iff (s.slots = t.slots) ⟨fun h => by cases s; cases t; cases h; rfl, fun h => h ▸ rfl⟩

instance : Inhabited (Table K V) := ⟨{}⟩

def ofList (values : List V) : Table K V := ⟨values.toArray⟩

/-- An empty table with room for a number of values of `width` bytes each. Memory is addressed
with 63 bits. -/
def withRoom (width capacity : Nat) : Except Fault (Table K V) :=
  if width * capacity ≤ 0x7FFFFFFFFFFFFFFF then .ok {} else .error .noRoom

def size (t : Table K V) : Nat := t.slots.size

def values (t : Table K V) : List V := t.slots.toList

def push (t : Table K V) (v : V) : Table K V := ⟨t.slots.push v⟩

/-- The key that the next value added gets. -/
def nextKey (t : Table (Key label last) V) : Except Fault (Key label last) := Key.ofNat t.size

/-- Adds a value and answers its key. The value is in the table also when there is no key left
for it. -/
def insert (v : V) : EStateM Fault (Table (Key label last) V) (Key label last) := fun t =>
  match t.nextKey with
  | .ok k => .ok k (t.push v)
  | .error e => .error e (t.push v)

def get? (t : Table (Key label last) V) (k : Key label last) : Option V := t.slots[k.index]?

/-- The value that a key names, or a fault if it names none. -/
def get (t : Table (Key label last) V) (k : Key label last) : Except Fault V :=
  match t.get? k with
  | some v => .ok v
  | none => .error .missingSlot

def contains (t : Table (Key label last) V) (k : Key label last) : Bool := k.index < t.size

/-- Overwrites the value that a key names. Without such a value the table stays as it is. -/
def set (t : Table (Key label last) V) (k : Key label last) (v : V) : Table (Key label last) V :=
  ⟨t.slots.setIfInBounds k.index v⟩

/-- Changes the value that a key names, or stops with a fault if it names none. -/
def update (t : Table (Key label last) V) (k : Key label last) (f : V → V) :
    Except Fault (Table (Key label last) V) :=
  match t.get? k with
  | some v => .ok (t.set k (f v))
  | none => .error .missingSlot

/-- The values of two different keys. -/
def getPair (t : Table (Key label last) V) (a b : Key label last) : Except Fault (V × V) :=
  if a = b then .error .sameSlotTwice
  else
    match t.get? a, t.get? b with
    | some x, some y => .ok (x, y)
    | _, _ => .error .missingPair

/-- Changes the values of two different keys together. -/
def updatePair (t : Table (Key label last) V) (a b : Key label last) (f g : V → V) :
    Except Fault (Table (Key label last) V) :=
  match t.getPair a b with
  | .ok (x, y) => .ok ((t.set a (f x)).set b (g y))
  | .error e => .error e

/-- Every key in increasing order, or a fault if the table has more values than keys. -/
def keys (t : Table (Key label last) V) : Except Fault (List (Key label last)) :=
  (List.range t.size).mapM Key.ofNat

/-- Every key with its value, in increasing order. -/
def entries (t : Table (Key label last) V) : Except Fault (List (Key label last × V)) := do
  let keys ← t.keys
  return keys.zip t.values

/-- Changes every value in order. A value that has no key stops this, and the values before it
stay changed. -/
def updateEach (f : Key label last → V → V) : EStateM Fault (Table (Key label last) V) Unit := fun t =>
  let visit (i : Nat) : EStateM Fault (Table (Key label last) V) Unit := fun t =>
    match Key.ofNat i with
    | .ok k => .ok () ⟨t.slots.modify i (f k)⟩
    | .error e => .error e t
  (List.range t.size).forM visit t

@[simp] theorem size_push (t : Table K V) (v : V) : (t.push v).size = t.size + 1 := by
  simp [size, push]

@[simp] theorem size_set (t : Table (Key label last) V) (k : Key label last) (v : V) :
    (t.set k v).size = t.size := by
  simp [size, set]

theorem get?_eq_none_iff {t : Table (Key label last) V} {k : Key label last} :
    t.get? k = none ↔ t.size ≤ k.index := by
  simp [get?, size]

theorem get?_push (t : Table (Key label last) V) (v : V) (k : Key label last) :
    (t.push v).get? k = if k.index = t.size then some v else t.get? k :=
  Array.getElem?_push

theorem get?_set (t : Table (Key label last) V) (k l : Key label last) (v : V) :
    (t.set k v).get? l = if k = l then (t.get? l).map fun _ => v else t.get? l := by
  simp only [get?, set, Array.getElem?_setIfInBounds, Key.ext_iff]
  split
  next same =>
    rw [← same]
    split
    next present => simp [present]
    next absent => simp [absent]
  next => rfl

theorem insert_ok {t t' : Table (Key label last) V} {v : V} {k : Key label last} :
    insert v t = .ok k t' ↔ k.index = t.size ∧ t' = t.push v := by
  unfold insert nextKey
  cases hk : (Key.ofNat t.size : Except Fault (Key label last)) with
  | error e =>
    have absent : ¬k.index = t.size := fun h => by simp [Key.ofNat_eq_ok_iff.mpr h] at hk
    simp [absent]
  | ok k' =>
    have hi := Key.ofNat_eq_ok_iff.mp hk
    simp [Key.ext_iff, hi, eq_comm]

theorem insert_error {t t' : Table (Key label last) V} {v : V} {e : Fault} :
    (insert v t : EStateM.Result Fault _ (Key label last)) = .error e t' ↔
      last < t.size ∧ e = .indexTooWide ∧ t' = t.push v := by
  unfold insert nextKey Key.ofNat
  by_cases room : t.size ≤ last
  · simp [room, Nat.not_lt.mpr room]
  · simp only [room, dite_false, EStateM.Result.error.injEq]
    have full : last < t.size := by omega
    simp [full, eq_comm]

end Table

end Superstep
