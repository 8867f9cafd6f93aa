import Superstep.Table

namespace Superstep

/-- A walk over the keys of a table from both ends. The keys with index from `front` up to, and
not including, `back` are still to come. -/
structure KeyCursor (label : String) (last : Nat) where
  front : Nat
  back : Nat
deriving DecidableEq

namespace KeyCursor

variable {label : String} {last : Nat}

def remaining (c : KeyCursor label last) : Nat := c.back - c.front

/-- The next key from the front. The cursor has moved on also when the width cannot hold it. -/
def next : EStateM Fault (KeyCursor label last) (Option (Key label last)) := fun c =>
  if c.front < c.back then
    let rest := { c with front := c.front + 1 }
    match Key.ofNat c.front with
    | .ok k => .ok (some k) rest
    | .error e => .error e rest
  else .ok none c

/-- The next key from the back. The cursor has moved on also when the width cannot hold it. -/
def nextBack : EStateM Fault (KeyCursor label last) (Option (Key label last)) := fun c =>
  if c.front < c.back then
    let rest := { c with back := c.back - 1 }
    match Key.ofNat (c.back - 1) with
    | .ok k => .ok (some k) rest
    | .error e => .error e rest
  else .ok none c

end KeyCursor

/-- A walk over the values of a table with their keys, from both ends. The values still to come
are `rest`, and the first of them has the index `front`. -/
structure EntryCursor (label : String) (last : Nat) (V : Type) where
  front : Nat
  rest : List V

namespace EntryCursor

variable {label : String} {last : Nat} {V : Type}

def remaining (c : EntryCursor label last V) : Nat := c.rest.length

/-- The next value from the front with its key. The value is passed over also when the width
cannot hold its key. -/
def next : EStateM Fault (EntryCursor label last V) (Option (Key label last × V)) := fun c =>
  match c.rest with
  | [] => .ok none c
  | v :: rest =>
    match Key.ofNat c.front with
    | .ok k => .ok (some (k, v)) ⟨c.front + 1, rest⟩
    | .error e => .error e ⟨c.front + 1, rest⟩

/-- The next value from the back with its key. The value is passed over also when the width
cannot hold its key. -/
def nextBack : EStateM Fault (EntryCursor label last V) (Option (Key label last × V)) := fun c =>
  match c.rest.getLast? with
  | none => .ok none c
  | some v =>
    let rest := c.rest.dropLast
    match Key.ofNat (c.front + rest.length) with
    | .ok k => .ok (some (k, v)) ⟨c.front, rest⟩
    | .error e => .error e ⟨c.front, rest⟩

end EntryCursor

/-- A walk over the entries of a table from both ends that changes each value it comes to. -/
structure EditCursor (label : String) (last : Nat) (V : Type) where
  entries : EntryCursor label last V
  table : Table (Key label last) V

namespace EditCursor

variable {label : String} {last : Nat} {V : Type}

def remaining (c : EditCursor label last V) : Nat := c.entries.remaining

/-- Takes an entry from one end, and puts what `change` makes of its value in its slot. -/
def edit (change : Key label last → V → V)
    (take : EStateM Fault (EntryCursor label last V) (Option (Key label last × V))) :
    EStateM Fault (EditCursor label last V) (Option (Key label last × V)) := fun c =>
  match take c.entries with
  | .ok none rest => .ok none ⟨rest, c.table⟩
  | .ok (some (k, v)) rest => .ok (some (k, change k v)) ⟨rest, c.table.set k (change k v)⟩
  | .error e rest => .error e ⟨rest, c.table⟩

def next (change : Key label last → V → V) :
    EStateM Fault (EditCursor label last V) (Option (Key label last × V)) :=
  edit change EntryCursor.next

def nextBack (change : Key label last → V → V) :
    EStateM Fault (EditCursor label last V) (Option (Key label last × V)) :=
  edit change EntryCursor.nextBack

end EditCursor

namespace Table

variable {label : String} {last : Nat} {V : Type}

def keyCursor (t : Table (Key label last) V) : KeyCursor label last := ⟨0, t.size⟩

def entryCursor (t : Table (Key label last) V) : EntryCursor label last V := ⟨0, t.values⟩

def editCursor (t : Table (Key label last) V) : EditCursor label last V := ⟨t.entryCursor, t⟩

end Table

end Superstep
