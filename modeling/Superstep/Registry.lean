import Superstep.Dict
import Superstep.Step
import Superstep.Table

namespace Superstep

/-- One message that a superstep sends and the next receives. -/
inductive CommUnit where
  /-- What an inner loop sends to the neighbours of a vertex. -/
  | nested (loop : Stmt)
  /-- What a random write sends to the vertex that a symbol holds. -/
  | randomWrite (host : Stmt) (symbol : Symbol)
deriving DecidableEq

/-- Adds a value at the end of a list that does not hold it yet. -/
def appendNew {α : Type} [DecidableEq α] (xs : List α) (x : α) : List α :=
  if x ∈ xs then xs else xs ++ [x]

namespace Registry

/-- Units and identities name each other. -/
def Named (units : Table CommId CommUnit) (ids : Dict CommUnit CommId) : Prop :=
  ∀ unit id, ids.get? unit = some id ↔ units.get? id = some unit

namespace Named

variable {units units' : Table CommId CommUnit} {ids : Dict CommUnit CommId} {unit : CommUnit}

theorem empty : Named {} {} := by
  intro unit id
  simp [Table.get?]

/-- A unit without an identity gets the one for its place in the table. -/
theorem insert (h : Named units ids) (fresh : ids.get? unit = none) {id : CommId}
    (added : Table.insert unit units = .ok id units') : Named units' (ids.insert unit id) := by
  obtain ⟨next, rfl⟩ := Table.insert_ok.mp added
  intro u k
  rw [Dict.get?_insert, Table.get?_push]
  by_cases same : u = unit <;> by_cases last : k.index = units.size
  · rw [if_pos same, if_pos last, same, Option.some.injEq, Key.ext_iff]
    exact iff_of_true (next.trans last.symm) rfl
  · have unnamed : units.get? k ≠ some u := fun named => by
      cases (same ▸ fresh : ids.get? u = none).symm.trans ((h u k).mpr named)
    rw [if_pos same, if_neg last, Option.some.injEq, Key.ext_iff]
    exact iff_of_false (fun he => last (he.symm.trans next)) unnamed
  · have past : units.get? k = none := Table.get?_eq_none_iff.mpr (Nat.le_of_eq last.symm)
    rw [if_neg same, if_pos last, h u k, past, Option.some.injEq]
    exact iff_of_false (Option.some_ne_none u).symm (Ne.symm same)
  · rw [if_neg same, if_neg last, h u k]

/-- A place that is past every identity has none. -/
theorem push (h : Named units ids) {e : Fault}
    (full : (Table.insert unit units : EStateM.Result Fault _ CommId) = .error e units') :
    Named units' ids := by
  obtain ⟨past, -, rfl⟩ := Table.insert_error.mp full
  intro u k
  have within := k.index_le
  rw [Table.get?_push, if_neg (by omega), h u k]

end Named

end Registry

/-- The communication units of a procedure in the order they were found, with what is known of
its random writes. -/
@[ext] structure Registry where
  units : Table CommId CommUnit := {}
  ids : Dict CommUnit CommId := {}
  /-- The symbols written to, each with the statement that hosts the message. -/
  targets : List (Stmt × Symbol) := []
  /-- The assignments behind each pair of host and symbol. -/
  writes : List ((Stmt × Symbol) × Stmt) := []
  named : Registry.Named units ids := by exact Registry.Named.empty
deriving DecidableEq

namespace Registry

def commId? (r : Registry) (unit : CommUnit) : Option CommId := r.ids.get? unit

def unit (r : Registry) (id : CommId) : Except Fault CommUnit := r.units.get id

/-- The identity of a unit, which is registered if it is new. -/
def register (unit : CommUnit) : EStateM Fault Registry CommId := fun r =>
  match fresh : r.ids.get? unit with
  | some id => .ok id r
  | none =>
    match added : Table.insert unit r.units with
    | .ok id units =>
      .ok id { r with units, ids := r.ids.insert unit id, named := r.named.insert fresh added }
    | .error e units => .error e { r with units, named := r.named.push added }

def registerNested (loop : Stmt) : EStateM Fault Registry CommId := register (.nested loop)

/-- Registers a random write and its symbol as a target of the host. -/
def registerRandomWrite (host : Stmt) (symbol : Symbol) : EStateM Fault Registry CommId := do
  let id ← register (.randomWrite host symbol)
  modify fun r => { r with targets := appendNew r.targets (host, symbol) }
  return id

/-- Records an assignment behind a random write. -/
def addWrite (r : Registry) (host : Stmt) (symbol : Symbol) (assign : Stmt) : Registry :=
  { r with writes := appendNew r.writes ((host, symbol), assign) }

/-- The symbols that random writes hosted by a statement write to, in the order they were found. -/
def targetsOf (r : Registry) (host : Stmt) : List Symbol :=
  (r.targets.filter (·.1 = host)).map (·.2)

/-- The assignments behind a random write, in the order they were found. -/
def writesOf (r : Registry) (host : Stmt) (symbol : Symbol) : List Stmt :=
  (r.writes.filter (·.1 = (host, symbol))).map (·.2)

end Registry

end Superstep
