import Mathlib.Data.List.Nodup
import Superstep.Proofs.Enrolled

namespace Superstep

namespace Registry

/-- A call that changes a registry. -/
inductive Call where
  | register (unit : CommUnit)
  | registerNested (loop : Stmt)
  | registerRandomWrite (host : Stmt) (symbol : Symbol)
  | addWrite (host : Stmt) (symbol : Symbol) (assign : Stmt)
deriving DecidableEq

namespace Call

/-- Makes a call. The answer is the identity of the unit, if the call registers one. -/
def run : Call → EStateM Fault Registry (Option CommId)
  | register unit => do return some (← Registry.register unit)
  | registerNested loop => do return some (← Registry.registerNested loop)
  | registerRandomWrite host symbol => do return some (← Registry.registerRandomWrite host symbol)
  | addWrite host symbol assign => do
    modify (·.addWrite host symbol assign)
    return none

/-- The unit that a call registers. -/
def unit? : Call → Option CommUnit
  | register unit => some unit
  | registerNested loop => some (.nested loop)
  | registerRandomWrite host symbol => some (.randomWrite host symbol)
  | addWrite _ _ _ => none

/-- The host and the symbol that a call makes a target of it. -/
def target? : Call → Option (Stmt × Symbol)
  | registerRandomWrite host symbol => some (host, symbol)
  | _ => none

/-- The write that a call records. -/
def write? : Call → Option ((Stmt × Symbol) × Stmt)
  | addWrite host symbol assign => some ((host, symbol), assign)
  | _ => none

def runAll (calls : List Call) : EStateM Fault Registry (List (Option CommId)) := calls.mapM run

end Call

variable {r r₁ r' : Registry} {u : CommUnit} {calls calls' : List Call}

/-- What calls leave behind: every unit, target and write once, in the order they came, behind what
was there. -/
structure Filed (r : Registry) (calls : List Call) (r' : Registry) : Prop where
  units : r'.units.values = (calls.filterMap Call.unit?).foldl appendNew r.units.values
  targets : r'.targets = (calls.filterMap Call.target?).foldl appendNew r.targets
  writes : r'.writes = (calls.filterMap Call.write?).foldl appendNew r.writes

namespace Filed

theorem trans (h : r.Filed calls r₁) (h' : r₁.Filed calls' r') : r.Filed (calls ++ calls') r' := by
  constructor
  · rw [h'.units, h.units, List.filterMap_append, List.foldl_append]
  · rw [h'.targets, h.targets, List.filterMap_append, List.foldl_append]
  · rw [h'.writes, h.writes, List.filterMap_append, List.foldl_append]

theorem more_units (h : r.Filed calls r') : ∃ rest, r'.units.values = r.units.values ++ rest :=
  ⟨_, h.units.trans (foldl_appendNew_eq ..)⟩

theorem commId?_eq (h : r.Filed calls r') (known : (r.commId? u).isSome) :
    r'.commId? u = r.commId? u := by
  obtain ⟨id, hid⟩ := Option.isSome_iff_exists.mp known
  obtain ⟨rest, hrest⟩ := h.more_units
  rw [hid]
  exact commId?_of_append hrest hid

end Filed

/-- A unit has the identity for its place among the units. -/
theorem commId?_eq_idxOf? (r : Registry) (u : CommUnit) :
    r.commId? u = (r.units.values.idxOf? u).bind Key.ofNat? := by
  refine Option.ext fun id => ?_
  rw [commId?_eq_some_iff, Table.get?_eq_values, Option.bind_eq_some_iff]
  constructor
  · intro h
    obtain ⟨hlt, he⟩ := List.getElem?_eq_some_iff.mp h
    refine ⟨id.index, List.idxOf?_eq_some_iff.mpr ⟨hlt, he, ?_⟩, Key.ofNat?_index id⟩
    intro j hj hje
    -- The unit would have the identity of the earlier place too.
    let early : CommId := ⟨j, Nat.le_trans (Nat.le_of_lt hj) id.index_le⟩
    have twice : r.commId? u = some early := by
      rw [commId?_eq_some_iff, Table.get?_eq_values]
      exact List.getElem?_eq_some_iff.mpr ⟨Nat.lt_trans hj hlt, hje⟩
    have once : r.commId? u = some id := commId?_eq_some_iff.mpr (Table.get?_eq_values .. ▸ h)
    have same : early.index = id.index := congrArg Key.index (Option.some.inj (twice.symm.trans once))
    exact absurd same (Nat.ne_of_lt hj)
  · rintro ⟨i, hi, hk⟩
    obtain ⟨hlt, he, -⟩ := List.idxOf?_eq_some_iff.mp hi
    rw [Key.ofNat?_eq_some_iff.mp hk]
    exact List.getElem?_eq_some_iff.mpr ⟨hlt, he⟩

theorem register_of_room (room : (appendNew r.units.values u).length ≤ 0x100000000) :
    ∃ id r', register u r = .ok id r' ∧ r'.units.values = appendNew r.units.values u ∧
      r'.targets = r.targets ∧ r'.writes = r.writes := by
  cases hc : r.commId? u with
  | some id =>
    have known : u ∈ r.units.values := mem_of_isSome (by simp [hc])
    exact ⟨id, r, register_iff.mpr (.inl ⟨hc, rfl⟩), (appendNew_of_mem known).symm, rfl, rfl⟩
  | none =>
    have hlen := r.units.length_values
    have fresh : u ∉ r.units.values := by
      intro known
      rw [appendNew_of_mem known] at room
      have isSome := (isSome_iff_mem (by omega)).mpr known
      rw [hc] at isSome
      cases isSome
    rw [appendNew_of_not_mem fresh, List.length_append, List.length_singleton] at room
    obtain ⟨r', registered⟩ := register_of_fresh hc (by omega)
    have unit := Enrolled.of_register registered
    exact ⟨_, r', registered, unit.units, unit.targets, unit.writes⟩

namespace Call

theorem run_of_room {c : Call}
    (room : (([c].filterMap unit?).foldl appendNew r.units.values).length ≤ 0x100000000) :
    ∃ r', c.run r = .ok (c.unit?.bind r'.commId?) r' ∧ r.Filed [c] r' := by
  cases c with
  | register u =>
    obtain ⟨id, r', run, units, targets, writes⟩ := register_of_room room
    have answer : (register u).unit?.bind r'.commId? = some id := commId?_of_register run
    exact ⟨r', answer ▸ bind_of_ok run, units, targets, writes⟩
  | registerNested l =>
    obtain ⟨id, r', run, units, targets, writes⟩ := register_of_room room
    have answer : (registerNested l).unit?.bind r'.commId? = some id := commId?_of_register run
    exact ⟨r', answer ▸ bind_of_ok run, units, targets, writes⟩
  | registerRandomWrite host symbol =>
    obtain ⟨id, r₁, run, units, targets, writes⟩ := register_of_room room
    let r' : Registry := { r₁ with targets := appendNew r₁.targets (host, symbol) }
    have whole : Registry.registerRandomWrite host symbol r = .ok id r' :=
      registerRandomWrite_iff.mpr ⟨r₁, run, rfl⟩
    have named : r₁.commId? (.randomWrite host symbol) = some id := commId?_of_register run
    have answer : (registerRandomWrite host symbol).unit?.bind r'.commId? = some id := named
    refine ⟨r', answer ▸ bind_of_ok whole, units, ?_, writes⟩
    exact congrArg (appendNew · (host, symbol)) targets
  | addWrite host symbol assign => exact ⟨_, rfl, rfl, rfl, rfl⟩

theorem run_of_known {c : Call} {id : CommId} (hc : c.unit? = some u) (hu : r.commId? u = some id) :
    ∃ r', c.run r = .ok (some id) r' ∧ r'.units = r.units ∧ r'.ids = r.ids := by
  have again : Registry.register u r = .ok id r := register_iff.mpr (.inl ⟨hu, rfl⟩)
  cases c with
  | register v =>
    cases hc
    exact ⟨r, bind_of_ok again, rfl, rfl⟩
  | registerNested l =>
    cases hc
    exact ⟨r, bind_of_ok again, rfl, rfl⟩
  | registerRandomWrite host symbol =>
    cases hc
    exact ⟨_, bind_of_ok (registerRandomWrite_iff.mpr ⟨r, again, rfl⟩), rfl, rfl⟩
  | addWrite => cases hc

/-- What a run of calls does. No call fails while there are identities for all units. -/
theorem runAll_of_room
    (room : ((calls.filterMap unit?).foldl appendNew r.units.values).length ≤ 0x100000000) :
    ∃ r', runAll calls r = .ok (calls.map fun c => c.unit?.bind r'.commId?) r' ∧
      r.Filed calls r' := by
  induction calls generalizing r with
  | nil => exact ⟨r, rfl, rfl, rfl, rfl⟩
  | cons c calls ih =>
    rw [← List.singleton_append, List.filterMap_append, List.foldl_append] at room
    have roomFirst : (([c].filterMap unit?).foldl appendNew r.units.values).length ≤ 0x100000000 := by
      rw [foldl_appendNew_eq _ (calls.filterMap unit?), List.length_append] at room
      omega
    obtain ⟨r₁, first, filed⟩ := run_of_room roomFirst
    rw [← filed.units] at room roomFirst
    obtain ⟨r', rest, filed'⟩ := ih room
    refine ⟨r', ?_, filed.trans filed'⟩
    have answer : c.unit?.bind r₁.commId? = c.unit?.bind r'.commId? := by
      cases hc : c.unit? with
      | none => rfl
      | some u =>
        have known : u ∈ r₁.units.values := by
          rw [filed.units, mem_foldl_appendNew]
          simp [hc]
        have hlen := r₁.units.length_values
        exact (filed'.commId?_eq ((isSome_iff_mem (by omega)).mpr known)).symm
    rw [answer] at first
    rw [runAll, List.mapM_cons, bind_of_ok first]
    exact bind_of_ok rest

end Call

/-- The tables of a registry agree: units and identities name each other, a target has a unit, and
nothing is listed twice. -/
structure Coherent (r : Registry) : Prop where
  inverse : ∀ u id, r.commId? u = some id ↔ r.unit id = .ok u
  named : ∀ id, (∃ u, r.unit id = .ok u) ↔ id.index < r.units.size
  room : r.units.size ≤ 0x100000000
  targets : ∀ host symbol, symbol ∈ r.targetsOf host → (r.commId? (.randomWrite host symbol)).isSome
  targets_nodup : ∀ host, (r.targetsOf host).Nodup
  writes_nodup : ∀ host symbol, (r.writesOf host symbol).Nodup

theorem nodup_picked {α β : Type} [DecidableEq α] {pairs : List (α × β)} (h : pairs.Nodup) (a : α) :
    ((pairs.filter (·.1 = a)).map (·.2)).Nodup := by
  refine List.Nodup.map_on ?_ (h.filter _)
  intro x hx y hy same
  exact apart_of_fst x y (List.mem_filter.mp hx).2 (List.mem_filter.mp hy).2 same

theorem Filed.coherent (h : ({} : Registry).Filed calls r) (room : r.units.size ≤ 0x100000000) :
    r.Coherent := by
  have targets : r.targets.Nodup := by
    rw [h.targets]
    exact nodup_foldl_appendNew List.nodup_nil _
  have writes : r.writes.Nodup := by
    rw [h.writes]
    exact nodup_foldl_appendNew List.nodup_nil _
  refine ⟨fun u id => ?_, fun id => ?_, room, fun host symbol hs => ?_, nodup_picked targets,
    fun host symbol => nodup_picked writes (host, symbol)⟩
  · exact commId?_eq_some_iff.trans Table.get_ok.symm
  · rw [← Table.get?_isSome_iff]
    exact exists_congr fun u => Table.get_ok
  · rw [mem_targetsOf, h.targets, mem_foldl_appendNew] at hs
    obtain ⟨c, hc, ht⟩ := List.mem_filterMap.mp (hs.resolve_left List.not_mem_nil)
    refine (isSome_iff_mem room).mpr ?_
    rw [h.units, mem_foldl_appendNew]
    refine .inr (List.mem_filterMap.mpr ⟨c, hc, ?_⟩)
    cases c <;> cases ht
    rfl

/-- A registry that calls have made from an empty one names every unit that was registered, by the
order of first registration. Registering a unit again changes no identity, and neither does any
later call. -/
theorem Call.runAll_coherent (before after : List Call)
    (few : ((before ++ after).filterMap Call.unit?).eraseDups.length ≤ 0x100000000) :
    ∃ r r', runAll before {} = .ok (before.map fun c => c.unit?.bind r.commId?) r ∧
      runAll after r = .ok (after.map fun c => c.unit?.bind r'.commId?) r' ∧ r.Coherent ∧
      r.units.values = (before.filterMap Call.unit?).eraseDups ∧
      (∀ u, r.ids.get? u = ((before.filterMap Call.unit?).eraseDups.idxOf? u).bind Key.ofNat?) ∧
      (∀ u, (r.commId? u).isSome ↔ u ∈ before.filterMap Call.unit?) ∧
      (∀ c : Call, ∀ u id, c.unit? = some u → r.commId? u = some id →
        ∃ r₁, c.run r = .ok (some id) r₁ ∧ r₁.units = r.units ∧ r₁.ids = r.ids) ∧
      (∀ u id, r.commId? u = some id → r'.commId? u = some id) ∧
      ∀ id u, r.unit id = .ok u → r'.unit id = .ok u := by
  have closed : ∀ us : List CommUnit, us.foldl appendNew [] = us.eraseDups :=
    foldl_appendNew List.nodup_nil
  rw [← closed, List.filterMap_append, List.foldl_append] at few
  have room : ((before.filterMap unit?).foldl appendNew []).length ≤ 0x100000000 := by
    rw [foldl_appendNew_eq _ (after.filterMap unit?), List.length_append] at few
    omega
  obtain ⟨r, run, filed⟩ := runAll_of_room (r := {}) room
  have units : r.units.values = (before.filterMap unit?).foldl appendNew [] := filed.units
  rw [← units] at few room
  obtain ⟨r', run', filed'⟩ := runAll_of_room few
  obtain ⟨rest, more⟩ := filed'.more_units
  have size : r.units.size ≤ 0x100000000 := by
    rw [← Table.length_values]
    exact room
  have distinct := units.trans (closed _)
  refine ⟨r, r', run, run', filed.coherent size, distinct, fun u => ?_, fun u => ?_,
    fun c u id => run_of_known, fun u id => commId?_of_append more, fun id u hu => ?_⟩
  · rw [← distinct]
    exact commId?_eq_idxOf? r u
  · rw [isSome_iff_mem size, units, mem_foldl_appendNew]
    simp
  · exact Table.get_ok.mpr (get?_of_append more (Table.get_ok.mp hu))

/-- A host with one target and a loop. The write is recorded twice. -/
def Call.hostAndLoop : List Call :=
  [.registerRandomWrite (Key.wrap 1) (Key.wrap 0), .addWrite (Key.wrap 1) (Key.wrap 0) (Key.wrap 2),
    .registerNested (Key.wrap 7), .addWrite (Key.wrap 1) (Key.wrap 0) (Key.wrap 2)]

/-- The loop and the target are registered again, with another target between them. -/
theorem Call.runAll_coherent_of_hostAndLoop :
    ∃ answers r answers' r', runAll hostAndLoop {} = .ok answers r ∧
      runAll [.register (.nested (Key.wrap 7)), .registerRandomWrite (Key.wrap 1) (Key.wrap 5),
        .registerRandomWrite (Key.wrap 1) (Key.wrap 0)] r = .ok answers' r' ∧ r.Coherent ∧
      r.units.values = [.randomWrite (Key.wrap 1) (Key.wrap 0), .nested (Key.wrap 7)] ∧
      ∀ u id, r.commId? u = some id → r'.commId? u = some id := by
  obtain ⟨r, r', run, run', coherent, units, -, -, -, stable, -⟩ := runAll_coherent hostAndLoop
    [.register (.nested (Key.wrap 7)), .registerRandomWrite (Key.wrap 1) (Key.wrap 5),
      .registerRandomWrite (Key.wrap 1) (Key.wrap 0)] (by decide +kernel)
  exact ⟨_, r, _, r', run, run', coherent, units.trans (by decide +kernel), stable⟩

end Registry

end Superstep
