import Superstep.Proofs.Itinerary

namespace Superstep

namespace Registry

variable {r r₁ r' : Registry} {u : CommUnit}

theorem mem_of_isSome (h : (r.commId? u).isSome) : u ∈ r.units.values := by
  obtain ⟨id, hid⟩ := isSome_commId?.mp h
  rw [Table.get?_eq_values] at hid
  exact List.mem_of_getElem? hid

/-- In a table with no more units than identities, every unit has one. -/
theorem isSome_iff_mem (room : r.units.size ≤ 0x100000000) :
    (r.commId? u).isSome ↔ u ∈ r.units.values := by
  refine ⟨mem_of_isSome, fun h => ?_⟩
  obtain ⟨i, hi, he⟩ := List.mem_iff_getElem.mp h
  have hlen := r.units.length_values
  refine isSome_commId?.mpr ⟨⟨i, by omega⟩, ?_⟩
  rw [Table.get?_eq_values]
  exact List.getElem?_eq_some_iff.mpr ⟨hi, he⟩

theorem registerRandomWrite_iff {host : Stmt} {symbol : Symbol} {id : CommId} :
    registerRandomWrite host symbol r = .ok id r' ↔
      ∃ r₁, register (.randomWrite host symbol) r = .ok id r₁ ∧
        r' = { r₁ with targets := appendNew r₁.targets (host, symbol) } := by
  simp only [registerRandomWrite, bind_ok, modify_ok, pure_ok]
  constructor
  · rintro ⟨_, r₁, hr, _, _, rfl, rfl, rfl⟩
    exact ⟨r₁, hr, rfl⟩
  · rintro ⟨r₁, hr, rfl⟩
    exact ⟨id, r₁, hr, ⟨⟩, _, rfl, rfl, rfl⟩

theorem mem_targetsOf {host : Stmt} {symbol : Symbol} :
    symbol ∈ r.targetsOf host ↔ (host, symbol) ∈ r.targets := by
  simp [targetsOf]

theorem writesOf_ne_nil_iff {host : Stmt} {symbol : Symbol} :
    r.writesOf host symbol ≠ [] ↔ (host, symbol) ∈ r.writes.map Prod.fst := by
  simp [writesOf]

theorem get?_of_append {rest : List CommUnit} {id : CommId}
    (more : r'.units.values = r.units.values ++ rest) (hu : r.units.get? id = some u) :
    r'.units.get? id = some u := by
  rw [Table.get?_eq_values] at hu ⊢
  rw [more, List.getElem?_append_left (List.getElem?_eq_some_iff.mp hu).1, hu]

/-- A unit that is registered keeps its identity when others come behind it. -/
theorem commId?_of_append {rest : List CommUnit} {id : CommId}
    (more : r'.units.values = r.units.values ++ rest) (hu : r.commId? u = some id) :
    r'.commId? u = some id :=
  commId?_eq_some_iff.mpr (get?_of_append more (commId?_eq_some_iff.mp hu))

/-- What registering units leaves behind, with the writes among them: each is there once, in the
order they came, behind what was there. -/
structure Enrolled (r : Registry) (us : List CommUnit) (ws : List ((Stmt × Symbol) × Stmt))
    (r' : Registry) : Prop where
  units : r'.units.values = us.foldl appendNew r.units.values
  room : (∀ u ∈ us, (r.commId? u).isSome) ∨ r'.units.size ≤ 0x100000000
  targets : r'.targets = (ws.map Prod.fst).foldl appendNew r.targets
  writes : r'.writes = ws.foldl appendNew r.writes

namespace Enrolled

variable {us us' : List CommUnit} {ws ws' : List ((Stmt × Symbol) × Stmt)}

theorem nil (r : Registry) : r.Enrolled [] [] r := ⟨rfl, .inl (by simp), rfl, rfl⟩

theorem of_register {id : CommId} (h : register u r = .ok id r') : r.Enrolled [u] [] r' := by
  rcases register_iff.mp h with ⟨hc, rfl⟩ | added
  · have known : (r'.commId? u).isSome := by simp [hc]
    exact ⟨(appendNew_of_mem (mem_of_isSome known)).symm, .inl (by simpa using known), rfl, rfl⟩
  · -- The new unit has an identity, so everything before it has one too.
    have hroom : r.units.size ≤ 0xFFFFFFFF := added.next ▸ id.index_le
    have fresh : u ∉ r.units.values := by
      rw [← isSome_iff_mem (by omega), added.fresh]
      simp
    refine ⟨?_, .inr ?_, added.targets, added.writes⟩
    · rw [added.units, Table.values_push]
      exact (appendNew_of_not_mem fresh).symm
    · rw [added.units, Table.size_push]
      omega

theorem of_randomWrite {host : Stmt} {symbol : Symbol} {id : CommId}
    (h : registerRandomWrite host symbol r = .ok id r') (s : Stmt) :
    r.Enrolled [.randomWrite host symbol] [((host, symbol), s)] (r'.addWrite host symbol s) := by
  obtain ⟨r₁, hr, rfl⟩ := registerRandomWrite_iff.mp h
  have unit := of_register hr
  refine ⟨unit.units, unit.room, ?_, ?_⟩
  · exact congrArg (appendNew · (host, symbol)) unit.targets
  · exact congrArg (appendNew · ((host, symbol), s)) unit.writes

/-- Everything that was named before keeps its name. -/
theorem prefix_units (h : r.Enrolled us ws r') :
    ∃ rest, r'.units.values = r.units.values ++ rest :=
  ⟨_, h.units.trans (foldl_appendNew_eq ..)⟩

theorem get? (h : r.Enrolled us ws r') {id : CommId} (hu : r.units.get? id = some u) :
    r'.units.get? id = some u := by
  obtain ⟨rest, hrest⟩ := h.prefix_units
  exact get?_of_append hrest hu

theorem commId? (h : r.Enrolled us ws r') {id : CommId} (hu : r.commId? u = some id) :
    r'.commId? u = some id := by
  obtain ⟨rest, hrest⟩ := h.prefix_units
  exact commId?_of_append hrest hu

theorem values_of_known (h : r.Enrolled us ws r') (known : ∀ u ∈ us, (r.commId? u).isSome) :
    r'.units.values = r.units.values :=
  h.units.trans (foldl_appendNew_of_mem fun u hu => mem_of_isSome (known u hu))

theorem room_of_empty (h : ({} : Registry).Enrolled us ws r') : r'.units.size ≤ 0x100000000 := by
  rcases h.room with known | room
  · have hsize := congrArg List.length (h.values_of_known known)
    rw [Table.length_values, Table.length_values] at hsize
    rw [hsize]
    decide
  · exact room

theorem targetsOf (h : r.Enrolled us ws r') (host : Stmt) :
    r'.targetsOf host = r.targetsOf host ++
      (((ws.filter (·.1.1 = host)).map (·.1.2)).filter (· ∉ r.targetsOf host)).eraseDups := by
  have hpicked : ((ws.map Prod.fst).filter (·.1 = host)).map Prod.snd =
      (ws.filter (·.1.1 = host)).map (·.1.2) := by
    rw [List.filter_map, List.map_map]
    rfl
  rw [← foldl_appendNew_eq, ← hpicked, Registry.targetsOf, h.targets,
    picked_foldl_appendNew apart_of_fst]
  rfl

theorem writesOf (h : r.Enrolled us ws r') (host : Stmt) (symbol : Symbol) :
    r'.writesOf host symbol = r.writesOf host symbol ++
      (((ws.filter (·.1 = (host, symbol))).map (·.2)).filter
        (· ∉ r.writesOf host symbol)).eraseDups := by
  rw [← foldl_appendNew_eq, Registry.writesOf, h.writes, picked_foldl_appendNew apart_of_fst]
  rfl

/-- If nothing was there before, all tables know of the same random writes. -/
theorem agree_of_empty (h : ({} : Registry).Enrolled us ws r') {host : Stmt} {symbol : Symbol}
    (listed : .randomWrite host symbol ∈ us ↔ (host, symbol) ∈ ws.map Prod.fst) :
    (symbol ∈ r'.targetsOf host ↔ (r'.commId? (.randomWrite host symbol)).isSome) ∧
      (symbol ∈ r'.targetsOf host ↔ r'.writesOf host symbol ≠ []) := by
  have htargets : symbol ∈ r'.targetsOf host ↔ (host, symbol) ∈ ws.map Prod.fst := by
    rw [mem_targetsOf, h.targets, mem_foldl_appendNew]
    simp
  have hunits : (r'.commId? (.randomWrite host symbol)).isSome ↔ .randomWrite host symbol ∈ us := by
    rw [isSome_iff_mem h.room_of_empty, h.units, mem_foldl_appendNew]
    simp [Table.values]
  have hwrites : r'.writesOf host symbol ≠ [] ↔ (host, symbol) ∈ ws.map Prod.fst := by
    simp only [writesOf_ne_nil_iff, h.writes, List.mem_map, mem_foldl_appendNew, List.not_mem_nil,
      false_or]
  exact ⟨htargets.trans (listed.symm.trans hunits.symm), htargets.trans hwrites.symm⟩

theorem trans (h : r.Enrolled us ws r₁) (h' : r₁.Enrolled us' ws' r') :
    r.Enrolled (us ++ us') (ws ++ ws') r' := by
  refine ⟨?_, ?_, ?_, ?_⟩
  · rw [h'.units, h.units, List.foldl_append]
  · rcases h'.room with known' | room'
    · rcases h.room with known | room
      · refine .inl fun u hu => (List.mem_append.mp hu).elim (known u) fun hu' => ?_
        obtain ⟨id, hid⟩ := isSome_commId?.mp (known' u hu')
        rw [Table.get?_eq_values, h.values_of_known known, ← Table.get?_eq_values] at hid
        exact isSome_commId?.mpr ⟨id, hid⟩
      · have hsize := congrArg List.length (h'.values_of_known known')
        rw [Table.length_values, Table.length_values] at hsize
        exact .inr (by omega)
    · exact .inr room'
  · rw [h'.targets, h.targets, List.map_append, List.foldl_append]
  · rw [h'.writes, h.writes, List.foldl_append]

end Enrolled

end Registry

/-- The host and the symbol of a random write to a property. -/
def Statement.write? : Statement → Option (Stmt × Symbol)
  | .assign a => a.randomWrite.expand.bind fun host =>
      a.target.field?.map fun access => (host, access.driver)
  | _ => none

theorem Statement.write?_assign {w : Assign} {host : Stmt} {access : FieldAccess}
    (hhost : w.randomWrite.expand = some host) (hfield : w.target.field? = some access) :
    (Statement.assign w).write? = some (host, access.driver) := by
  simp [write?, hhost, hfield]

theorem Statement.unit?_eq_randomWrite_iff {statement : Statement} {s host : Stmt} {symbol : Symbol} :
    statement.unit? s = some (.randomWrite host symbol) ↔ statement.write? = some (host, symbol) := by
  cases statement with
  | «foreach» f => cases h : f.iter.isAllGraph <;> simp [unit?, write?, h]
  | assign a =>
    cases h : a.randomWrite.expand <;> cases h' : a.target.field? <;> simp [unit?, write?, h, h']
  | _ => simp [unit?, write?]

theorem Statement.write?_eq_none {statement : Statement}
    (h : ∀ host, statement.site ≠ .randomWrite host) : statement.write? = none := by
  cases statement with
  | assign a =>
    cases hw : a.randomWrite.expand with
    | none => simp [write?, hw]
    | some host => exact absurd (by simp [site, hw]) (h host)
  | _ => rfl

theorem Statement.write?_eq_of_plain {a b : Statement} (h : a.plain = b.plain) :
    a.write? = b.write? := by
  cases a <;> cases b <;> simp_all [plain, write?]

namespace Ast

variable {ast : Ast}

/-- The random write that the statement of a key is. -/
def write? (ast : Ast) (s : Stmt) : Option ((Stmt × Symbol) × Stmt) :=
  ((ast.stmts.get? s).bind Statement.write?).map (·, s)

/-- The units of visited statements. -/
def units (ast : Ast) (visits : List (Stmt × Scope)) : List CommUnit :=
  visits.filterMap fun v => ast.unit? v.1

/-- The random writes among visited statements. -/
def written (ast : Ast) (visits : List (Stmt × Scope)) : List ((Stmt × Symbol) × Stmt) :=
  visits.filterMap fun v => ast.write? v.1

theorem SameTrees.write? {a b : Ast} (h : a.SameTrees b) (s : Stmt) : b.write? s = a.write? s := by
  unfold Ast.write?
  cases hx : a.stmts.get? s with
  | none =>
    have hn := h.stmts s
    simp only [hx, Option.map_none, Option.map_eq_none_iff] at hn
    simp [hn]
  | some x =>
    obtain ⟨y, hy, hp⟩ := h.lookup hx
    simp [hy, Statement.write?_eq_of_plain hp]

theorem units_append {visits rest : List (Stmt × Scope)} :
    ast.units (visits ++ rest) = ast.units visits ++ ast.units rest :=
  List.filterMap_append

theorem units_cons_of_some {v : Stmt × Scope} {rest : List (Stmt × Scope)} {u : CommUnit}
    (hu : ast.unit? v.1 = some u) : ast.units (v :: rest) = u :: ast.units rest :=
  List.filterMap_cons_some hu

theorem units_singleton {v : Stmt × Scope} {statement : Statement}
    (hv : ast.stmts.get? v.1 = some statement) : ast.units [v] = (statement.unit? v.1).toList := by
  cases h : statement.unit? v.1 <;> simp [units, unit?, hv, h]

theorem written_append {visits rest : List (Stmt × Scope)} :
    ast.written (visits ++ rest) = ast.written visits ++ ast.written rest :=
  List.filterMap_append

theorem written_singleton {v : Stmt × Scope} {statement : Statement}
    (hv : ast.stmts.get? v.1 = some statement) :
    ast.written [v] = (statement.write?.map (·, v.1)).toList := by
  cases h : statement.write? <;> simp [written, write?, hv, h]

theorem mem_written_iff {visits : List (Stmt × Scope)} {host : Stmt} {symbol : Symbol} :
    (host, symbol) ∈ (ast.written visits).map Prod.fst ↔
      ∃ v ∈ visits, ∃ st, ast.stmts.get? v.1 = some st ∧ st.write? = some (host, symbol) := by
  simp only [written, write?, List.mem_map, List.mem_filterMap, Option.map_eq_some_iff,
    Option.bind_eq_some_iff]
  constructor
  · rintro ⟨_, ⟨v, hv, _, hst, rfl⟩, rfl⟩
    exact ⟨v, hv, hst⟩
  · rintro ⟨v, hv, hst⟩
    exact ⟨_, ⟨v, hv, _, hst, rfl⟩, rfl⟩

theorem randomWrite_mem_units_iff {visits : List (Stmt × Scope)} {host : Stmt} {symbol : Symbol} :
    .randomWrite host symbol ∈ ast.units visits ↔
      (host, symbol) ∈ (ast.written visits).map Prod.fst := by
  simp only [mem_written_iff, units, List.mem_filterMap, unit?, Option.bind_eq_some_iff,
    Statement.unit?_eq_randomWrite_iff]

end Ast

namespace Detection

variable {d d' : Detection} {visits : List (Stmt × Scope)}

/-- A visit registers the unit of its statement, and the write that it is. -/
theorem visit_enrolled {v : Stmt × Scope} {inner : Scope} (h : visit v.1 v.2 d = .ok inner d') :
    d.body.graph.registry.Enrolled (d.body.ast.units [v]) (d.body.ast.written [v])
      d'.body.graph.registry := by
  obtain ⟨-, statement, hs, ⟨hsite, h⟩ | ⟨hsite, -, h⟩ | ⟨host, hsite, -, h⟩ | ⟨hsite, -, rfl⟩⟩ :=
    visit_iff.mp h
  · have hu := Statement.unit?_of_outerLoop hsite v.1
    have hw : statement.write? = none := Statement.write?_eq_none fun host => by simp [hsite]
    obtain ⟨x, f, role, -, -, -, -, rfl⟩ := outerLoop_iff.mp h
    rw [Ast.units_singleton hs, Ast.written_singleton hs, hu, hw]
    exact .nil _
  · have hu := Statement.unit?_of_innerLoop hsite v.1
    have hw : statement.write? = none := Statement.write?_eq_none fun host => by simp [hsite]
    obtain ⟨outer, x, fo, flags, f, id, r, -, -, -, -, -, -, hr, rfl⟩ := innerLoop_iff.mp h
    rw [Ast.units_singleton hs, Ast.written_singleton hs, hu, hw]
    exact .of_register hr
  · obtain ⟨outer, x, fo, flags, a, access, id, r, -, -, -, -, ha, haccess, hr, rfl⟩ :=
      randomWrite_iff.mp h
    cases hs.symm.trans ha
    obtain ⟨_, ⟨⟩, hhost⟩ := Statement.site_eq_randomWrite_iff.mp hsite
    have hw := Statement.write?_assign hhost haccess
    rw [Ast.units_singleton hs, Ast.written_singleton hs, hw,
      Statement.unit?_eq_randomWrite_iff.mpr hw]
    exact .of_randomWrite hr v.1
  · have hu := Statement.unit?_of_nothing hsite v.1
    have hw : statement.write? = none := Statement.write?_eq_none fun host => by simp [hsite]
    rw [Ast.units_singleton hs, Ast.written_singleton hs, hu, hw]
    exact .nil _

theorem Trail.enrolled (h : Trail d visits d') :
    d.body.graph.registry.Enrolled (d.body.ast.units visits) (d.body.ast.written visits)
      d'.body.graph.registry := by
  induction h with
  | nil d => exact .nil _
  | @cons d d₁ d' s scope inner rest hv _ ih =>
    have same := visit_trees hv
    have hunits : d₁.body.ast.units rest = d.body.ast.units rest := by
      simp only [Ast.units, same.unit?]
    have hwritten : d₁.body.ast.written rest = d.body.ast.written rest := by
      simp only [Ast.written, same.write?]
    rw [hunits, hwritten] at ih
    have hall := (visit_enrolled (v := (s, scope)) hv).trans ih
    rwa [← Ast.units_append, ← Ast.written_append] at hall

end Detection

namespace Procedure

/-- The registry holds what it held, under the same identities, and behind it the units of all
statements that the walk meets, the symbols that their random writes go to, and those writes. -/
theorem findCommunication_registry {s t : Stage Procedure} {targets : TargetBlocks}
    (find : findCommunication s = .ok targets t) :
    ∃ bs visits, s.subject.graph.reachable = .ok bs ∧ s.subject.toBody.Visits bs visits ∧
      t.subject.graph.registry.units.values = s.subject.graph.registry.units.values ++
        ((s.subject.ast.units visits).filter
          (· ∉ s.subject.graph.registry.units.values)).eraseDups ∧
      (∀ id u, s.subject.graph.registry.units.get? id = some u →
        t.subject.graph.registry.units.get? id = some u) ∧
      (∀ id u, s.subject.graph.registry.commId? u = some id →
        t.subject.graph.registry.commId? u = some id) ∧
      (∀ host, t.subject.graph.registry.targetsOf host = s.subject.graph.registry.targetsOf host ++
        ((((s.subject.ast.written visits).filter (·.1.1 = host)).map (·.1.2)).filter
          (· ∉ s.subject.graph.registry.targetsOf host)).eraseDups) ∧
      (∀ host symbol, t.subject.graph.registry.writesOf host symbol =
        s.subject.graph.registry.writesOf host symbol ++
          ((((s.subject.ast.written visits).filter (·.1 = (host, symbol))).map (·.2)).filter
            (· ∉ s.subject.graph.registry.writesOf host symbol)).eraseDups) ∧
      (s.subject.graph.registry = {} → ∀ host symbol,
        (symbol ∈ t.subject.graph.registry.targetsOf host ↔
          (t.subject.graph.registry.commId? (.randomWrite host symbol)).isSome) ∧
        (symbol ∈ t.subject.graph.registry.targetsOf host ↔
          t.subject.graph.registry.writesOf host symbol ≠ [])) := by
  obtain ⟨d', hd, rfl⟩ := onPart_ok.mp find
  obtain ⟨bs, visits, hr, hvisits, htrail, rfl⟩ := Detection.findCommunication_trail hd
  have enrolled := htrail.enrolled
  refine ⟨bs, visits, hr, hvisits, enrolled.units.trans (foldl_appendNew_eq ..),
    fun _ _ => enrolled.get?, fun _ _ => enrolled.commId?, enrolled.targetsOf, enrolled.writesOf, ?_⟩
  intro empty host symbol
  exact (empty ▸ enrolled).agree_of_empty Ast.randomWrite_mem_units_iff

/-- The random write that both supersteps make is known to all tables. -/
theorem findCommunication_registry_of_twoSupersteps :
    ∃ targets t, findCommunication (twoSupersteps 1) = .ok targets t ∧
      Key.wrap 1 ∈ t.subject.graph.registry.targetsOf (Key.wrap 3) ∧
      (t.subject.graph.registry.commId? (.randomWrite (Key.wrap 3) (Key.wrap 1))).isSome ∧
      t.subject.graph.registry.writesOf (Key.wrap 3) (Key.wrap 1) ≠ [] := by
  have run : ((match findCommunication (twoSupersteps 1) with
      | .ok _ t => some (t.subject.graph.registry.targetsOf (Key.wrap 3))
      | .error _ _ => none) : Option (List Symbol)) = some [Key.wrap 1] := by decide +kernel
  cases h : findCommunication (twoSupersteps 1) with
  | error e t => simp [h] at run
  | ok targets t =>
    simp only [h, Option.some.injEq] at run
    have written : Key.wrap 1 ∈ t.subject.graph.registry.targetsOf (Key.wrap 3) := by simp [run]
    obtain ⟨bs, visits, -, -, -, -, -, -, -, agree⟩ := findCommunication_registry h
    obtain ⟨registered, recorded⟩ := agree rfl (Key.wrap 3) (Key.wrap 1)
    exact ⟨targets, t, rfl, written, registered.mp written, recorded.mp written⟩

end Procedure

end Superstep
