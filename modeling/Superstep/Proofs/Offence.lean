import Mathlib.Data.List.Induction
import Mathlib.Data.List.TakeWhile
import Superstep.Proofs.Enrolled
import Superstep.Proofs.Roles

namespace Superstep

/-- What is wrong with a statement, by the outer loop around it and the block that it is in: a loop
whose role is already another one, a message that no loop around it sends, or a random write that is
not to a property. -/
def Statement.offence? (statement : Statement) (s : Stmt) (outer : Option Stmt) (id : BlockId) :
    Option CommError :=
  match statement with
  | .foreach f =>
    if f.iter.isAllGraph then
      if f.role = .inner then some (.conflictingLoopRole s f.role) else none
    else if outer.isNone then some (.innerLoopWithoutOuter id s)
    else if f.role.isOuter then some (.conflictingLoopRole s f.role) else none
  | .assign a =>
    if a.randomWrite.expand.isNone then none
    else if outer.isNone then some (.randomWriteWithoutOuter id s)
    else if a.target.field?.isNone then some (.randomWriteWithoutField s) else none
  | _ => none

theorem Statement.offence?_eq_some_iff {statement : Statement} {s : Stmt} {outer : Option Stmt}
    {id : BlockId} {e : CommError} :
    statement.offence? s outer id = some e ↔
      (∃ f, statement = .foreach f ∧ f.iter.isAllGraph = true ∧ f.role = .inner ∧
        .conflictingLoopRole s f.role = e) ∨
      (∃ f, statement = .foreach f ∧ f.iter.isAllGraph = false ∧ outer = none ∧
        .innerLoopWithoutOuter id s = e) ∨
      (∃ f o, statement = .foreach f ∧ f.iter.isAllGraph = false ∧ outer = some o ∧
        f.role.isOuter = true ∧ .conflictingLoopRole s f.role = e) ∨
      (∃ w host, statement = .assign w ∧ w.randomWrite.expand = some host ∧ outer = none ∧
        .randomWriteWithoutOuter id s = e) ∨
      (∃ w host o, statement = .assign w ∧ w.randomWrite.expand = some host ∧ outer = some o ∧
        w.target.field? = none ∧ .randomWriteWithoutField s = e) := by
  cases statement with
  | «foreach» f =>
    cases hall : f.iter.isAllGraph <;> cases outer <;> simp [offence?, hall]
  | assign w =>
    cases hhost : w.randomWrite.expand <;> cases outer <;> simp [offence?, hhost]
  | _ => simp [offence?]

/-- The role of a loop matters to what is wrong with it only so far as it is that of the other kind of
loop. -/
theorem Statement.offence?_recast {statement : Statement} {cast : Foreach → LoopRole}
    (h : ∀ f, statement = .foreach f → cast f = f.role ∨
      (f.iter.isAllGraph = true ∧ f.role ≠ .inner ∧ cast f ≠ .inner) ∨
      (f.iter.isAllGraph = false ∧ f.role.isOuter = false ∧ (cast f).isOuter = false))
    (s : Stmt) (outer : Option Stmt) (id : BlockId) :
    (statement.recast cast).offence? s outer id = statement.offence? s outer id := by
  cases statement with
  | «foreach» f =>
    rcases h f rfl with same | ⟨hall, hold, hnew⟩ | ⟨hnbr, hold, hnew⟩
    · simp only [recast, same]
    · simp [recast, offence?, hall, hold, hnew]
    · simp [recast, offence?, hnbr, hold, hnew]
  | _ => rfl

/-- What is wrong at a visit. -/
def Body.offence? (body : Body) (v : Stmt × Scope) : Option CommError :=
  (body.ast.stmts.get? v.1).bind fun statement =>
    (body.graph.blocks.get? v.2.block).bind fun x => statement.offence? v.1 v.2.outer x.id

/-- The visits before the first where something is wrong. -/
def Body.clean (body : Body) (visits : List (Stmt × Scope)) : List (Stmt × Scope) :=
  visits.takeWhile fun v => (body.offence? v).isNone

theorem Body.clean_append {body : Body} {visits rest : List (Stmt × Scope)}
    (h : ∀ v ∈ visits, body.offence? v = none) :
    body.clean (visits ++ rest) = visits ++ body.clean rest :=
  List.takeWhile_append_of_pos fun v hv => by rw [h v hv]; rfl

theorem Body.clean_of_none {body : Body} {visits : List (Stmt × Scope)}
    (h : ∀ v ∈ visits, body.offence? v = none) : body.clean visits = visits :=
  List.takeWhile_eq_self_iff.mpr fun v hv => by rw [h v hv]; rfl

theorem Body.clean_cons_of_some {body : Body} {v : Stmt × Scope} {rest : List (Stmt × Scope)}
    {e : CommError} (h : body.offence? v = some e) : body.clean (v :: rest) = [] :=
  List.takeWhile_cons_of_neg (by simp [h])

/-- What a walk needs of its visits: their statements and blocks are there, and the loops around them
are visited first. -/
structure Body.Planned (body : Body) (visits : List (Stmt × Scope)) : Prop where
  known : body.ast.Scoped [] visits
  stmt : ∀ v ∈ visits, v.2.underReceiver = false ∧
    ∃ statement, body.ast.stmts.get? v.1 = some statement
  block : ∀ v ∈ visits, ∃ x, body.graph.blocks.get? v.2.block = some x

theorem Body.Planned.init {body : Body} {visits rest : List (Stmt × Scope)}
    (h : body.Planned (visits ++ rest)) : body.Planned visits :=
  ⟨(Ast.scoped_append.mp h.known).1, fun v hv => h.stmt v (List.mem_append_left _ hv),
    fun v hv => h.block v (List.mem_append_left _ hv)⟩

theorem Body.Visits.planned {body : Body} {bs : List Block} {visits : List (Stmt × Scope)}
    (h : body.Visits bs visits) : body.Planned visits := by
  refine ⟨h.scoped [], h.stmt_there, fun v hv => ?_⟩
  obtain ⟨-, x, hx, -⟩ := h.block_mem v hv
  exact ⟨x, hx⟩

/-- There is an identity for each of some units. -/
def Registry.HasRoom (r : Registry) (us : List CommUnit) : Prop :=
  (∀ u ∈ us, (r.commId? u).isSome) ∨ (us.foldl appendNew r.units.values).length ≤ 0x100000000

/-- A unit without an identity, and no identity left for it. -/
def Registry.Full (r : Registry) (u : CommUnit) : Prop :=
  r.commId? u = none ∧ 0xFFFFFFFF < r.units.size

theorem Registry.Enrolled.hasRoom {r r' : Registry} {us : List CommUnit}
    {ws : List ((Stmt × Symbol) × Stmt)} (h : r.Enrolled us ws r') : r.HasRoom us := by
  rcases h.room with known | room
  · exact .inl known
  · refine .inr ?_
    rw [← h.units, Table.length_values]
    exact room

theorem Registry.Enrolled.not_hasRoom {r r' : Registry} {us us' : List CommUnit} {u : CommUnit}
    {ws : List ((Stmt × Symbol) × Stmt)} (h : r.Enrolled us ws r') (full : r'.Full u) :
    ¬r.HasRoom (us ++ u :: us') := by
  rintro (known | room)
  · obtain ⟨id, hid⟩ := Option.isSome_iff_exists.mp (known u (by simp))
    cases full.1.symm.trans (h.commId? hid)
  · rw [List.foldl_append, ← h.units, List.foldl_cons, foldl_appendNew_eq, List.length_append] at room
    have hlen := r'.units.length_values
    have hsize := full.2
    -- A unit in the table that has no identity is one behind all those that have.
    by_cases hu : u ∈ r'.units.values
    · rw [appendNew_of_mem hu] at room
      have known := (isSome_iff_mem (by omega)).mpr hu
      rw [full.1] at known
      cases known
    · rw [appendNew_of_not_mem hu, List.length_append, List.length_singleton] at room
      omega

theorem Registry.register_total {r : Registry} {u : CommUnit} :
    (∃ id r', register u r = .ok id r') ∨ r.Full u := by
  cases hc : r.commId? u with
  | some id => exact .inl ⟨id, r, register_iff.mpr (.inl ⟨hc, rfl⟩)⟩
  | none =>
    by_cases room : r.units.size ≤ 0xFFFFFFFF
    · exact .inl ⟨_, register_of_fresh hc room⟩
    · exact .inr ⟨hc, by omega⟩

namespace Detection

variable {s : Stmt} {scope : Scope} {d d' : Detection} {statement : Statement} {f : Foreach}

theorem markLoop_of_error {mark : LoopRole → Except LoopRole LoopRole} {existing : LoopRole}
    (hf : d.body.ast.stmts.get? s = some (.foreach f)) (hm : mark f.role = .error existing) :
    markLoop s mark d = .error (.error (.conflictingLoopRole s existing)) d := by
  refine (bind_of_ok (loop_ok.mpr ⟨hf, rfl⟩)).trans ?_
  rw [hm]
  rfl

theorem ensureRole_of_not {allowed : LoopRole → Bool}
    (hf : d.body.ast.stmts.get? s = some (.foreach f)) (hn : allowed f.role = false) :
    ensureRole s allowed d = .error (.error (.conflictingLoopRole s f.role)) d := by
  refine (bind_of_ok (loop_ok.mpr ⟨hf, rfl⟩)).trans ?_
  rw [hn]
  rfl

/-- A visit fails if what the site of its statement asks for does. -/
theorem visit_error_iff {e : Halt CommError} (direct : scope.underReceiver = false)
    (hs : d.body.ast.stmts.get? s = some statement) :
    visit s scope d = .error e d' ↔
      (statement.site = .outerLoop ∧ outerLoop s scope d = .error e d') ∨
      (statement.site = .innerLoop ∧ innerLoop s scope d = .error e d') ∨
      ∃ host, statement.site = .randomWrite host ∧ randomWrite s host scope d = .error e d' := by
  have hlook : look (·.ast.stmt s) d = .ok statement d := look_ok.mpr ⟨stmt_ok.mpr hs, rfl⟩
  simp only [visit, direct, Bool.false_eq_true, if_false]
  rw [bind_of_ok hlook]
  cases hsite : statement.site with
  | outerLoop => simp
  | innerLoop => simp only [bind_error, pure_error]; simp
  | randomWrite host => simp only [bind_error, pure_error]; simp
  | nothing => simp [pure_error]

/-- A walk comes to a visit with all that it needs: the statement and the block are there, and the
loop around the statement is an outer loop. -/
structure Ready (d : Detection) (v : Stmt × Scope) : Prop where
  direct : v.2.underReceiver = false
  stmt : ∃ statement, d.body.ast.stmts.get? v.1 = some statement
  block : ∃ x, d.body.graph.blocks.get? v.2.block = some x
  outer : ∀ o, v.2.outer = some o →
    ∃ f flags, d.body.ast.stmts.get? o = some (.foreach f) ∧ f.role = .outer flags

theorem outerLoop_of_inner (hf : d.body.ast.stmts.get? s = some (.foreach f)) (hr : f.role = .inner) :
    outerLoop s scope d = .error (.error (.conflictingLoopRole s f.role)) d := by
  have refused : f.role.markOuter = .error f.role := by
    rw [hr]
    rfl
  exact bind_of_error (markLoop_of_error hf refused)

theorem innerLoop_of_no_outer {x : BlockData} (hx : d.body.graph.blocks.get? scope.block = some x)
    (ho : scope.outer = none) :
    innerLoop s scope d = .error (.error (.innerLoopWithoutOuter x.id s)) d := by
  unfold innerLoop
  rw [ho]
  exact bind_of_ok (blockId_ok.mpr ⟨⟨x, hx, rfl⟩, rfl⟩)

theorem randomWrite_of_no_outer {host : Stmt} {x : BlockData}
    (hx : d.body.graph.blocks.get? scope.block = some x) (ho : scope.outer = none) :
    randomWrite s host scope d = .error (.error (.randomWriteWithoutOuter x.id s)) d := by
  unfold randomWrite
  rw [ho]
  exact bind_of_ok (blockId_ok.mpr ⟨⟨x, hx, rfl⟩, rfl⟩)

/-- What stops a communication before the loop around it is marked stops it. -/
theorem innerLoop_of_early {o : Stmt} {e : Halt CommError} (ho : scope.outer = some o)
    (h : recordInner s o scope.block d = .error e d') : innerLoop s scope d = .error e d' := by
  unfold innerLoop
  rw [ho]
  exact bind_of_error h

theorem randomWrite_of_early {host o : Stmt} {e : Halt CommError} (ho : scope.outer = some o)
    (h : recordWrite s host o scope.block d = .error e d') :
    randomWrite s host scope d = .error e d' := by
  unfold randomWrite
  rw [ho]
  exact bind_of_error h

theorem randomWrite_of_scalar {host : Stmt} {x : BlockData} {o : Stmt} {w : Assign}
    (hx : d.body.graph.blocks.get? scope.block = some x) (ho : scope.outer = some o)
    (hw : d.body.ast.stmts.get? s = some (.assign w)) (hn : w.target.field? = none) :
    randomWrite s host scope d = .error (.error (.randomWriteWithoutField s)) d := by
  refine randomWrite_of_early ho ?_
  refine (bind_of_ok (blockId_ok.mpr ⟨⟨x, hx, rfl⟩, rfl⟩)).trans ?_
  refine (bind_of_ok (look_ok.mpr ⟨assign?_ok.mpr hw, rfl⟩)).trans ?_
  rw [Option.bind_some, hn]
  rfl

section Inside

variable {x : BlockData} {o : Stmt} {fo : Foreach} {flags : CommFlags}
  (hx : d.body.graph.blocks.get? scope.block = some x) (ho : scope.outer = some o)
  (hfo : d.body.ast.stmts.get? o = some (.foreach fo)) (hflags : fo.role = .outer flags)

include hx ho hfo hflags

theorem innerLoop_of_outer (hf : d.body.ast.stmts.get? s = some (.foreach f))
    (hr : f.role.isOuter = true) :
    innerLoop s scope d = .error (.error (.conflictingLoopRole s f.role)) d := by
  have around : fo.role.isOuter = true := LoopRole.isOuter_iff.mpr ⟨flags, hflags⟩
  refine innerLoop_of_early ho ?_
  refine (bind_of_ok (blockId_ok.mpr ⟨⟨x, hx, rfl⟩, rfl⟩)).trans ?_
  refine (bind_of_ok (a := ⟨⟩) (ensureRole_ok.mpr ⟨⟨fo, hfo, around⟩, rfl⟩)).trans ?_
  exact bind_of_error (ensureRole_of_not hf (by simp [hr]))

theorem innerLoop_of_full (hf : d.body.ast.stmts.get? s = some (.foreach f))
    (hr : f.role.isOuter = false) (full : d.body.graph.registry.Full (.nested s)) :
    ∃ t, innerLoop s scope d = .error (.fault .indexTooWide) t := by
  have around : fo.role.isOuter = true := LoopRole.isOuter_iff.mpr ⟨flags, hflags⟩
  have marked := LoopRole.markInner_ok.mpr ⟨hr, rfl⟩
  obtain ⟨r, refused⟩ := Registry.register_of_full full.1 full.2
  apply Exists.intro
  apply innerLoop_of_early ho
  refine (bind_of_ok (blockId_ok.mpr ⟨⟨x, hx, rfl⟩, rfl⟩)).trans ?_
  refine (bind_of_ok (a := ⟨⟩) (ensureRole_ok.mpr ⟨⟨fo, hfo, around⟩, rfl⟩)).trans ?_
  refine (bind_of_ok (a := ⟨⟩) (ensureRole_ok.mpr ⟨⟨f, hf, by simp [hr]⟩, rfl⟩)).trans ?_
  refine (bind_of_ok (a := ⟨⟩) (markLoop_ok.mpr ⟨f, _, hf, marked, rfl⟩)).trans ?_
  exact bind_of_error (discard_error.mpr (onPart_error.mpr ⟨_, _, refused, rfl, rfl⟩))

theorem randomWrite_of_full {host : Stmt} {w : Assign} {access : FieldAccess}
    (hw : d.body.ast.stmts.get? s = some (.assign w)) (hfield : w.target.field? = some access)
    (full : d.body.graph.registry.Full (.randomWrite host access.driver)) :
    ∃ t, randomWrite s host scope d = .error (.fault .indexTooWide) t := by
  have around : fo.role.isOuter = true := LoopRole.isOuter_iff.mpr ⟨flags, hflags⟩
  obtain ⟨r, refused⟩ := Registry.register_of_full full.1 full.2
  apply Exists.intro
  apply randomWrite_of_early ho
  refine (bind_of_ok (blockId_ok.mpr ⟨⟨x, hx, rfl⟩, rfl⟩)).trans ?_
  refine (bind_of_ok (look_ok.mpr ⟨assign?_ok.mpr hw, rfl⟩)).trans ?_
  rw [Option.bind_some, hfield]
  refine (bind_of_ok (a := ⟨⟩) (ensureRole_ok.mpr ⟨⟨fo, hfo, around⟩, rfl⟩)).trans ?_
  exact bind_of_error (discard_error.mpr (onPart_error.mpr ⟨_, _, bind_of_error refused, rfl, rfl⟩))

theorem innerLoop_total (hf : d.body.ast.stmts.get? s = some (.foreach f))
    (hr : f.role.isOuter = false) :
    (∃ t, innerLoop s scope d = .ok ⟨⟩ t) ∨ (d.body.graph.registry.Full (.nested s) ∧
      ∃ t, innerLoop s scope d = .error (.fault .indexTooWide) t) := by
  rcases Registry.register_total (r := d.body.graph.registry) (u := .nested s) with
    ⟨id, r, registered⟩ | full
  · exact .inl ⟨_, innerLoop_iff.mpr
      ⟨o, x, fo, flags, f, id, r, ho, hx, hfo, hflags, hf, hr, registered, rfl⟩⟩
  · exact .inr ⟨full, innerLoop_of_full hx ho hfo hflags hf hr full⟩

theorem randomWrite_total {host : Stmt} {w : Assign} {access : FieldAccess}
    (hw : d.body.ast.stmts.get? s = some (.assign w)) (hfield : w.target.field? = some access) :
    (∃ t, randomWrite s host scope d = .ok ⟨⟩ t) ∨
      (d.body.graph.registry.Full (.randomWrite host access.driver) ∧
        ∃ t, randomWrite s host scope d = .error (.fault .indexTooWide) t) := by
  rcases Registry.register_total (r := d.body.graph.registry)
    (u := .randomWrite host access.driver) with ⟨id, r, registered⟩ | full
  · have registers := Registry.registerRandomWrite_iff.mpr ⟨r, registered, rfl⟩
    exact .inl ⟨_, randomWrite_iff.mpr
      ⟨o, x, fo, flags, w, access, id, _, ho, hx, hfo, hflags, hw, hfield, registers, rfl⟩⟩
  · exact .inr ⟨full, randomWrite_of_full hx ho hfo hflags hw hfield full⟩

end Inside

theorem outerLoop_total {x : BlockData} (hx : d.body.graph.blocks.get? scope.block = some x)
    (hf : d.body.ast.stmts.get? s = some (.foreach f)) (hr : f.role ≠ .inner) :
    ∃ inner t, outerLoop s scope d = .ok inner t := by
  have marked : ∃ role, f.role.markOuter = .ok role := by
    cases hrole : f.role with
    | inner => exact absurd hrole hr
    | _ => exact ⟨_, rfl⟩
  obtain ⟨role, hm⟩ := marked
  exact ⟨_, _, outerLoop_iff.mpr ⟨x, f, role, hx, hf, hm, rfl, rfl⟩⟩

/-- Whatever is wrong at a visit stops it at once. -/
theorem visit_of_offence {v : Stmt × Scope} {e : CommError} (ready : d.Ready v)
    (h : d.body.offence? v = some e) : visit v.1 v.2 d = .error (.error e) d := by
  obtain ⟨statement, hs, h⟩ := Option.bind_eq_some_iff.mp h
  obtain ⟨x, hx, h⟩ := Option.bind_eq_some_iff.mp h
  refine (visit_error_iff ready.direct hs).mpr ?_
  rcases Statement.offence?_eq_some_iff.mp h with ⟨f, rfl, hall, hr, rfl⟩ | ⟨f, rfl, hnbr, ho, rfl⟩ |
    ⟨f, o, rfl, hnbr, ho, hr, rfl⟩ | ⟨w, host, rfl, hhost, ho, rfl⟩ |
    ⟨w, host, o, rfl, hhost, ho, hn, rfl⟩
  · have hsite := Statement.site_eq_outerLoop_iff.mpr ⟨f, rfl, hall⟩
    exact .inl ⟨hsite, outerLoop_of_inner hs hr⟩
  · have hsite := Statement.site_eq_innerLoop_iff.mpr ⟨f, rfl, hnbr⟩
    exact .inr (.inl ⟨hsite, innerLoop_of_no_outer hx ho⟩)
  · have hsite := Statement.site_eq_innerLoop_iff.mpr ⟨f, rfl, hnbr⟩
    obtain ⟨fo, flags, hfo, hflags⟩ := ready.outer o ho
    exact .inr (.inl ⟨hsite, innerLoop_of_outer hx ho hfo hflags hs hr⟩)
  · have hsite := Statement.site_eq_randomWrite_iff.mpr ⟨w, rfl, hhost⟩
    exact .inr (.inr ⟨host, hsite, randomWrite_of_no_outer hx ho⟩)
  · have hsite := Statement.site_eq_randomWrite_iff.mpr ⟨w, rfl, hhost⟩
    exact .inr (.inr ⟨host, hsite, randomWrite_of_scalar hx ho hs hn⟩)

/-- If nothing is wrong at a visit, only a full registry stops it. -/
theorem visit_of_clean {v : Stmt × Scope} (ready : d.Ready v) (h : d.body.offence? v = none) :
    (∃ inner t, visit v.1 v.2 d = .ok inner t) ∨
      ∃ u t, d.body.ast.unit? v.1 = some u ∧ d.body.graph.registry.Full u ∧
        visit v.1 v.2 d = .error (.fault .indexTooWide) t := by
  obtain ⟨statement, hs⟩ := ready.stmt
  obtain ⟨x, hx⟩ := ready.block
  rw [Body.offence?, hs, hx, Option.bind_some, Option.bind_some] at h
  have hunit : d.body.ast.unit? v.1 = statement.unit? v.1 := by rw [Ast.unit?, hs, Option.bind_some]
  cases hsite : statement.site with
  | outerLoop =>
    obtain ⟨f, rfl, hall⟩ := Statement.site_eq_outerLoop_iff.mp hsite
    have hr : f.role ≠ .inner := by simpa [Statement.offence?, hall] using h
    obtain ⟨inner, t, run⟩ := outerLoop_total hx hs hr
    exact .inl ⟨inner, t, visit_iff.mpr ⟨ready.direct, _, hs, .inl ⟨hsite, run⟩⟩⟩
  | innerLoop =>
    obtain ⟨f, rfl, hnbr⟩ := Statement.site_eq_innerLoop_iff.mp hsite
    cases ho : v.2.outer with
    | none => simp [Statement.offence?, hnbr, ho] at h
    | some o =>
      have hr : f.role.isOuter = false := by simpa [Statement.offence?, hnbr, ho] using h
      obtain ⟨fo, flags, hfo, hflags⟩ := ready.outer o ho
      rcases innerLoop_total hx ho hfo hflags hs hr with ⟨t, run⟩ | ⟨full, t, run⟩
      · exact .inl ⟨v.2, t, visit_iff.mpr ⟨ready.direct, _, hs, .inr (.inl ⟨hsite, rfl, run⟩)⟩⟩
      · have hu := hunit.trans (Statement.unit?_of_innerLoop hsite v.1)
        exact .inr ⟨_, t, hu, full,
          (visit_error_iff ready.direct hs).mpr (.inr (.inl ⟨hsite, run⟩))⟩
  | randomWrite host =>
    obtain ⟨w, rfl, hhost⟩ := Statement.site_eq_randomWrite_iff.mp hsite
    cases ho : v.2.outer with
    | none => simp [Statement.offence?, hhost, ho] at h
    | some o =>
      cases hfield : w.target.field? with
      | none => simp [Statement.offence?, hhost, ho, hfield] at h
      | some access =>
        obtain ⟨fo, flags, hfo, hflags⟩ := ready.outer o ho
        rcases randomWrite_total hx ho hfo hflags hs hfield with ⟨t, run⟩ | ⟨full, t, run⟩
        · exact .inl ⟨v.2, t, visit_iff.mpr
            ⟨ready.direct, _, hs, .inr (.inr (.inl ⟨host, hsite, rfl, run⟩))⟩⟩
        · have hwrite := Statement.write?_assign hhost hfield
          have hu := hunit.trans (Statement.unit?_eq_randomWrite_iff.mpr hwrite)
          exact .inr ⟨_, t, hu, full,
            (visit_error_iff ready.direct hs).mpr (.inr (.inr ⟨host, hsite, run⟩))⟩
  | nothing =>
    exact .inl ⟨v.2, d, visit_iff.mpr
      ⟨ready.direct, statement, hs, .inr (.inr (.inr ⟨hsite, rfl, rfl⟩))⟩⟩

/-- The role that a walk has given to a loop so far is none that it refuses. -/
theorem Trail.role_of_mem {visits : List (Stmt × Scope)} (h : Trail d visits d')
    (known : d.body.ast.Scoped [] visits) (hs : s ∈ visits.map Prod.fst)
    (hf : d.body.ast.stmts.get? s = some (.foreach f)) :
    (f.iter.isAllGraph = true → f.role ≠ .inner) ∧
      (f.iter.isAllGraph = false → f.role.isOuter = false) := by
  have hnew := (h.recast known).lookup_loop hf
  have follows : (d.body.ast.roleAfter visits s f).Follows f.role := by
    rcases h.continues.roles.lookup s with same | ⟨f', role, hf', follows, hrole⟩
    · have he := hf.symm.trans (same.symm.trans hnew)
      simp only [Option.some.injEq, Statement.foreach.injEq] at he
      have hrole := congrArg Foreach.role he
      exact hrole ▸ ⟨id, id⟩
    · cases hf.symm.trans hf'
      cases hrole.symm.trans hnew
      exact follows
  rw [Ast.roleAfter_of_mem hs] at follows
  constructor
  · intro hall hin
    rw [if_pos hall] at follows
    cases follows.2 hin
  · intro hnbr
    cases hout : f.role.isOuter with
    | false => rfl
    | true =>
      rw [hnbr] at follows
      cases follows.1 hout

/-- Neither the marks nor the receivers that a walk has left so far make a difference to what is
wrong at a visit. -/
theorem Trail.offence? {visits : List (Stmt × Scope)} (h : Trail d visits d')
    (known : d.body.ast.Scoped [] visits) (v : Stmt × Scope) :
    d'.body.offence? v = d.body.offence? v := by
  have hcast := h.recast known
  unfold Body.offence?
  rw [hcast.lookup]
  cases hs : d.body.ast.stmts.get? v.1 with
  | none => rfl
  | some statement =>
    rw [h.surveyed.1.lookup, Option.map_some, Option.bind_some, Option.bind_some, Option.bind_map]
    congr 1
    funext x
    refine Statement.offence?_recast (fun f hf => ?_) v.1 v.2.outer x.id
    subst hf
    by_cases hm : v.1 ∈ visits.map Prod.fst
    · obtain ⟨outer, inner⟩ := h.role_of_mem known hm hs
      rw [Ast.roleAfter_of_mem hm]
      cases hall : f.iter.isAllGraph with
      | true => exact .inr (.inl ⟨rfl, outer hall, LoopRole.noConfusion⟩)
      | false => exact .inr (.inr ⟨rfl, inner hall, rfl⟩)
    · exact .inl (Ast.roleAfter_of_not_mem hm)

theorem Trail.ready {before : List (Stmt × Scope)} {v : Stmt × Scope} (h : Trail d before d')
    (plan : d.body.Planned (before ++ [v])) : d'.Ready v := by
  obtain ⟨hbefore, hscope, -⟩ := Ast.scoped_append.mp plan.known
  have hcast := h.recast hbefore
  obtain ⟨direct, statement, hs⟩ := plan.stmt v (by simp)
  obtain ⟨x, hx⟩ := plan.block v (by simp)
  have hnow := hcast.lookup v.1
  rw [hs, Option.map_some] at hnow
  refine ⟨direct, ⟨_, hnow⟩, ⟨_, h.surveyed.1.lookup_after hx⟩, ?_⟩
  intro o ho
  obtain ⟨hmem, f, hf, hall⟩ := hscope o ho
  have hrole : d.body.ast.roleAfter before o f =
      .outer (f.role.flags.union (d.body.ast.flagsUnder before o)) := by
    rw [Ast.roleAfter_of_mem hmem, if_pos hall]
  exact ⟨_, _, hcast.lookup_loop hf, hrole⟩

/-- How the visits of a walk end: all of them are made, or they stop at the first where something is
wrong, or there is no identity left for the unit of one. -/
inductive Course (d : Detection) (visits : List (Stmt × Scope)) : Prop
  | whole {d' : Detection} : (∀ v ∈ visits, d.body.offence? v = none) → Trail d visits d' →
      Course d visits
  | stopped {before after : List (Stmt × Scope)} {v : Stmt × Scope} {e : CommError}
      {d' : Detection} : visits = before ++ v :: after →
      (∀ w ∈ before, d.body.offence? w = none) → d.body.offence? v = some e → Trail d before d' →
      visit v.1 v.2 d' = .error (.error e) d' → Course d visits
  | full {before after : List (Stmt × Scope)} {v : Stmt × Scope} {u : CommUnit}
      {d' t : Detection} : visits = before ++ v :: after →
      (∀ w ∈ before ++ [v], d.body.offence? w = none) → Trail d before d' →
      d'.body.ast.unit? v.1 = some u → d'.body.graph.registry.Full u →
      visit v.1 v.2 d' = .error (.fault .indexTooWide) t → Course d visits

theorem Course.of_planned {visits : List (Stmt × Scope)} (plan : d.body.Planned visits) :
    d.Course visits := by
  -- The induction is from the front: a walk that has come this far is at most at one more visit.
  induction visits using List.reverseRecOn with
  | nil => exact .whole (by simp) (.nil d)
  | append_singleton visits v ih =>
    cases ih plan.init with
    | @whole d' clean trail =>
      have ready := trail.ready plan
      have same := trail.offence? plan.init.known v
      cases hv : d.body.offence? v with
      | some e =>
        exact .stopped rfl clean hv trail (visit_of_offence ready (same.trans hv))
      | none =>
        have clean' : ∀ w ∈ visits ++ [v], d.body.offence? w = none := by
          intro w hw
          rcases List.mem_append.mp hw with hw | hw
          · exact clean w hw
          · exact List.mem_singleton.mp hw ▸ hv
        rcases visit_of_clean ready (same.trans hv) with ⟨inner, t, run⟩ | ⟨u, t, hu, full, run⟩
        · exact .whole clean' (trail.append (.cons run (.nil t)))
        · exact .full rfl clean' trail hu full run
    | @stopped before after w e d' split clean offence trail run =>
      have longer : visits ++ [v] = before ++ w :: (after ++ [v]) := by
        rw [split, List.append_assoc, List.cons_append]
      exact .stopped longer clean offence trail run
    | @full before after w u d' t split clean trail hu full run =>
      have longer : visits ++ [v] = before ++ w :: (after ++ [v]) := by
        rw [split, List.append_assoc, List.cons_append]
      exact .full longer clean trail hu full run

/-- How looking for communication ends, by how its visits do. -/
theorem findCommunication_course {bs : List Block} {visits : List (Stmt × Scope)}
    (reached : d.body.graph.reachable = .ok bs) (finite : d.body.Finite bs)
    (h : d.body.Visits bs visits) :
    (∃ targets t, findCommunication d = .ok targets t ∧ visits.findSome? d.body.offence? = none ∧
      d.body.graph.registry.HasRoom (d.body.ast.units (d.body.clean visits))) ∨
    (∃ e before v after t, findCommunication d = .error (.error e) t ∧
      visits.findSome? d.body.offence? = some e ∧
      d.body.graph.registry.HasRoom (d.body.ast.units (d.body.clean visits)) ∧
      visits = before ++ v :: after ∧ visitAll before d = .ok ⟨⟩ t ∧
      visit v.1 v.2 t = .error (.error e) t) ∨
    (∃ t, findCommunication d = .error (.fault .indexTooWide) t ∧
      ¬d.body.graph.registry.HasRoom (d.body.ast.units (d.body.clean visits))) := by
  have run := findCommunication_eq reached finite h
  cases Course.of_planned h.planned with
  | @whole d' clean trail =>
    refine .inl ⟨_, _, run.trans (bind_of_ok (visitAll_of_trail trail)), ?_, ?_⟩
    · exact List.findSome?_eq_none_iff.mpr clean
    · rw [Body.clean_of_none clean]
      exact trail.enrolled.hasRoom
  | @stopped before after v e d' split clean offence trail stops =>
    refine .inr (.inl ⟨e, before, v, after, d', ?_, ?_, ?_, split, visitAll_of_trail trail, stops⟩)
    · rw [run, split]
      exact bind_of_error ((visitAll_append_of_trail trail).trans (visitAll_cons_of_error stops))
    · rw [split, List.findSome?_append, List.findSome?_eq_none_iff.mpr clean, Option.none_or,
        List.findSome?_cons_of_isSome (by simp [offence]), offence]
    · rw [split, Body.clean_append clean, Body.clean_cons_of_some offence, List.append_nil]
      exact trail.enrolled.hasRoom
  | @full before after v u d' t split clean trail hu full stops =>
    refine .inr (.inr ⟨t, ?_, ?_⟩)
    · rw [run, split]
      exact bind_of_error ((visitAll_append_of_trail trail).trans (visitAll_cons_of_error stops))
    · rw [split, List.append_cons, Body.clean_append clean, ← List.append_cons, Ast.units_append,
        Ast.units_cons_of_some ((trail.trees.unit? v.1).symm.trans hu)]
      exact trail.enrolled.not_hasRoom full

end Detection

theorem Body.kind_of_offence? {body : Body} {v : Stmt × Scope} {e : CommError}
    (h : body.offence? v = some e) : e.kind ≠ "ReceiverTraversal" ∧ e.kind ≠ "Cfg" := by
  obtain ⟨statement, -, h⟩ := Option.bind_eq_some_iff.mp h
  obtain ⟨x, -, h⟩ := Option.bind_eq_some_iff.mp h
  rcases Statement.offence?_eq_some_iff.mp h with ⟨f, -, -, -, rfl⟩ | ⟨f, -, -, -, rfl⟩ |
    ⟨f, o, -, -, -, -, rfl⟩ | ⟨w, host, -, -, -, rfl⟩ | ⟨w, host, o, -, -, -, -, rfl⟩
  all_goals
    rw [CommError.kind]
    decide

namespace Ast

/-- Trees in which statements contain only such as were made before them have no cycle. -/
theorem acyclic_of_earlier {ast : Ast} (earlier : ∀ s statement, ast.stmts.get? s = some statement →
    ∀ c ∈ statement.children, c.index < s.index) : ast.Acyclic := by
  have below : ∀ {s t}, ast.Within s t → t.index ≤ s.index := by
    intro s t h
    induction h with
    | self => exact Nat.le_refl _
    | child hs hc _ ih =>
      have hlt := earlier _ _ hs _ hc
      omega
  rintro s ⟨statement, c, hs, hc, h⟩
  have hlt := earlier s statement hs c hc
  have hle := below h
  omega

theorem earlier_of_values {ast : Ast}
    (earlier : (ast.stmts.values.zipIdx.all fun p => p.1.children.all (·.index < p.2)) = true) :
    ∀ s statement, ast.stmts.get? s = some statement →
      ∀ c ∈ statement.children, c.index < s.index := by
  intro s statement hs c hc
  rw [Table.get?_eq_values] at hs
  have hmem : (statement, s.index) ∈ ast.stmts.values.zipIdx := List.mem_zipIdx_iff_getElem?.mpr hs
  have hall := List.all_eq_true.mp (List.all_eq_true.mp earlier _ hmem) c hc
  exact of_decide_eq_true hall

end Ast

namespace Body

theorem sents_of_values {body : Body} (there : (body.graph.blocks.values.all fun x =>
      x.sents.all (·.index < body.ast.stmts.size)) = true) :
    ∀ b x, body.graph.blocks.get? b = some x →
      ∀ s ∈ x.sents, ∃ statement, body.ast.stmts.get? s = some statement := by
  intro b x hx s hs
  rw [Table.get?_eq_values] at hx
  have hall := List.all_eq_true.mp there x (List.mem_of_getElem? hx)
  exact Table.get?_isSome_iff.mpr (of_decide_eq_true (List.all_eq_true.mp hall s hs))

theorem walkable_of_earlier {body : Body}
    (earlier : (body.ast.stmts.values.zipIdx.all fun p => p.1.children.all (·.index < p.2)) = true)
    (there : (body.graph.blocks.values.all fun x =>
      x.sents.all (·.index < body.ast.stmts.size)) = true) : body.Walkable := by
  have children := Ast.earlier_of_values earlier
  refine ⟨?_, Ast.acyclic_of_earlier children⟩
  rintro s ⟨b, x, root, -, hx, -, hroot, h⟩
  have hsize := Table.get?_isSome_iff.mp (sents_of_values there b x hx root hroot)
  refine Table.get?_isSome_iff.mpr ?_
  clear hroot
  induction h with
  | self => exact hsize
  | child hs hc _ ih =>
    have hlt := children _ _ hs _ hc
    exact ih (by omega)

end Body

namespace Procedure

/-- Looking for communication fails if and only if something is wrong at a statement that it meets,
with the first that is. Otherwise it ends well, unless there is no identity left for a unit. -/
theorem findCommunication_fails_iff {s : Stage Procedure} (walkable : s.subject.toBody.Walkable) :
    (∀ fault, s.subject.graph.reachable = .error fault →
      findCommunication s = .error (.fault fault) s) ∧
    ∀ bs, s.subject.graph.reachable = .ok bs → ∃ visits, s.subject.toBody.Visits bs visits ∧
      (s.subject.graph.registry.HasRoom (s.subject.ast.units (s.subject.toBody.clean visits)) →
        (∀ e, (∃ t, findCommunication s = .error (.error e) t) ↔
          visits.findSome? s.subject.toBody.offence? = some e) ∧
        ((∃ targets t, findCommunication s = .ok targets t) ↔
          visits.findSome? s.subject.toBody.offence? = none)) ∧
      (¬s.subject.graph.registry.HasRoom (s.subject.ast.units (s.subject.toBody.clean visits)) →
        ∃ t, findCommunication s = .error (.fault .indexTooWide) t) ∧
      ∀ e t, findCommunication s = .error (.error e) t →
        e.kind ≠ "ReceiverTraversal" ∧ e.kind ≠ "Cfg" := by
  constructor
  · intro fault h
    exact onPart_error.mpr ⟨_, _, Detection.findCommunication_of_fault h, rfl, rfl⟩
  · intro bs reached
    have finite := walkable.finite reached
    obtain ⟨visits, hvisits⟩ := finite.exists_visits
    refine ⟨visits, hvisits, ?_⟩
    rcases Detection.findCommunication_course (d := { body := s.subject.toBody, log := s.console.log })
      reached finite hvisits with ⟨targets, d, found, first, room⟩ |
      ⟨e, before, v, after, d, found, first, room, -⟩ | ⟨d, found, full⟩
    · have run : findCommunication s = .ok targets _ := onPart_ok.mpr ⟨d, found, rfl⟩
      refine ⟨fun _ => ⟨fun e => ?_, ?_⟩, fun full => absurd room full, fun e t h => ?_⟩
      · simp [run, first]
      · simp [run, first]
      · cases run.symm.trans h
    · have run : findCommunication s = .error (.error e) _ := onPart_error.mpr ⟨_, d, found, rfl, rfl⟩
      refine ⟨fun _ => ⟨fun e' => ?_, ?_⟩, fun full => absurd room full, fun e' t h => ?_⟩
      · simp [run, first]
      · simp [run, first]
      · cases run.symm.trans h
        obtain ⟨v, -, hv⟩ := List.exists_of_findSome?_eq_some first
        exact Body.kind_of_offence? hv
    · have run : findCommunication s = .error (.fault .indexTooWide) _ :=
        onPart_error.mpr ⟨_, d, found, rfl, rfl⟩
      refine ⟨fun room => absurd room full, fun _ => ⟨_, run⟩, fun e t h => ?_⟩
      cases run.symm.trans h

/-- Two supersteps, the second of which makes a random write outside of all loops. -/
def strayWrite : Stage Procedure :=
  let s := twoSupersteps 1
  let second : BlockData :=
    { id := Key.wrap 3, kind := .beginVertex, entries := [Key.wrap 2], exits := [Key.wrap 4],
      sents := [Key.wrap 0] }
  { s with subject.graph.blocks := s.subject.graph.blocks.set (Key.wrap 3) second }

theorem strayWrite_walkable : strayWrite.subject.toBody.Walkable :=
  Body.walkable_of_earlier (by decide +kernel) (by decide +kernel)

theorem strayWrite_fails : ∃ t, findCommunication strayWrite =
    .error (.error (.randomWriteWithoutOuter (Key.wrap 3) (Key.wrap 0))) t := by
  have run : ((match findCommunication strayWrite with
      | .error (.error e) _ => some e
      | _ => none) : Option CommError) =
        some (.randomWriteWithoutOuter (Key.wrap 3) (Key.wrap 0)) := by decide +kernel
  cases h : findCommunication strayWrite with
  | ok targets t => simp [h] at run
  | error e t =>
    cases e with
    | fault f => simp [h] at run
    | error e =>
      simp only [h, Option.some.injEq] at run
      exact ⟨t, by rw [run]⟩

/-- The first superstep is in order, so the write in the second is the first that is wrong. -/
theorem findCommunication_fails_iff_of_strayWrite :
    strayWrite.subject.toBody.Walkable ∧ ∃ bs visits, strayWrite.subject.toBody.Visits bs visits ∧
      visits.findSome? strayWrite.subject.toBody.offence? =
        some (.randomWriteWithoutOuter (Key.wrap 3) (Key.wrap 0)) := by
  refine ⟨strayWrite_walkable, ?_⟩
  obtain ⟨t, run⟩ := strayWrite_fails
  obtain ⟨faults, fails⟩ := findCommunication_fails_iff strayWrite_walkable
  cases reached : strayWrite.subject.graph.reachable with
  | error fault => cases run.symm.trans (faults fault reached)
  | ok bs =>
    obtain ⟨visits, hvisits, decided, full, -⟩ := fails bs reached
    refine ⟨bs, visits, hvisits, ((decided ?_).1 _).mp ⟨t, run⟩⟩
    by_contra crowded
    obtain ⟨t', run'⟩ := full crowded
    cases run.symm.trans run'

end Procedure

end Superstep
