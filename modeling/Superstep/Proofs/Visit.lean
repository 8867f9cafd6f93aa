import Superstep.Proofs.DetectionSteps
import Superstep.Proofs.Registration

namespace Superstep

namespace Detection

/-- What finding a unit in a block leaves behind. -/
structure Recorded (u : CommUnit) (b : Block) (d d' : Detection) : Prop where
  trees : d.body.ast.SameTrees d'.body.ast
  size : d'.body.graph.blocks.size = d.body.graph.blocks.size
  layout : d'.body.graph.layout = d.body.graph.layout
  entry : d'.body.graph.entry = d.body.graph.entry
  lookup : ∀ k, d'.body.graph.blocks.get? k =
    if k = b then (d.body.graph.blocks.get? k).map fun x =>
      { x with receivers := appendNew x.receivers u }
    else d.body.graph.blocks.get? k
  registry : d.body.graph.registry.Extends d'.body.graph.registry
  registered : (d'.body.graph.registry.commId? u).isSome
  targets : d'.targets = (d.targets.insert b).2

/-- A unit has been queued, its block is a target, and only roles and the log differ besides. -/
theorem Recorded.of_queued {u : CommUnit} {b : Block} {d : Detection} {x : BlockData} {ast : Ast}
    {r : Registry} (hx : d.body.graph.blocks.get? b = some x) (trees : d.body.ast.SameTrees ast)
    (registry : d.body.graph.registry.Extends r) (registered : (r.commId? u).isSome)
    (log : List LogLine) :
    Recorded u b d { d with
      body.ast := ast
      body.graph.registry := r
      body.graph.blocks := d.body.graph.blocks.set b ({ x with receivers := appendNew x.receivers u })
      targets := (d.targets.insert b).2
      log } := by
  refine ⟨trees, Table.size_set .., rfl, rfl, fun k => ?_, registry, registered, rfl⟩
  by_cases hk : k = b
  · subst k
    simp [Table.get?_set, hx]
  · simp [Table.get?_set, hk, Ne.symm hk]

section Specs

variable {s outer : Stmt} {b : Block} {scope : Scope} {d d' : Detection} {u : Unit} {id : BlockId}

theorem outerLoop_iff {inner : Scope} :
    outerLoop s scope d = .ok inner d' ↔ ∃ x f role, d.body.graph.blocks.get? scope.block = some x ∧
      d.body.ast.stmts.get? s = some (.foreach f) ∧ f.role.markOuter = .ok role ∧
      inner = { scope with outer := some s } ∧ d' = { d with
        body.ast := d.body.ast.setRole s f role
        log := d.log ++ [⟨.trace, "outer loop " ++ describe s ++ " in " ++ blockName x.id⟩] } := by
  simp only [outerLoop, bind_ok, markLoop_ok, blockId_ok, trace_ok, pure_ok]
  constructor
  · rintro ⟨_, _, ⟨f, role, hf, hm, rfl⟩, _, _, ⟨⟨x, hx, rfl⟩, rfl⟩, _, _, rfl, rfl, rfl⟩
    exact ⟨x, f, role, hx, hf, hm, rfl, rfl⟩
  · rintro ⟨x, f, role, hx, hf, hm, rfl, rfl⟩
    exact ⟨⟨⟩, _, ⟨f, role, hf, hm, rfl⟩, x.id, _, ⟨⟨x, hx, rfl⟩, rfl⟩, ⟨⟩, _, rfl, rfl, rfl⟩

/-- The loop and the one around it differ, since only one of them is an outer loop. -/
theorem ne_of_roles {ast : Ast} {s t : Stmt} {f g : Foreach}
    (hf : ast.stmts.get? s = some (.foreach f)) (inner : f.role.isOuter = false)
    (hg : ast.stmts.get? t = some (.foreach g)) (outer : g.role.isOuter = true) : s ≠ t := by
  rintro rfl
  cases hf.symm.trans hg
  cases inner.symm.trans outer

/-- An outer loop stays as it is when another loop becomes an inner one. -/
theorem get?_setRole_inner {ast : Ast} {s t : Stmt} {f g : Foreach}
    (hf : ast.stmts.get? s = some (.foreach f)) (inner : f.role.isOuter = false)
    (hg : ast.stmts.get? t = some (.foreach g)) (outer : g.role.isOuter = true) :
    (ast.setRole s f .inner).stmts.get? t = some (.foreach g) :=
  (Ast.get?_setRole_of_ne (ne_of_roles hf inner hg outer) f .inner).trans hg

/-- What both kinds of communication record last. -/
theorem enqueue_ok {unit : CommUnit} {id' : BlockId} :
    (do
      queueReceiver b unit
      addTarget b
      return id' : Act BlockId) d = .ok id d' ↔
    ∃ x, d.body.graph.blocks.get? b = some x ∧ id' = id ∧ d' = { d with
      body.graph.blocks := d.body.graph.blocks.set b
        ({ x with receivers := appendNew x.receivers unit })
      targets := (d.targets.insert b).2 } := by
  simp only [bind_ok, queueReceiver_ok, addTarget_ok, pure_ok, FlowGraph.updateBlock_ok]
  constructor
  · rintro ⟨_, _, ⟨g, ⟨x, hx, rfl⟩, rfl⟩, _, _, rfl, rfl, rfl⟩
    exact ⟨x, hx, rfl, rfl⟩
  · rintro ⟨x, hx, rfl, rfl⟩
    exact ⟨⟨⟩, _, ⟨_, ⟨x, hx, rfl⟩, rfl⟩, ⟨⟩, _, rfl, rfl, rfl⟩

theorem recordInner_ok :
    recordInner s outer b d = .ok id d' ↔ ∃ x fo f cid r, d.body.graph.blocks.get? b = some x ∧
      x.id = id ∧ d.body.ast.stmts.get? outer = some (.foreach fo) ∧ fo.role.isOuter = true ∧
      d.body.ast.stmts.get? s = some (.foreach f) ∧ f.role.isOuter = false ∧
      Registry.register (.nested s) d.body.graph.registry = .ok cid r ∧
      d' = { d with
        body.ast := d.body.ast.setRole s f .inner
        body.graph.registry := r
        body.graph.blocks := d.body.graph.blocks.set b
          ({ x with receivers := appendNew x.receivers (.nested s) })
        targets := (d.targets.insert b).2 } := by
  constructor
  · intro h
    obtain ⟨_, _, hid, h⟩ := bind_ok.mp h
    obtain ⟨⟨x, hx, rfl⟩, rfl⟩ := blockId_ok.mp hid
    obtain ⟨_, _, hro, h⟩ := bind_ok.mp h
    obtain ⟨⟨fo, hfo, hout⟩, rfl⟩ := ensureRole_ok.mp hro
    obtain ⟨_, _, hrs, h⟩ := bind_ok.mp h
    obtain ⟨_, rfl⟩ := ensureRole_ok.mp hrs
    obtain ⟨_, _, hm, h⟩ := bind_ok.mp h
    obtain ⟨f, role, hf, hrole, rfl⟩ := markLoop_ok.mp hm
    obtain ⟨hin, rfl⟩ := LoopRole.markInner_ok.mp hrole
    obtain ⟨_, _, hreg, h⟩ := bind_ok.mp h
    obtain ⟨cid, hreg⟩ := discard_ok.mp hreg
    obtain ⟨r, hr, rfl⟩ := onRegistry_ok.mp hreg
    obtain ⟨y, hy, rfl, rfl⟩ := enqueue_ok.mp h
    cases hx.symm.trans hy
    exact ⟨x, fo, f, cid, r, hx, rfl, hfo, hout, hf, hin, hr, rfl⟩
  · rintro ⟨x, fo, f, cid, r, hx, rfl, hfo, hout, hf, hin, hr, rfl⟩
    have hnot : (!f.role.isOuter) = true := by simp [hin]
    refine bind_ok.mpr ⟨x.id, d, blockId_ok.mpr ⟨⟨x, hx, rfl⟩, rfl⟩, ?_⟩
    refine bind_ok.mpr ⟨⟨⟩, d, ensureRole_ok.mpr ⟨⟨fo, hfo, hout⟩, rfl⟩, ?_⟩
    refine bind_ok.mpr ⟨⟨⟩, d, ensureRole_ok.mpr ⟨⟨f, hf, hnot⟩, rfl⟩, ?_⟩
    refine bind_ok.mpr ⟨⟨⟩, _, markLoop_ok.mpr ⟨f, .inner, hf, LoopRole.markInner_ok.mpr ⟨hin, rfl⟩,
      rfl⟩, ?_⟩
    refine bind_ok.mpr ⟨⟨⟩, _, discard_ok.mpr ⟨cid, onRegistry_ok.mpr ⟨r, hr, rfl⟩⟩, ?_⟩
    exact enqueue_ok.mpr ⟨x, hx, rfl, rfl⟩

theorem recordWrite_ok {host : Stmt} :
    recordWrite s host outer b d = .ok id d' ↔ ∃ x fo a access cid r,
      d.body.graph.blocks.get? b = some x ∧ x.id = id ∧
      d.body.ast.stmts.get? outer = some (.foreach fo) ∧ fo.role.isOuter = true ∧
      d.body.ast.stmts.get? s = some (.assign a) ∧ a.target.field? = some access ∧
      Registry.registerRandomWrite host access.driver d.body.graph.registry = .ok cid r ∧
      d' = { d with
        body.graph.registry := r.addWrite host access.driver s
        body.graph.blocks := d.body.graph.blocks.set b
          ({ x with receivers := appendNew x.receivers (.randomWrite host access.driver) })
        targets := (d.targets.insert b).2 } := by
  constructor
  · intro h
    obtain ⟨_, _, hid, h⟩ := bind_ok.mp h
    obtain ⟨⟨x, hx, rfl⟩, rfl⟩ := blockId_ok.mp hid
    obtain ⟨assign, _, hlook, h⟩ := bind_ok.mp h
    obtain ⟨hassign, rfl⟩ := look_ok.mp hlook
    cases hb : assign.bind (·.target.field?) with
    | none =>
      simp only [hb] at h
      exact absurd h fail_ok
    | some access =>
      simp only [hb] at h
      obtain ⟨a, rfl, haccess⟩ := Option.bind_eq_some_iff.mp hb
      obtain ⟨_, _, hro, h⟩ := bind_ok.mp h
      obtain ⟨⟨fo, hfo, hout⟩, rfl⟩ := ensureRole_ok.mp hro
      obtain ⟨_, _, hreg, h⟩ := bind_ok.mp h
      obtain ⟨cid, hreg⟩ := discard_ok.mp hreg
      obtain ⟨r, hr, rfl⟩ := onRegistry_ok.mp hreg
      obtain ⟨_, _, hw, h⟩ := bind_ok.mp h
      obtain ⟨_, hwr, rfl⟩ := onRegistry_ok.mp hw
      cases modify_ok.mp hwr
      obtain ⟨y, hy, rfl, rfl⟩ := enqueue_ok.mp h
      cases hx.symm.trans hy
      exact ⟨x, fo, a, access, cid, r, hx, rfl, hfo, hout, assign?_ok.mp hassign, haccess, hr, rfl⟩
  · rintro ⟨x, fo, a, access, cid, r, hx, rfl, hfo, hout, ha, haccess, hr, rfl⟩
    refine bind_ok.mpr ⟨x.id, d, blockId_ok.mpr ⟨⟨x, hx, rfl⟩, rfl⟩, ?_⟩
    refine bind_ok.mpr ⟨some a, d, look_ok.mpr ⟨assign?_ok.mpr ha, rfl⟩, ?_⟩
    simp only [Option.bind_some, haccess]
    refine bind_ok.mpr ⟨⟨⟩, d, ensureRole_ok.mpr ⟨⟨fo, hfo, hout⟩, rfl⟩, ?_⟩
    refine bind_ok.mpr ⟨⟨⟩, _, discard_ok.mpr ⟨cid, onRegistry_ok.mpr ⟨r, hr, rfl⟩⟩, ?_⟩
    refine bind_ok.mpr ⟨⟨⟩, _, onRegistry_ok.mpr ⟨_, modify_ok.mpr rfl, rfl⟩, ?_⟩
    exact enqueue_ok.mpr ⟨x, hx, rfl, rfl⟩

/-- How both kinds of communication end: the loop around them is marked. -/
theorem markCommunication_ok {sent : CommFlags} {text : String} :
    (do
      markLoop outer (·.markCommunication sent)
      trace text : Act Unit) d = .ok u d' ↔
    ∃ f flags, d.body.ast.stmts.get? outer = some (.foreach f) ∧ f.role = .outer flags ∧
      d' = { d with
        body.ast := d.body.ast.setRole outer f (.outer (flags.union sent))
        log := d.log ++ [⟨.trace, text⟩] } := by
  simp only [bind_ok, markLoop_ok, trace_ok, LoopRole.markCommunication_ok]
  constructor
  · rintro ⟨_, _, ⟨f, _, hf, ⟨flags, hr, rfl⟩, rfl⟩, rfl⟩
    exact ⟨f, flags, hf, hr, rfl⟩
  · rintro ⟨f, flags, hf, hr, rfl⟩
    exact ⟨⟨⟩, _, ⟨f, _, hf, ⟨flags, hr, rfl⟩, rfl⟩, rfl⟩

theorem innerLoop_iff :
    innerLoop s scope d = .ok u d' ↔ ∃ outer x fo flags f id r, scope.outer = some outer ∧
      d.body.graph.blocks.get? scope.block = some x ∧
      d.body.ast.stmts.get? outer = some (.foreach fo) ∧ fo.role = .outer flags ∧
      d.body.ast.stmts.get? s = some (.foreach f) ∧ f.role.isOuter = false ∧
      Registry.register (.nested s) d.body.graph.registry = .ok id r ∧
      d' = { d with
        body.ast := (d.body.ast.setRole s f .inner).setRole outer fo (.outer (flags.union .nested))
        body.graph.registry := r
        body.graph.blocks := d.body.graph.blocks.set scope.block
          ({ x with receivers := appendNew x.receivers (.nested s) })
        targets := (d.targets.insert scope.block).2
        log := d.log ++ [⟨.trace, "inner loop " ++ describe s ++ " inside " ++ describe outer ++
          " in " ++ blockName x.id⟩] } := by
  cases ho : scope.outer with
  | none => simp [innerLoop, ho, bind_ok, fail_ok]
  | some outer =>
    simp only [innerLoop, ho]
    constructor
    · intro h
      obtain ⟨_, _, early, late⟩ := bind_ok.mp h
      obtain ⟨x, fo, f, cid, r, hx, rfl, hfo, hout, hf, hin, hr, rfl⟩ := recordInner_ok.mp early
      obtain ⟨go, flags, hgo, hflags, rfl⟩ := markCommunication_ok.mp late
      cases (get?_setRole_inner hf hin hfo hout).symm.trans hgo
      exact ⟨outer, x, fo, flags, f, cid, r, rfl, hx, hfo, hflags, hf, hin, hr, rfl⟩
    · rintro ⟨_, x, fo, flags, f, cid, r, ⟨⟩, hx, hfo, hflags, hf, hin, hr, rfl⟩
      have hout : fo.role.isOuter = true := LoopRole.isOuter_iff.mpr ⟨flags, hflags⟩
      have hsame := get?_setRole_inner hf hin hfo hout
      exact bind_ok.mpr ⟨x.id, _,
        recordInner_ok.mpr ⟨x, fo, f, cid, r, hx, rfl, hfo, hout, hf, hin, hr, rfl⟩,
        markCommunication_ok.mpr ⟨fo, flags, hsame, hflags, rfl⟩⟩

theorem randomWrite_iff {host : Stmt} :
    randomWrite s host scope d = .ok u d' ↔ ∃ outer x fo flags a access id r, scope.outer = some outer ∧
      d.body.graph.blocks.get? scope.block = some x ∧
      d.body.ast.stmts.get? outer = some (.foreach fo) ∧ fo.role = .outer flags ∧
      d.body.ast.stmts.get? s = some (.assign a) ∧ a.target.field? = some access ∧
      Registry.registerRandomWrite host access.driver d.body.graph.registry = .ok id r ∧
      d' = { d with
        body.ast := d.body.ast.setRole outer fo (.outer (flags.union .randomWrite))
        body.graph.registry := r.addWrite host access.driver s
        body.graph.blocks := d.body.graph.blocks.set scope.block
          ({ x with receivers := appendNew x.receivers (.randomWrite host access.driver) })
        targets := (d.targets.insert scope.block).2
        log := d.log ++ [⟨.trace, "random write " ++ describe s ++ " through " ++ describe host ++
          " inside " ++ describe outer ++ " in " ++ blockName x.id⟩] } := by
  cases ho : scope.outer with
  | none => simp [randomWrite, ho, bind_ok, fail_ok]
  | some outer =>
    simp only [randomWrite, ho]
    constructor
    · intro h
      obtain ⟨_, _, early, late⟩ := bind_ok.mp h
      obtain ⟨x, _, a, access, cid, r, hx, rfl, -, -, ha, haccess, hr, rfl⟩ := recordWrite_ok.mp early
      obtain ⟨fo, flags, hfo, hflags, rfl⟩ := markCommunication_ok.mp late
      exact ⟨outer, x, fo, flags, a, access, cid, r, rfl, hx, hfo, hflags, ha, haccess, hr, rfl⟩
    · rintro ⟨_, x, fo, flags, a, access, cid, r, ⟨⟩, hx, hfo, hflags, ha, haccess, hr, rfl⟩
      have hout : fo.role.isOuter = true := LoopRole.isOuter_iff.mpr ⟨flags, hflags⟩
      exact bind_ok.mpr ⟨x.id, _,
        recordWrite_ok.mpr ⟨x, fo, a, access, cid, r, hx, rfl, hfo, hout, ha, haccess, hr, rfl⟩,
        markCommunication_ok.mpr ⟨fo, flags, hfo, hflags, rfl⟩⟩

/-- A visit does what the site of its statement asks for. -/
theorem visit_iff {inner : Scope} :
    visit s scope d = .ok inner d' ↔ scope.underReceiver = false ∧
      ∃ statement, d.body.ast.stmts.get? s = some statement ∧
        ((statement.site = .outerLoop ∧ outerLoop s scope d = .ok inner d') ∨
          (statement.site = .innerLoop ∧ inner = scope ∧ innerLoop s scope d = .ok ⟨⟩ d') ∨
          (∃ host, statement.site = .randomWrite host ∧ inner = scope ∧
            randomWrite s host scope d = .ok ⟨⟩ d') ∨
          (statement.site = .nothing ∧ inner = scope ∧ d' = d)) := by
  simp only [visit, ite_outcome, bind_ok, fail_ok, false_and, exists_false, and_false, false_or,
    look_ok, stmt_ok, Bool.not_eq_true]
  refine and_congr_right fun _ => ?_
  constructor
  · rintro ⟨statement, _, ⟨hs, rfl⟩, h⟩
    refine ⟨statement, hs, ?_⟩
    cases hsite : statement.site with
    | outerLoop => simpa [hsite] using h
    | innerLoop =>
      simp only [hsite, bind_ok, pure_ok] at h
      obtain ⟨_, _, hl, rfl, rfl⟩ := h
      simpa using hl
    | randomWrite host =>
      simp only [hsite, bind_ok, pure_ok] at h
      obtain ⟨_, _, hw, rfl, rfl⟩ := h
      simpa using hw
    | nothing =>
      simp only [hsite, pure_ok] at h
      obtain ⟨rfl, rfl⟩ := h
      simp
  · rintro ⟨statement, hs, h⟩
    refine ⟨statement, d, ⟨hs, rfl⟩, ?_⟩
    rcases h with ⟨hsite, h⟩ | ⟨hsite, rfl, h⟩ | ⟨host, hsite, rfl, h⟩ | ⟨hsite, rfl, rfl⟩
    · simpa [hsite] using h
    · simp only [hsite, bind_ok, pure_ok]
      exact ⟨⟨⟩, d', h, trivial, rfl⟩
    · simp only [hsite, bind_ok, pure_ok]
      exact ⟨⟨⟩, d', h, trivial, rfl⟩
    · simp only [hsite, pure_ok]
      exact ⟨trivial, trivial⟩

/-- What a visit leaves behind: what its unit asks for, or the roles of loops only. -/
theorem visit_ok {inner : Scope} (h : visit s scope d = .ok inner d') :
    ∃ statement, d.body.ast.stmts.get? s = some statement ∧
      inner = { scope with outer := statement.innermost s scope.outer } ∧
      ((∃ u, statement.unit? s = some u ∧ Recorded u scope.block d d') ∨
        (statement.unit? s = none ∧ d.body.ast.SameTrees d'.body.ast ∧
          d'.body.graph = d.body.graph ∧ d'.targets = d.targets)) := by
  obtain ⟨-, statement, hs, cases⟩ := visit_iff.mp h
  refine ⟨statement, hs, ?_⟩
  rcases cases with ⟨hsite, h⟩ | ⟨hsite, rfl, h⟩ | ⟨host, hsite, rfl, h⟩ | ⟨hsite, rfl, rfl⟩
  · obtain ⟨x, f, role, -, hf, -, rfl, rfl⟩ := outerLoop_iff.mp h
    exact ⟨by simp [Statement.innermost, hsite],
      Or.inr ⟨Statement.unit?_of_outerLoop hsite s, .setRole hf role, rfl, rfl⟩⟩
  · obtain ⟨outer, x, fo, flags, f, cid, r, -, hx, hfo, hflags, hf, hin, hr, rfl⟩ :=
      innerLoop_iff.mp h
    obtain ⟨grown, known⟩ := Registry.register_ok hr
    have hout : fo.role.isOuter = true := LoopRole.isOuter_iff.mpr ⟨flags, hflags⟩
    have hsame := get?_setRole_inner hf hin hfo hout
    have trees := (Ast.SameTrees.setRole hf .inner).trans (.setRole hsame (.outer (flags.union .nested)))
    exact ⟨by simp [Statement.innermost, hsite],
      Or.inl ⟨.nested s, Statement.unit?_of_innerLoop hsite s, .of_queued hx trees grown known _⟩⟩
  · obtain ⟨outer, x, fo, flags, a, access, cid, r, -, hx, hfo, -, ha, haccess, hr, rfl⟩ :=
      randomWrite_iff.mp h
    obtain ⟨_, rfl, hhost⟩ := Statement.site_eq_randomWrite_iff.mp hsite
    cases hs.symm.trans ha
    obtain ⟨grown, known⟩ := Registry.registerRandomWrite_ok hr
    have written := Registry.extends_addWrite r host access.driver s
    exact ⟨by simp [Statement.innermost, hsite],
      Or.inl ⟨_, by simp [Statement.unit?, hhost, haccess],
        .of_queued hx (.setRole hfo _) (grown.trans written) (written _ known) _⟩⟩
  · exact ⟨by simp [Statement.innermost, hsite],
      Or.inr ⟨Statement.unit?_of_nothing hsite s, .refl _, rfl, rfl⟩⟩

theorem outerLoop_error {e : CommError} (h : outerLoop s scope d = .error (.error e) d') : d' = d := by
  simp only [outerLoop, bind_error, blockId_error, trace_error, pure_error, and_false, exists_false,
    or_false] at h
  exact (markLoop_error h).1

theorem recordInner_error {e : CommError} (h : recordInner s outer b d = .error (.error e) d') :
    d' = d := by
  simp only [recordInner, bind_error, blockId_error, onRegistry_error, discard_error,
    queueReceiver_error, addTarget_error, pure_error, and_false, exists_false, or_false,
    false_or] at h
  obtain ⟨_, _, hid, h⟩ := h
  obtain ⟨-, rfl⟩ := blockId_ok.mp hid
  rcases h with h | ⟨_, _, hro, h⟩
  · exact ensureRole_error h
  obtain ⟨-, rfl⟩ := ensureRole_ok.mp hro
  rcases h with h | ⟨_, _, hrs, h⟩
  · exact ensureRole_error h
  obtain ⟨-, rfl⟩ := ensureRole_ok.mp hrs
  exact (markLoop_error h).1

theorem recordWrite_error {host : Stmt} {e : CommError}
    (h : recordWrite s host outer b d = .error (.error e) d') : d' = d := by
  rcases bind_error.mp h with h | ⟨_, _, hid, h⟩
  · exact absurd h blockId_error
  obtain ⟨-, rfl⟩ := blockId_ok.mp hid
  rcases bind_error.mp h with h | ⟨assign, _, hassign, h⟩
  · exact absurd h look_error
  obtain ⟨-, rfl⟩ := look_ok.mp hassign
  cases hb : assign.bind (·.target.field?) with
  | none =>
    simp only [hb, fail_error] at h
    exact h.2.symm
  | some access =>
    simp only [hb, bind_error, onRegistry_error, discard_error, queueReceiver_error, addTarget_error,
      pure_error, and_false, exists_false, or_false] at h
    exact ensureRole_error h

/-- Work that ends with marking a loop, which never fails once all before it has been done. -/
def MarksLate (act : Act Unit) (early : Act BlockId) (outer : Stmt) (sent : CommFlags) : Prop :=
  (∃ line : BlockId → String, act = do
    let id ← early
    markLoop outer (·.markCommunication sent)
    trace (line id)) ∧
  ∀ d id d', early d = .ok id d' → ∃ t, markLoop outer (·.markCommunication sent) d' = .ok ⟨⟩ t

theorem MarksLate.error {act : Act Unit} {early : Act BlockId} {sent : CommFlags} {e : CommError}
    (late : MarksLate act early outer sent)
    (clean : early d = .error (.error e) d' → d' = d) (h : act d = .error (.error e) d') : d' = d := by
  obtain ⟨⟨line, rfl⟩, marks⟩ := late
  rcases bind_error.mp h with h | ⟨id, d₁, done, h⟩
  · exact clean h
  obtain ⟨t, marked⟩ := marks d id d₁ done
  rcases bind_error.mp h with h | ⟨_, _, _, h⟩
  · cases h.symm.trans marked
  · exact absurd h trace_error

theorem markLoop_of_outer {f : Foreach} {sent : CommFlags}
    (hf : d.body.ast.stmts.get? s = some (.foreach f)) (hout : f.role.isOuter = true) :
    ∃ t, markLoop s (·.markCommunication sent) d = .ok ⟨⟩ t := by
  obtain ⟨flags, hflags⟩ := LoopRole.isOuter_iff.mp hout
  exact ⟨_, markLoop_ok.mpr ⟨f, _, hf, LoopRole.markCommunication_ok.mpr ⟨flags, hflags, rfl⟩, rfl⟩⟩

theorem innerLoop_marksLate (ho : scope.outer = some outer) :
    MarksLate (innerLoop s scope) (recordInner s outer scope.block) outer .nested := by
  constructor
  · simp only [innerLoop, ho]
    exact ⟨_, rfl⟩
  · intro d id d' h
    obtain ⟨x, fo, f, cid, r, -, -, hfo, hout, hf, hin, -, rfl⟩ := recordInner_ok.mp h
    -- The outer loop is still what it was when its role was looked at.
    exact markLoop_of_outer (get?_setRole_inner hf hin hfo hout) hout

theorem randomWrite_marksLate {host : Stmt} (ho : scope.outer = some outer) :
    MarksLate (randomWrite s host scope) (recordWrite s host outer scope.block) outer
      .randomWrite := by
  constructor
  · simp only [randomWrite, ho]
    exact ⟨_, rfl⟩
  · intro d id d' h
    obtain ⟨x, fo, a, access, cid, r, -, -, hfo, hout, -, -, -, rfl⟩ := recordWrite_ok.mp h
    exact markLoop_of_outer hfo hout

theorem innerLoop_error {e : CommError} (h : innerLoop s scope d = .error (.error e) d') :
    d' = d := by
  cases ho : scope.outer with
  | none =>
    simp only [innerLoop, ho, bind_error, blockId_error, false_or, fail_error] at h
    obtain ⟨id, _, hid, -, rfl⟩ := h
    exact (blockId_ok.mp hid).2.symm
  | some outer => exact (innerLoop_marksLate ho).error recordInner_error h

theorem randomWrite_error {host : Stmt} {e : CommError}
    (h : randomWrite s host scope d = .error (.error e) d') : d' = d := by
  cases ho : scope.outer with
  | none =>
    simp only [randomWrite, ho, bind_error, blockId_error, false_or, fail_error] at h
    obtain ⟨id, _, hid, -, rfl⟩ := h
    exact (blockId_ok.mp hid).2.symm
  | some outer => exact (randomWrite_marksLate ho).error recordWrite_error h

/-- A visit that fails leaves everything as it was. -/
theorem visit_error {e : CommError} (h : visit s scope d = .error (.error e) d') : d' = d := by
  rcases ite_outcome.mp h with ⟨-, h⟩ | ⟨-, h⟩
  · rcases bind_error.mp h with h | ⟨id, _, hid, h⟩
    · exact absurd h blockId_error
    obtain ⟨_, rfl⟩ := blockId_ok.mp hid
    rcases bind_error.mp h with h | ⟨_, _, h, _⟩
    · exact (fail_error.mp h).2.symm
    · exact absurd h fail_ok
  · rcases bind_error.mp h with h | ⟨statement, _, hl, h⟩
    · exact absurd h look_error
    obtain ⟨_, rfl⟩ := look_ok.mp hl
    cases hsite : statement.site with
    | outerLoop =>
      simp only [hsite] at h
      exact outerLoop_error h
    | innerLoop =>
      simp only [hsite, bind_error, pure_error, and_false, exists_false, or_false] at h
      exact innerLoop_error h
    | randomWrite host =>
      simp only [hsite, bind_error, pure_error, and_false, exists_false, or_false] at h
      exact randomWrite_error h
    | nothing =>
      simp only [hsite] at h
      exact absurd h pure_error

end Specs

end Detection

end Superstep
