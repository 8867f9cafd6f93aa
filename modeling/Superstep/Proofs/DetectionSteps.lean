import Superstep.Proofs.Trees

namespace Superstep

namespace LoopRole

theorem isOuter_iff {role : LoopRole} : role.isOuter = true ↔ ∃ flags, role = .outer flags := by
  cases role <;> simp [isOuter]

/-- Only an unclassified loop gets another role when it turns out to be an outer one. -/
theorem markOuter_ok {old new : LoopRole} :
    old.markOuter = .ok new ↔
      (old = .unclassified ∧ new = .outer {}) ∨ (old.isOuter = true ∧ new = old) := by
  cases old <;> simp [markOuter, isOuter, eq_comm]

theorem markInner_ok {old new : LoopRole} :
    old.markInner = .ok new ↔ old.isOuter = false ∧ new = .inner := by
  cases old <;> simp [markInner, isOuter, eq_comm]

theorem markCommunication_ok {old new : LoopRole} {sent : CommFlags} :
    old.markCommunication sent = .ok new ↔
      ∃ flags, old = .outer flags ∧ new = .outer (flags.union sent) := by
  cases old <;> simp [markCommunication, eq_comm]

end LoopRole

namespace Statement

variable {statement : Statement}

theorem site_eq_outerLoop_iff :
    statement.site = .outerLoop ↔ ∃ f, statement = .foreach f ∧ f.iter.isAllGraph = true := by
  cases statement with
  | «foreach» f => cases h : f.iter.isAllGraph <;> simp [site, h]
  | assign a => cases h : a.randomWrite.expand <;> simp [site, h]
  | block _ | branch _ | loop _ | verbatim _ => simp [site]

theorem site_eq_innerLoop_iff :
    statement.site = .innerLoop ↔ ∃ f, statement = .foreach f ∧ f.iter.isAllGraph = false := by
  cases statement with
  | «foreach» f => cases h : f.iter.isAllGraph <;> simp [site, h]
  | assign a => cases h : a.randomWrite.expand <;> simp [site, h]
  | block _ | branch _ | loop _ | verbatim _ => simp [site]

theorem site_eq_randomWrite_iff {host : Stmt} :
    statement.site = .randomWrite host ↔
      ∃ a, statement = .assign a ∧ a.randomWrite.expand = some host := by
  cases statement with
  | «foreach» f => cases h : f.iter.isAllGraph <;> simp [site, h]
  | assign a => cases h : a.randomWrite.expand <;> simp [site, h]
  | block _ | branch _ | loop _ | verbatim _ => simp [site]

theorem unit?_of_outerLoop (h : statement.site = .outerLoop) (s : Stmt) :
    statement.unit? s = none := by
  obtain ⟨f, rfl, hall⟩ := site_eq_outerLoop_iff.mp h
  exact if_pos hall

theorem unit?_of_innerLoop (h : statement.site = .innerLoop) (s : Stmt) :
    statement.unit? s = some (.nested s) := by
  obtain ⟨f, rfl, hnbr⟩ := site_eq_innerLoop_iff.mp h
  exact if_neg (by simp [hnbr])

theorem unit?_of_nothing (h : statement.site = .nothing) (s : Stmt) : statement.unit? s = none := by
  cases statement with
  | «foreach» f => cases hall : f.iter.isAllGraph <;> simp [site, hall] at h
  | assign a => cases hw : a.randomWrite.expand <;> simp [site, unit?, hw] at h ⊢
  | block _ | branch _ | loop _ | verbatim _ => rfl

end Statement

namespace Ast

theorem get?_setRole {ast : Ast} {s : Stmt} {f : Foreach} (h : ast.stmts.get? s = some (.foreach f))
    (role : LoopRole) : (ast.setRole s f role).stmts.get? s = some (.foreach { f with role }) := by
  simp [setRole, Table.get?_set, h]

theorem get?_setRole_of_ne {ast : Ast} {s t : Stmt} (h : s ≠ t) (f : Foreach) (role : LoopRole) :
    (ast.setRole s f role).stmts.get? t = ast.stmts.get? t :=
  Table.get?_set_of_ne h _

end Ast

namespace Detection

variable {α : Type}

theorem look_ok {f : Body → Except Fault α} {d t : Detection} {a : α} :
    look f d = .ok a t ↔ f d.body = .ok a ∧ d = t := by
  unfold look
  cases f d.body <;> simp

theorem look_error {f : Body → Except Fault α} {d t : Detection} {e : CommError} :
    ¬look f d = .error (.error e) t := by
  unfold look
  cases f d.body <;> simp

theorem fail_ok {e : CommError} {d t : Detection} {a : α} : ¬fail e d = .ok a t :=
  throw_ok

theorem fail_error {e e' : CommError} {d t : Detection} :
    (fail e : Act α) d = .error (.error e') t ↔ e = e' ∧ d = t := by
  simp [fail, throw_error]

theorem stmt_ok {ast : Ast} {s : Stmt} {statement : Statement} :
    ast.stmt s = .ok statement ↔ ast.stmts.get? s = some statement :=
  Table.get_ok

theorem assign?_ok {ast : Ast} {s : Stmt} {a : Assign} :
    ast.assign? s = .ok (some a) ↔ ast.stmts.get? s = some (.assign a) := by
  rw [← stmt_ok]
  cases hs : ast.stmt s with
  | error e => simp [Ast.assign?, hs, Except.map]
  | ok statement => cases statement <;> simp [Ast.assign?, hs, Except.map, Statement.assign?]

theorem blockId_ok {b : Block} {d t : Detection} {id : BlockId} :
    blockId b d = .ok id t ↔ (∃ x, d.body.graph.blocks.get? b = some x ∧ x.id = id) ∧ d = t := by
  simp only [blockId, bind_ok, look_ok, pure_ok, FlowGraph.block_ok]
  constructor
  · rintro ⟨x, _, ⟨hx, rfl⟩, hid, rfl⟩
    exact ⟨⟨x, hx, hid⟩, rfl⟩
  · rintro ⟨⟨x, hx, hid⟩, rfl⟩
    exact ⟨x, _, ⟨hx, rfl⟩, hid, rfl⟩

theorem blockId_error {b : Block} {d t : Detection} {e : CommError} :
    ¬blockId b d = .error (.error e) t := by
  simp only [blockId, bind_error, look_error, pure_error, and_false, exists_false, or_false,
    not_false_eq_true]

theorem loop_ok {s : Stmt} {d t : Detection} {f : Foreach} :
    loop s d = .ok f t ↔ d.body.ast.stmts.get? s = some (.foreach f) ∧ d = t := by
  simp only [loop, bind_ok, look_ok, Ast.foreach?]
  constructor
  · rintro ⟨r, _, ⟨hr, rfl⟩, h⟩
    cases hs : d.body.ast.stmt s with
    | error e => simp [hs, Except.map] at hr
    | ok statement =>
      simp only [hs, Except.map, Except.ok.injEq] at hr
      cases r with
      | none => exact absurd h throw_ok
      | some f' =>
        obtain ⟨rfl, rfl⟩ := pure_ok.mp h
        cases statement <;> simp [Statement.foreach?] at hr
        subst hr
        exact ⟨stmt_ok.mp hs, rfl⟩
  · rintro ⟨hs, rfl⟩
    exact ⟨some f, d, ⟨by simp [stmt_ok.mpr hs, Except.map, Statement.foreach?], rfl⟩,
      pure_ok.mpr ⟨rfl, rfl⟩⟩

theorem loop_error {s : Stmt} {d t : Detection} {e : CommError} :
    ¬loop s d = .error (.error e) t := by
  intro h
  rcases bind_error.mp h with h | ⟨r, _, _, h⟩
  · exact look_error h
  · cases r with
    | none => simp [throw_error] at h
    | some f => exact pure_error h

theorem ensureRole_ok {s : Stmt} {allowed : LoopRole → Bool} {d t : Detection} {u : Unit} :
    ensureRole s allowed d = .ok u t ↔
      (∃ f, d.body.ast.stmts.get? s = some (.foreach f) ∧ allowed f.role = true) ∧ d = t := by
  simp only [ensureRole, bind_ok, loop_ok, ite_outcome, pure_ok, fail_ok, and_false, or_false]
  constructor
  · rintro ⟨f, _, ⟨hf, rfl⟩, ha, _, rfl⟩
    exact ⟨⟨f, hf, ha⟩, rfl⟩
  · rintro ⟨⟨f, hf, ha⟩, rfl⟩
    exact ⟨f, d, ⟨hf, rfl⟩, ha, trivial, rfl⟩

theorem ensureRole_error {s : Stmt} {allowed : LoopRole → Bool} {d t : Detection} {e : CommError}
    (h : ensureRole s allowed d = .error (.error e) t) : t = d := by
  simp only [ensureRole, bind_error, loop_error, false_or, loop_ok, ite_outcome, pure_error,
    fail_error, and_false] at h
  obtain ⟨f, _, ⟨_, rfl⟩, _, _, rfl⟩ := h
  rfl

theorem markLoop_ok {s : Stmt} {mark : LoopRole → Except LoopRole LoopRole} {d t : Detection}
    {u : Unit} :
    markLoop s mark d = .ok u t ↔ ∃ f role, d.body.ast.stmts.get? s = some (.foreach f) ∧
      mark f.role = .ok role ∧ t = { d with body.ast := d.body.ast.setRole s f role } := by
  simp only [markLoop, bind_ok, loop_ok]
  constructor
  · rintro ⟨f, _, ⟨hf, rfl⟩, h⟩
    cases hm : mark f.role with
    | error existing => simp [hm, fail_ok] at h
    | ok role =>
      simp only [hm, modify_ok] at h
      exact ⟨f, role, hf, hm, h⟩
  · rintro ⟨f, role, hf, hm, rfl⟩
    exact ⟨f, d, ⟨hf, rfl⟩, by simp [hm, modify_ok]⟩

theorem markLoop_error {s : Stmt} {mark : LoopRole → Except LoopRole LoopRole} {d t : Detection}
    {e : CommError} (h : markLoop s mark d = .error (.error e) t) :
    t = d ∧ ∃ f existing, d.body.ast.stmts.get? s = some (.foreach f) ∧
      mark f.role = .error existing := by
  simp only [markLoop, bind_error, loop_error, false_or, loop_ok] at h
  obtain ⟨f, _, ⟨hf, rfl⟩, h⟩ := h
  cases hm : mark f.role with
  | ok role => simp [hm, modify_error] at h
  | error existing =>
    simp only [hm, fail_error] at h
    exact ⟨h.2.symm, f, existing, hf, hm⟩

theorem onRegistry_ok {act : EStateM Fault Registry α} {d t : Detection} {a : α} :
    onRegistry act d = .ok a t ↔ ∃ r, act d.body.graph.registry = .ok a r ∧
      t = { d with body.graph.registry := r } :=
  onPart_ok

theorem onRegistry_error {act : EStateM Fault Registry α} {d t : Detection} {e : CommError} :
    ¬onRegistry act d = .error (.error e) t := by
  simp [onRegistry, onPart_error]

theorem queueReceiver_ok {b : Block} {unit : CommUnit} {d t : Detection} {u : Unit} :
    queueReceiver b unit d = .ok u t ↔ ∃ g, d.body.graph.updateBlock b
      (fun x => { x with receivers := appendNew x.receivers unit }) = .ok g ∧
      t = { d with body.graph := g } :=
  updatePart_ok

theorem queueReceiver_error {b : Block} {unit : CommUnit} {d t : Detection} {e : CommError} :
    ¬queueReceiver b unit d = .error (.error e) t := by
  simp [queueReceiver, updatePart_error]

theorem addTarget_ok {b : Block} {d t : Detection} {u : Unit} :
    addTarget b d = .ok u t ↔ t = { d with targets := (d.targets.insert b).2 } :=
  modify_ok

theorem addTarget_error {b : Block} {d t : Detection} {e : CommError} :
    ¬addTarget b d = .error (.error e) t :=
  modify_error

theorem trace_ok {text : String} {d t : Detection} {u : Unit} :
    trace text d = .ok u t ↔ t = { d with log := d.log ++ [⟨.trace, text⟩] } :=
  modify_ok

theorem trace_error {text : String} {d t : Detection} {e : CommError} :
    ¬trace text d = .error (.error e) t :=
  modify_error

theorem discard_ok {x : Act α} {d t : Detection} {u : Unit} :
    (discard x : Act Unit) d = .ok u t ↔ ∃ a, x d = .ok a t := by
  change EStateM.map _ x d = .ok u t ↔ _
  unfold EStateM.map
  cases x d <;> simp

theorem discard_error {x : Act α} {d t : Detection} {e : Halt CommError} :
    (discard x : Act Unit) d = .error e t ↔ x d = .error e t := by
  change EStateM.map _ x d = .error e t ↔ _
  unfold EStateM.map
  cases x d <;> simp

end Detection

end Superstep
