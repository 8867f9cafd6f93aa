import Superstep.Pass
import Superstep.Proofs.Likeness
import Superstep.Proofs.Registration

namespace Superstep

variable {view : IdView} {α : Type} {A : α → α → Prop}

namespace Splitting

/-- The graphs and the counters look alike. What has been logged does not matter. -/
def Like (view : IdView) (s t : Splitting) : Prop :=
  s.graph.Like view t.graph ∧ view.counter s.ids = view.counter t.ids

/-- The two actions run together on graphs that look alike. -/
abbrev Lock (view : IdView) (A : α → α → Prop) (x y : Act α) : Prop :=
  Lockstep (Halt.Like view) A (Like view) x y

theorem look_lock {f f' : FlowGraph → Except Fault α}
    (h : ∀ g k, g.Like view k → Alike Fault.Like A (f g) (f' k)) : Lock view A (look f) (look f') := by
  intro s t like
  unfold look
  rcases (h s.graph t.graph like.1).outcomes with ⟨a, b, ha, hb, hab⟩ | ⟨e, e', ha, hb, he⟩
  · rw [ha, hb]
    exact .ok hab like
  · rw [ha, hb]
    exact .error (.fault he) like

theorem block_lock (b : Block) : Lock view (BlockData.Like view) (look (·.block b)) (look (·.block b)) :=
  look_lock fun _ _ like => FlowGraph.block_alike like b

theorem update_lock {f f' : FlowGraph → Except Fault FlowGraph}
    (h : ∀ g k, g.Like view k → Alike Fault.Like (FlowGraph.Like view) (f g) (f' k)) :
    Lock view Eq (update f) (update f') :=
  .updatePart (fun s t like => h s.graph t.graph like.1) (fun _ _ _ _ like new => ⟨new, like.2⟩)
    fun _ _ he => .fault he

theorem updateBlock_lock (b : Block) {f : BlockData → BlockData}
    (h : ∀ y : BlockData, ∃ z : BlockData, ∀ i, f { y with id := i } = { z with id := i }) :
    Lock view Eq (update (·.updateBlock b f)) (update (·.updateBlock b f)) := by
  refine update_lock fun g k like => FlowGraph.updateBlock_alike like b fun x y hxy => ?_
  obtain ⟨i, rfl, hi⟩ := hxy.fields
  obtain ⟨z, hz⟩ := h y
  have hy : f y = { z with id := y.id } := hz y.id
  rw [hz i, hy]
  exact congrArg (fun id : BlockId => { z with id }) hi

theorem addExit_lock (a b : Block) :
    Lock view Eq (update (·.addExit a b)) (update (·.addExit a b)) :=
  update_lock fun _ _ like => FlowGraph.addExit_alike like a b

theorem appendBlock_lock (b : Block) :
    Lock view Eq (update (·.appendBlock b)) (update (·.appendBlock b)) :=
  update_lock fun _ _ like => FlowGraph.appendBlock_alike like b

theorem createBlock_lock (kind : BlockKind) : Lock view Eq (createBlock kind) (createBlock kind) :=
  (FlowGraph.createBlock_lockstep kind).onPart (fun _ _ like => like) (fun _ _ _ _ _ new => new)
    fun _ _ he => .fault he

/-- Both are refused, whatever would follow. -/
theorem refused_lock {e e' : CommError} (h : e.seen view = e'.seen view) {k k' : Unit → Act α} :
    Lock view A (fail e >>= k) (fail e' >>= k') :=
  fun _ _ like => .error (.error h) like

theorem nth_lock {edge : FlowGraph → Except Fault (Except EdgeError Block)}
    (h : ∀ g k, g.Like view k →
      Alike Fault.Like (Alike (fun e e' => e.seen view = e'.seen view) Eq) (edge g) (edge k)) :
    Lock view Eq (nth edge) (nth edge) := by
  refine (look_lock h).bind fun r r' hr => ?_
  cases hr with
  | ok same => exact .pure same
  | error he => exact .throw (.error (congrArg CommError.edge he))

theorem requireSplittable_lock (b : Block) :
    Lock view Eq (requireSplittable b) (requireSplittable b) := by
  refine (block_lock b).bind fun x y hxy => ?_
  obtain ⟨i, rfl, hi⟩ := hxy.fields
  refine .ite Iff.rfl ?_ (refused_lock (by simp [CommError.seen, hi]))
  refine .ite Iff.rfl ?_ (refused_lock (by simp [CommError.seen, hi]))
  refine .ite Iff.rfl ?_ (refused_lock (by simp [CommError.seen, hi]))
  refine .ite Iff.rfl ?_ (refused_lock (by simp [CommError.seen, hi]))
  refine (nth_lock fun _ _ like => FlowGraph.nthEntry_alike like b 0).andThen fun prev => ?_
  refine (nth_lock fun _ _ like => FlowGraph.nthExit_alike like b 0).andThen fun next => ?_
  refine (block_lock prev).bind fun p q hpq => ?_
  obtain ⟨j, rfl, hj⟩ := hpq.fields
  refine .ite Iff.rfl (refused_lock (by simp [CommError.seen, hi, hj])) ?_
  refine (block_lock next).bind fun m n hmn => ?_
  obtain ⟨k, rfl, hk⟩ := hmn.fields
  refine .ite Iff.rfl (refused_lock (by simp [CommError.seen, hi, hk])) ?_
  exact .ite Iff.rfl (.pure rfl) (refused_lock (by simp [CommError.seen, hi, hk]))

theorem takeOver_lock (b : Block) (units : List CommUnit) :
    Lock view Eq (takeOver b units) (takeOver b units) :=
  .forM (fun unit => updateBlock_lock b fun y => ⟨y.addReceiver unit, fun _ => rfl⟩) units

/-- Splits of one block in graphs that look alike end alike. -/
theorem splitVertexBlock_lock (b : Block) :
    Lock view Eq (splitVertexBlock b) (splitVertexBlock b) := by
  refine (requireSplittable_lock b).andThen fun next => ?_
  refine (block_lock b).bind fun x y hxy => ?_
  obtain ⟨i, rfl, -⟩ := hxy.fields
  refine (createBlock_lock .seq).andThen fun seq => ?_
  refine (createBlock_lock .beginVertex).andThen fun receive => ?_
  refine (updateBlock_lock seq fun y => ⟨y.setAfterVertex true, fun _ => rfl⟩).andThen fun _ => ?_
  refine (takeOver_lock receive y.receivers).andThen fun _ => ?_
  refine (updateBlock_lock b fun y => ⟨y.clearReceivers, fun _ => rfl⟩).andThen fun _ => ?_
  refine (updateBlock_lock b fun y => ⟨{ y with exits := [] }, fun _ => rfl⟩).andThen fun _ => ?_
  refine (updateBlock_lock next fun y => ⟨{ y with entries := [] }, fun _ => rfl⟩).andThen
    fun _ => ?_
  refine (addExit_lock b seq).andThen fun _ => (addExit_lock seq receive).andThen fun _ => ?_
  refine (addExit_lock receive next).andThen fun _ => ?_
  refine (appendBlock_lock seq).andThen fun _ => (appendBlock_lock receive).andThen fun _ => ?_
  refine (block_lock seq).bind fun _ _ _ => (block_lock receive).bind fun _ _ _ => ?_
  exact .andThen (.modify fun _ _ like => like) fun _ => .pure rfl

end Splitting

/-- The same statements, and graphs that look alike. -/
def Body.Like (view : IdView) (b c : Body) : Prop := b.ast = c.ast ∧ b.graph.Like view c.graph

theorem Registry.register_lockstep (unit : CommUnit) :
    Lockstep Fault.Like Eq Eq (register unit) (register unit) := by
  rintro r _ rfl
  cases hr : register unit r with
  | ok id t => exact .ok rfl rfl
  | error e t =>
    obtain ⟨-, -, rfl⟩ := register_error hr
    exact .error ⟨rfl, fun _ => Fault.noConfusion⟩ rfl

namespace Ast

theorem foreach?_alike (ast : Ast) (s : Stmt) :
    Alike Fault.Like Eq (ast.foreach? s) (ast.foreach? s) :=
  (ast.stmts.get_alike s).map fun _ _ same => congrArg Statement.foreach? same

theorem assign?_alike (ast : Ast) (s : Stmt) :
    Alike Fault.Like Eq (ast.assign? s) (ast.assign? s) :=
  (ast.stmts.get_alike s).map fun _ _ same => congrArg Statement.assign? same

theorem children_alike (ast : Ast) (s : Stmt) :
    Alike Fault.Like Eq (ast.children s) (ast.children s) :=
  (ast.stmts.get_alike s).map fun _ _ same => congrArg Statement.children same

theorem receivedBodies_alike (ast : Ast) (units : List CommUnit) :
    Alike Fault.Like Eq (Visitor.receivedBodies ast units) (Visitor.receivedBodies ast units) := by
  induction units with
  | nil => exact .ok rfl
  | cons unit rest ih =>
    cases unit with
    | randomWrite host symbol => exact ih
    | nested s =>
      exact (ast.foreach?_alike s).andThen fun loop => ih.andThen fun bodies => .ok rfl

end Ast

namespace Detection

/-- The bodies look alike, and the same blocks were found. What has been logged does not matter. -/
def Like (view : IdView) (d e : Detection) : Prop := d.body.Like view e.body ∧ d.targets = e.targets

/-- The two actions run together on bodies that look alike. -/
abbrev Lock (view : IdView) (A : α → α → Prop) (x y : Act α) : Prop :=
  Lockstep (Halt.Like view) A (Like view) x y

theorem look_lock {f : Body → Except Fault α}
    (h : ∀ b c, b.Like view c → Alike Fault.Like A (f b) (f c)) : Lock view A (look f) (look f) := by
  intro d e like
  unfold look
  rcases (h d.body e.body like.1).outcomes with ⟨a, b, ha, hb, hab⟩ | ⟨f, f', ha, hb, hf⟩
  · rw [ha, hb]
    exact .ok hab like
  · rw [ha, hb]
    exact .error (.fault hf) like

/-- Looks at the statements only. -/
theorem ast_lock {f : Ast → Except Fault α} (h : ∀ ast, Alike Fault.Like Eq (f ast) (f ast)) :
    Lock view Eq (look fun body => f body.ast) (look fun body => f body.ast) := by
  refine look_lock fun b c like => ?_
  rw [like.1]
  exact h c.ast

theorem block_lock (b : Block) :
    Lock view (BlockData.Like view) (look (·.graph.block b)) (look (·.graph.block b)) :=
  look_lock fun _ _ like => FlowGraph.block_alike like.2 b

theorem isVertex_lock (b : Block) : Lock view Eq (isVertex b) (isVertex b) := by
  refine (block_lock b).bind fun x y hxy => ?_
  obtain ⟨i, rfl, -⟩ := hxy.fields
  exact .pure rfl

theorem blockId_lock (b : Block) :
    Lock view (fun i j => view.id i = view.id j) (blockId b) (blockId b) := by
  refine (block_lock b).bind fun x y hxy => ?_
  obtain ⟨i, rfl, hi⟩ := hxy.fields
  exact .pure hi

theorem trace_lock (text text' : String) : Lock view Eq (trace text) (trace text') :=
  .modify fun _ _ like => like

theorem loop_lock (s : Stmt) : Lock view Eq (loop s) (loop s) := by
  refine (ast_lock (·.foreach?_alike s)).andThen fun found => ?_
  cases found with
  | none => exact .throw (.fault ⟨rfl, fun _ => Fault.noConfusion⟩)
  | some f => exact .pure rfl

theorem ensureRole_lock (s : Stmt) (allowed : LoopRole → Bool) :
    Lock view Eq (ensureRole s allowed) (ensureRole s allowed) :=
  (loop_lock s).andThen fun _ => .ite Iff.rfl (.pure rfl) (.throw (.error rfl))

theorem markLoop_lock (s : Stmt) (mark : LoopRole → Except LoopRole LoopRole) :
    Lock view Eq (markLoop s mark) (markLoop s mark) := by
  refine (loop_lock s).andThen fun f => ?_
  cases mark f.role with
  | ok role =>
    refine .modify fun d e like => ⟨⟨?_, like.1.2⟩, like.2⟩
    exact congrArg (·.setRole s f role) like.1.1
  | error existing => exact .throw (.error rfl)

theorem onRegistry_lock {act : EStateM Fault Registry α} (h : Lockstep Fault.Like Eq Eq act act) :
    Lock view Eq (onRegistry act) (onRegistry act) := by
  refine h.onPart (fun _ _ like => like.1.2.registry) (fun d e r r' like same => ?_)
    fun _ _ hf => .fault hf
  refine ⟨⟨like.1.1, ?_⟩, like.2⟩
  subst same
  exact congrArg (fun g : FlowGraph => { g with registry := r }) like.1.2

theorem queueReceiver_lock (b : Block) (unit : CommUnit) :
    Lock view Eq (queueReceiver b unit) (queueReceiver b unit) := by
  refine .updatePart (P := FlowGraph.Like view) (D := Fault.Like) (fun d e like => ?_)
    (fun _ _ _ _ like new => ⟨⟨like.1.1, new⟩, like.2⟩) fun _ _ hf => .fault hf
  refine FlowGraph.updateBlock_alike like.1.2 b fun x y hxy => ?_
  obtain ⟨i, rfl, hi⟩ := hxy.fields
  exact congrArg
    (fun id : BlockId => { y with id, receivers := appendNew y.receivers unit }) hi

theorem addTarget_lock (b : Block) : Lock view Eq (addTarget b) (addTarget b) :=
  .modify fun _ _ like => ⟨like.1, congrArg (fun t : TargetBlocks => (t.insert b).2) like.2⟩

theorem outerLoop_lock (s : Stmt) (scope : Scope) :
    Lock view Eq (outerLoop s scope) (outerLoop s scope) := by
  refine (markLoop_lock s _).andThen fun _ => (blockId_lock scope.block).bind fun _ _ _ => ?_
  exact (trace_lock _ _).andThen fun _ => .pure rfl

theorem recordInner_lock (s outer : Stmt) (b : Block) :
    Lock view (fun i j => view.id i = view.id j) (recordInner s outer b) (recordInner s outer b) := by
  refine (blockId_lock b).bind fun i j hij => ?_
  refine (ensureRole_lock outer _).andThen fun _ => (ensureRole_lock s _).andThen fun _ => ?_
  refine (markLoop_lock s _).andThen fun _ => ?_
  refine .andThen (.andThen (onRegistry_lock (Registry.register_lockstep _)) fun _ => .pure rfl)
    fun _ => ?_
  refine (queueReceiver_lock b _).andThen fun _ => ?_
  exact (addTarget_lock b).andThen fun _ => .pure hij

theorem innerLoop_lock (s : Stmt) (scope : Scope) :
    Lock view Eq (innerLoop s scope) (innerLoop s scope) := by
  unfold innerLoop
  cases scope.outer with
  | none =>
    refine (blockId_lock scope.block).bind fun i j hij => ?_
    exact .throw (.error (congrArg (CommError.innerLoopWithoutOuter · s) hij))
  | some outer =>
    refine (recordInner_lock s outer scope.block).bind fun _ _ _ => ?_
    exact (markLoop_lock outer _).andThen fun _ => trace_lock _ _

theorem recordWrite_lock (s host outer : Stmt) (b : Block) :
    Lock view (fun i j => view.id i = view.id j) (recordWrite s host outer b)
      (recordWrite s host outer b) := by
  refine (blockId_lock b).bind fun i j hij => ?_
  refine (ast_lock (·.assign?_alike s)).andThen fun assign => ?_
  cases assign.bind (·.target.field?) with
  | none => exact .throw (.error rfl)
  | some access =>
    have registers : Lockstep Fault.Like Eq Eq (Registry.registerRandomWrite host access.driver)
        (Registry.registerRandomWrite host access.driver) := by
      refine (Registry.register_lockstep _).andThen fun id => ?_
      exact .andThen (.modify fun _ _ same => same ▸ rfl) fun _ => .pure rfl
    refine (ensureRole_lock outer _).andThen fun _ => ?_
    refine .andThen (.andThen (onRegistry_lock registers) fun _ => .pure rfl) fun _ => ?_
    refine (onRegistry_lock (.modify fun _ _ same => same ▸ rfl)).andThen fun _ => ?_
    refine (queueReceiver_lock b _).andThen fun _ => ?_
    exact (addTarget_lock b).andThen fun _ => .pure hij

theorem randomWrite_lock (s host : Stmt) (scope : Scope) :
    Lock view Eq (randomWrite s host scope) (randomWrite s host scope) := by
  unfold randomWrite
  cases scope.outer with
  | none =>
    refine (blockId_lock scope.block).bind fun i j hij => ?_
    exact .throw (.error (congrArg (CommError.randomWriteWithoutOuter · s) hij))
  | some outer =>
    refine (recordWrite_lock s host outer scope.block).bind fun _ _ _ => ?_
    exact (markLoop_lock outer _).andThen fun _ => trace_lock _ _

theorem visit_lock (s : Stmt) (scope : Scope) : Lock view Eq (visit s scope) (visit s scope) := by
  refine .ite Iff.rfl ?_ ?_
  · refine (blockId_lock scope.block).bind fun i j hij => ?_
    exact fun _ _ like => .error (.error (congrArg (CommError.receiverTraversal · s) hij)) like
  · refine (ast_lock (·.stmts.get_alike s)).andThen fun statement => ?_
    cases statement.site with
    | outerLoop => exact outerLoop_lock s scope
    | innerLoop => exact (innerLoop_lock s scope).andThen fun _ => .pure rfl
    | randomWrite host => exact (randomWrite_lock s host scope).andThen fun _ => .pure rfl
    | nothing => exact .pure rfl

theorem walkStmt_lock (depth : Nat) (scope : Scope) (s : Stmt) :
    Lock view Eq (visitor.walkStmt depth scope s) (visitor.walkStmt depth scope s) := by
  induction depth generalizing scope s with
  | zero => exact .throw (.fault ⟨rfl, fun _ => Fault.noConfusion⟩)
  | succ depth ih =>
    refine .andThen (visit_lock s scope) fun inner => ?_
    exact .andThen (ast_lock (·.children_alike s)) fun children => .forM (ih inner) children

theorem walkBlock_lock (options : WalkOptions) (b : Block) :
    Lock view Eq (visitor.walkBlock options b) (visitor.walkBlock options b) := by
  have walks : ∀ scope (ss : List Stmt), Lock view Eq
      (ss.forM (visitor.walkStmt Visitor.deepest scope))
      (ss.forM (visitor.walkStmt Visitor.deepest scope)) :=
    fun scope ss => .forM (walkStmt_lock Visitor.deepest scope) ss
  have received : Lock view Eq (look fun body => do
      let data ← body.graph.block b
      Visitor.receivedBodies body.ast data.receivers) (look fun body => do
      let data ← body.graph.block b
      Visitor.receivedBodies body.ast data.receivers) := by
    refine look_lock fun p q like => ?_
    refine (FlowGraph.block_alike like.2 b).bind fun x y hxy => ?_
    obtain ⟨i, rfl, -⟩ := hxy.fields
    rw [like.1]
    exact q.ast.receivedBodies_alike y.receivers
  refine .andThen (isVertex_lock b) fun accepted => .ite Iff.rfl ?_ (.pure rfl)
  refine .ite Iff.rfl (.bind (block_lock b) fun x y hxy => ?_) ?_
  · obtain ⟨i, rfl, -⟩ := hxy.fields
    refine .andThen (walks _ y.sents) fun _ => .ite Iff.rfl ?_ (.pure rfl)
    exact received.andThen fun ss => walks _ ss
  · exact .ite Iff.rfl (received.andThen fun ss => walks _ ss) (.pure rfl)

/-- Detection in bodies that look alike ends alike. -/
theorem findCommunication_lock : Lock view Eq findCommunication findCommunication := by
  have walk : Lock view Eq (visitor.walk ⟨true, false⟩) (visitor.walk ⟨true, false⟩) := by
    refine .andThen (look_lock fun _ _ like => FlowGraph.reachable_alike like.2) fun blocks => ?_
    exact .forM (walkBlock_lock _) blocks
  refine walk.andThen fun _ => .bind .get fun d e like => ?_
  exact .pure like.2

end Detection

/-- What has been printed, without what has been logged. -/
def Console.quiet (c : Console) : Console := { c with log := [] }

/-- The procedures differ at most in the ids of their blocks, and those look alike. -/
def Procedure.Like (view : IdView) (p q : Procedure) : Prop :=
  p.toBody.Like view q.toBody ∧ p.name = q.name ∧ p.key = q.key

namespace Procedure

/-- Procedures that look alike, among the same strings and the same text. -/
def StageLike (view : IdView) (s t : Stage Procedure) : Prop :=
  s.subject.Like view t.subject ∧ view.counter s.context.ids = view.counter t.context.ids ∧
    s.context.strings = t.context.strings ∧ s.console.quiet = t.console.quiet

abbrev Lock (view : IdView) (x y : EStateM (Halt CommError) (Stage Procedure) α) : Prop :=
  Lockstep (Halt.Like view) Eq (StageLike view) x y

theorem findCommunication_lock : Lock view findCommunication findCommunication :=
  Detection.findCommunication_lock.onPart (fun _ _ like => ⟨like.1.1, rfl⟩)
    (fun _ _ _ _ like new => ⟨⟨new.1, like.1.2⟩, like.2⟩) fun _ _ he => he

theorem splitVertexBlock_lock (b : Block) : Lock view (splitVertexBlock b) (splitVertexBlock b) :=
  (Splitting.splitVertexBlock_lock b).onPart (fun _ _ like => ⟨like.1.1.2, like.2.1⟩)
    (fun _ _ _ _ like new => ⟨⟨⟨like.1.1.1, new.1⟩, like.1.2⟩, new.2, like.2.2⟩) fun _ _ he => he

/-- The whole transformation of procedures that look alike ends alike. -/
theorem splitCommunication_lock : Lock view splitCommunication splitCommunication := by
  refine .bind .get fun s t like => ?_
  have entry : s.subject.graph.entry = t.subject.graph.entry := like.1.1.2.entry
  refine .ite (by rw [entry]) (.pure rfl) ?_
  refine findCommunication_lock.andThen fun targets => ?_
  refine .andThen (.modify fun _ _ like => like) fun _ => ?_
  exact .mapM splitVertexBlock_lock targets.order

end Procedure

end Superstep
