import Superstep.Pass
import Superstep.Proofs.Issued
import Superstep.Proofs.Keeps
import Superstep.Proofs.Splice

namespace Superstep

/-- A block is created with the next id also if there is no key left for it. -/
theorem FlowGraph.createBlock_grown (kind : BlockKind) :
    Keeps (fun s : FlowGraph × IdCounter => (⟨s.1.blockIds, s.2⟩ : Ledger)) Ledger.Grown
      (FlowGraph.createBlock kind) := by
  rintro ⟨g, ids⟩
  have pushed : Ledger.Grown ⟨g.blockIds, ids⟩
      ⟨({ g with blocks := g.blocks.push { id := ids.issue.1, kind } } : FlowGraph).blockIds,
        ids.issue.2⟩ := ⟨1, blockIds_push .., rfl⟩
  by_cases room : g.blocks.size ≤ 0xFFFFFFFF
  · have h : createBlock kind (g, ids) = .ok ⟨g.blocks.size, room⟩ (_, _) :=
      createBlock_ok.mpr ⟨rfl, rfl, rfl⟩
    rw [finalState_of_ok h]
    exact pushed
  · have h : createBlock kind (g, ids) = .error .indexTooWide (_, _) :=
      createBlock_error.mpr ⟨by omega, rfl, rfl, rfl⟩
    rw [finalState_of_error h]
    exact pushed

namespace Splitting

variable {α : Type}

def ledger (s : Splitting) : Ledger := ⟨s.graph.blockIds, s.ids⟩

theorem look_grown (f : FlowGraph → Except Fault α) : Keeps ledger Ledger.Grown (look f) :=
  .of_still (look_still f)

theorem update_grown {f : FlowGraph → Except Fault FlowGraph}
    (h : ∀ g g', f g = .ok g' → g'.blockIds = g.blockIds) :
    Keeps ledger Ledger.Grown (update f) :=
  .updatePart fun s g hg => .of_same (h s.graph g hg) rfl

theorem createBlock_grown (kind : BlockKind) : Keeps ledger Ledger.Grown (createBlock kind) :=
  (FlowGraph.createBlock_grown kind).onPart fun _ _ h => h

theorem updateBlock_grown (b : Block) {f : BlockData → BlockData} (hid : ∀ x, (f x).id = x.id) :
    Keeps ledger Ledger.Grown (update (·.updateBlock b f)) :=
  update_grown fun _ _ h => FlowGraph.updateBlock_blockIds h hid

theorem takeOver_grown (b : Block) (units : List CommUnit) :
    Keeps ledger Ledger.Grown (takeOver b units) :=
  .forM (fun unit => updateBlock_grown b (f := (·.addReceiver unit)) fun _ => rfl) units

theorem addExit_grown (a b : Block) : Keeps ledger Ledger.Grown (update (·.addExit a b)) :=
  update_grown fun _ _ h => FlowGraph.addExit_blockIds h

theorem appendBlock_grown (b : Block) : Keeps ledger Ledger.Grown (update (·.appendBlock b)) :=
  update_grown fun _ _ h => FlowGraph.appendBlock_blockIds h

/-- However a split ends, the blocks that it created have the ids that it took. -/
theorem splitVertexBlock_grown (b : Block) : Keeps ledger Ledger.Grown (splitVertexBlock b) := by
  refine .bind (.of_still (requireSplittable_still b)) fun next => ?_
  refine .bind (look_grown _) fun data => ?_
  refine .bind (createBlock_grown .seq) fun seq => ?_
  refine .bind (createBlock_grown .beginVertex) fun receive => ?_
  -- None of the updates that follow gives a block another id.
  refine .bind (updateBlock_grown seq fun _ => rfl) fun _ => ?_
  refine .bind (takeOver_grown receive data.receivers) fun _ => ?_
  refine .bind (updateBlock_grown b fun _ => rfl) fun _ => ?_
  refine .bind (updateBlock_grown b fun _ => rfl) fun _ => ?_
  refine .bind (updateBlock_grown next fun _ => rfl) fun _ => ?_
  refine .bind (addExit_grown b seq) fun _ => ?_
  refine .bind (addExit_grown seq receive) fun _ => ?_
  refine .bind (addExit_grown receive next) fun _ => ?_
  refine .bind (appendBlock_grown seq) fun _ => ?_
  refine .bind (appendBlock_grown receive) fun _ => ?_
  refine .bind (look_grown _) fun seqData => ?_
  refine .bind (look_grown _) fun receiveData => ?_
  exact .bind (.modify fun s => .of_same rfl rfl) fun _ => .pure _

end Splitting

namespace Visitor

section Keeps

variable {σ ε ω α : Type} {v : Visitor σ ε} {view : σ → ω} {R : ω → ω → Prop} [IsPreorder ω R]

theorem look_keeps (f : Body → Except Fault α) : Keeps view R (v.look f) := by
  apply Keeps.of_still
  intro s
  unfold look
  cases f (v.body s) <;> simp [eq_comm]

theorem walkStmt_keeps (visit : ∀ s scope, Keeps view R (v.visit s scope)) (depth : Nat)
    (scope : Scope) (s : Stmt) : Keeps view R (v.walkStmt depth scope s) := by
  induction depth generalizing scope s with
  | zero => exact .throw _
  | succ depth ih =>
    refine .bind (visit s scope) fun inner => ?_
    exact .bind (look_keeps _) fun children => .forM (ih inner) children

theorem walkBlock_keeps (accepts : ∀ b, Keeps view R (v.accepts b))
    (visit : ∀ s scope, Keeps view R (v.visit s scope)) (options : WalkOptions) (b : Block) :
    Keeps view R (v.walkBlock options b) := by
  have bodies : ∀ scope (ss : List Stmt), Keeps view R (ss.forM (v.walkStmt deepest scope)) :=
    fun scope ss => .forM (walkStmt_keeps visit deepest scope) ss
  refine .bind (accepts b) fun accepted => .ite ?_ (.pure _)
  have received : Keeps view R (if options.receivers then do
      let bodies ← v.look fun body => do
        let data ← body.graph.block b
        receivedBodies body.ast data.receivers
      bodies.forM (v.walkStmt deepest { block := b, underReceiver := true })
    else pure ()) := .ite (.bind (look_keeps _) fun ss => bodies _ ss) (.pure _)
  refine .ite ?_ received
  exact .bind (look_keeps _) fun data => .bind (bodies _ data.sents) fun _ => received

/-- What every visit keeps is kept by a whole walk. -/
theorem walk_keeps (accepts : ∀ b, Keeps view R (v.accepts b))
    (visit : ∀ s scope, Keeps view R (v.visit s scope)) (options : WalkOptions) :
    Keeps view R (v.walk options) :=
  .bind (look_keeps _) fun blocks => .forM (walkBlock_keeps accepts visit options) blocks

end Keeps

end Visitor

namespace Detection

variable {α : Type}

/-- However the action ends, every block is there with the id that it had. -/
abbrev KeepsIds (act : Act α) : Prop := Keeps (fun d => d.body.graph.blockIds) Eq act

theorem look_ids (f : Body → Except Fault α) : KeepsIds (look f) :=
  visitor.look_keeps f

theorem blockId_ids (b : Block) : KeepsIds (blockId b) :=
  .bind (look_ids _) fun _ => .pure _

theorem trace_ids (text : String) : KeepsIds (trace text) := .modify fun _ => rfl

theorem loop_ids (s : Stmt) : KeepsIds (loop s) := by
  refine .bind (look_ids _) fun found => ?_
  cases found with
  | none => exact .throw _
  | some f => exact .pure f

theorem ensureRole_ids (s : Stmt) (allowed : LoopRole → Bool) : KeepsIds (ensureRole s allowed) :=
  .bind (loop_ids s) fun _ => .ite (.pure _) (.throw _)

theorem markLoop_ids (s : Stmt) (mark : LoopRole → Except LoopRole LoopRole) :
    KeepsIds (markLoop s mark) := by
  refine .bind (loop_ids s) fun f => ?_
  cases mark f.role with
  | ok role => exact .modify fun _ => rfl
  | error existing => exact .throw _

theorem onRegistry_ids (act : EStateM Fault Registry α) : KeepsIds (onRegistry act) := by
  have anything : Keeps id (fun _ _ => True) act := fun _ => trivial
  exact anything.onPart fun _ _ _ => rfl

theorem queueReceiver_ids (b : Block) (unit : CommUnit) : KeepsIds (queueReceiver b unit) :=
  .updatePart fun _ _ h => (FlowGraph.updateBlock_blockIds h fun _ => rfl).symm

theorem outerLoop_ids (s : Stmt) (scope : Scope) : KeepsIds (outerLoop s scope) := by
  refine .bind (markLoop_ids s _) fun _ => .bind (blockId_ids scope.block) fun id => ?_
  exact .bind (trace_ids _) fun _ => .pure _

theorem recordInner_ids (s outer : Stmt) (b : Block) : KeepsIds (recordInner s outer b) := by
  refine .bind (blockId_ids b) fun id => ?_
  refine .bind (ensureRole_ids outer _) fun _ => .bind (ensureRole_ids s _) fun _ => ?_
  refine .bind (markLoop_ids s _) fun _ => ?_
  refine .bind (.bind (onRegistry_ids _) fun _ => .pure _) fun _ => ?_
  refine .bind (queueReceiver_ids b _) fun _ => ?_
  exact .bind (.modify fun _ => rfl) fun _ => .pure id

theorem innerLoop_ids (s : Stmt) (scope : Scope) : KeepsIds (innerLoop s scope) := by
  unfold innerLoop
  cases scope.outer with
  | none => exact .bind (blockId_ids scope.block) fun _ => .throw _
  | some outer =>
    refine .bind (recordInner_ids s outer scope.block) fun _ => ?_
    exact .bind (markLoop_ids outer _) fun _ => trace_ids _

theorem recordWrite_ids (s host outer : Stmt) (b : Block) : KeepsIds (recordWrite s host outer b) := by
  refine .bind (blockId_ids b) fun id => .bind (look_ids _) fun assign => ?_
  cases assign.bind (·.target.field?) with
  | none => exact .throw _
  | some access =>
    refine .bind (ensureRole_ids outer _) fun _ => ?_
    refine .bind (.bind (onRegistry_ids _) fun _ => .pure _) fun _ => ?_
    refine .bind (onRegistry_ids _) fun _ => .bind (queueReceiver_ids b _) fun _ => ?_
    exact .bind (.modify fun _ => rfl) fun _ => .pure id

theorem randomWrite_ids (s host : Stmt) (scope : Scope) : KeepsIds (randomWrite s host scope) := by
  unfold randomWrite
  cases scope.outer with
  | none => exact .bind (blockId_ids scope.block) fun _ => .throw _
  | some outer =>
    refine .bind (recordWrite_ids s host outer scope.block) fun _ => ?_
    exact .bind (markLoop_ids outer _) fun _ => trace_ids _

theorem visit_ids (s : Stmt) (scope : Scope) : KeepsIds (visit s scope) := by
  refine .ite ?_ ?_
  · exact .bind (blockId_ids scope.block) fun id _ => rfl
  · refine .bind (look_ids _) fun statement => ?_
    cases statement.site with
    | outerLoop => exact outerLoop_ids s scope
    | innerLoop => exact .bind (innerLoop_ids s scope) fun _ => .pure _
    | randomWrite host => exact .bind (randomWrite_ids s host scope) fun _ => .pure _
    | nothing => exact .pure _

theorem findCommunication_ids : KeepsIds findCommunication := by
  refine .bind (visitor.walk_keeps (fun b => ?_) visit_ids _) fun _ => ?_
  · exact .bind (look_ids _) fun _ => .pure _
  · exact .bind .get fun _ => .pure _

end Detection

namespace Procedure

/-- The ids of the blocks of a procedure, and the counter of its program. -/
def ledger (s : Stage Procedure) : Ledger := ⟨s.subject.graph.blockIds, s.context.ids⟩

theorem findCommunication_grown : Keeps ledger Ledger.Grown findCommunication :=
  Detection.findCommunication_ids.onPart fun _ _ h => .of_same h.symm rfl

theorem splitVertexBlock_grown (b : Block) : Keeps ledger Ledger.Grown (splitVertexBlock b) :=
  (Splitting.splitVertexBlock_grown b).onPart fun _ _ h => h

theorem splitCommunication_grown : Keeps ledger Ledger.Grown splitCommunication := by
  refine .bind .get fun s => .ite (.pure _) ?_
  refine .bind findCommunication_grown fun targets => ?_
  refine .bind (.modify fun _ => .of_same rfl rfl) fun _ => ?_
  exact .mapM splitVertexBlock_grown targets.order

end Procedure

end Superstep
