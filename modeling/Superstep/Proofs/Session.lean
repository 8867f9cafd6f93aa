import Superstep.Proofs.Built
import Superstep.Proofs.SplitRun
import Superstep.Proofs.Stages

namespace Superstep

namespace Builder

def ledger (u : Builder) : Ledger := ⟨u.body.graph.blockIds, u.context.ids⟩

theorem updateGraph_grown {f : FlowGraph → Except Fault FlowGraph}
    (h : ∀ g g', f g = .ok g' → g'.blockIds = g.blockIds) :
    Keeps ledger Ledger.Grown (updateGraph f) :=
  .updatePart fun u g hg => .of_same (h u.body.graph g hg) rfl

/-- However a call ends, it takes ids for new blocks only. -/
theorem Call.act_grown {call : Call} (own : call ≠ .issueId) :
    Keeps ledger Ledger.Grown call.act := by
  by_cases tree : call.onTree = true
  · intro u
    obtain ⟨hgraph, hids⟩ := Prod.mk.inj (call.act_blocks tree u)
    exact .of_same (congrArg FlowGraph.blockIds hgraph.symm) hids.symm
  · cases call with
    | createBlock kind =>
      refine .bind (.bind ((FlowGraph.createBlock_grown kind).onPart fun _ _ h => h) fun b => ?_)
        fun _ => .pure _
      refine .bind (updateGraph_grown fun g g' h => ?_) fun _ => .pure _
      exact FlowGraph.appendBlock_blockIds h
    | addSent b s =>
      rw [Call.act, Builder.addSent]
      exact updateGraph_grown fun g g' h => FlowGraph.updateBlock_blockIds h fun _ => rfl
    | link a b =>
      rw [Call.act, Builder.link]
      exact updateGraph_grown fun g g' h => FlowGraph.addExit_blockIds h
    | setEntry b =>
      rw [Call.act, Builder.setEntry]
      refine updateGraph_grown fun g g' h => ?_
      obtain ⟨entry, _, h⟩ := except_bind_ok.mp h
      cases h
      rfl
    | issueId => exact absurd rfl own
    | symbol | sentBlock | foreach | assignField | assignScalar | markRandomWrite | ifStmt
    | whileStmt | verbatim | setBody => exact absurd rfl tree

/-- Who takes the ids of a call: the blocks that come into being, or someone outside. -/
def Call.takers (u : Builder) : Call → List (Option Nat)
  | .issueId => [none]
  | call => newSlots u.body.graph.blocks.size (finalState call.act u).body.graph.blocks.size

/-- Calls one after the other, whatever becomes of each. -/
def attempt (calls : List Call) (u : Builder) : Builder :=
  calls.foldl (fun u call => finalState call.act u) u

/-- Who takes the ids of calls one after the other. -/
def takers : List Call → Builder → List (Option Nat)
  | [], _ => []
  | call :: calls, u => call.takers u ++ takers calls (finalState call.act u)

theorem Call.charged (call : Call) (u : Builder) :
    Charged u.context.ids (call.takers u) u.body.graph.idAt
        (finalState call.act u).body.graph.idAt ∧
      (finalState call.act u).context.ids = u.context.ids.after (call.takers u).length := by
  by_cases own : call = .issueId
  · subst own
    exact ⟨.none u.context.ids 1 _, rfl⟩
  · have htakers : call.takers u =
        newSlots u.body.graph.blockIds.length (finalState call.act u).body.graph.blockIds.length := by
      rw [FlowGraph.length_blockIds, FlowGraph.length_blockIds]
      cases call <;> first | rfl | exact absurd rfl own
    rw [htakers]
    exact (call.act_grown own u).charged

theorem attempt_charged (calls : List Call) (u : Builder) :
    Charged u.context.ids (takers calls u) u.body.graph.idAt (attempt calls u).body.graph.idAt ∧
      (attempt calls u).context.ids = u.context.ids.after (takers calls u).length := by
  induction calls generalizing u with
  | nil => exact ⟨.none u.context.ids 0 _, rfl⟩
  | cons call calls ih =>
    obtain ⟨first, hids⟩ := call.charged u
    obtain ⟨rest, hids'⟩ := ih (finalState call.act u)
    rw [hids] at rest hids'
    refine ⟨first.trans rest, hids'.trans ?_⟩
    rw [takers, List.length_append, IdCounter.after_add]

end Builder

namespace Procedure

/-- Creates a block that is not listed yet. -/
def createBlock (kind : BlockKind) : EStateM Fault (Stage Procedure) Block :=
  onPart (fun s => (s.subject.graph, s.context.ids))
    (fun s (graph, ids) => { s with subject.graph := graph, context.ids := ids }) (·)
    (FlowGraph.createBlock kind)

theorem createBlock_grown (kind : BlockKind) : Keeps ledger Ledger.Grown (createBlock kind) :=
  (FlowGraph.createBlock_grown kind).onPart fun _ _ h => h

theorem findCommunication_context :
    Keeps (fun s => (s.subject.graph.blockIds, s.context)) Eq findCommunication :=
  Detection.findCommunication_ids.onPart fun s _ h => congrArg (·, s.context) h

end Procedure

namespace Stage

variable {ε β : Type}

/-- A block of a program, by its procedure and its number there. -/
def block? (s : Stage Program) (slot : Proc × Nat) : Option BlockData :=
  (s.subject.procedures.get? slot.1).bind (·.graph.blocks.values[slot.2]?)

/-- The id of a block of a program. -/
def idOf (s : Stage Program) (slot : Proc × Nat) : Option BlockId :=
  (s.subject.procedures.get? slot.1).bind (·.graph.idAt slot.2)

theorem idOf_eq (s : Stage Program) (slot : Proc × Nat) :
    s.idOf slot = (s.block? slot).map (·.id) := by
  unfold idOf block?
  cases s.subject.procedures.get? slot.1 with
  | none => rfl
  | some procedure => exact procedure.graph.idAt_eq slot.2

/-- The number of blocks of a procedure. -/
def blockCount (s : Stage Program) (p : Proc) : Nat :=
  ((s.subject.procedures.get? p).map (·.graph.blocks.size)).getD 0

/-- The blocks that a procedure has in one stage of a program and had not in another. -/
def newBlocks (s t : Stage Program) (p : Proc) : List (Option (Proc × Nat)) :=
  (newSlots (s.blockCount p) (t.blockCount p)).map (Option.map (p, ·))

theorem onProcedure_charged {act : EStateM ε (Stage Procedure) β}
    (grown : Keeps Procedure.ledger Ledger.Grown act) (p : Proc) (wrap : Fault → ε)
    (s : Stage Program) {t : Stage Program} (ends : finalState (onProcedure p wrap act) s = t) :
    Charged s.context.ids (newBlocks s t p) s.idOf t.idOf ∧
      t.context.ids = s.context.ids.after (newBlocks s t p).length := by
  cases h : s.subject.procedures.get? p with
  | none =>
    rw [finalState_onProcedure_of_absent h] at ends
    subst ends
    have nothing : newBlocks s s p = [] := by simp [newBlocks, newSlots]
    rw [nothing]
    exact ⟨.none s.context.ids 0 _, rfl⟩
  | some procedure =>
    rw [finalState_onProcedure h] at ends
    subst ends
    have hget := get?_withProcedure h (finalState act (s.focus procedure))
    have hcount : s.blockCount p = procedure.graph.blockIds.length := by
      rw [blockCount, h, FlowGraph.length_blockIds]
      rfl
    have hcount' : (s.withProcedure p (finalState act (s.focus procedure))).blockCount p =
        (finalState act (s.focus procedure)).subject.graph.blockIds.length := by
      rw [blockCount, hget p, if_pos rfl, FlowGraph.length_blockIds]
      rfl
    obtain ⟨charged, hids⟩ := (grown (s.focus procedure)).charged
    rw [newBlocks, hcount, hcount', List.length_map]
    refine ⟨charged.lift p ?_ ?_ ?_, hids⟩
    · intro i
      rw [idOf, h]
      rfl
    · intro i
      rw [idOf, hget p, if_pos rfl]
      rfl
    · intro q i hq
      rw [idOf, idOf, hget q, if_neg hq]

end Stage

/-- Something that is done with a program. A procedure is made by calls of a builder, which is
defined or dropped in the end. -/
inductive Action where
  | procedure (name : String) (calls : List Builder.Call) (defined : Bool)
  | createBlock (p : Proc) (kind : BlockKind)
  | issueId
  | findCommunication (p : Proc)
  | splitVertexBlock (p : Proc) (b : Block)
  | splitCommunication (p : Proc)

/-- An id that was handed out, and the block that it was for, if that is still there. -/
abbrev Issue := BlockId × Option (Proc × Nat)

namespace Action

/-- What an action leaves behind, whether it succeeds, is refused or stops in the middle. -/
def apply : Action → Stage Program → Stage Program
  | procedure name calls defined, s =>
    match Program.declare name s.subject with
    | .error _ p => { s with subject := p }
    | .ok key p =>
      let built := Builder.attempt calls { context := s.context }
      match defined, p.define key built.body with
      | true, .ok q => { s with subject := q, context := built.context }
      | _, _ => { s with subject := p, context := built.context }
  | createBlock p kind, s => finalState (Stage.onProcedure p (·) (Procedure.createBlock kind)) s
  | issueId, s => { s with context.ids := s.context.ids.issue.2 }
  | findCommunication p, s => finalState (Stage.onProcedure p .fault Procedure.findCommunication) s
  | splitVertexBlock p b, s =>
    finalState (Stage.onProcedure p .fault (Procedure.splitVertexBlock b)) s
  | splitCommunication p, s => finalState (Stage.onProcedure p .fault Procedure.splitCommunication) s

/-- Who takes the ids of an action: the blocks that come into being in it, or nobody that stays. -/
def takers (a : Action) (s : Stage Program) : List (Option (Proc × Nat)) :=
  match a with
  | procedure name calls defined =>
    match Program.declare name s.subject with
    | .error _ _ => []
    | .ok key _ => (Builder.takers calls { context := s.context }).map fun taker =>
      if defined then taker.map (key, ·) else none
  | createBlock p _ | findCommunication p | splitVertexBlock p _ | splitCommunication p =>
    s.newBlocks (a.apply s) p
  | issueId => [none]

/-- The ids that are handed out in an action, in order. -/
def issues (a : Action) (s : Stage Program) : List Issue :=
  (s.context.ids.upcoming (a.takers s).length).zip (a.takers s)

/-- Actions one after the other. -/
def run (actions : List Action) (s : Stage Program) : Stage Program :=
  actions.foldl (fun s a => a.apply s) s

/-- The ids that are handed out in actions one after the other. -/
def history : List Action → Stage Program → List Issue
  | [], _ => []
  | a :: actions, s => a.issues s ++ history actions (a.apply s)

/-- A builder that is defined gives its blocks to the new procedure, a dropped one gives none. -/
theorem procedure_charged (name : String) (calls : List Builder.Call) (defined : Bool)
    (s : Stage Program) :
    Charged s.context.ids ((procedure name calls defined).takers s) s.idOf
        ((procedure name calls defined).apply s).idOf ∧
      ((procedure name calls defined).apply s).context.ids =
        s.context.ids.after ((procedure name calls defined).takers s).length := by
  cases hd : Program.declare name s.subject with
  | error e p =>
    have happly : (procedure name calls defined).apply s = s := by
      simp only [apply, hd, Program.declare_error hd]
    have htakers : (procedure name calls defined).takers s = [] := by simp only [takers, hd]
    rw [happly, htakers]
    exact ⟨.none s.context.ids 0 _, rfl⟩
  | ok key p =>
    have htakers : (procedure name calls defined).takers s =
        (Builder.takers calls { context := s.context }).map fun taker =>
          if defined then taker.map (key, ·) else none := by simp only [takers, hd]
    obtain ⟨hkey, rfl⟩ := Program.declare_ok hd
    obtain ⟨charged, hids⟩ := Builder.attempt_charged calls { context := s.context }
    have vacant : ∀ i, s.idOf (key, i) = none := by
      intro i
      have absent : s.subject.procedures.get? key = none := Table.get?_eq_none_iff.mpr (by omega)
      rw [Stage.idOf, absent]
      rfl
    have others : ∀ q, q ≠ key → (s.subject.procedures.push { name, key }).get? q =
        s.subject.procedures.get? q := by
      intro q hq
      have hindex : ¬q.index = s.subject.procedures.size := fun he => hq (Key.ext (he.trans hkey.symm))
      rw [Table.get?_push, if_neg hindex]
    rw [htakers, List.length_map]
    cases defined with
    | false =>
      have same : Stage.idOf ((procedure name calls false).apply s) = s.idOf := by
        funext slot
        obtain ⟨q, i⟩ := slot
        simp only [apply, hd, Stage.idOf]
        by_cases hq : q = key
        · subst hq
          rw [Table.get?_push, if_pos hkey]
          exact (vacant i).symm
        · rw [others q hq]
      have nobody : (Builder.takers calls { context := s.context }).map
          (fun taker => if false = true then taker.map (key, ·) else none) =
          List.replicate (Builder.takers calls { context := s.context }).length none :=
        List.map_const' ..
      rw [same, nobody]
      refine ⟨.none s.context.ids _ _, ?_⟩
      simp only [apply, hd]
      exact hids
    | true =>
      obtain ⟨hdefine, hget⟩ := Program.define_of_declared hd
        (Builder.attempt calls { context := s.context }).body
      simp only [apply, hd, hdefine, if_true]
      refine ⟨charged.lift key vacant ?_ ?_, hids⟩
      · intro i
        rw [Stage.idOf, hget]
        rfl
      · intro q i hq
        simp only [Stage.idOf]
        rw [Table.get?_set_of_ne (Ne.symm hq), others q hq]

/-- One action gives every new block the next id, and leaves all other ids alone. -/
theorem apply_charged (a : Action) (s : Stage Program) :
    Charged s.context.ids (a.takers s) s.idOf (a.apply s).idOf ∧
      (a.apply s).context.ids = s.context.ids.after (a.takers s).length := by
  cases a with
  | procedure name calls defined => exact procedure_charged name calls defined s
  | createBlock p kind => exact Stage.onProcedure_charged (Procedure.createBlock_grown kind) p _ s rfl
  | issueId => exact ⟨.none s.context.ids 1 _, rfl⟩
  | findCommunication p =>
    exact Stage.onProcedure_charged Procedure.findCommunication_grown p _ s rfl
  | splitVertexBlock p b =>
    exact Stage.onProcedure_charged (Procedure.splitVertexBlock_grown b) p _ s rfl
  | splitCommunication p =>
    exact Stage.onProcedure_charged Procedure.splitCommunication_grown p _ s rfl

theorem run_charged (actions : List Action) (s : Stage Program) :
    Charged s.context.ids ((history actions s).map Prod.snd) s.idOf (run actions s).idOf ∧
      (run actions s).context.ids = s.context.ids.after (history actions s).length ∧
      (history actions s).map Prod.fst = s.context.ids.upcoming (history actions s).length := by
  induction actions generalizing s with
  | nil => exact ⟨.none s.context.ids 0 _, rfl, rfl⟩
  | cons a actions ih =>
    obtain ⟨first, hids⟩ := a.apply_charged s
    obtain ⟨rest, hids', hupcoming⟩ := ih (a.apply s)
    have htakers : (a.issues s).map Prod.snd = a.takers s := List.map_snd_zip (by simp)
    have hissued : (a.issues s).map Prod.fst = s.context.ids.upcoming (a.takers s).length :=
      List.map_fst_zip (by simp)
    have hlength : (a.issues s).length = (a.takers s).length := by rw [← htakers, List.length_map]
    rw [hids] at rest hids' hupcoming
    refine ⟨?_, ?_, ?_⟩
    · rw [history, List.map_append, htakers]
      exact first.trans rest
    · rw [history, List.length_append, hlength, IdCounter.after_add]
      exact hids'
    · rw [history, List.map_append, hissued, hupcoming, List.length_append, hlength,
        IdCounter.upcoming_add]

/-- A split that succeeds takes two ids: one for the sequential block, then one for the block that
receives. -/
theorem issues_split {s t : Stage Program} {p : Proc} {b : Block} {split : SplitBlocks}
    (h : Stage.onProcedure p .fault (Procedure.splitVertexBlock b) s = .ok split t) :
    (splitVertexBlock p b).issues s =
      [(s.context.ids.issue.1, some (p, split.seq.index)),
        (s.context.ids.issue.2.issue.1, some (p, split.receive.index))] ∧
    t.context.ids = s.context.ids.issue.2.issue.2 ∧
    t.idOf (p, split.seq.index) = some s.context.ids.issue.1 ∧
    t.idOf (p, split.receive.index) = some s.context.ids.issue.2.issue.1 := by
  obtain ⟨procedure, u, hget, hsplit, rfl⟩ := Stage.onProcedure_ok.mp h
  obtain ⟨r, hr, rfl⟩ := onPart_ok.mp hsplit
  obtain ⟨-, -, next, data, -, sp⟩ := Splitting.splitVertexBlock_ok hr
  have happly := finalState_of_ok h
  have hcount : s.blockCount p = procedure.graph.blocks.size := by
    rw [Stage.blockCount, hget]
    rfl
  have hcount' : ((splitVertexBlock p b).apply s).blockCount p =
      procedure.graph.blocks.size + 2 := by
    rw [apply, happly, Stage.blockCount, Stage.get?_withProcedure hget, if_pos rfl]
    exact sp.size
  have hslots : newSlots procedure.graph.blocks.size (procedure.graph.blocks.size + 2) =
      [some procedure.graph.blocks.size, some (procedure.graph.blocks.size + 1)] := by
    rw [newSlots, Nat.add_sub_cancel_left]
    rfl
  have htakers : (splitVertexBlock p b).takers s =
      [some (p, split.seq.index), some (p, split.receive.index)] := by
    rw [takers, Stage.newBlocks, hcount, hcount', hslots, sp.seq_index, sp.receive_index]
    rfl
  obtain ⟨charged, hids⟩ := (splitVertexBlock p b).apply_charged s
  rw [htakers, apply, happly] at charged hids
  refine ⟨?_, hids, (charged.taken 0 _ rfl).2, (charged.taken 1 _ rfl).2⟩
  rw [issues, htakers]
  rfl

theorem issues_of_takers {a : Action} {s : Stage Program} (h : a.takers s = []) :
    a.issues s = [] := by
  rw [issues, h]
  rfl

theorem newBlocks_of_count {s t : Stage Program} {p : Proc} (h : t.blockCount p = s.blockCount p) :
    s.newBlocks t p = [] := by
  rw [Stage.newBlocks, newSlots, h, Nat.sub_self]
  rfl

/-- A split that is refused changes nothing and takes no id. -/
theorem issues_refused {s t : Stage Program} {p : Proc} {b : Block} {e : CommError}
    (h : Stage.onProcedure p .fault (Procedure.splitVertexBlock b) s = .error (.error e) t) :
    t = s ∧ (splitVertexBlock p b).issues s = [] := by
  have same : t = s := by
    rcases Stage.onProcedure_error.mp h with ⟨-, he, -⟩ | ⟨procedure, u, hget, hsplit, rfl⟩
    · cases he
    · obtain ⟨_, r, hr, rfl, rfl⟩ := onPart_error.mp hsplit
      rw [Splitting.splitVertexBlock_error hr]
      exact Stage.withProcedure_focus hget
  have happly : (splitVertexBlock p b).apply s = s := (finalState_of_error h).trans same
  refine ⟨same, issues_of_takers ?_⟩
  rw [takers, happly]
  exact newBlocks_of_count rfl

/-- However detection ends, it takes no id. -/
theorem issues_findCommunication (p : Proc) (s : Stage Program) :
    ((findCommunication p).apply s).context = s.context ∧ (findCommunication p).issues s = [] := by
  cases h : s.subject.procedures.get? p with
  | none =>
    have happly : (findCommunication p).apply s = s := Stage.finalState_onProcedure_of_absent h
    refine ⟨congrArg Stage.context happly, issues_of_takers ?_⟩
    rw [takers, happly]
    exact newBlocks_of_count rfl
  | some procedure =>
    have happly : (findCommunication p).apply s = s.withProcedure p
        (finalState Procedure.findCommunication (s.focus procedure)) :=
      Stage.finalState_onProcedure h
    obtain ⟨hblocks, hcontext⟩ := Prod.mk.inj (Procedure.findCommunication_context (s.focus procedure))
    refine ⟨(congrArg Stage.context happly).trans hcontext.symm, issues_of_takers ?_⟩
    rw [takers, happly]
    apply newBlocks_of_count
    rw [Stage.blockCount, Stage.blockCount, Stage.get?_withProcedure h, if_pos rfl, h]
    have hlength := congrArg List.length hblocks
    rw [FlowGraph.length_blockIds, FlowGraph.length_blockIds] at hlength
    exact hlength.symm

/-- A new program, about which nothing has been printed. -/
def start (name : String) : Stage Program where
  subject := (Program.create name).1
  context := (Program.create name).2

section Run

variable {name : String} {actions : List Action} {s : Stage Program} {issued : List Issue}

theorem history_charged (ran : run actions (start name) = s)
    (recorded : history actions (start name) = issued) :
    Charged {} (issued.map Prod.snd) (fun _ => none) s.idOf ∧
      s.context.ids = ({} : IdCounter).after issued.length ∧
      issued.map Prod.fst = ({} : IdCounter).upcoming issued.length := by
  have h := run_charged actions (start name)
  rw [ran, recorded] at h
  exact h

theorem history_number (recorded : history actions (start name) = issued) {k : Nat} {id : BlockId}
    {taker : Option (Proc × Nat)} (hk : issued[k]? = some (id, taker)) :
    id.index = k % 0x100000000 := by
  obtain ⟨-, -, hupcoming⟩ := history_charged rfl recorded
  have hlt := (List.getElem?_eq_some_iff.mp hk).1
  have hid : (issued.map Prod.fst)[k]? = some id := by
    rw [List.getElem?_map, hk]
    rfl
  rw [hupcoming, IdCounter.getElem?_upcoming _ hlt] at hid
  cases hid
  have hnumber := ({} : IdCounter).index_next_after k
  rw [show (({} : IdCounter)).next.index = 0 from rfl, Nat.zero_add] at hnumber
  exact hnumber

theorem history_of_taker (recorded : history actions (start name) = issued) {k : Nat}
    {slot : Proc × Nat} (hk : (issued.map Prod.snd)[k]? = some (some slot)) :
    issued[k]? = some ((({} : IdCounter).after k).issue.1, some slot) := by
  obtain ⟨-, -, hupcoming⟩ := history_charged rfl recorded
  rw [List.getElem?_map] at hk
  obtain ⟨⟨id, taker⟩, hissue, rfl⟩ := Option.map_eq_some_iff.mp hk
  have hlt := (List.getElem?_eq_some_iff.mp hissue).1
  have hid : (issued.map Prod.fst)[k]? = some id := by
    rw [List.getElem?_map, hissue]
    rfl
  rw [hupcoming, IdCounter.getElem?_upcoming _ hlt] at hid
  cases hid
  exact hissue

/-- Over a whole run the ids count up and come round, each block keeps the one that was issued when
it was created, and two blocks share an id only if it came round between them. -/
theorem run_blockIds (ran : run actions (start name) = s)
    (recorded : history actions (start name) = issued) :
    s.context.ids = ({} : IdCounter).after issued.length ∧
    (∀ (k : Nat) id taker, issued[k]? = some (id, taker) → id.index = k % 0x100000000) ∧
    (∀ slot x, s.block? slot = some x → ∃ k : Nat, issued[k]? = some (x.id, some slot) ∧
      ∀ (l : Nat) id, issued[l]? = some (id, some slot) → l = k) ∧
    (∀ (k : Nat) id slot, issued[k]? = some (id, some slot) → ∃ x, s.block? slot = some x ∧ x.id = id) ∧
    (∀ slot slot' x y (k l : Nat), slot ≠ slot' → s.block? slot = some x → s.block? slot' = some y →
      issued[k]? = some (x.id, some slot) → issued[l]? = some (y.id, some slot') →
      (x.id = y.id ↔ ∃ m : Int, m ≠ 0 ∧ (k : Int) - l = m * 0x100000000)) ∧
    (issued.length ≤ 0x100000000 → ∀ slot slot' x y, s.block? slot = some x →
      s.block? slot' = some y → x.id = y.id → slot = slot') ∧
    (∀ u t p b split, Stage.onProcedure p .fault (Procedure.splitVertexBlock b) u = .ok split t →
      (splitVertexBlock p b).issues u =
        [(u.context.ids.issue.1, some (p, split.seq.index)),
          (u.context.ids.issue.2.issue.1, some (p, split.receive.index))] ∧
      t.context.ids = u.context.ids.issue.2.issue.2 ∧
      t.idOf (p, split.seq.index) = some u.context.ids.issue.1 ∧
      t.idOf (p, split.receive.index) = some u.context.ids.issue.2.issue.1) ∧
    (∀ u t p b e,
      Stage.onProcedure p .fault (Procedure.splitVertexBlock b) u = .error (.error e) t →
      t = u ∧ (splitVertexBlock p b).issues u = []) ∧
    ∀ u p, ((findCommunication p).apply u).context = u.context ∧
      (findCommunication p).issues u = [] := by
  obtain ⟨charged, hids, -⟩ := history_charged ran recorded
  have idOf_block : ∀ slot x, s.block? slot = some x → s.idOf slot = some x.id := by
    intro slot x hx
    rw [Stage.idOf_eq, hx]
    rfl
  have taker : ∀ {k : Nat} {id : BlockId} {slot}, issued[k]? = some (id, some slot) →
      (issued.map Prod.snd)[k]? = some (some slot) := by
    intro k id slot hk
    rw [List.getElem?_map, hk]
    rfl
  refine ⟨hids, fun k id taker hk => history_number recorded hk, ?_, ?_, ?_, ?_,
    fun u t p b split h => issues_split h, fun u t p b e h => issues_refused h,
    fun u p => issues_findCommunication p u⟩
  · intro slot x hx
    obtain ⟨k, hk, hid⟩ := charged.position (idOf_block slot x hx)
    refine ⟨k, hid ▸ history_of_taker recorded hk, fun l id hl => ?_⟩
    exact charged.once l k slot (taker hl) hk
  · intro k id slot hk
    have hid := (charged.taken k slot (taker hk)).2
    rw [Stage.idOf_eq] at hid
    obtain ⟨x, hx, hxid⟩ := Option.map_eq_some_iff.mp hid
    have hissue := history_of_taker recorded (taker hk)
    rw [hk] at hissue
    cases hissue
    exact ⟨x, hx, hxid⟩
  · intro slot slot' x y k l hne _ _ hk hl
    have hx := history_number recorded hk
    have hy := history_number recorded hl
    have hkl : k ≠ l := by
      intro he
      subst he
      have hissue := Option.some.inj (hk.symm.trans hl)
      exact hne (Option.some.inj (Prod.mk.inj hissue).2)
    rw [Key.ext_iff, hx, hy]
    constructor
    · intro same
      exact ⟨(k / 0x100000000 : Nat) - (l / 0x100000000 : Nat), by omega, by omega⟩
    · rintro ⟨m, -, hm⟩
      omega
  · intro room slot slot' x y hx hy he
    refine charged.injective (by rwa [List.length_map]) (idOf_block slot x hx) ?_
    rw [he]
    exact idOf_block slot' y hy

end Run

/-- A superstep in whose vertex block an inner loop sends, between two other blocks. -/
def superstepCalls : List Builder.Call :=
  [.symbol "G" .graph, .symbol "n" .node, .symbol "t" .node, .verbatim "skip",
    .foreach (Key.wrap 2) (Key.wrap 1) .outNbrs (Key.wrap 0),
    .foreach (Key.wrap 1) (Key.wrap 0) .allNodes (Key.wrap 1), .createBlock .seq,
    .createBlock .beginVertex, .createBlock .seq, .addSent (Key.wrap 1) (Key.wrap 2),
    .link (Key.wrap 0) (Key.wrap 1), .link (Key.wrap 1) (Key.wrap 2), .setEntry (Key.wrap 0)]

/-- Two procedures are made, one of them by a builder that is dropped. A name that is taken and a
split of a block that does not receive are refused. -/
def twoProcedures : List Action :=
  [.procedure "main" superstepCalls true, .procedure "main" superstepCalls true,
    .procedure "aux" [.createBlock .seq] false, .issueId,
    .splitVertexBlock (Key.wrap 0) (Key.wrap 1), .splitCommunication (Key.wrap 0),
    .createBlock (Key.wrap 0) .seq, .createBlock (Key.wrap 1) .ifCond]

theorem run_blockIds_of_twoProcedures :
    history twoProcedures (start "P") =
      [(Key.wrap 0, some (Key.wrap 0, 0)), (Key.wrap 1, some (Key.wrap 0, 1)),
        (Key.wrap 2, some (Key.wrap 0, 2)), (Key.wrap 3, none), (Key.wrap 4, none),
        (Key.wrap 5, some (Key.wrap 0, 3)), (Key.wrap 6, some (Key.wrap 0, 4)),
        (Key.wrap 7, some (Key.wrap 0, 5)), (Key.wrap 8, some (Key.wrap 1, 0))] ∧
    ∀ slot slot' x y, (run twoProcedures (start "P")).block? slot = some x →
      (run twoProcedures (start "P")).block? slot' = some y → x.id = y.id → slot = slot' := by
  have recorded : history twoProcedures (start "P") =
      [(Key.wrap 0, some (Key.wrap 0, 0)), (Key.wrap 1, some (Key.wrap 0, 1)),
        (Key.wrap 2, some (Key.wrap 0, 2)), (Key.wrap 3, none), (Key.wrap 4, none),
        (Key.wrap 5, some (Key.wrap 0, 3)), (Key.wrap 6, some (Key.wrap 0, 4)),
        (Key.wrap 7, some (Key.wrap 0, 5)), (Key.wrap 8, some (Key.wrap 1, 0))] := by decide +kernel
  obtain ⟨-, -, -, -, -, distinct, -⟩ := run_blockIds rfl recorded
  exact ⟨recorded, distinct (by decide)⟩

end Action

end Superstep
