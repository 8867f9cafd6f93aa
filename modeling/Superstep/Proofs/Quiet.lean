import Superstep.Pipeline
import Superstep.Proofs.Parallel
import Superstep.Proofs.Stages

namespace Superstep

section Exact

/-- Where every id is seen as it is, only the same looks alike. -/
theorem FlowGraph.seen_exact (g : FlowGraph) : g.seen .exact = g := by
  have same : g.blocks.map (·.seen .exact) = g.blocks := by
    have slots : g.blocks.slots.map (fun x => x) = g.blocks.slots := Array.map_id' _
    exact congrArg Table.mk slots
  unfold seen
  rw [same]

theorem CommError.seen_exact (e : CommError) : e.seen .exact = e := by
  cases e with
  | edge e => cases e <;> rfl
  | _ => rfl

end Exact

namespace Stage

variable {α : Type}

/-- The stages differ at most in what has been logged. -/
def Quiet (s t : Stage α) : Prop :=
  s.subject = t.subject ∧ s.context = t.context ∧ s.console.quiet = t.console.quiet

theorem Quiet.refl (s : Stage α) : s.Quiet s := ⟨rfl, rfl, rfl⟩

theorem report_quiet {ε : Type} (level : LogLevel) (text text' : String) {E : ε → ε → Prop} :
    Lockstep E Eq Quiet (report level text : EStateM ε (Stage α) Unit) (report level text') :=
  .modify fun _ _ quiet => quiet

/-- What a stream takes does not depend on the log. -/
theorem print_quiet (stream : Stream) {refused : Fault} (text : String)
    (h : ∀ name, refused ≠ .failedVerification name) :
    Lockstep Fault.Like Eq Quiet (print stream refused text : EStateM Fault (Stage α) Unit)
      (print stream refused text) := by
  refine .updatePart (P := fun c d => c.quiet = d.quiet) (fun s t quiet => ?_)
    (fun _ _ _ _ quiet new => ⟨quiet.1, quiet.2.1, new⟩) fun _ _ he => he
  obtain ⟨hout, herr, hbuffer, -⟩ := Console.mk.inj quiet.2.2
  cases stream with
  | stdout =>
    refine .ok ?_
    simp only [Console.quiet, hout, herr, hbuffer]
  | stderr =>
    refine .ok ?_
    simp only [Console.quiet, hout, herr, hbuffer]
  | buffer =>
    refine .ok ?_
    simp only [Console.quiet, hout, herr, hbuffer]
  | closed =>
    unfold Console.print?
    by_cases empty : text.isEmpty
    · simp only [if_pos empty]
      exact .ok quiet.2.2
    · simp only [if_neg empty]
      exact .error ⟨rfl, h⟩

end Stage

namespace Procedure

variable (p : Procedure) (strings : StringPool)

theorem blockNames_alike (blocks : List Block) :
    Alike Fault.Like Eq (p.blockNames blocks) (p.blockNames blocks) := by
  refine .andThen (.mapM (fun b => ?_) blocks) fun names => .ok rfl
  exact (p.graph.blocks.get_alike b).andThen fun data => .ok rfl

theorem strings_alike (handle : Str) :
    Alike Fault.Like Eq (strings.get handle) (strings.get handle) := by
  unfold StringPool.get
  cases strings.get? handle with
  | none => exact .error ⟨rfl, fun _ => Fault.noConfusion⟩
  | some s => exact .ok rfl

theorem receiverLine_alike (unit : CommUnit) :
    Alike Fault.Like Eq (p.receiverLine strings unit) (p.receiverLine strings unit) := by
  cases unit with
  | nested loop => exact .ok rfl
  | randomWrite host symbol =>
    refine (p.ast.symbols.get_alike symbol).andThen fun declaration => ?_
    exact (strings_alike strings declaration.name).andThen fun name => .ok rfl

theorem blockLines_alike (b : Block) :
    Alike Fault.Like Eq (p.blockLines strings b) (p.blockLines strings b) := by
  refine (p.graph.blocks.get_alike b).andThen fun data => ?_
  refine (p.blockNames_alike data.entries).andThen fun entries => ?_
  refine (p.blockNames_alike data.exits).andThen fun exits => ?_
  refine .andThen (.mapM (fun s => ?_) data.sents) fun sents => ?_
  · exact (p.ast.stmts.get_alike s).andThen fun statement => .ok rfl
  · exact .andThen (.mapM (p.receiverLine_alike strings) data.receivers) fun receivers => .ok rfl

/-- A listing that cannot be made fails for a reason of its own. -/
theorem listing_alike : Alike Fault.Like Eq (p.listing strings) (p.listing strings) := by
  unfold listing
  cases p.graph.entry.expand with
  | none =>
    refine .andThen (.ok rfl) fun entry => ?_
    exact .andThen (.mapM (p.blockLines_alike strings) p.graph.layout) fun _ => .ok rfl
  | some b =>
    refine (p.blockNames_alike [b]).andThen fun entry => ?_
    exact .andThen (.mapM (p.blockLines_alike strings) p.graph.layout) fun _ => .ok rfl

/-- To be the same procedure in every id is to be the same. -/
theorem stageLike_exact_iff {s t : Stage Procedure} : StageLike .exact s t ↔ s.Quiet t := by
  constructor
  · rintro ⟨⟨⟨hast, hgraph⟩, hname, hkey⟩, hids, hstrings, hconsole⟩
    unfold FlowGraph.Like at hgraph
    rw [FlowGraph.seen_exact, FlowGraph.seen_exact] at hgraph
    obtain ⟨⟨⟨_, _⟩, _, _⟩, ⟨_, _⟩, _⟩ := s
    obtain ⟨⟨⟨_, _⟩, _, _⟩, ⟨_, _⟩, _⟩ := t
    cases hast
    cases hgraph
    cases hname
    cases hkey
    cases hids
    cases hstrings
    exact ⟨rfl, rfl, hconsole⟩
  · rintro ⟨hsubject, hcontext, hconsole⟩
    unfold StageLike
    rw [hsubject, hcontext]
    exact ⟨⟨⟨rfl, rfl⟩, rfl, rfl⟩, rfl, rfl, hconsole⟩

/-- What is checked and printed for a procedure does not depend on the log. -/
theorem requireValid_quiet : Lockstep Eq Eq Stage.Quiet requireValid requireValid := by
  have print (text : String) : Lockstep Eq Eq Stage.Quiet
      (Stage.print .stderr .procedureUnwritten text : EStateM Fault (Stage Procedure) Unit)
      (Stage.print .stderr .procedureUnwritten text) :=
    (Stage.print_quiet .stderr text fun _ => Fault.noConfusion).mono fun _ _ like => like.1
  refine .bind .get fun s t quiet => ?_
  rw [quiet.1, quiet.2.1]
  refine .andThen (.settle (.refl _) fun _ _ same => same) fun defects => ?_
  refine .ite Iff.rfl (.pure rfl) ?_
  refine .andThen (.settle (.refl _) fun _ _ same => same) fun listing => ?_
  refine (print _).andThen fun _ => ?_
  refine .andThen (.forM (fun defect => ?_) defects) fun _ => .throw rfl
  exact (Stage.report_quiet _ _ _).andThen fun _ => print _

end Procedure

namespace ProcedurePass

theorem splitComm_quiet : Lockstep Fault.Like Eq Stage.Quiet splitComm splitComm := by
  intro s t quiet
  have like : Procedure.StageLike .exact s t := Procedure.stageLike_exact_iff.mpr quiet
  unfold splitComm
  rcases (Procedure.splitCommunication_lock s t like).outcomes with
    ⟨splits, _, u, w, hs, ht, rfl, left⟩ | ⟨d, e, u, w, hs, ht, he, left⟩
  · rw [hs, ht]
    cases splits with
    | nil => exact .ok rfl (Procedure.stageLike_exact_iff.mp left)
    | cons split splits => exact .ok rfl (Procedure.stageLike_exact_iff.mp left)
  · rw [hs, ht]
    cases he with
    | error same =>
      rw [CommError.seen_exact, CommError.seen_exact] at same
      rw [same, quiet.1]
      exact .error ⟨rfl, fun _ => Fault.noConfusion⟩ (Procedure.stageLike_exact_iff.mp left)
    | fault same => exact .error same (Procedure.stageLike_exact_iff.mp left)

theorem write_quiet (stream : Stream) :
    Lockstep Fault.Like Eq Stage.Quiet (write stream) (write stream) := by
  refine .bind .get fun s t quiet => ?_
  rw [quiet.1, quiet.2.1]
  refine .andThen (.settle (t.subject.listing_alike t.context.strings) fun _ _ he => he) fun listing => ?_
  exact (Stage.print_quiet stream listing fun _ => Fault.noConfusion).andThen fun _ => .pure rfl

theorem verify_quiet : Lockstep Eq Eq Stage.Quiet verify verify :=
  Procedure.requireValid_quiet.andThen fun _ => .pure rfl

end ProcedurePass

/-- No pass that has a name depends on the log. -/
theorem PassName.pass_quiet (name : PassName) : Lockstep Eq Eq Stage.Quiet name.pass name.pass := by
  cases name with
  | splitComm => exact ProcedurePass.splitComm_quiet.mono fun _ _ like => like.1
  | verify => exact ProcedurePass.verify_quiet
  | printStdout => exact (ProcedurePass.write_quiet .stdout).mono fun _ _ like => like.1
  | printStderr => exact (ProcedurePass.write_quiet .stderr).mono fun _ _ like => like.1

/-- The passes one after the other, after others that had some effect. -/
def runAfter {α : Type} (effect : PassEffect) (passes : List (EStateM Fault (Stage α) PassEffect)) :
    EStateM Fault (Stage α) PassEffect :=
  passes.foldlM (fun effect pass => return effect.merge (← pass)) effect

theorem runAfter_quiet {α : Type} {passes : List (EStateM Fault (Stage α) PassEffect)}
    (h : ∀ pass ∈ passes, Lockstep Eq Eq Stage.Quiet pass pass) (effect : PassEffect) :
    Lockstep Eq Eq Stage.Quiet (runAfter effect passes) (runAfter effect passes) := by
  induction passes generalizing effect with
  | nil => exact .pure rfl
  | cons pass passes ih =>
    unfold runAfter
    rw [List.foldlM_cons]
    refine .andThen ((h pass (by simp)).andThen fun _ => .pure rfl) fun merged => ?_
    exact ih (fun later hl => h later (by simp [hl])) merged

theorem Stage.onProcedure_quiet {pass : ProcedurePass} (h : Lockstep Eq Eq Stage.Quiet pass pass)
    (key : Proc) : Lockstep Eq Eq Stage.Quiet (Stage.onProcedure key (·) pass)
      (Stage.onProcedure key (·) pass) := by
  intro s t quiet
  cases hs : s.subject.procedures.get? key with
  | none =>
    rw [onProcedure_of_absent hs, onProcedure_of_absent (quiet.1 ▸ hs)]
    exact .error rfl quiet
  | some procedure =>
    rw [onProcedure_of_get? hs, onProcedure_of_get? (quiet.1 ▸ hs)]
    refine Lockstep.onPart h (fun _ _ quiet => ⟨rfl, quiet.2⟩) ?_ (fun _ _ same => same) s t quiet
    intro s t u w quiet new
    refine ⟨?_, new.2⟩
    simp only [withProcedure, quiet.1, new.1]

theorem ProgramPass.eachProcedure_quiet {pass : ProcedurePass}
    (h : Lockstep Eq Eq Stage.Quiet pass pass) :
    Lockstep Eq Eq Stage.Quiet (eachProcedure pass) (eachProcedure pass) := by
  refine .bind .get fun s t quiet => ?_
  rw [quiet.1]
  refine .andThen (.settle (.refl _) fun _ _ same => same) fun keys => ?_
  refine runAfter_quiet ?_ .unchanged
  intro work hwork
  obtain ⟨key, -, rfl⟩ := List.mem_map.mp hwork
  exact Stage.onProcedure_quiet h key

end Superstep
