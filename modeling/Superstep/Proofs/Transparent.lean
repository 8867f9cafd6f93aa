import Superstep.Proofs.Schedule
import Superstep.Proofs.Sound

namespace Superstep

namespace Standard

variable {α : Type}

/-- The first passes are the second ones, which are safe, with idle ones put between them. -/
inductive Interspersed (std : Standard (Stage α)) :
    List (EStateM Fault (Stage α) PassEffect) → List (EStateM Fault (Stage α) PassEffect) → Prop
  | nil : Interspersed std [] []
  | idle {pass xs ys} : std.Idle pass → Interspersed std xs ys → Interspersed std (pass :: xs) ys
  | safe {pass xs ys} : std.Safe pass → Interspersed std xs ys →
      Interspersed std (pass :: xs) (pass :: ys)

namespace Interspersed

variable {std : Standard (Stage α)} {xs ys xs' ys' : List (EStateM Fault (Stage α) PassEffect)}

theorem append (h : std.Interspersed xs ys) (h' : std.Interspersed xs' ys') :
    std.Interspersed (xs ++ xs') (ys ++ ys') := by
  induction h with
  | nil => exact h'
  | idle hidle _ ih => exact .idle hidle ih
  | safe hsafe _ ih => exact .safe hsafe ih

theorem all_safe (h : std.Interspersed xs ys) : ∀ pass ∈ ys, std.Safe pass := by
  induction h with
  | nil => simp
  | idle _ _ ih => exact ih
  | safe hsafe _ ih =>
    intro later hl
    rcases List.mem_cons.mp hl with rfl | hl
    · exact hsafe
    · exact ih later hl

/-- The idle passes change nothing about a run in which the counter of ids does not wrap. -/
theorem run_eq (h : std.Interspersed xs ys) {n : Nat} {s : Stage α} (effect : PassEffect)
    (met : std.Met n s)
    (room : n + (std.size (finalState (runAfter effect ys) s) - std.size s) ≤ 0x100000000) :
    runAfter effect xs s = runAfter effect ys s := by
  induction h generalizing n s effect with
  | nil => rfl
  | idle hidle _ ih =>
    rw [runAfter_cons_of_ok (hidle n s met), PassEffect.merge_unchanged]
    exact ih effect met room
  | @safe pass xs ys hsafe rest ih =>
    cases run : pass s with
    | error f t => rw [runAfter_cons_of_error run, runAfter_cons_of_error run]
    | ok made t =>
      -- The blocks only grow in number, so there is room for the ids up to here as well.
      have first := hsafe.le_of_ok run
      have second := (Safe.runAfter rest.all_safe (effect.merge made)).grows t
      have final : finalState (runAfter effect (pass :: ys)) s =
          finalState (runAfter (effect.merge made) ys) t := by
        unfold finalState
        rw [runAfter_cons_of_ok run]
      rw [final] at room
      rw [runAfter_cons_of_ok run, runAfter_cons_of_ok run]
      exact ih (effect.merge made) (hsafe.met met run (by omega)) (by omega)

theorem eachProcedure {xs ys : List ProcedurePass} (h : Procedure.standard.Interspersed xs ys) :
    Program.standard.Interspersed (xs.map ProgramPass.eachProcedure)
      (ys.map ProgramPass.eachProcedure) := by
  induction h with
  | nil => exact .nil
  | idle hidle _ ih => exact .idle (ProgramPass.eachProcedure_idle hidle) ih
  | safe hsafe _ ih => exact .safe (ProgramPass.eachProcedure_safe hsafe) ih

end Interspersed

end Standard

section Pipeline

variable (printAfter : Bool) (names : List PassName)

theorem pipeline_interspersed :
    Procedure.standard.Interspersed (pipeline ⟨true, printAfter⟩ names)
      (pipeline ⟨false, printAfter⟩ names) := by
  have prints : Procedure.standard.Interspersed
      (if printAfter then [ProcedurePass.write .stderr] else [])
      (if printAfter then [ProcedurePass.write .stderr] else []) := by
    cases printAfter with
    | false => exact .nil
    | true => exact .safe (ProcedurePass.write_safe .stderr) .nil
  refine .append (.idle ProcedurePass.verify_idle .nil) ?_
  induction names with
  | nil => exact .nil
  | cons name names ih =>
    rw [List.flatMap_cons, List.flatMap_cons]
    refine .append (.append (.safe name.pass_safe prints) ?_) ih
    exact .idle ProcedurePass.verify_idle .nil

theorem pipeline_quiet {pass : ProcedurePass} (h : pass ∈ pipeline ⟨false, printAfter⟩ names) :
    Lockstep Eq Eq Stage.Quiet pass pass := by
  rcases List.mem_append.mp h with h | h
  · cases h
  obtain ⟨name, -, h⟩ := List.mem_flatMap.mp h
  rcases List.mem_append.mp h with h | h
  · rcases List.mem_cons.mp h with rfl | h
    · exact name.pass_quiet
    · cases printAfter with
      | false => cases h
      | true =>
        rw [List.mem_singleton.mp h]
        exact PassName.printStderr.pass_quiet
  · cases h

end Pipeline

/-- A fault that is not that of a failed verification does not read like one. -/
theorem Fault.text?_ne {f : Fault} (h : ∀ name, f ≠ .failedVerification name) (name : String) :
    f.text? ≠ (failedVerification name).text? := by
  intro same
  -- The first letters differ, whatever names the texts quote.
  have letter := congrArg (Option.map fun text => text.toList.head?) same
  cases f with
  | failedVerification other => exact h other rfl
  | _ => simp [text?] at letter

theorem passNames_of_known {names : List String}
    (known : ∀ name ∈ names, (PassName.ofString? name).isSome) :
    ∃ passes, passNames names = .ok passes := by
  refine except_mapM_total fun name hname => ?_
  obtain ⟨pass, hpass⟩ := Option.isSome_iff_exists.mp (known name hname)
  exact ⟨pass, by rw [hpass]⟩

theorem passNames_of_unknown {names : List String} {name : String} (mem : name ∈ names)
    (unknown : PassName.ofString? name = none) :
    ∃ first ∈ names, PassName.ofString? first = none ∧
      passNames names = .error (.unknownPass first) := by
  induction names with
  | nil => simp at mem
  | cons head names ih =>
    unfold passNames at ih ⊢
    rw [List.mapM_cons]
    cases hhead : PassName.ofString? head with
    | none => exact ⟨head, by simp, hhead, rfl⟩
    | some pass =>
      have later : name ∈ names := by
        rcases List.mem_cons.mp mem with rfl | later
        · cases hhead.symm.trans unknown
        · exact later
      obtain ⟨first, hfirst, hnone, stops⟩ := ih later
      refine ⟨first, by simp [hfirst], hnone, ?_⟩
      rw [stops]
      rfl

section Run

variable {s : Stage Program} {names : List String} {issued : Nat} {printAfter : Bool}

/-- The same stage with one more line in its log. -/
def Stage.logged (s : Stage Program) (line : String) : Stage Program :=
  { s with console := s.console.report .debug line }

/-- The passes of a pipeline, each over all procedures. -/
def runPipeline (options : PassOptions) (passes : List PassName) : ProgramPass :=
  runAfter .unchanged ((pipeline options passes).map ProgramPass.eachProcedure)

theorem runPipeline_quiet (printAfter : Bool) (passes : List PassName) :
    Lockstep Eq Eq Stage.Quiet (runPipeline ⟨false, printAfter⟩ passes)
      (runPipeline ⟨false, printAfter⟩ passes) := by
  refine runAfter_quiet ?_ .unchanged
  intro pass hpass
  obtain ⟨work, hwork, rfl⟩ := List.mem_map.mp hpass
  exact ProgramPass.eachProcedure_quiet (pipeline_quiet printAfter passes hwork)

/-- The pipelines with and without verification, with different lines in the log. -/
theorem runPipeline_together (passes : List PassName) (met : Program.standard.Met issued s)
    (line line' : String)
    (room : issued + ((finalState (runPipeline ⟨false, printAfter⟩ passes)
      (s.logged line')).subject.blockTotal - s.subject.blockTotal) ≤ 0x100000000) :
    Together Fault.Like Eq Stage.Quiet (runPipeline ⟨true, printAfter⟩ passes (s.logged line))
      (runPipeline ⟨false, printAfter⟩ passes (s.logged line')) := by
  have spread := (pipeline_interspersed printAfter passes).eachProcedure
  have quiet := runPipeline_quiet printAfter passes
  have near : (s.logged line).Quiet (s.logged line') := ⟨rfl, rfl, rfl⟩
  have final := (quiet.ends near).2.1
  have room' : issued + ((finalState (runPipeline ⟨false, printAfter⟩ passes)
      (s.logged line)).subject.blockTotal - s.subject.blockTotal) ≤ 0x100000000 := by
    rw [final]
    exact room
  have same : runPipeline ⟨true, printAfter⟩ passes (s.logged line) =
      runPipeline ⟨false, printAfter⟩ passes (s.logged line) :=
    spread.run_eq .unchanged met room'
  rw [same]
  rcases (quiet _ _ near).outcomes with
    ⟨_, _, t, u, ht, hu, rfl, close⟩ | ⟨f, _, t, u, ht, hu, rfl, close⟩
  · rw [ht, hu]
    exact .ok rfl close
  · rw [finalState_of_error hu] at room
    have safe := Standard.Safe.runAfter spread.all_safe .unchanged
    rw [ht, hu]
    exact .error ⟨rfl, safe.honest (s := s.logged line') met hu room⟩ close

theorem runPasses_of_titled {passes : List PassName} {title : String}
    (resolved : passNames names = .ok passes)
    (titled : s.context.strings.get s.subject.name = .ok title) (options : PassOptions) :
    ∃ line, runPasses options names s = runPipeline options passes (s.logged line) := by
  refine ⟨"running " ++ toString (pipeline options passes).length ++ " pass(es) over program `" ++
    title ++ "`", (bind_of_ok (settle_of_ok resolved s)).trans ?_⟩
  exact (bind_of_ok rfl).trans (bind_of_ok (settle_of_ok titled s))

theorem runPasses_of_untitled {passes : List PassName} {f : Fault}
    (resolved : passNames names = .ok passes)
    (untitled : s.context.strings.get s.subject.name = .error f) (options : PassOptions) :
    runPasses options names s = .error f s := by
  refine (bind_of_ok (settle_of_ok resolved s)).trans ?_
  exact (bind_of_ok rfl).trans (bind_of_error (settle_of_error untitled s))

/-- Verification in between the passes is not seen in what comes of a run over valid procedures, as
long as there are keys for all procedures and the counter of ids does not wrap: both runs return the
same effect or both stop for the same reason, which is not a failed verification, and the program, the
strings, the counter and all that was printed are the same. With a name that is not that of a pass,
nothing is done. -/
theorem runPasses_verify_transparent
    (fits : s.subject.procedures.size ≤ 0x100000000)
    (valid : ∀ key procedure, s.subject.procedures.get? key = some procedure →
      procedure.graph.defects = .ok [] ∧ procedure.graph.IdsBelow issued)
    (counter : s.context.ids.next = Key.wrap issued)
    (room : issued + ((finalState (runPasses ⟨false, printAfter⟩ names) s).subject.blockTotal -
      s.subject.blockTotal) ≤ 0x100000000) :
    ((∀ name ∈ names, (PassName.ofString? name).isSome) →
      (∃ effect t u, runPasses ⟨true, printAfter⟩ names s = .ok effect t ∧
        runPasses ⟨false, printAfter⟩ names s = .ok effect u ∧ t.Quiet u) ∨
      ∃ f t u, runPasses ⟨true, printAfter⟩ names s = .error f t ∧
        runPasses ⟨false, printAfter⟩ names s = .error f u ∧ t.Quiet u ∧
        ∀ name, f.text? ≠ (Fault.failedVerification name).text?) ∧
    ∀ name ∈ names, PassName.ofString? name = none →
      ∃ first ∈ names, PassName.ofString? first = none ∧
        ∀ verify, runPasses ⟨verify, printAfter⟩ names s = .error (.unknownPass first) s := by
  constructor
  · intro known
    obtain ⟨passes, resolved⟩ := passNames_of_known known
    cases titled : s.context.strings.get s.subject.name with
    | error f =>
      refine Or.inr ⟨f, s, s, runPasses_of_untitled resolved titled _,
        runPasses_of_untitled resolved titled _, .refl s, fun name => Fault.text?_ne ?_ name⟩
      exact (Procedure.strings_alike s.context.strings s.subject.name).honest titled
    | ok title =>
      have met : Program.standard.Met issued s := ⟨fits, fun key procedure hp =>
        ⟨.of_defects (valid key procedure hp).1, (valid key procedure hp).2, counter⟩⟩
      obtain ⟨line, hchecked⟩ := runPasses_of_titled resolved titled ⟨true, printAfter⟩
      obtain ⟨line', hplain⟩ := runPasses_of_titled resolved titled ⟨false, printAfter⟩
      unfold finalState at room
      rw [hplain] at room
      have together := runPipeline_together passes met line line' room
      rw [← hchecked, ← hplain] at together
      rcases together.outcomes with
        ⟨effect, _, t, u, ht, hu, rfl, close⟩ | ⟨f, _, t, u, ht, hu, ⟨rfl, honest⟩, close⟩
      · exact Or.inl ⟨effect, t, u, ht, hu, close⟩
      · exact Or.inr ⟨f, t, u, ht, hu, close, Fault.text?_ne honest⟩
  · intro name mem unknown
    obtain ⟨first, hfirst, hnone, stops⟩ := passNames_of_unknown mem unknown
    exact ⟨first, hfirst, hnone, fun verify => bind_of_error (settle_of_error stops s)⟩

end Run

/-- Every procedure is split, printed and split again. -/
def splitTwice : List String := ["split-comm", "print-stdout", "verify", "split-comm"]

theorem runPasses_verify_transparent_of_twoSenders :
    ∃ t u, runPasses ⟨true, true⟩ splitTwice twoSenders = .ok .modified t ∧
      runPasses ⟨false, true⟩ splitTwice twoSenders = .ok .modified u ∧ t.Quiet u ∧
      t.subject.blockTotal = 14 := by
  have each : ∀ p ∈ twoSenders.subject.procedures.values, p.graph.defects = .ok [] ∧
      ∀ x ∈ p.graph.blocks.values, x.id.index < 6 := by decide +kernel
  have valid : ∀ key procedure, twoSenders.subject.procedures.get? key = some procedure →
      procedure.graph.defects = .ok [] ∧ procedure.graph.IdsBelow 6 := by
    intro key procedure hp
    obtain ⟨hvalid, hids⟩ := each procedure (Array.mem_toList_iff.mpr (Array.mem_of_getElem? hp))
    exact ⟨hvalid, Procedure.idsBelow_of_values hids⟩
  have room : 6 + ((finalState (runPasses ⟨false, true⟩ splitTwice) twoSenders).subject.blockTotal -
      twoSenders.subject.blockTotal) ≤ 0x100000000 := by decide +kernel
  have ends : (match runPasses ⟨false, true⟩ splitTwice twoSenders with
      | .ok effect u => some (effect, u.subject.blockTotal)
      | .error _ _ => none) = some (PassEffect.modified, 14) := by decide +kernel
  have fits : twoSenders.subject.procedures.size ≤ 0x100000000 := by decide +kernel
  have counter : twoSenders.context.ids.next = Key.wrap 6 := by decide +kernel
  obtain ⟨transparent, -⟩ := runPasses_verify_transparent fits valid counter room
  rcases transparent (by decide) with ⟨effect, t, u, ht, hu, close⟩ | ⟨f, t, u, -, hu, -⟩
  · rw [hu] at ends
    obtain ⟨rfl, size⟩ := Prod.mk.inj (Option.some.inj ends)
    exact ⟨t, u, ht, hu, close, close.1 ▸ size⟩
  · rw [hu] at ends
    cases ends

end Superstep
