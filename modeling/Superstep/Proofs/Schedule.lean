import Superstep.Proofs.Parallel
import Superstep.Proofs.Session

namespace Superstep

/-- What comes of splitting the communication of a procedure. -/
abbrev SplitOutcome := Except (Halt CommError) (List SplitBlocks)

/-- The same blocks, or the same cause with the same statements. -/
abbrev SplitOutcome.Like (view : IdView) (x y : SplitOutcome) : Prop := Alike (Halt.Like view) Eq x y

namespace Procedure

/-- The transformation of one procedure a number of times, as it leaves it. -/
def repeated : Nat → Stage Procedure → Stage Procedure
  | 0, s => s
  | n + 1, s => repeated n (finalState splitCommunication s)

/-- What comes of the transformation each time. -/
def repeatedOutcomes : Nat → Stage Procedure → List SplitOutcome
  | 0, _ => []
  | n + 1, s => outcome splitCommunication s :: repeatedOutcomes n (finalState splitCommunication s)

/-- The strings and the printed text stay as they are, however the transformation ends. -/
theorem splitCommunication_backdrop :
    Keeps (fun s => (s.context.strings, s.console.quiet)) Eq splitCommunication := by
  have anything : ∀ {τ δ β : Type} (act : EStateM δ τ β), Keeps id (fun _ _ => True) act :=
    fun _ _ => trivial
  refine .bind .get fun s => .ite (.pure _) ?_
  refine .bind ((anything Detection.findCommunication).onPart fun _ _ _ => rfl) fun targets => ?_
  refine .bind (.modify fun _ => rfl) fun _ => ?_
  refine .mapM (fun b => ?_) targets.order
  exact (anything (Splitting.splitVertexBlock b)).onPart fun _ _ _ => rfl

end Procedure

/-- The transformation of procedures one after the other, in the order of a schedule. A step that
fails does not keep the next ones from being taken. -/
def runSchedule (schedule : List Proc) (s : Stage Program) : Stage Program :=
  Action.run (schedule.map .splitCommunication) s

/-- What comes of the steps on one procedure. -/
def outcomesOf (p : Proc) : List Proc → Stage Program → List SplitOutcome
  | [], _ => []
  | q :: rest, s =>
    let later := outcomesOf p rest ((Action.splitCommunication q).apply s)
    if q = p then outcome (Stage.onProcedure q .fault Procedure.splitCommunication) s :: later
    else later

section Step

variable {s : Stage Program} {p q : Proc} {procedure : Procedure}

theorem outcome_onProcedure (h : s.subject.procedures.get? p = some procedure) :
    outcome (Stage.onProcedure p .fault Procedure.splitCommunication) s =
      outcome Procedure.splitCommunication (s.focus procedure) := by
  unfold outcome
  rw [Stage.onProcedure_of_get? h]
  unfold onPart
  cases Procedure.splitCommunication (s.focus procedure) <;> rfl

/-- A step on another procedure leaves a procedure, the strings and the printed text alone. -/
theorem step_other (hq : q ≠ p) :
    ((Action.splitCommunication q).apply s).subject.procedures.get? p =
        s.subject.procedures.get? p ∧
      ((Action.splitCommunication q).apply s).context.strings = s.context.strings ∧
      ((Action.splitCommunication q).apply s).console.quiet = s.console.quiet := by
  rw [Action.apply]
  cases h : s.subject.procedures.get? q with
  | none =>
    rw [Stage.finalState_onProcedure_of_absent h]
    exact ⟨rfl, rfl, rfl⟩
  | some other =>
    rw [Stage.finalState_onProcedure h]
    obtain ⟨hstrings, hquiet⟩ := Prod.mk.inj (Procedure.splitCommunication_backdrop (s.focus other))
    refine ⟨?_, hstrings.symm, hquiet.symm⟩
    rw [Stage.get?_withProcedure h, if_neg (Ne.symm hq)]

theorem step_absent (h : s.subject.procedures.get? p = none) :
    ((Action.splitCommunication q).apply s).subject.procedures.get? p = none := by
  by_cases hq : q = p
  · subst hq
    rw [Action.apply, Stage.finalState_onProcedure_of_absent h]
    exact h
  · rw [(step_other hq).1]
    exact h

end Step

/-- What a schedule makes of a procedure, and what comes of its steps there, is what the procedure
would go through on its own. -/
theorem runSchedule_repeated (schedule : List Proc) {s : Stage Program} {p : Proc}
    {procedure : Procedure} {u : Stage Procedure} (h : s.subject.procedures.get? p = some procedure)
    (like : Procedure.StageLike .blind (s.focus procedure) u) :
    List.Forall₂ (SplitOutcome.Like .blind) (outcomesOf p schedule s)
        (Procedure.repeatedOutcomes (schedule.count p) u) ∧
      ∃ q, (runSchedule schedule s).subject.procedures.get? p = some q ∧
        q.Like .blind (Procedure.repeated (schedule.count p) u).subject := by
  induction schedule generalizing s procedure u with
  | nil => exact ⟨.nil, procedure, h, like.1⟩
  | cons q rest ih =>
    by_cases hq : q = p
    · subst hq
      obtain ⟨houtcome, hstate⟩ := Procedure.splitCommunication_lock.ends like
      have happly : (Action.splitCommunication q).apply s = s.withProcedure q
          (finalState Procedure.splitCommunication (s.focus procedure)) :=
        Stage.finalState_onProcedure h
      have hget : ((Action.splitCommunication q).apply s).subject.procedures.get? q =
          some (finalState Procedure.splitCommunication (s.focus procedure)).subject := by
        rw [happly, Stage.get?_withProcedure h, if_pos rfl]
      have hlike : Procedure.StageLike .blind (((Action.splitCommunication q).apply s).focus
          (finalState Procedure.splitCommunication (s.focus procedure)).subject)
          (finalState Procedure.splitCommunication u) := by
        rw [happly]
        exact hstate
      obtain ⟨outcomes, final⟩ := ih hget hlike
      rw [List.count_cons_self]
      refine ⟨?_, final⟩
      rw [outcomesOf, if_pos rfl, outcome_onProcedure h]
      exact .cons houtcome outcomes
    · obtain ⟨hget, hstrings, hquiet⟩ := step_other (s := s) hq
      have hlike : Procedure.StageLike .blind
          (((Action.splitCommunication q).apply s).focus procedure) u :=
        ⟨like.1, rfl, hstrings.trans like.2.2.1, hquiet.trans like.2.2.2⟩
      obtain ⟨outcomes, final⟩ := ih (hget.trans h) hlike
      rw [List.count_cons_of_ne hq]
      refine ⟨?_, final⟩
      rw [outcomesOf, if_neg hq]
      exact outcomes

theorem runSchedule_absent (schedule : List Proc) {s : Stage Program} {p : Proc}
    (h : s.subject.procedures.get? p = none) :
    outcomesOf p schedule s =
        List.replicate (schedule.count p) (.error (.fault .missingSlot)) ∧
      (runSchedule schedule s).subject.procedures.get? p = none := by
  induction schedule generalizing s with
  | nil => exact ⟨rfl, h⟩
  | cons q rest ih =>
    obtain ⟨outcomes, final⟩ := ih (step_absent h)
    refine ⟨?_, final⟩
    by_cases hq : q = p
    · subst hq
      have missing : outcome (Stage.onProcedure q .fault Procedure.splitCommunication) s =
          .error (.fault .missingSlot) := by
        unfold outcome
        rw [Stage.onProcedure_of_absent h]
      rw [outcomesOf, if_pos rfl, missing, outcomes, List.count_cons_self]
      rfl
    · rw [outcomesOf, if_neg hq, outcomes, List.count_cons_of_ne hq]

theorem Halt.Like.of_common {view : IdView} {x y z : Halt CommError} (hx : x.Like view z)
    (hy : y.Like view z) : x.Like view y := by
  cases hx with
  | error he =>
    cases hy with
    | error he' => exact .error (he.trans he'.symm)
  | fault hf =>
    cases hy with
    | fault hf' => exact .fault ⟨hf.1.trans hf'.1.symm, hf.2⟩

theorem SplitOutcome.Like.of_common {view : IdView} {x y z : SplitOutcome} (hx : x.Like view z)
    (hy : y.Like view z) : x.Like view y := by
  cases hx with
  | ok ha =>
    cases hy with
    | ok hb => exact .ok (ha.trans hb.symm)
  | error he =>
    cases hy with
    | error he' => exact .error (he.of_common he')

theorem forall₂_of_common {view : IdView} {xs ys zs : List SplitOutcome}
    (hx : List.Forall₂ (SplitOutcome.Like view) xs zs)
    (hy : List.Forall₂ (SplitOutcome.Like view) ys zs) :
    List.Forall₂ (SplitOutcome.Like view) xs ys := by
  induction hx generalizing ys with
  | nil =>
    cases hy
    exact .nil
  | cons h _ ih =>
    cases hy with
    | cons h' rest => exact .cons (SplitOutcome.Like.of_common h h') (ih rest)

theorem Procedure.Like.of_common {view : IdView} {p q r : Procedure} (hp : p.Like view r)
    (hq : q.Like view r) : p.Like view q :=
  ⟨⟨hp.1.1.trans hq.1.1.symm, hp.1.2.trans hq.1.2.symm⟩, hp.2.1.trans hq.2.1.symm,
    hp.2.2.trans hq.2.2.symm⟩

/-- A block that was there before a schedule keeps its id. -/
theorem runSchedule_id {schedule : List Proc} {s : Stage Program} {p : Proc} {old new : Procedure}
    (hold : s.subject.procedures.get? p = some old)
    (hnew : (runSchedule schedule s).subject.procedures.get? p = some new) {i : Nat} {x : BlockData}
    (hi : i < old.graph.blocks.size) (hx : new.graph.blocks.values[i]? = some x) :
    old.graph.idAt i = some x.id := by
  have hlt : i < old.graph.blockIds.length := by rwa [FlowGraph.length_blockIds]
  obtain ⟨id, hid⟩ : ∃ id, old.graph.idAt i = some id := ⟨_, List.getElem?_eq_getElem hlt⟩
  have before : s.idOf (p, i) = some id := by
    rw [Stage.idOf, hold]
    exact hid
  have after := (Action.run_charged (schedule.map .splitCommunication) s).1.kept (p, i) id before
  have found : (runSchedule schedule s).idOf (p, i) = some x.id := by
    rw [Stage.idOf, hnew]
    exact (new.graph.idAt_eq i).trans (congrArg (Option.map (·.id)) hx)
  rw [hid, ← after]
  exact found

/-- Two schedules that take the same number of steps on each procedure make the same of every
procedure, but for the ids of the blocks that they create. Each step on it fails in both or in
neither, and for the same cause. -/
theorem runSchedule_independent {s : Stage Program} {first second : List Proc}
    (steps : ∀ p, first.count p = second.count p) (p : Proc) :
    List.Forall₂ (SplitOutcome.Like .blind) (outcomesOf p first s) (outcomesOf p second s) ∧
    (((runSchedule first s).subject.procedures.get? p = none ∧
        (runSchedule second s).subject.procedures.get? p = none) ∨
      ∃ old q r, s.subject.procedures.get? p = some old ∧
        (runSchedule first s).subject.procedures.get? p = some q ∧
        (runSchedule second s).subject.procedures.get? p = some r ∧
        q.name = r.name ∧ q.key = r.key ∧ q.ast = r.ast ∧ q.graph.registry = r.graph.registry ∧
        q.graph.entry = r.graph.entry ∧ q.graph.layout = r.graph.layout ∧
        q.graph.blocks.size = r.graph.blocks.size ∧
        ∀ (i : Nat) x y, q.graph.blocks.values[i]? = some x → r.graph.blocks.values[i]? = some y →
          x = { y with id := x.id } ∧ (i < old.graph.blocks.size → x.id = y.id)) := by
  cases h : s.subject.procedures.get? p with
  | none =>
    obtain ⟨hfirst, hgone⟩ := runSchedule_absent first h
    obtain ⟨hsecond, hgone'⟩ := runSchedule_absent second h
    refine ⟨?_, Or.inl ⟨hgone, hgone'⟩⟩
    rw [hfirst, hsecond, steps p]
    exact List.forall₂_same.mpr fun x hx => by
      rw [(List.mem_replicate.mp hx).2]
      exact .error (.fault ⟨rfl, fun _ => Fault.noConfusion⟩)
  | some old =>
    have start : Procedure.StageLike .blind (s.focus old) (s.focus old) :=
      ⟨⟨⟨rfl, rfl⟩, rfl, rfl⟩, rfl, rfl, rfl⟩
    obtain ⟨houtcomes, q, hq, hlike⟩ := runSchedule_repeated first h start
    obtain ⟨houtcomes', r, hr, hlike'⟩ := runSchedule_repeated second h start
    rw [← steps p] at houtcomes' hlike'
    have like := hlike.of_common hlike'
    refine ⟨forall₂_of_common houtcomes houtcomes', Or.inr ⟨old, q, r, rfl, hq, hr, like.2.1,
      like.2.2, like.1.1, like.1.2.registry, like.1.2.entry, like.1.2.layout, like.1.2.size, ?_⟩⟩
    intro i x y hx hy
    obtain ⟨j, rfl, -⟩ := (like.1.2.values hx hy).fields
    refine ⟨rfl, fun hi => ?_⟩
    have hidx := runSchedule_id h hq hi hx
    have hidy := runSchedule_id h hr hi hy
    exact Option.some.inj (hidx.symm.trans hidy)

/-- Two procedures with a superstep each. -/
def twoSenders : Stage Program :=
  Action.run [.procedure "main" Action.superstepCalls true, .procedure "aux" Action.superstepCalls true]
    (Action.start "P")

/-- The first procedure twice, then the second. -/
def mainFirst : List Proc := [Key.wrap 0, Key.wrap 0, Key.wrap 1]

/-- The second procedure, then the first twice. -/
def auxFirst : List Proc := [Key.wrap 1, Key.wrap 0, Key.wrap 0]

/-- The blocks that are created in the second procedure get other ids, and all else is the same. -/
theorem runSchedule_independent_of_twoSenders :
    ∃ q r, (runSchedule mainFirst twoSenders).subject.procedures.get? (Key.wrap 1) = some q ∧
      (runSchedule auxFirst twoSenders).subject.procedures.get? (Key.wrap 1) = some r ∧
      q.graph.layout = r.graph.layout ∧ q.ast = r.ast ∧ q.graph.blocks.size = 5 ∧
      q.graph ≠ r.graph := by
  have steps : ∀ p, mainFirst.count p = auxFirst.count p := by
    intro p
    simp only [mainFirst, auxFirst, List.count_cons, List.count_nil]
    omega
  have size : ((runSchedule mainFirst twoSenders).subject.procedures.get? (Key.wrap 1)).map
      (·.graph.blocks.size) = some 5 := by decide +kernel
  have differ : ((runSchedule mainFirst twoSenders).subject.procedures.get? (Key.wrap 1)).map
      (·.graph) ≠ ((runSchedule auxFirst twoSenders).subject.procedures.get? (Key.wrap 1)).map
      (·.graph) := by decide +kernel
  obtain ⟨-, ⟨gone, -⟩ | ⟨old, q, r, -, hq, hr, -, -, hast, -, -, hlayout, -⟩⟩ :=
    runSchedule_independent (s := twoSenders) steps (Key.wrap 1)
  · rw [gone] at size
    cases size
  · rw [hq] at size
    rw [hq, hr] at differ
    exact ⟨q, r, hq, hr, hlayout, hast, Option.some.inj size, fun he => differ (congrArg some he)⟩

end Superstep
