import Superstep.Proofs.Offence

namespace Superstep

namespace Procedure

/-- The statement at which looking for communication fails leaves nothing behind: what is left is
what the visits before it have left. The marks that come last cannot fail. -/
theorem findCommunication_stops_clean {s : Stage Procedure} (walkable : s.subject.toBody.Walkable) :
    (∀ e t, findCommunication s = .error (.error e) t →
      ∃ bs visits before v after d, s.subject.graph.reachable = .ok bs ∧
        s.subject.toBody.Visits bs visits ∧ visits = before ++ v :: after ∧
        Detection.visitAll before { body := s.subject.toBody, log := s.console.log } = .ok ⟨⟩ d ∧
        Detection.visit v.1 v.2 d = .error (.error e) d ∧
        t = { s with subject.toBody := d.body, console.log := d.log }) ∧
    ∀ r scope outer, scope.outer = some outer →
      Detection.MarksLate (Detection.innerLoop r scope) (Detection.recordInner r outer scope.block)
        outer .nested ∧
      ∀ host, Detection.MarksLate (Detection.randomWrite r host scope)
        (Detection.recordWrite r host outer scope.block) outer .randomWrite := by
  constructor
  · intro e t fails
    obtain ⟨_, d, ends, rfl, rfl⟩ := onPart_error.mp fails
    cases reached : s.subject.graph.reachable with
    | error fault =>
      have faults := Detection.findCommunication_of_fault
        (d := { body := s.subject.toBody, log := s.console.log }) reached
      cases ends.symm.trans faults
    | ok bs =>
      have finite := walkable.finite reached
      obtain ⟨visits, hvisits⟩ := finite.exists_visits
      rcases Detection.findCommunication_course
        (d := { body := s.subject.toBody, log := s.console.log }) reached finite hvisits with
        ⟨targets, t, found, -⟩ | ⟨e, before, v, after, t, found, -, -, split, run, stops⟩ |
        ⟨t, found, -⟩
      · cases ends.symm.trans found
      · cases ends.symm.trans found
        exact ⟨bs, visits, before, v, after, d, rfl, hvisits, split, run, stops, rfl⟩
      · cases ends.symm.trans found
  · intro r scope outer ho
    exact ⟨Detection.innerLoop_marksLate ho, fun host => Detection.randomWrite_marksLate ho⟩

/-- What the first superstep has left is what is left when the second fails. -/
theorem findCommunication_stops_clean_of_strayWrite :
    strayWrite.subject.toBody.Walkable ∧ ∃ (e : CommError) (t : Stage Procedure)
      (before : List (Stmt × Scope)) (v : Stmt × Scope) (d : Detection),
      findCommunication strayWrite = .error (.error e) t ∧
      Detection.visitAll before { body := strayWrite.subject.toBody } = .ok ⟨⟩ d ∧
      Detection.visit v.1 v.2 d = .error (.error e) d ∧ t.subject.toBody = d.body := by
  obtain ⟨t, fails⟩ := strayWrite_fails
  obtain ⟨bs, visits, before, v, after, d, -, -, -, run, stops, rfl⟩ :=
    (findCommunication_stops_clean strayWrite_walkable).1 _ t fails
  exact ⟨strayWrite_walkable, _, _, before, v, d, fails, run, stops, rfl⟩

end Procedure

end Superstep
