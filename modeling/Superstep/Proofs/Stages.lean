import Superstep.Pass
import Superstep.Proofs.Lookup

namespace Superstep

theorem Table.set_of_get? {label : String} {last : Nat} {V : Type} {t : Table (Key label last) V}
    {k : Key label last} {v : V} (h : t.get? k = some v) : t.set k v = t := by
  obtain ⟨hlt, rfl⟩ := Array.getElem?_eq_some_iff.mp h
  simp [set, Array.setIfInBounds, hlt]

namespace Stage

variable {ε β : Type}

/-- The stage of one procedure on the stage of its program. -/
def focus (s : Stage Program) (procedure : Procedure) : Stage Procedure :=
  { s with subject := procedure }

/-- The stage of a program when work on one of its procedures has ended. -/
def withProcedure (s : Stage Program) (key : Proc) (t : Stage Procedure) : Stage Program :=
  { t with subject := { s.subject with procedures := s.subject.procedures.set key t.subject } }

variable {s t : Stage Program} {key : Proc} {wrap : Fault → ε} {act : EStateM ε (Stage Procedure) β}

theorem onProcedure_of_get? {procedure : Procedure}
    (h : s.subject.procedures.get? key = some procedure) :
    onProcedure key wrap act s = onPart (focus · procedure) (withProcedure · key) (·) act s := by
  unfold onProcedure
  rw [Table.get_ok.mpr h]
  rfl

theorem onProcedure_of_absent (h : s.subject.procedures.get? key = none) :
    onProcedure key wrap act s = .error (wrap .missingSlot) s := by
  have missing : s.subject.procedures.get key = .error .missingSlot := by
    unfold Table.get
    rw [h]
  unfold onProcedure
  rw [missing]

theorem onProcedure_ok {b : β} :
    onProcedure key wrap act s = .ok b t ↔ ∃ procedure u,
      s.subject.procedures.get? key = some procedure ∧ act (s.focus procedure) = .ok b u ∧
        t = s.withProcedure key u := by
  cases h : s.subject.procedures.get? key with
  | none => simp [onProcedure_of_absent h]
  | some procedure =>
    rw [onProcedure_of_get? h, onPart_ok]
    simp

theorem onProcedure_error {e : ε} :
    onProcedure key wrap act s = .error e t ↔
      (s.subject.procedures.get? key = none ∧ e = wrap .missingSlot ∧ t = s) ∨
      ∃ procedure u, s.subject.procedures.get? key = some procedure ∧
        act (s.focus procedure) = .error e u ∧ t = s.withProcedure key u := by
  cases h : s.subject.procedures.get? key with
  | none => simp [onProcedure_of_absent h, eq_comm]
  | some procedure =>
    rw [onProcedure_of_get? h, onPart_error]
    simp

theorem finalState_onProcedure {procedure : Procedure}
    (h : s.subject.procedures.get? key = some procedure) :
    finalState (onProcedure key wrap act) s =
      s.withProcedure key (finalState act (s.focus procedure)) := by
  rw [← finalState_onPart (focus · procedure) (withProcedure · key) (·) act s]
  unfold finalState
  rw [onProcedure_of_get? h]

theorem finalState_onProcedure_of_absent (h : s.subject.procedures.get? key = none) :
    finalState (onProcedure key wrap act) s = s :=
  finalState_of_error (onProcedure_of_absent h)

theorem get?_withProcedure {procedure : Procedure}
    (h : s.subject.procedures.get? key = some procedure) (u : Stage Procedure) (q : Proc) :
    (s.withProcedure key u).subject.procedures.get? q =
      if q = key then some u.subject else s.subject.procedures.get? q := by
  refine (Table.get?_set s.subject.procedures key q u.subject).trans ?_
  by_cases hq : q = key
  · simp [hq, h]
  · simp [hq, Ne.symm hq]

theorem withProcedure_focus {procedure : Procedure}
    (h : s.subject.procedures.get? key = some procedure) :
    s.withProcedure key (s.focus procedure) = s := by
  have same : s.subject.procedures.set key procedure = s.subject.procedures := Table.set_of_get? h
  unfold withProcedure focus
  rw [same]

end Stage

end Superstep
