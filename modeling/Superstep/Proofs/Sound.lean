import Mathlib.Algebra.GroupWithZero.Nat
import Superstep.Proofs.BlockIds
import Superstep.Proofs.Quiet
import Superstep.Proofs.SplitPass

namespace Superstep

variable {σ α β : Type}

/-- What states are held to: how many blocks there are, and what must be true of a state when a
number of ids has been issued. -/
structure Standard (σ : Type) where
  size : σ → Nat
  Met : Nat → σ → Prop

namespace Standard

/-- From a state that meets the standard, and as long as the counter of ids does not wrap, the
action ends in one that meets it or stops for another reason than a failed verification. -/
structure Safe (std : Standard σ) (act : EStateM Fault σ α) : Prop where
  grows : Keeps std.size (· ≤ ·) act
  met : ∀ {n s a t}, std.Met n s → act s = .ok a t → n + (std.size t - std.size s) ≤ 0x100000000 →
    std.Met (n + (std.size t - std.size s)) t
  honest : ∀ {n s f t}, std.Met n s → act s = .error f t →
    n + (std.size t - std.size s) ≤ 0x100000000 → ∀ name, f ≠ .failedVerification name

variable {std : Standard σ}

namespace Safe

theorem le_of_ok {act : EStateM Fault σ α} (h : std.Safe act) {s t : σ} {a : α}
    (run : act s = .ok a t) : std.size s ≤ std.size t := by
  have grown := h.grows s
  rwa [finalState_of_ok run] at grown

theorem le_of_error {act : EStateM Fault σ α} (h : std.Safe act) {s t : σ} {f : Fault}
    (run : act s = .error f t) : std.size s ≤ std.size t := by
  have grown := h.grows s
  rwa [finalState_of_error run] at grown

theorem of_still {act : EStateM Fault σ α} (still : Still act)
    (honest : ∀ s f t, act s = .error f t → ∀ name, f ≠ .failedVerification name) : std.Safe act where
  grows := .of_still still
  met {n s a t} met run _ := by
    have same : t = s := (still s).1 a t run
    rw [same, Nat.sub_self]
    exact met
  honest _ run _ := honest _ _ _ run

theorem pure (a : α) : std.Safe (Pure.pure a) :=
  of_still (.pure a) fun _ _ _ run => absurd run pure_error

theorem get : std.Safe MonadState.get where
  grows := .get
  met {n s a t} met run _ := by
    cases run
    rw [Nat.sub_self]
    exact met
  honest _ run _ := by cases run

theorem settle {x : Except Fault α} (h : ∀ f, x = .error f → ∀ name, f ≠ .failedVerification name) :
    std.Safe (Superstep.settle (·) x) := by
  cases x with
  | ok a => exact pure a
  | error f =>
    refine of_still (.throw f) ?_
    intro s f' t run
    cases run
    exact h f rfl

theorem bind {x : EStateM Fault σ α} {k : α → EStateM Fault σ β} (hx : std.Safe x)
    (hk : ∀ a, std.Safe (k a)) : std.Safe (x >>= k) where
  grows := hx.grows.bind fun a => (hk a).grows
  met {n s b t} met run room := by
    obtain ⟨a, r, hr, ht⟩ := bind_ok.mp run
    -- What is needed up to the state in between is at most what is needed in the end.
    have first := hx.le_of_ok hr
    have second := (hk a).le_of_ok ht
    have met₁ := hx.met met hr (by omega)
    have met₂ := (hk a).met met₁ ht (by omega)
    have total : n + (std.size t - std.size s) =
        n + (std.size r - std.size s) + (std.size t - std.size r) := by omega
    rw [total]
    exact met₂
  honest {n s f t} met run room := by
    rcases bind_error.mp run with hf | ⟨a, r, hr, ht⟩
    · exact hx.honest met hf room
    · have first := hx.le_of_ok hr
      have second := (hk a).le_of_error ht
      have met₁ := hx.met met hr (by omega)
      exact (hk a).honest met₁ ht (by omega)

theorem runAfter {std : Standard (Stage α)} {passes : List (EStateM Fault (Stage α) PassEffect)}
    (h : ∀ pass ∈ passes, std.Safe pass) (effect : PassEffect) :
    std.Safe (Superstep.runAfter effect passes) := by
  induction passes generalizing effect with
  | nil => exact .pure effect
  | cons pass passes ih =>
    unfold Superstep.runAfter
    rw [List.foldlM_cons]
    refine .bind (.bind (h pass (by simp)) fun _ => .pure _) fun merged => ?_
    exact ih (fun later hl => h later (by simp [hl])) merged

end Safe

/-- In a state that meets the standard the pass does nothing. -/
def Idle (std : Standard (Stage α)) (pass : EStateM Fault (Stage α) PassEffect) : Prop :=
  ∀ n s, std.Met n s → pass s = .ok .unchanged s

end Standard

namespace Procedure

/-- A valid block graph whose ids are among the first that the counter has issued. -/
def standard : Standard (Stage Procedure) where
  size s := s.subject.graph.blocks.size
  Met n s := s.subject.graph.Valid ∧ s.subject.graph.IdsBelow n ∧ s.context.ids.next = Key.wrap n

/-- Work that only prints and logs. -/
theorem standard_safe_of_same {act : EStateM Fault (Stage Procedure) α}
    (same : Keeps (fun s => (s.subject, s.context)) Eq act)
    (honest : ∀ n s f t, standard.Met n s → act s = .error f t →
      ∀ name, f ≠ .failedVerification name) : standard.Safe act where
  grows s := Nat.le_of_eq (congrArg (·.1.graph.blocks.size) (same s))
  met {n s a t} met run _ := by
    have kept := same s
    rw [finalState_of_ok run] at kept
    obtain ⟨hsubject, hcontext⟩ := Prod.mk.inj kept
    unfold standard
    dsimp only
    rw [← hsubject, ← hcontext, Nat.sub_self]
    exact met
  honest met run _ := honest _ _ _ _ met run

theorem requireValid_of_valid {s : Stage Procedure} (v : s.subject.graph.Valid) :
    requireValid s = .ok () s :=
  bind_ok.mpr ⟨s, s, rfl, bind_ok.mpr ⟨[], s, settle_of_ok v.defects_eq s, rfl⟩⟩

end Procedure

theorem Alike.honest {A : α → α → Prop} {x y : Except Fault α} (h : Alike Fault.Like A x y) {f : Fault}
    (run : x = .error f) (name : String) : f ≠ .failedVerification name := by
  rcases h.outcomes with ⟨_, _, hx, _⟩ | ⟨d, _, hx, _, like⟩
  · rw [run] at hx
    cases hx
  · rw [run] at hx
    cases hx
    exact like.2 name

theorem Lockstep.honest {A : β → β → Prop} {act : EStateM Fault (Stage α) β}
    (h : Lockstep Fault.Like A Stage.Quiet act act) {s t : Stage α} {f : Fault}
    (run : act s = .error f t) (name : String) : f ≠ .failedVerification name := by
  rcases (h s s (.refl s)).outcomes with ⟨_, _, _, _, hs, _⟩ | ⟨d, _, u, _, hs, _, like, _⟩
  · rw [run] at hs
    cases hs
  · rw [run] at hs
    cases hs
    exact like.2 name

namespace ProcedurePass

open Procedure

theorem verify_idle : standard.Idle verify := by
  intro n s met
  exact bind_ok.mpr ⟨(), s, requireValid_of_valid met.1, rfl⟩

theorem verify_keeps : Keeps (fun s => (s.subject, s.context)) Eq verify := by
  have printed : ∀ text, Keeps (fun s : Stage Procedure => (s.subject, s.context)) Eq
      (Stage.print .stderr .procedureUnwritten text) := fun _ => .updatePart fun _ _ _ => rfl
  refine .bind (.bind .get fun s => .bind (.settle _) fun defects => ?_) fun _ => .pure _
  refine .ite (.pure _) ?_
  refine .bind (.settle _) fun listing => .bind (printed _) fun _ => ?_
  refine .bind (.forM (fun defect => ?_) defects) fun _ => .throw _
  exact .bind (.modify fun _ => rfl) fun _ => printed _

theorem verify_safe : standard.Safe verify := by
  refine standard_safe_of_same verify_keeps ?_
  intro n s f t met run
  rw [verify_idle n s met] at run
  cases run

theorem write_keeps (stream : Stream) : Keeps (fun s => (s.subject, s.context)) Eq (write stream) := by
  refine .bind .get fun s => .bind (.settle _) fun listing => ?_
  exact .bind (.updatePart fun _ _ _ => rfl) fun _ => .pure _

theorem write_safe (stream : Stream) : standard.Safe (write stream) :=
  standard_safe_of_same (write_keeps stream) fun _ _ _ _ _ run => (write_quiet stream).honest run

theorem splitComm_ok {s t : Stage Procedure} {effect : PassEffect}
    (h : splitComm s = .ok effect t) : ∃ splits, splitCommunication s = .ok splits t := by
  unfold splitComm at h
  split at h <;> cases h
  next run => exact ⟨_, run⟩
  next run => exact ⟨_, run⟩

theorem finalState_splitComm (s : Stage Procedure) :
    finalState splitComm s = finalState splitCommunication s := by
  unfold finalState splitComm
  cases splitCommunication s with
  | ok splits t =>
    cases splits with
    | nil => rfl
    | cons split splits => rfl
  | error halt t =>
    cases halt with
    | error e => rfl
    | fault f => rfl

theorem splitComm_safe : standard.Safe splitComm where
  grows s := by
    obtain ⟨n, grown, -⟩ := splitCommunication_grown s
    have length := congrArg List.length grown
    simp only [Procedure.ledger, FlowGraph.length_blockIds, List.length_append] at length
    rw [finalState_splitComm]
    show s.subject.graph.blocks.size ≤ (finalState splitCommunication s).subject.graph.blocks.size
    omega
  met {n s effect t} met run room := by
    obtain ⟨splits, split⟩ := splitComm_ok run
    obtain ⟨targets, s₁, hf, hsend, -, spliced⟩ := splitCommunication_ok split
    obtain ⟨v, own, counter⟩ := met
    have senders : ∀ p ∈ splits, p.send ∈ targets.order := by
      intro p hp
      rw [← hsend]
      exact List.mem_map_of_mem hp
    exact counted_of_splices hf senders spliced v counter own room
  honest _ run _ := splitComm_quiet.honest run

end ProcedurePass

theorem PassName.pass_safe (name : PassName) : Procedure.standard.Safe name.pass := by
  cases name with
  | splitComm => exact ProcedurePass.splitComm_safe
  | verify => exact ProcedurePass.verify_safe
  | printStdout => exact ProcedurePass.write_safe .stdout
  | printStderr => exact ProcedurePass.write_safe .stderr

theorem sum_set_add {xs : List Nat} {i a : Nat} (h : xs[i]? = some a) (b : Nat) :
    (xs.set i b).sum + a = xs.sum + b := by
  induction xs generalizing i with
  | nil => simp at h
  | cons x xs ih =>
    cases i with
    | zero =>
      obtain rfl : x = a := by simpa using h
      simp only [List.set_cons_zero, List.sum_cons]
      omega
    | succ i =>
      have rest := ih (i := i) (by simpa using h)
      simp only [List.set_cons_succ, List.sum_cons]
      omega

namespace Program

/-- The number of blocks of all procedures. -/
def blockTotal (p : Program) : Nat := (p.procedures.values.map (·.graph.blocks.size)).sum

/-- Every procedure has a key and meets its own standard. -/
def standard : Standard (Stage Program) where
  size s := s.subject.blockTotal
  Met n s := s.subject.procedures.size ≤ 0x100000000 ∧
    ∀ key procedure, s.subject.procedures.get? key = some procedure →
      Procedure.standard.Met n (s.focus procedure)

end Program

namespace Stage

variable {s : Stage Program} {key : Proc} {procedure : Procedure}

theorem size_withProcedure (h : s.subject.procedures.get? key = some procedure) (u : Stage Procedure) :
    Program.standard.size (s.withProcedure key u) + Procedure.standard.size (s.focus procedure) =
      Program.standard.size s + Procedure.standard.size u := by
  have old : (s.subject.procedures.values.map (·.graph.blocks.size))[key.index]? =
      some procedure.graph.blocks.size := by
    rw [List.getElem?_map, Table.values, Array.getElem?_toList]
    exact congrArg (Option.map _) h
  have new : (s.subject.procedures.set key u.subject).values.map (·.graph.blocks.size) =
      (s.subject.procedures.values.map (·.graph.blocks.size)).set key.index
        u.subject.graph.blocks.size := by
    simp [Table.values, Table.set, List.map_set]
  show ((s.subject.procedures.set key u.subject).values.map (·.graph.blocks.size)).sum + _ = _
  rw [new]
  exact sum_set_add old _

/-- Safe work on one procedure is safe for the program. -/
theorem onProcedure_safe {pass : ProcedurePass} (h : Procedure.standard.Safe pass) (key : Proc) :
    Program.standard.Safe (onProcedure key (·) pass) where
  grows s := by
    cases hp : s.subject.procedures.get? key with
    | none =>
      exact Nat.le_of_eq (congrArg Program.standard.size (finalState_onProcedure_of_absent hp).symm)
    | some procedure =>
      have total := size_withProcedure hp (finalState pass (s.focus procedure))
      have grown := h.grows (s.focus procedure)
      rw [finalState_onProcedure hp]
      omega
  met {n s effect t} met run room := by
    obtain ⟨procedure, u, hp, hu, rfl⟩ := onProcedure_ok.mp run
    have total := size_withProcedure hp u
    have grown := h.le_of_ok hu
    have gain : Program.standard.size (s.withProcedure key u) - Program.standard.size s =
        Procedure.standard.size u - Procedure.standard.size (s.focus procedure) := by omega
    rw [gain] at room ⊢
    have here := h.met (met.2 key procedure hp) hu room
    refine ⟨Nat.le_trans (Nat.le_of_eq (Table.size_set ..)) met.1, ?_⟩
    intro q other hq
    rw [get?_withProcedure hp] at hq
    by_cases same : q = key
    · rw [if_pos same] at hq
      cases hq
      exact here
    · rw [if_neg same] at hq
      obtain ⟨v, own, -⟩ := met.2 q other hq
      exact ⟨v, fun k x hx => Nat.lt_add_right _ (own k x hx), here.2.2⟩
  honest {n s f t} met run room := by
    rcases onProcedure_error.mp run with ⟨-, rfl, -⟩ | ⟨procedure, u, hp, hu, rfl⟩
    · exact fun _ => Fault.noConfusion
    · have total := size_withProcedure hp u
      have grown := h.le_of_error hu
      exact h.honest (met.2 key procedure hp) hu (by omega)

/-- In a program that meets the standard, idle work on a procedure that there is leaves all as it
is. -/
theorem onProcedure_of_idle {pass : ProcedurePass} (h : Procedure.standard.Idle pass) {n : Nat}
    (met : Program.standard.Met n s) (hkey : key.index < s.subject.procedures.size) :
    onProcedure key (·) pass s = .ok .unchanged s := by
  obtain ⟨procedure, hp⟩ := Table.get?_isSome_iff.mpr hkey
  refine onProcedure_ok.mpr ⟨procedure, s.focus procedure, hp, ?_, (withProcedure_focus hp).symm⟩
  exact h n (s.focus procedure) (met.2 key procedure hp)

end Stage

theorem Key.mapM_ofNat {label : String} {last : Nat} {indices : List Nat}
    (h : ∀ i ∈ indices, i ≤ last) :
    indices.mapM (ofNat : Nat → Except Fault (Key label last)) = .ok (indices.map wrap) := by
  induction indices with
  | nil => rfl
  | cons i indices ih =>
    have first : ofNat i = .ok (wrap i : Key label last) :=
      ofNat_eq_ok_iff.mpr (index_wrap_of_le (h i (by simp)))
    rw [List.mapM_cons, first, ih fun j hj => h j (by simp [hj])]
    rfl

namespace Table

variable {label : String} {last : Nat} {V : Type}

theorem keys_alike (t : Table (Key label last) V) : Alike Fault.Like Eq t.keys t.keys := by
  refine .mapM (fun i => ?_) _
  unfold Key.ofNat
  split
  · exact .ok rfl
  · exact .error ⟨rfl, fun _ => Fault.noConfusion⟩

/-- A table without more values than keys has a key for each value. -/
theorem keys_of_fits {t : Table (Key label last) V} (fits : t.size ≤ last + 1) :
    t.keys = .ok ((List.range t.size).map Key.wrap) := by
  refine Key.mapM_ofNat fun i hi => ?_
  have := List.mem_range.mp hi
  omega

theorem index_lt_of_mem_keys {t : Table (Key label last) V} (fits : t.size ≤ last + 1)
    {k : Key label last} (h : k ∈ (List.range t.size).map Key.wrap) : k.index < t.size := by
  obtain ⟨i, hi, rfl⟩ := List.mem_map.mp h
  have := List.mem_range.mp hi
  rw [Key.index_wrap_of_le (by omega)]
  exact this

end Table

theorem runAfter_cons_of_ok {pass : EStateM Fault (Stage α) PassEffect} {s t : Stage α}
    {effect : PassEffect} (h : pass s = .ok effect t) (before : PassEffect)
    (passes : List (EStateM Fault (Stage α) PassEffect)) :
    runAfter before (pass :: passes) s = runAfter (before.merge effect) passes t := by
  unfold runAfter
  rw [List.foldlM_cons]
  exact bind_of_ok (bind_of_ok h)

theorem runAfter_cons_of_error {pass : EStateM Fault (Stage α) PassEffect} {s t : Stage α}
    {f : Fault} (h : pass s = .error f t) (before : PassEffect)
    (passes : List (EStateM Fault (Stage α) PassEffect)) :
    runAfter before (pass :: passes) s = .error f t := by
  unfold runAfter
  rw [List.foldlM_cons]
  exact bind_of_error (bind_of_error h)

theorem PassEffect.merge_unchanged (effect : PassEffect) : effect.merge .unchanged = effect := by
  cases effect <;> rfl

theorem runAfter_of_idle {passes : List (EStateM Fault (Stage α) PassEffect)} {s : Stage α}
    (h : ∀ pass ∈ passes, pass s = .ok .unchanged s) (effect : PassEffect) :
    runAfter effect passes s = .ok effect s := by
  induction passes with
  | nil => rfl
  | cons pass passes ih =>
    rw [runAfter_cons_of_ok (h pass (by simp)), PassEffect.merge_unchanged]
    exact ih fun later hl => h later (by simp [hl])

namespace ProgramPass

theorem eachProcedure_safe {pass : ProcedurePass} (h : Procedure.standard.Safe pass) :
    Program.standard.Safe (eachProcedure pass) := by
  refine .bind .get fun s => .bind (.settle fun f hf => ?_) fun keys => ?_
  · exact s.subject.procedures.keys_alike.honest hf
  · refine .runAfter ?_ .unchanged
    intro work hwork
    obtain ⟨key, -, rfl⟩ := List.mem_map.mp hwork
    exact Stage.onProcedure_safe h key

theorem eachProcedure_idle {pass : ProcedurePass} (h : Procedure.standard.Idle pass) :
    Program.standard.Idle (eachProcedure pass) := by
  intro n s met
  refine bind_ok.mpr ⟨s, s, rfl, bind_ok.mpr ⟨_, s, settle_of_ok (Table.keys_of_fits met.1) s, ?_⟩⟩
  refine runAfter_of_idle ?_ .unchanged
  intro work hwork
  obtain ⟨key, hk, rfl⟩ := List.mem_map.mp hwork
  exact Stage.onProcedure_of_idle h met (Table.index_lt_of_mem_keys met.1 hk)

end ProgramPass

end Superstep
