import Mathlib.Order.Defs.Unbundled
import Superstep.Proofs.Outcome

namespace Superstep

variable {ε δ σ τ ω ψ α β : Type}

/-- However the action ends, what can be seen of the state behind it is related to what could be
seen before. -/
def Keeps (view : σ → ω) (R : ω → ω → Prop) (act : EStateM ε σ α) : Prop :=
  ∀ s, R (view s) (view (finalState act s))

namespace Keeps

variable {view : σ → ω} {R : ω → ω → Prop}

theorem of_still [Std.Refl R] {act : EStateM ε σ α} (still : Still act) : Keeps view R act := by
  intro s
  cases h : act s with
  | ok a t =>
    have ht : t = s := (still s).1 a t h
    rw [finalState_of_ok h, ht]
    exact refl_of R _
  | error e t =>
    have ht : t = s := (still s).2 e t h
    rw [finalState_of_error h, ht]
    exact refl_of R _

theorem pure [Std.Refl R] (a : α) : Keeps view R (Pure.pure a : EStateM ε σ α) :=
  of_still (.pure a)

theorem throw [Std.Refl R] (e : ε) : Keeps view R (MonadExcept.throw e : EStateM ε σ α) :=
  of_still (.throw e)

theorem get [Std.Refl R] : Keeps view R (MonadState.get : EStateM ε σ σ) := fun _ => refl_of R _

theorem settle [Std.Refl R] {wrap : δ → ε} (x : Except δ α) :
    Keeps view R (Superstep.settle wrap x : EStateM ε σ α) := by
  cases x with
  | ok a => exact .pure a
  | error e => exact .throw (wrap e)

theorem modify {f : σ → σ} (h : ∀ s, R (view s) (view (f s))) :
    Keeps view R (modify f : EStateM ε σ Unit) := h

theorem bind [IsTrans ω R] {x : EStateM ε σ α} {f : α → EStateM ε σ β} (hx : Keeps view R x)
    (hf : ∀ a, Keeps view R (f a)) : Keeps view R (x >>= f) := by
  intro s
  have first := hx s
  cases h : x s with
  | ok a t =>
    rw [finalState_of_ok h] at first
    have hbind : finalState (x >>= f) s = finalState (f a) t := by
      unfold finalState
      rw [bind_of_ok h]
    rw [hbind]
    exact trans_of R first (hf a t)
  | error e t =>
    rw [finalState_of_error h] at first
    rw [finalState_of_error (bind_of_error h)]
    exact first

theorem ite {c : Prop} [Decidable c] {x y : EStateM ε σ α} (hx : Keeps view R x)
    (hy : Keeps view R y) : Keeps view R (if c then x else y) := by
  split
  · exact hx
  · exact hy

theorem forM [IsPreorder ω R] {f : β → EStateM ε σ PUnit} (h : ∀ b, Keeps view R (f b))
    (bs : List β) : Keeps view R (ForM.forM bs f) := by
  induction bs with
  | nil => exact .pure _
  | cons b bs ih =>
    rw [List.forM_cons]
    exact (h b).bind fun _ => ih

theorem mapM [IsPreorder ω R] {f : β → EStateM ε σ α} (h : ∀ b, Keeps view R (f b))
    (bs : List β) : Keeps view R (bs.mapM f) := by
  induction bs with
  | nil => exact .pure _
  | cons b bs ih =>
    rw [List.mapM_cons]
    exact (h b).bind fun _ => ih.bind fun _ => .pure _

theorem onPart {Q : ψ → ψ → Prop} {seen : τ → ψ} {part : σ → τ} {put : σ → τ → σ} {wrap : δ → ε}
    {act : EStateM δ τ α} (h : Keeps seen Q act)
    (lift : ∀ s t, Q (seen (part s)) (seen t) → R (view s) (view (put s t))) :
    Keeps view R (Superstep.onPart part put wrap act) := by
  intro s
  rw [finalState_onPart]
  exact lift s _ (h (part s))

theorem updatePart [Std.Refl R] {part : σ → τ} {put : σ → τ → σ} {wrap : δ → ε}
    {f : τ → Except δ τ} (h : ∀ s t, f (part s) = .ok t → R (view s) (view (put s t))) :
    Keeps view R (Superstep.updatePart part put wrap f) := by
  intro s
  cases hf : f (part s) with
  | ok t =>
    have runs : Superstep.updatePart part put wrap f s = .ok () (put s t) :=
      updatePart_ok.mpr ⟨t, hf, rfl⟩
    rw [finalState_of_ok runs]
    exact h s t hf
  | error e =>
    have stops : Superstep.updatePart part put wrap f s = .error (wrap e) s :=
      updatePart_error.mpr ⟨e, hf, rfl, rfl⟩
    rw [finalState_of_error stops]
    exact refl_of R _

end Keeps

end Superstep
