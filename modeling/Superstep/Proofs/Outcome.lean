import Mathlib.Tactic.Common
import Superstep.Step

namespace Superstep

variable {ε δ σ τ α β : Type}

theorem except_bind_ok {x : Except ε α} {f : α → Except ε β} {b : β} :
    (x >>= f) = .ok b ↔ ∃ a, x = .ok a ∧ f a = .ok b := by
  cases x <;> simp [bind, Except.bind]

/-- Every element has a result, and none of the results holds anything. -/
theorem except_mapM_flatten_nil {f : α → Except ε (List β)} {xs : List α} :
    (∃ ys, xs.mapM f = .ok ys ∧ ys.flatten = []) ↔ ∀ x ∈ xs, f x = .ok [] := by
  induction xs with
  | nil => simp [pure, Except.pure]
  | cons x xs ih =>
    simp only [List.mapM_cons, except_bind_ok, List.forall_mem_cons, ← ih]
    constructor
    · rintro ⟨_, ⟨y, hy, ys, hys, he⟩, hf⟩
      cases he
      simp only [List.flatten_cons, List.append_eq_nil_iff] at hf
      exact ⟨hf.1 ▸ hy, ys, hys, hf.2⟩
    · rintro ⟨hx, ys, hys, hf⟩
      exact ⟨[] :: ys, ⟨[], hx, ys, hys, rfl⟩, by simpa using hf⟩

theorem except_mapM_total {f : α → Except ε β} {xs : List α} (h : ∀ x ∈ xs, ∃ y, f x = .ok y) :
    ∃ ys, xs.mapM f = .ok ys := by
  induction xs with
  | nil => exact ⟨[], rfl⟩
  | cons x xs ih =>
    obtain ⟨y, hy⟩ := h x (by simp)
    obtain ⟨ys, hys⟩ := ih fun z hz => h z (by simp [hz])
    refine ⟨y :: ys, ?_⟩
    rw [List.mapM_cons]
    exact except_bind_ok.mpr ⟨y, hy, except_bind_ok.mpr ⟨ys, hys, rfl⟩⟩

theorem bind_ok {x : EStateM ε σ α} {f : α → EStateM ε σ β} {s t : σ} {b : β} :
    (x >>= f) s = .ok b t ↔ ∃ a r, x s = .ok a r ∧ f a r = .ok b t := by
  change EStateM.bind x f s = .ok b t ↔ _
  unfold EStateM.bind
  cases x s <;> simp [and_assoc]

theorem bind_error {x : EStateM ε σ α} {f : α → EStateM ε σ β} {s t : σ} {e : ε} :
    (x >>= f) s = .error e t ↔ x s = .error e t ∨ ∃ a r, x s = .ok a r ∧ f a r = .error e t := by
  change EStateM.bind x f s = .error e t ↔ _
  unfold EStateM.bind
  cases x s <;> simp [and_assoc]

theorem bind_of_ok {x : EStateM ε σ α} {f : α → EStateM ε σ β} {s r : σ} {a : α}
    (h : x s = .ok a r) : (x >>= f) s = f a r := by
  change EStateM.bind x f s = f a r
  unfold EStateM.bind
  rw [h]

theorem bind_of_error {x : EStateM ε σ α} {f : α → EStateM ε σ β} {s r : σ} {e : ε}
    (h : x s = .error e r) : (x >>= f) s = .error e r :=
  bind_error.mpr (Or.inl h)

theorem pure_ok {s t : σ} {a b : α} : (pure a : EStateM ε σ α) s = .ok b t ↔ a = b ∧ s = t := by
  change EStateM.pure a s = .ok b t ↔ _
  simp [EStateM.pure]

theorem pure_error {s t : σ} {a : α} {e : ε} :
    ¬(pure a : EStateM ε σ α) s = .error e t := by
  change ¬EStateM.pure a s = .error e t
  simp [EStateM.pure]

theorem modify_ok {f : σ → σ} {s t : σ} {u : Unit} :
    (modify f : EStateM ε σ Unit) s = .ok u t ↔ t = f s := by
  have run : (modify f : EStateM ε σ Unit) s = .ok () (f s) := rfl
  simp [run, eq_comm]

theorem modify_error {f : σ → σ} {s t : σ} {e : ε} :
    ¬(modify f : EStateM ε σ Unit) s = .error e t := by
  have run : (modify f : EStateM ε σ Unit) s = .ok () (f s) := rfl
  simp [run]

theorem throw_ok {s t : σ} {a : α} {e : ε} : ¬(throw e : EStateM ε σ α) s = .ok a t := by
  have run : (throw e : EStateM ε σ α) s = .error e s := rfl
  simp [run]

theorem throw_error {s t : σ} {e e' : ε} :
    (throw e : EStateM ε σ α) s = .error e' t ↔ e = e' ∧ s = t := by
  have run : (throw e : EStateM ε σ α) s = .error e s := rfl
  simp [run]

theorem ite_outcome {c : Prop} [Decidable c] {x y : EStateM ε σ α} {s : σ}
    {r : EStateM.Result ε σ α} :
    (if c then x else y) s = r ↔ (c ∧ x s = r) ∨ (¬c ∧ y s = r) := by
  split <;> simp [*]

theorem ite_of_pos {c : Prop} [Decidable c] {x y : EStateM ε σ α} (h : c) (s : σ) :
    (if c then x else y) s = x s := by
  rw [if_pos h]

theorem ite_of_neg {c : Prop} [Decidable c] {x y : EStateM ε σ α} (h : ¬c) (s : σ) :
    (if c then x else y) s = y s := by
  rw [if_neg h]

/-- The action leaves the state as it is, however it ends. -/
def Still (act : EStateM ε σ α) : Prop :=
  ∀ s, (∀ a t, act s = .ok a t → t = s) ∧ ∀ e t, act s = .error e t → t = s

namespace Still

theorem pure (a : α) : Still (Pure.pure a : EStateM ε σ α) := by
  intro s
  exact ⟨fun b t h => (pure_ok.mp h).2.symm, fun e t h => absurd h pure_error⟩

theorem throw (e : ε) : Still (MonadExcept.throw e : EStateM ε σ α) := by
  intro s
  exact ⟨fun a t h => absurd h throw_ok, fun e' t h => (throw_error.mp h).2.symm⟩

theorem bind {x : EStateM ε σ α} {f : α → EStateM ε σ β} (hx : Still x) (hf : ∀ a, Still (f a)) :
    Still (x >>= f) := by
  intro s
  constructor
  · intro b t h
    obtain ⟨a, r, ha, hb⟩ := bind_ok.mp h
    exact ((hf a r).1 b t hb).trans ((hx s).1 a r ha)
  · intro e t h
    rcases bind_error.mp h with he | ⟨a, r, ha, he⟩
    · exact (hx s).2 e t he
    · exact ((hf a r).2 e t he).trans ((hx s).1 a r ha)

theorem ite {c : Prop} [Decidable c] {x y : EStateM ε σ α} (hx : Still x) (hy : Still y) :
    Still (if c then x else y) := by
  split
  · exact hx
  · exact hy

end Still

theorem onPart_ok {part : σ → τ} {put : σ → τ → σ} {wrap : δ → ε} {act : EStateM δ τ α}
    {s t : σ} {a : α} :
    onPart part put wrap act s = .ok a t ↔ ∃ u, act (part s) = .ok a u ∧ t = put s u := by
  unfold onPart
  cases act (part s) <;> simp [and_assoc, eq_comm]

theorem onPart_error {part : σ → τ} {put : σ → τ → σ} {wrap : δ → ε} {act : EStateM δ τ α}
    {s t : σ} {e : ε} :
    onPart part put wrap act s = .error e t ↔
      ∃ d u, act (part s) = .error d u ∧ e = wrap d ∧ t = put s u := by
  unfold onPart
  cases act (part s) <;> simp [and_assoc, eq_comm]

theorem updatePart_ok {part : σ → τ} {put : σ → τ → σ} {wrap : δ → ε} {f : τ → Except δ τ}
    {s t : σ} {u : Unit} :
    updatePart part put wrap f s = .ok u t ↔ ∃ p, f (part s) = .ok p ∧ t = put s p := by
  unfold updatePart
  cases f (part s) <;> simp [eq_comm]

theorem updatePart_error {part : σ → τ} {put : σ → τ → σ} {wrap : δ → ε} {f : τ → Except δ τ}
    {s t : σ} {e : ε} :
    updatePart part put wrap f s = .error e t ↔ ∃ d, f (part s) = .error d ∧ e = wrap d ∧ t = s := by
  unfold updatePart
  cases f (part s) <;> simp [eq_comm]

theorem settle_of_ok {wrap : δ → ε} {x : Except δ α} {a : α} (h : x = .ok a) (s : σ) :
    settle wrap x s = .ok a s := by
  rw [h]
  rfl

theorem settle_of_error {wrap : δ → ε} {x : Except δ α} {e : δ} (h : x = .error e) (s : σ) :
    settle wrap x s = .error (wrap e) s := by
  rw [h]
  rfl

theorem ok_of_run' {act : EStateM ε σ α} {s : σ} {a : α} (h : act.run' s = some a) :
    ∃ t, act s = .ok a t := by
  have eval : act.run' s = EStateM.run' (fun _ => act s) s := rfl
  cases hr : act s with
  | ok b t =>
    rw [hr] at eval
    have same : some b = some a := eval.symm.trans h
    cases same
    exact ⟨t, rfl⟩
  | error e t =>
    rw [hr] at eval
    have none : none = some a := eval.symm.trans h
    cases none

/-- The state that an action leaves behind, also when it stops early. -/
def finalState (act : EStateM ε σ α) (s : σ) : σ :=
  match act s with
  | .ok _ t => t
  | .error _ t => t

theorem finalState_of_ok {act : EStateM ε σ α} {s t : σ} {a : α} (h : act s = .ok a t) :
    finalState act s = t := by
  unfold finalState
  rw [h]

theorem finalState_of_error {act : EStateM ε σ α} {s t : σ} {e : ε} (h : act s = .error e t) :
    finalState act s = t := by
  unfold finalState
  rw [h]

theorem finalState_onPart (part : σ → τ) (put : σ → τ → σ) (wrap : δ → ε) (act : EStateM δ τ α)
    (s : σ) : finalState (onPart part put wrap act) s = put s (finalState act (part s)) := by
  unfold finalState onPart
  cases act (part s) <;> rfl

/-- Work on one part of the state, item after item, is work on the part with all items. -/
theorem mapM_onPart {part : σ → τ} {put : σ → τ → σ} {wrap : δ → ε} {f : β → EStateM δ τ α}
    (xs : List β) (s : σ) (part_put : ∀ s t, part (put s t) = t)
    (put_put : ∀ s t u, put (put s t) u = put s u) (put_part : ∀ s, put s (part s) = s) :
    xs.mapM (fun x => onPart part put wrap (f x)) s = onPart part put wrap (xs.mapM f) s := by
  induction xs generalizing s with
  | nil =>
    have done : onPart part put wrap (pure [] : EStateM δ τ (List α)) s =
        .ok [] (put s (part s)) := rfl
    rw [List.mapM_nil, List.mapM_nil, done, put_part]
    rfl
  | cons x xs ih =>
    rw [List.mapM_cons, List.mapM_cons]
    cases first : f x (part s) with
    | error e t =>
      have hx : onPart part put wrap (f x) s = .error (wrap e) (put s t) :=
        onPart_error.mpr ⟨e, t, first, rfl, rfl⟩
      rw [bind_of_error hx]
      exact (onPart_error.mpr ⟨e, t, bind_of_error first, rfl, rfl⟩).symm
    | ok a t =>
      have hx : onPart part put wrap (f x) s = .ok a (put s t) := onPart_ok.mpr ⟨t, first, rfl⟩
      rw [bind_of_ok hx]
      have rest := ih (put s t)
      cases later : xs.mapM f t with
      | error e u =>
        have hxs : xs.mapM (fun x => onPart part put wrap (f x)) (put s t) =
            .error (wrap e) (put s u) := by
          rw [rest, ← put_put s t u]
          exact onPart_error.mpr ⟨e, u, (part_put s t).symm ▸ later, rfl, rfl⟩
        rw [bind_of_error hxs]
        refine (onPart_error.mpr ⟨e, u, ?_, rfl, rfl⟩).symm
        rw [bind_of_ok first, bind_of_error later]
      | ok as u =>
        have hxs : xs.mapM (fun x => onPart part put wrap (f x)) (put s t) =
            .ok as (put s u) := by
          rw [rest, ← put_put s t u]
          exact onPart_ok.mpr ⟨u, (part_put s t).symm ▸ later, rfl⟩
        rw [bind_of_ok hxs]
        refine (onPart_ok.mpr ⟨u, ?_, rfl⟩).symm
        rw [bind_of_ok first, bind_of_ok later]
        rfl

end Superstep
