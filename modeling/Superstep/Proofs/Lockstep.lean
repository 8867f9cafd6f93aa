import Superstep.Proofs.Outcome

namespace Superstep

variable {ε δ σ τ α β γ : Type}

/-- Both computations answer, with related answers, or both stop, with related errors. -/
inductive Alike (E : ε → ε → Prop) (A : α → α → Prop) : Except ε α → Except ε α → Prop
  | ok {a b : α} : A a b → Alike E A (.ok a) (.ok b)
  | error {d e : ε} : E d e → Alike E A (.error d) (.error e)

namespace Alike

variable {E : ε → ε → Prop} {A : α → α → Prop} {B : β → β → Prop}

theorem bind {x y : Except ε α} {f g : α → Except ε β} (h : Alike E A x y)
    (hf : ∀ a b, A a b → Alike E B (f a) (g b)) : Alike E B (x >>= f) (y >>= g) := by
  cases h with
  | ok ha => exact hf _ _ ha
  | error he => exact .error he

/-- What follows may differ, where both have given the same answer. -/
theorem andThen {x y : Except ε α} {f g : α → Except ε β} (h : Alike E Eq x y)
    (hf : ∀ a, Alike E B (f a) (g a)) : Alike E B (x >>= f) (y >>= g) :=
  h.bind fun a _ same => same ▸ hf a

theorem mapM {f g : γ → Except ε α} (h : ∀ c, Alike E Eq (f c) (g c)) (cs : List γ) :
    Alike E Eq (cs.mapM f) (cs.mapM g) := by
  induction cs with
  | nil => exact .ok rfl
  | cons c cs ih =>
    rw [List.mapM_cons, List.mapM_cons]
    exact (h c).andThen fun _ => ih.andThen fun _ => .ok rfl

theorem map {x y : Except ε α} {f g : α → β} (h : Alike E A x y) (hf : ∀ a b, A a b → B (f a) (g b)) :
    Alike E B (x.map f) (y.map g) := by
  cases h with
  | ok ha => exact .ok (hf _ _ ha)
  | error he => exact .error he

theorem refl (x : Except ε α) : Alike Eq Eq x x := by
  cases x with
  | ok a => exact .ok rfl
  | error e => exact .error rfl

theorem outcomes {x y : Except ε α} (h : Alike E A x y) :
    (∃ a b, x = .ok a ∧ y = .ok b ∧ A a b) ∨ ∃ d e, x = .error d ∧ y = .error e ∧ E d e := by
  cases h with
  | ok ha => exact Or.inl ⟨_, _, rfl, rfl, ha⟩
  | error he => exact Or.inr ⟨_, _, rfl, rfl, he⟩

end Alike

/-- Both actions end in the same way, with related answers or errors and in related states. -/
inductive Together (E : ε → ε → Prop) (A : α → α → Prop) (R : σ → σ → Prop) :
    EStateM.Result ε σ α → EStateM.Result ε σ α → Prop
  | ok {a b : α} {s t : σ} : A a b → R s t → Together E A R (.ok a s) (.ok b t)
  | error {d e : ε} {s t : σ} : E d e → R s t → Together E A R (.error d s) (.error e t)

theorem Together.outcomes {E : ε → ε → Prop} {A : α → α → Prop} {R : σ → σ → Prop}
    {x y : EStateM.Result ε σ α} (h : Together E A R x y) :
    (∃ a b s t, x = .ok a s ∧ y = .ok b t ∧ A a b ∧ R s t) ∨
      ∃ d e s t, x = .error d s ∧ y = .error e t ∧ E d e ∧ R s t := by
  cases h with
  | ok ha hs => exact Or.inl ⟨_, _, _, _, rfl, rfl, ha, hs⟩
  | error he hs => exact Or.inr ⟨_, _, _, _, rfl, rfl, he, hs⟩

/-- The answer or the error of an action, without the state that it leaves behind. -/
def outcome (act : EStateM ε σ α) (s : σ) : Except ε α :=
  match act s with
  | .ok a _ => .ok a
  | .error e _ => .error e

/-- From related states the two actions run together. -/
def Lockstep (E : ε → ε → Prop) (A : α → α → Prop) (R : σ → σ → Prop) (x y : EStateM ε σ α) : Prop :=
  ∀ s t, R s t → Together E A R (x s) (y t)

namespace Lockstep

variable {E : ε → ε → Prop} {A : α → α → Prop} {B : β → β → Prop} {R : σ → σ → Prop}

theorem pure {a b : α} (h : A a b) : Lockstep E A R (Pure.pure a) (Pure.pure b) :=
  fun _ _ related => .ok h related

theorem throw {d e : ε} (h : E d e) :
    Lockstep E A R (MonadExcept.throw d) (MonadExcept.throw e) :=
  fun _ _ related => .error h related

theorem get : Lockstep E R R (MonadState.get : EStateM ε σ σ) MonadState.get :=
  fun _ _ related => .ok related related

theorem modify {f g : σ → σ} (h : ∀ s t, R s t → R (f s) (g t)) :
    Lockstep E Eq R (modify f : EStateM ε σ Unit) (modify g) :=
  fun s t related => .ok rfl (h s t related)

theorem bind {x y : EStateM ε σ α} {f g : α → EStateM ε σ β} (h : Lockstep E A R x y)
    (hf : ∀ a b, A a b → Lockstep E B R (f a) (g b)) : Lockstep E B R (x >>= f) (y >>= g) := by
  intro s t related
  rcases (h s t related).outcomes with ⟨a, b, s₁, t₁, hx, hy, ha, hs⟩ | ⟨d, e, s₁, t₁, hx, hy, he, hs⟩
  · rw [bind_of_ok hx, bind_of_ok hy]
    exact hf a b ha s₁ t₁ hs
  · rw [bind_of_error hx, bind_of_error hy]
    exact .error he hs

/-- The second actions may differ, where the first ones give the same answer. -/
theorem andThen {x y : EStateM ε σ α} {f g : α → EStateM ε σ β} (h : Lockstep E Eq R x y)
    (hf : ∀ a, Lockstep E B R (f a) (g a)) : Lockstep E B R (x >>= f) (y >>= g) :=
  h.bind fun a _ same => same ▸ hf a

theorem ite {c d : Prop} [Decidable c] [Decidable d] (same : c ↔ d) {x x' y y' : EStateM ε σ α}
    (hx : Lockstep E A R x x') (hy : Lockstep E A R y y') :
    Lockstep E A R (if c then x else y) (if d then x' else y') := by
  by_cases h : c
  · rw [if_pos h, if_pos (same.mp h)]
    exact hx
  · rw [if_neg h, if_neg fun hd => h (same.mpr hd)]
    exact hy

theorem forM {f g : γ → EStateM ε σ PUnit} (h : ∀ c, Lockstep E Eq R (f c) (g c)) (cs : List γ) :
    Lockstep E Eq R (ForM.forM cs f) (ForM.forM cs g) := by
  induction cs with
  | nil => exact .pure rfl
  | cons c cs ih =>
    rw [List.forM_cons, List.forM_cons]
    exact (h c).andThen fun _ => ih

theorem mapM {f g : γ → EStateM ε σ α} (h : ∀ c, Lockstep E Eq R (f c) (g c)) (cs : List γ) :
    Lockstep E Eq R (cs.mapM f) (cs.mapM g) := by
  induction cs with
  | nil => exact .pure rfl
  | cons c cs ih =>
    rw [List.mapM_cons, List.mapM_cons]
    exact (h c).andThen fun _ => ih.andThen fun _ => .pure rfl

theorem settle {D : δ → δ → Prop} {wrap : δ → ε} {x y : Except δ α} (h : Alike D A x y)
    (hwrap : ∀ d e, D d e → E (wrap d) (wrap e)) :
    Lockstep E A R (Superstep.settle wrap x) (Superstep.settle wrap y) := by
  cases h with
  | ok ha => exact .pure ha
  | error he => exact .throw (hwrap _ _ he)

theorem onPart {D : δ → δ → Prop} {P : τ → τ → Prop} {part : σ → τ} {put : σ → τ → σ} {wrap : δ → ε}
    {x y : EStateM δ τ α} (h : Lockstep D A P x y) (enter : ∀ s t, R s t → P (part s) (part t))
    (leave : ∀ s t u w, R s t → P u w → R (put s u) (put t w))
    (hwrap : ∀ d e, D d e → E (wrap d) (wrap e)) :
    Lockstep E A R (Superstep.onPart part put wrap x) (Superstep.onPart part put wrap y) := by
  intro s t related
  have inner := h (part s) (part t) (enter s t related)
  unfold Superstep.onPart
  rcases inner.outcomes with ⟨a, b, u, w, hx, hy, ha, hs⟩ | ⟨d, e, u, w, hx, hy, he, hs⟩
  · rw [hx, hy]
    exact .ok ha (leave s t u w related hs)
  · rw [hx, hy]
    exact .error (hwrap d e he) (leave s t u w related hs)

theorem updatePart {D : δ → δ → Prop} {P : τ → τ → Prop} {part : σ → τ} {put : σ → τ → σ}
    {wrap : δ → ε} {f g : τ → Except δ τ} (h : ∀ s t, R s t → Alike D P (f (part s)) (g (part t)))
    (leave : ∀ s t u w, R s t → P u w → R (put s u) (put t w))
    (hwrap : ∀ d e, D d e → E (wrap d) (wrap e)) :
    Lockstep E Eq R (Superstep.updatePart part put wrap f) (Superstep.updatePart part put wrap g) := by
  intro s t related
  unfold Superstep.updatePart
  rcases (h s t related).outcomes with ⟨u, w, hx, hy, hs⟩ | ⟨d, e, hx, hy, he⟩
  · rw [hx, hy]
    exact .ok rfl (leave s t u w related hs)
  · rw [hx, hy]
    exact .error (hwrap d e he) related

theorem ends {x y : EStateM ε σ α} (h : Lockstep E A R x y) {s t : σ} (related : R s t) :
    Alike E A (outcome x s) (outcome y t) ∧ R (finalState x s) (finalState y t) := by
  unfold outcome finalState
  rcases (h s t related).outcomes with ⟨a, b, s', t', hx, hy, ha, hs⟩ | ⟨d, e, s', t', hx, hy, he, hs⟩
  · rw [hx, hy]
    exact ⟨.ok ha, hs⟩
  · rw [hx, hy]
    exact ⟨.error he, hs⟩

theorem mono {F : ε → ε → Prop} {x y : EStateM ε σ α} (h : Lockstep E A R x y)
    (hE : ∀ d e, E d e → F d e) : Lockstep F A R x y := by
  intro s t related
  rcases (h s t related).outcomes with ⟨a, b, s₁, t₁, hx, hy, ha, hs⟩ | ⟨d, e, s₁, t₁, hx, hy, he, hs⟩
  · rw [hx, hy]
    exact .ok ha hs
  · rw [hx, hy]
    exact .error (hE d e he) hs

end Lockstep

end Superstep
