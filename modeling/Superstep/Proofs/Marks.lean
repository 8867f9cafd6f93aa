import Superstep.Proofs.Trail

namespace Superstep

namespace LoopRole

/-- A role once given stays an outer one or an inner one. -/
def Follows (new old : LoopRole) : Prop :=
  (old.isOuter = true → new.isOuter = true) ∧ (old = .inner → new = .inner)

theorem Follows.trans {a b c : LoopRole} (h : b.Follows a) (h' : c.Follows b) : c.Follows a :=
  ⟨fun ha => h'.1 (h.1 ha), fun ha => h'.2 (h.2 ha)⟩

theorem follows_of_markOuter {old new : LoopRole} (h : old.markOuter = .ok new) :
    new.Follows old := by
  rcases markOuter_ok.mp h with ⟨rfl, rfl⟩ | ⟨_, rfl⟩
  · exact ⟨Bool.noConfusion, LoopRole.noConfusion⟩
  · exact ⟨id, id⟩

end LoopRole

namespace Ast

/-- Only the roles of loops differ, and each of them as `R` says of the loop and its new role. -/
structure Marked (R : Stmt → Foreach → LoopRole → Prop) (a b : Ast) : Prop where
  size : b.stmts.size = a.stmts.size
  lookup : ∀ s, b.stmts.get? s = a.stmts.get? s ∨ ∃ f role, a.stmts.get? s = some (.foreach f) ∧
    R s f role ∧ b.stmts.get? s = some (.foreach { f with role })
  symbols : b.symbols = a.symbols
  body : b.body = a.body

namespace Marked

variable {R R' : Stmt → Foreach → LoopRole → Prop} {a b c : Ast}

theorem refl (a : Ast) : Marked R a a := ⟨rfl, fun _ => Or.inl rfl, rfl, rfl⟩

theorem trees (h : Marked R a b) : a.SameTrees b := by
  refine ⟨fun s => ?_, h.symbols, h.body⟩
  rcases h.lookup s with he | ⟨f, role, ha, _, hb⟩
  · rw [he]
  · rw [ha, hb]
    rfl

theorem mono (h : Marked R a b) (weaker : ∀ s f role, R s f role → R' s f role) : Marked R' a b := by
  refine ⟨h.size, fun s => ?_, h.symbols, h.body⟩
  rcases h.lookup s with he | ⟨f, role, ha, hr, hb⟩
  · exact Or.inl he
  · exact Or.inr ⟨f, role, ha, weaker s f role hr, hb⟩

theorem trans (h : Marked R a b) (h' : Marked R b c)
    (step : ∀ s f role role', R s f role → R s { f with role } role' → R s f role') :
    Marked R a c := by
  refine ⟨h'.size.trans h.size, fun s => ?_, h'.symbols.trans h.symbols, h'.body.trans h.body⟩
  rcases h.lookup s with he | ⟨f, role, ha, hr, hb⟩
  · rw [← he]
    exact h'.lookup s
  · rcases h'.lookup s with he | ⟨_, role', hb', hr', hc⟩
    · exact Or.inr ⟨f, role, ha, hr, he.trans hb⟩
    · cases hb.symm.trans hb'
      exact Or.inr ⟨f, role', ha, step s f role role' hr hr', hc⟩

theorem setRole {s : Stmt} {f : Foreach} {role : LoopRole} (h : a.stmts.get? s = some (.foreach f))
    (hr : R s f role) : Marked R a (a.setRole s f role) := by
  refine ⟨Table.size_set .., fun t => ?_, rfl, rfl⟩
  by_cases ht : s = t
  · subst t
    exact Or.inr ⟨f, role, h, hr, by simp [Ast.setRole, Table.get?_set, h]⟩
  · exact Or.inl (Table.get?_set_of_ne ht _)

end Marked

/-- No role is taken back. -/
def Followed (a b : Ast) : Prop := Marked (fun _ f role => role.Follows f.role) a b

theorem Followed.trans {a b c : Ast} (h : a.Followed b) (h' : b.Followed c) : a.Followed c :=
  Marked.trans h h' fun _ _ _ _ first second => first.trans second

end Ast

namespace Detection

variable {s : Stmt} {scope : Scope} {d d' : Detection} {u : Unit}

theorem visit_followed {inner : Scope} (h : visit s scope d = .ok inner d') :
    d.body.ast.Followed d'.body.ast := by
  obtain ⟨-, statement, hs, ⟨-, h⟩ | ⟨-, -, h⟩ | ⟨host, -, -, h⟩ | ⟨-, -, rfl⟩⟩ := visit_iff.mp h
  · obtain ⟨x, f, role, -, hf, hm, -, rfl⟩ := outerLoop_iff.mp h
    exact .setRole hf (LoopRole.follows_of_markOuter hm)
  · obtain ⟨outer, x, fo, flags, f, id, r, -, -, hfo, hflags, hf, hin, -, rfl⟩ := innerLoop_iff.mp h
    have hout : fo.role.isOuter = true := LoopRole.isOuter_iff.mpr ⟨flags, hflags⟩
    have hsame := get?_setRole_inner hf hin hfo hout
    have first : d.body.ast.Followed (d.body.ast.setRole s f .inner) :=
      .setRole hf ⟨fun ho => absurd (hin.symm.trans ho) Bool.noConfusion, fun _ => rfl⟩
    exact first.trans (.setRole hsame ⟨fun _ => rfl, fun hi => absurd (hflags.symm.trans hi)
      LoopRole.noConfusion⟩)
  · obtain ⟨outer, x, fo, flags, a, access, id, r, -, -, hfo, hflags, -, -, -, rfl⟩ :=
      randomWrite_iff.mp h
    exact .setRole hfo ⟨fun _ => rfl, fun hi => absurd (hflags.symm.trans hi) LoopRole.noConfusion⟩
  · exact .refl _

end Detection

end Superstep
