import Superstep.Proofs.Visit

namespace Superstep

namespace Detection

/-- A run of visits, one after the other, none of which failed. -/
inductive Trail : Detection → List (Stmt × Scope) → Detection → Prop
  | nil (d : Detection) : Trail d [] d
  | cons {d d₁ d' : Detection} {s : Stmt} {scope inner : Scope} {rest : List (Stmt × Scope)} :
      visit s scope d = .ok inner d₁ → Trail d₁ rest d' → Trail d ((s, scope) :: rest) d'

theorem Trail.append {d d₁ d' : Detection} {visits rest : List (Stmt × Scope)}
    (h : Trail d visits d₁) (h' : Trail d₁ rest d') : Trail d (visits ++ rest) d' := by
  induction h with
  | nil => exact h'
  | cons hv _ ih => exact .cons hv (ih h')

theorem visit_trees {s : Stmt} {scope inner : Scope} {d d' : Detection}
    (h : visit s scope d = .ok inner d') : d.body.ast.SameTrees d'.body.ast := by
  obtain ⟨_, _, _, ⟨u, _, hr⟩ | ⟨_, ht, _, _⟩⟩ := visit_ok h
  · exact hr.trees
  · exact ht

theorem Trail.trees {d d' : Detection} {visits : List (Stmt × Scope)} (h : Trail d visits d') :
    d.body.ast.SameTrees d'.body.ast := by
  induction h with
  | nil => exact .refl _
  | cons hv _ ih => exact (visit_trees hv).trans ih

theorem visitor_look {α : Type} (f : Body → Except Fault α) : visitor.look f = look f := rfl

theorem children_ok {ast : Ast} {s : Stmt} {cs : List Stmt} :
    ast.children s = .ok cs ↔ ∃ x, ast.stmts.get? s = some x ∧ x.children = cs := by
  unfold Ast.children
  cases hs : ast.stmt s with
  | error e =>
    have hn : ast.stmts.get? s = none := by
      cases hx : ast.stmts.get? s with
      | none => rfl
      | some x => cases hs.symm.trans (stmt_ok.mpr hx)
    simp [Except.map, hn]
  | ok x => simp [Except.map, stmt_ok.mp hs]

/-- How a statement with everything inside it is walked: a visit, then the children as they were
before it. -/
theorem walkStmt_ok {n : Nat} {scope : Scope} {s : Stmt} {d d' : Detection} {u : Unit}
    (h : visitor.walkStmt (n + 1) scope s d = .ok u d') :
    ∃ statement d₁, d.body.ast.stmts.get? s = some statement ∧
      visit s scope d = .ok { scope with outer := statement.innermost s scope.outer } d₁ ∧
      forM statement.children (visitor.walkStmt n
        { scope with outer := statement.innermost s scope.outer }) d₁ = .ok u d' := by
  obtain ⟨inner, d₁, hv, h⟩ := bind_ok.mp h
  obtain ⟨cs, _, hl, h⟩ := bind_ok.mp h
  rw [visitor_look] at hl
  obtain ⟨hc, rfl⟩ := look_ok.mp hl
  obtain ⟨statement, hs, hi, _⟩ := visit_ok hv
  obtain ⟨y, hy, rfl⟩ := children_ok.mp hc
  obtain ⟨z, hz, hp⟩ := (visit_trees hv).lookup hs
  cases hy.symm.trans hz
  rw [Statement.children_eq_of_plain hp] at h
  subst hi
  exact ⟨statement, d₁, hs, hv, h⟩

/-- A walk over statements visits them in program order. -/
theorem walkStmts_ok {n : Nat} {scope : Scope} {ss : List Stmt} {d d' : Detection} {u : Unit}
    (h : forM ss (visitor.walkStmt n scope) d = .ok u d') :
    ∃ order, d.body.ast.Preorder scope.outer ss order ∧
      Trail d (order.map fun v => (v.1, { scope with outer := v.2 })) d' := by
  induction n generalizing scope ss d d' u with
  | zero =>
    cases ss with
    | nil =>
      obtain ⟨_, rfl⟩ := pure_ok.mp h
      exact ⟨[], .nil, .nil d⟩
    | cons s rest =>
      rw [List.forM_cons] at h
      obtain ⟨_, _, hs, _⟩ := bind_ok.mp h
      exact absurd hs throw_ok
  | succ n ih =>
    induction ss generalizing d with
    | nil =>
      obtain ⟨_, rfl⟩ := pure_ok.mp h
      exact ⟨[], .nil, .nil d⟩
    | cons s rest ihRest =>
      obtain ⟨_, d₂, hs, h⟩ := bind_ok.mp h
      obtain ⟨statement, d₁, hget, hv, hcs⟩ := walkStmt_ok hs
      obtain ⟨inner, hinner, htinner⟩ := ih hcs
      obtain ⟨after, hafter, htafter⟩ := ihRest h
      have same := visit_trees hv
      refine ⟨(s, scope.outer) :: (inner ++ after), ?_, ?_⟩
      · exact .cons hget (hinner.congr same.symm) (hafter.congr (same.trans htinner.trees).symm)
      · rw [List.map_cons, List.map_append]
        exact .cons hv (htinner.append htafter)

/-- A walk over statements that fails has made some visits of the same block. -/
theorem walkStmts_error {n : Nat} {scope : Scope} {ss : List Stmt} {d d' : Detection}
    {e : CommError} (h : forM ss (visitor.walkStmt n scope) d = .error (.error e) d') :
    ∃ visits, Trail d visits d' ∧ ∀ v ∈ visits, v.2.block = scope.block := by
  induction n generalizing scope ss d d' with
  | zero =>
    cases ss with
    | nil => exact absurd h pure_error
    | cons s rest =>
      rw [List.forM_cons] at h
      rcases bind_error.mp h with hs | ⟨_, _, hs, _⟩
      · cases (throw_error.mp hs).1
      · exact absurd hs throw_ok
  | succ n ih =>
    induction ss generalizing d with
    | nil => exact absurd h pure_error
    | cons s rest ihRest =>
      rcases bind_error.mp h with hs | ⟨_, d₂, hs, h⟩
      · rcases bind_error.mp hs with hv | ⟨inner, d₁, hv, hs⟩
        · cases visit_error hv
          exact ⟨[], .nil _, by simp⟩
        · rcases bind_error.mp hs with hl | ⟨cs, _, hl, hcs⟩
          · rw [visitor_look] at hl
            exact absurd hl look_error
          · rw [visitor_look] at hl
            obtain ⟨_, rfl⟩ := look_ok.mp hl
            obtain ⟨visits, ht, hb⟩ := ih hcs
            obtain ⟨_, _, rfl, _⟩ := visit_ok hv
            exact ⟨(s, scope) :: visits, .cons hv ht, List.forall_mem_cons.mpr ⟨rfl, hb⟩⟩
      · have hone : forM [s] (visitor.walkStmt (n + 1) scope) d = .ok ⟨⟩ d₂ :=
          bind_ok.mpr ⟨_, d₂, hs, pure_ok.mpr ⟨rfl, rfl⟩⟩
        obtain ⟨order, _, ht⟩ := walkStmts_ok hone
        obtain ⟨visits, ht', hb⟩ := ihRest h
        refine ⟨_, ht.append ht', ?_⟩
        intro v hv
        rcases List.mem_append.mp hv with hv | hv
        · obtain ⟨w, _, rfl⟩ := List.mem_map.mp hv
          rfl
        · exact hb v hv

end Detection

end Superstep
