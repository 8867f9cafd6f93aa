import Superstep.Proofs.Effect
import Superstep.Proofs.Settled

namespace Superstep

theorem Key.length_le_of_nodup {label : String} {last : Nat} {ks : List (Key label last)}
    (h : ks.Nodup) : ks.length ≤ last + 1 :=
  length_le_of_index_lt h fun k _ => Nat.lt_succ_of_le k.index_le

namespace FlowGraph

theorem preorder_allocated {g : FlowGraph} {steps : Nat} {pending entered out : List Block}
    {seen : BlockSet} (agree : seen.Lists entered)
    (h : g.preorder steps pending entered seen = .ok out) (before : ∀ b ∈ entered, g.Allocated b) :
    ∀ b ∈ out, g.Allocated b := by
  induction steps generalizing pending entered seen with
  | zero =>
    cases pending <;> cases h <;> exact before
  | succ steps ih =>
    cases pending with
    | nil =>
      cases h
      exact before
    | cons b pending =>
      by_cases hb : b ∈ entered
      · rw [preorder_of_mem agree hb] at h
        exact ih (agree.insert_of_mem hb) h before
      · cases hd : g.block b with
        | error e =>
          rw [preorder_of_fault agree hb hd] at h
          cases h
        | ok x =>
          rw [preorder_of_block agree hb hd] at h
          refine ih (agree.insert b) h fun c hc => (List.mem_append.mp hc).elim (before c) fun hc => ?_
          exact List.mem_singleton.mp hc ▸ ⟨x, block_ok.mp hd⟩

theorem reachable_allocated {g : FlowGraph} {bs : List Block} (h : g.reachable = .ok bs) :
    ∀ b ∈ bs, g.Allocated b :=
  preorder_allocated .empty h (by simp)

end FlowGraph

namespace Ast

variable {ast : Ast}

theorem Within.trans {r s t : Stmt} (h : ast.Within r s) (h' : ast.Within s t) : ast.Within r t := by
  induction h with
  | self => exact h'
  | child hs hc _ ih => exact .child hs hc (ih h')

/-- A statement is part of the tree of another one, below the root of the tree. -/
def Inside (ast : Ast) (s t : Stmt) : Prop :=
  ∃ statement c, ast.stmts.get? s = some statement ∧ c ∈ statement.children ∧ ast.Within c t

/-- No statement contains itself. -/
def Acyclic (ast : Ast) : Prop := ∀ s, ¬ast.Inside s s

theorem Inside.child {r s c : Stmt} {statement : Statement} (h : ast.Inside r s)
    (hs : ast.stmts.get? s = some statement) (hc : c ∈ statement.children) : ast.Inside r c := by
  obtain ⟨x, b, hx, hb, hw⟩ := h
  exact ⟨x, b, hx, hb, hw.trans (.child hs hc (.self c))⟩

/-- The statements around some trees are all different, and there are no more of them than keys. So
as many steps as there are keys lead out of every tree. -/
theorem Acyclic.shallow_below (acyclic : ast.Acyclic) {n : Nat} {around ss : List Stmt}
    (different : around.Nodup) (inside : ∀ r ∈ around, ∀ s ∈ ss, ast.Inside r s)
    (there : ∀ root ∈ ss, ∀ s, ast.Within root s → ∃ statement, ast.stmts.get? s = some statement)
    (enough : Visitor.deepest ≤ n + around.length) : ast.Shallow n ss := by
  have fresh : ∀ s ∈ ss, (s :: around).Nodup := by
    intro s hs
    exact List.nodup_cons.mpr ⟨fun hm => acyclic s (inside s hm s hs), different⟩
  induction n generalizing around ss with
  | zero =>
    cases ss with
    | nil => exact .nil
    | cons s rest =>
      have hlen := Key.length_le_of_nodup (fresh s (by simp))
      simp only [List.length_cons, Visitor.deepest] at hlen enough
      omega
  | succ n ih =>
    induction ss with
    | nil => exact .nil
    | cons s rest ihRest =>
      obtain ⟨statement, hs⟩ := there s (by simp) s (.self s)
      have below : ∀ r ∈ s :: around, ∀ c ∈ statement.children, ast.Inside r c := by
        intro r hr c hc
        rcases List.mem_cons.mp hr with rfl | hr
        · exact ⟨statement, c, hs, hc, .self c⟩
        · exact (inside r hr s (by simp)).child hs hc
      refine .cons hs (ih (fresh s (by simp)) below ?_ ?_ ?_) (ihRest ?_ ?_ ?_)
      · exact fun c hc t ht => there s (by simp) t (.child hs hc ht)
      · simp only [List.length_cons]
        omega
      · intro c hc
        exact List.nodup_cons.mpr ⟨fun hm => acyclic c (below c hm c hc), fresh s (by simp)⟩
      · exact fun r hr t ht => inside r hr t (List.mem_cons_of_mem s ht)
      · exact fun root hroot => there root (List.mem_cons_of_mem s hroot)
      · exact fun t ht => fresh t (List.mem_cons_of_mem s ht)

theorem Acyclic.shallow (acyclic : ast.Acyclic) {ss : List Stmt}
    (there : ∀ root ∈ ss, ∀ s, ast.Within root s → ∃ statement, ast.stmts.get? s = some statement) :
    ast.Shallow Visitor.deepest ss :=
  acyclic.shallow_below List.nodup_nil (by simp) there (by simp)

theorem Shallow.preorder {n : Nat} {ss : List Stmt} (h : ast.Shallow n ss) (outer : Option Stmt) :
    ∃ order, ast.Preorder outer ss order := by
  induction h generalizing outer with
  | nil => exact ⟨[], .nil⟩
  | @cons n s rest statement hs _ _ ihInner ihRest =>
    obtain ⟨inner, hinner⟩ := ihInner (statement.innermost s outer)
    obtain ⟨after, hafter⟩ := ihRest outer
    exact ⟨_, .cons hs hinner hafter⟩

/-- A loop over the whole graph. -/
def AllGraph (ast : Ast) (s : Stmt) : Prop :=
  ∃ f, ast.stmts.get? s = some (.foreach f) ∧ f.iter.isAllGraph = true

/-- Every visit knows the outer loop around it by a visit before: that loop is one over the whole
graph, and it is among those that are known. -/
def Scoped (ast : Ast) : List Stmt → List (Stmt × Scope) → Prop
  | _, [] => True
  | known, v :: rest =>
    (∀ o, v.2.outer = some o → o ∈ known ∧ ast.AllGraph o) ∧ Scoped ast (known ++ [v.1]) rest

theorem scoped_append {known : List Stmt} {visits rest : List (Stmt × Scope)} :
    ast.Scoped known (visits ++ rest) ↔
      ast.Scoped known visits ∧ ast.Scoped (known ++ visits.map Prod.fst) rest := by
  induction visits generalizing known with
  | nil => simp [Scoped]
  | cons v visits ih =>
    rw [List.cons_append, Scoped, Scoped, ih, List.map_cons, List.append_assoc, List.singleton_append,
      and_assoc]

/-- The loops that visits name were known before or are visited themselves. -/
theorem Scoped.outer_mem {known : List Stmt} {visits : List (Stmt × Scope)}
    (h : ast.Scoped known visits) {v : Stmt × Scope} (hv : v ∈ visits) {o : Stmt}
    (ho : v.2.outer = some o) : o ∈ known ++ visits.map Prod.fst := by
  induction visits generalizing known with
  | nil => simp at hv
  | cons w visits ih =>
    rcases List.mem_cons.mp hv with rfl | hv
    · exact List.mem_append_left _ (h.1 o ho).1
    · have hm := ih h.2 hv
      simpa using hm

theorem Preorder.scoped {outer : Option Stmt} {ss : List Stmt} {order : List (Stmt × Option Stmt)}
    (h : ast.Preorder outer ss order) {known : List Stmt}
    (around : ∀ o, outer = some o → o ∈ known ∧ ast.AllGraph o) (b : Block) :
    ast.Scoped known (order.map fun v => (v.1, { block := b, outer := v.2 })) := by
  induction h generalizing known with
  | nil => exact trivial
  | @cons outer s rest statement inner after hs _ _ ihInner ihAfter =>
    rw [List.map_cons, List.map_append]
    refine ⟨around, scoped_append.mpr ⟨ihInner ?_, ihAfter ?_⟩⟩
    · intro o ho
      unfold Statement.innermost at ho
      split at ho
      next hsite =>
        cases ho
        obtain ⟨f, rfl, hall⟩ := Statement.site_eq_outerLoop_iff.mp hsite
        exact ⟨by simp, f, hs, hall⟩
      next => exact ⟨List.mem_append_left _ (around o ho).1, (around o ho).2⟩
    · intro o ho
      exact ⟨by simp [(around o ho).1], (around o ho).2⟩

end Ast

namespace Body

variable {body : Body} {bs : List Block} {visits : List (Stmt × Scope)}

/-- The statements in the trees of the vertex blocks that the entry leads to are there, and no
statement contains itself. -/
structure Walkable (body : Body) : Prop where
  stmts : ∀ s, body.Walked s → ∃ statement, body.ast.stmts.get? s = some statement
  acyclic : body.ast.Acyclic

/-- The blocks are there, and a walk comes to the end of the trees in those that are vertex
blocks. -/
def Finite (body : Body) (bs : List Block) : Prop :=
  ∀ b ∈ bs, ∃ x, body.graph.blocks.get? b = some x ∧
    (x.isVertex = true → body.ast.Shallow Visitor.deepest x.sents)

theorem Finite.exists_visits (h : body.Finite bs) : ∃ visits, body.Visits bs visits := by
  induction bs with
  | nil => exact ⟨[], .nil⟩
  | cons b bs ih =>
    obtain ⟨x, hx, shallow⟩ := h b (by simp)
    obtain ⟨visits, hvisits⟩ := ih fun c hc => h c (List.mem_cons_of_mem b hc)
    cases hv : x.isVertex with
    | false => exact ⟨visits, .other hx hv hvisits⟩
    | true =>
      obtain ⟨order, ho⟩ := (shallow hv).preorder none
      exact ⟨_, .vertex hx hv ho hvisits⟩

theorem Walkable.finite (h : body.Walkable) (reached : body.graph.reachable = .ok bs) :
    body.Finite bs := by
  intro b hb
  obtain ⟨x, hx⟩ := FlowGraph.reachable_allocated reached b hb
  refine ⟨x, hx, fun hv => h.acyclic.shallow fun root hroot s hs => ?_⟩
  exact h.stmts s ⟨b, x, root, (FlowGraph.mem_reachable_iff reached).mp hb, hx, hv, hroot, hs⟩

theorem Visits.scoped (h : body.Visits bs visits) (known : List Stmt) :
    body.ast.Scoped known visits := by
  induction h generalizing known with
  | nil => exact trivial
  | other _ _ _ ih => exact ih known
  | vertex _ _ ho _ ih => exact Ast.scoped_append.mpr ⟨ho.scoped (by simp) _, ih _⟩

/-- A visit is of a statement that is there, and not in the body of a received loop. -/
theorem Visits.stmt_there (h : body.Visits bs visits) : ∀ v ∈ visits,
    v.2.underReceiver = false ∧ ∃ statement, body.ast.stmts.get? v.1 = some statement := by
  have inOrder : ∀ {outer ss order}, body.ast.Preorder outer ss order →
      ∀ v ∈ order, ∃ statement, body.ast.stmts.get? v.1 = some statement := by
    intro outer ss order ho
    induction ho with
    | nil => simp
    | cons hs _ _ ihInner ihAfter =>
      intro v hv
      rcases List.mem_cons.mp hv with rfl | hv
      · exact ⟨_, hs⟩
      · exact (List.mem_append.mp hv).elim (ihInner v) (ihAfter v)
  induction h with
  | nil => simp
  | other _ _ _ ih => exact ih
  | vertex _ _ ho _ ih =>
    intro v hv
    rcases List.mem_append.mp hv with hv | hv
    · obtain ⟨w, hw, rfl⟩ := List.mem_map.mp hv
      exact ⟨rfl, inOrder ho w hw⟩
    · exact ih v hv

/-- The statements visited are those in the trees of the vertex blocks that the entry leads to. -/
theorem Visits.mem_iff_walked (h : body.Visits bs visits) (reached : body.graph.reachable = .ok bs)
    {s : Stmt} : s ∈ visits.map Prod.fst ↔ body.Walked s := by
  constructor
  · intro hs
    obtain ⟨v, hv, rfl⟩ := List.mem_map.mp hs
    exact h.walked (fun b hb => (FlowGraph.mem_reachable_iff reached).mp hb) v hv
  · rintro ⟨b, x, root, hb, hx, hv, hroot, hwithin⟩
    have hmem := (FlowGraph.mem_reachable_iff reached).mpr hb
    obtain ⟨order, ho, -⟩ := h.unitsOf (FlowGraph.reachable_nodup reached) hmem hx hv
    obtain ⟨w, hw, rfl⟩ := List.mem_map.mp (ho.mem_of_within hroot hwithin)
    exact List.mem_map.mpr ⟨_, h.mem_of_preorder hmem hx hv ho hw, rfl⟩

end Body

namespace Detection

variable {d d₁ d' : Detection} {visits rest : List (Stmt × Scope)}

/-- What one visit takes from the visits before it to the visits up to it, a run of visits takes
from its first state to its last. -/
theorem Trail.run {P : List (Stmt × Scope) → Detection → Prop} (h : Trail d visits d')
    (start : P [] d) (step : ∀ before v after d₁ d₂ inner, visits = before ++ v :: after →
      P before d₁ → visit v.1 v.2 d₁ = .ok inner d₂ → P (before ++ [v]) d₂) : P visits d' := by
  suffices carry : ∀ {d rest}, Trail d rest d' → ∀ before, visits = before ++ rest → P before d →
      P visits d' from carry h [] rfl start
  clear h
  intro d rest h
  induction h with
  | nil =>
    intro before split hbefore
    rw [split, List.append_nil]
    exact hbefore
  | cons hv _ ih =>
    intro before split hbefore
    exact ih _ (split.trans (List.append_cons ..)) (step _ _ _ _ _ _ split hbefore hv)

/-- Visits one after the other, up to the first that fails. -/
def visitAll (visits : List (Stmt × Scope)) : Act Unit := visits.forM fun v => discard (visit v.1 v.2)

theorem visitAll_cons_of_ok {v : Stmt × Scope} {inner : Scope} (h : visit v.1 v.2 d = .ok inner d₁) :
    visitAll (v :: rest) d = visitAll rest d₁ :=
  bind_of_ok (a := ⟨⟩) (discard_ok.mpr ⟨inner, h⟩)

theorem visitAll_cons_of_error {v : Stmt × Scope} {e : Halt CommError}
    (h : visit v.1 v.2 d = .error e d₁) : visitAll (v :: rest) d = .error e d₁ :=
  bind_of_error (discard_error.mpr h)

theorem visitAll_append_of_trail (h : Trail d visits d₁) :
    visitAll (visits ++ rest) d = visitAll rest d₁ := by
  induction h with
  | nil => rfl
  | cons hv _ ih => exact (visitAll_cons_of_ok hv).trans ih

theorem visitAll_of_trail (h : Trail d visits d₁) : visitAll visits d = .ok ⟨⟩ d₁ := by
  have run : visitAll (visits ++ []) d = visitAll [] d₁ := visitAll_append_of_trail h
  rwa [List.append_nil] at run

theorem trail_of_visitAll {u : Unit} (h : visitAll visits d = .ok u d') : Trail d visits d' := by
  induction visits generalizing d with
  | nil =>
    obtain ⟨-, rfl⟩ := pure_ok.mp h
    exact .nil d
  | cons v visits ih =>
    obtain ⟨_, d₁, hv, h⟩ := bind_ok.mp h
    obtain ⟨inner, hv⟩ := discard_ok.mp hv
    exact .cons hv (ih h)

theorem visitAll_append :
    visitAll (visits ++ rest) d = (visitAll visits >>= fun _ => visitAll rest) d := by
  induction visits generalizing d with
  | nil => rfl
  | cons v visits ih =>
    cases hv : visit v.1 v.2 d with
    | error e t =>
      rw [List.cons_append, visitAll_cons_of_error hv, bind_of_error (visitAll_cons_of_error hv)]
    | ok inner d₁ =>
      rw [List.cons_append, visitAll_cons_of_ok hv, ih]
      cases later : visitAll visits d₁ with
      | error e t =>
        rw [bind_of_error later, bind_of_error ((visitAll_cons_of_ok hv).trans later)]
      | ok u t => rw [bind_of_ok later, bind_of_ok ((visitAll_cons_of_ok hv).trans later)]

/-- A walk over statements is the run of its visits in program order, however it ends. -/
theorem walkStmts_eq {ast : Ast} {n : Nat} {ss : List Stmt} (shallow : ast.Shallow n ss)
    (scope : Scope) {order : List (Stmt × Option Stmt)} (ho : ast.Preorder scope.outer ss order)
    (same : ast.SameTrees d.body.ast) :
    forM ss (visitor.walkStmt n scope) d =
      visitAll (order.map fun v => (v.1, { scope with outer := v.2 })) d := by
  induction shallow generalizing scope order d with
  | nil =>
    cases ho
    rfl
  | @cons n s rest statement hs _ _ ihInner ihRest =>
    cases ho with
    | @cons _ _ _ _ inner after hs' hinner hafter =>
      cases hs.symm.trans hs'
      rw [List.forM_cons, List.map_cons, List.map_append]
      cases hv : visit s scope d with
      | error e t =>
        have stops : visitor.walkStmt (n + 1) scope s d = .error e t := bind_of_error hv
        rw [bind_of_error stops, visitAll_cons_of_error hv]
      | ok scope' d₁ =>
        obtain ⟨x, hx, rfl, -⟩ := visit_ok hv
        have same₁ := same.trans (visit_trees hv)
        obtain ⟨y, hy, hp⟩ := same.lookup hs
        cases hx.symm.trans hy
        obtain ⟨z, hz, hpz⟩ := same₁.lookup hs
        rw [Statement.innermost_eq_of_plain hp] at hv
        have hlook : visitor.look (·.ast.children s) d₁ = .ok statement.children d₁ := by
          rw [visitor_look]
          exact look_ok.mpr ⟨children_ok.mpr ⟨z, hz, Statement.children_eq_of_plain hpz⟩, rfl⟩
        have hinner' := ihInner { scope with outer := statement.innermost s scope.outer } hinner same₁
        have hstmt : visitor.walkStmt (n + 1) scope s d =
            visitAll (inner.map fun v => (v.1, { scope with outer := v.2 })) d₁ :=
          (bind_of_ok hv).trans ((bind_of_ok hlook).trans hinner')
        rw [visitAll_cons_of_ok hv, visitAll_append]
        cases run : visitAll (inner.map fun v => (v.1, { scope with outer := v.2 })) d₁ with
        | error e t => rw [bind_of_error (hstmt.trans run), bind_of_error run]
        | ok u d₂ =>
          rw [bind_of_ok (hstmt.trans run), bind_of_ok run]
          exact ihRest scope hafter (same₁.trans (trail_of_visitAll run).trees)

theorem walkBlock_of_other {b : Block} {x : BlockData} (hx : d.body.graph.blocks.get? b = some x)
    (hv : x.isVertex = false) : visitor.walkBlock ⟨true, false⟩ b d = .ok ⟨⟩ d :=
  bind_of_ok (isVertex_ok.mpr ⟨⟨x, hx, hv⟩, rfl⟩)

theorem walkBlock_of_vertex {b : Block} {x : BlockData} (hx : d.body.graph.blocks.get? b = some x)
    (hv : x.isVertex = true) : visitor.walkBlock ⟨true, false⟩ b d =
      forM x.sents (visitor.walkStmt Visitor.deepest { block := b }) d := by
  have accepts : isVertex b d = .ok true d := isVertex_ok.mpr ⟨⟨x, hx, hv⟩, rfl⟩
  have hlook : visitor.look (·.graph.block b) d = .ok x d := by
    rw [visitor_look]
    exact look_ok.mpr ⟨FlowGraph.block_ok.mpr hx, rfl⟩
  refine (bind_of_ok accepts).trans ((bind_of_ok hlook).trans ?_)
  cases run : forM x.sents (visitor.walkStmt Visitor.deepest { block := b }) d with
  | error e t => exact bind_of_error run
  | ok u t => exact bind_of_ok run

/-- A walk over blocks is the run of its visits, however it ends. -/
theorem walkBlocks_eq {body : Body} {bs : List Block} (h : body.Visits bs visits)
    (finite : body.Finite bs) (continues : body.Continues d.body) :
    forM bs (visitor.walkBlock ⟨true, false⟩) d = visitAll visits d := by
  induction h generalizing d with
  | nil => rfl
  | @other b x bs visits hx hv _ ih =>
    obtain ⟨y, hy, hkind, -⟩ := continues.blocks b x hx
    have skips := walkBlock_of_other hy ((BlockData.isVertex_of_kind hkind).trans hv)
    rw [List.forM_cons, bind_of_ok skips]
    exact ih (fun c hc => finite c (List.mem_cons_of_mem b hc)) continues
  | @vertex b x bs visits order hx hv ho _ ih =>
    obtain ⟨y, hy, hkind, hsents⟩ := continues.blocks b x hx
    obtain ⟨_, hx', shallow⟩ := finite b (by simp)
    cases hx.symm.trans hx'
    have walks := walkBlock_of_vertex hy ((BlockData.isVertex_of_kind hkind).trans hv)
    rw [hsents, walkStmts_eq (shallow hv) { block := b } ho continues.roles.trees] at walks
    rw [List.forM_cons, visitAll_append]
    cases run : visitAll (order.map fun v => (v.1, { block := b, outer := v.2 })) d with
    | error e t => rw [bind_of_error (walks.trans run), bind_of_error run]
    | ok u d₁ =>
      rw [bind_of_ok (walks.trans run), bind_of_ok run]
      exact ih (fun c hc => finite c (List.mem_cons_of_mem b hc))
        (continues.trans (trail_of_visitAll run).continues)

theorem findCommunication_of_fault {fault : Fault} (h : d.body.graph.reachable = .error fault) :
    findCommunication d = .error (.fault fault) d := by
  have hlook : visitor.look (·.graph.reachable) d = .error (.fault fault) d := by
    rw [visitor_look, look, h]
  exact bind_of_error (bind_of_error hlook)

/-- Looking for communication is the run of the visits of all blocks that the entry leads to. -/
theorem findCommunication_eq {bs : List Block} (reached : d.body.graph.reachable = .ok bs)
    (finite : d.body.Finite bs) (h : d.body.Visits bs visits) :
    findCommunication d = (visitAll visits >>= fun _ => do return (← get).targets) d := by
  have hlook : visitor.look (·.graph.reachable) d = .ok bs d := by
    rw [visitor_look]
    exact look_ok.mpr ⟨reached, rfl⟩
  have walks : visitor.walk ⟨true, false⟩ d = visitAll visits d :=
    (bind_of_ok hlook).trans (walkBlocks_eq h finite (.refl _))
  cases run : visitAll visits d with
  | error e t =>
    rw [bind_of_error run]
    exact bind_of_error (walks.trans run)
  | ok u t =>
    rw [bind_of_ok run]
    exact bind_of_ok (walks.trans run)

end Detection

end Superstep
