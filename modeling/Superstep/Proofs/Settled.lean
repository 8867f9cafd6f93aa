import Superstep.Proofs.Marks
import Superstep.Proofs.Senders

namespace Superstep

namespace Ast

/-- A loop that is known to be an outer one. -/
def OuterLoop (ast : Ast) (s : Stmt) : Prop :=
  ∃ f, ast.stmts.get? s = some (.foreach f) ∧ f.role.isOuter = true

theorem Followed.foreach {a b : Ast} (h : a.Followed b) {s : Stmt} {f : Foreach}
    (hf : a.stmts.get? s = some (.foreach f)) :
    ∃ role, b.stmts.get? s = some (.foreach { f with role }) ∧ role.Follows f.role := by
  rcases h.lookup s with he | ⟨g, role, hg, hr, hb⟩
  · exact ⟨f.role, he.trans hf, id, id⟩
  · cases hf.symm.trans hg
    exact ⟨role, hb, hr⟩

theorem Followed.outerLoop {a b : Ast} (h : a.Followed b) {s : Stmt} (ho : a.OuterLoop s) :
    b.OuterLoop s := by
  obtain ⟨f, hf, hout⟩ := ho
  obtain ⟨role, hb, hr⟩ := h.foreach hf
  exact ⟨_, hb, hr.1 hout⟩

/-- What is no loop stays as it is. -/
theorem Followed.other {a b : Ast} (h : a.Followed b) {s : Stmt} {statement : Statement}
    (hs : a.stmts.get? s = some statement) (noLoop : ∀ f, statement ≠ .foreach f) :
    b.stmts.get? s = some statement := by
  rcases h.lookup s with he | ⟨g, role, hg, -, -⟩
  · exact he.trans hs
  · cases hs.symm.trans hg
    exact absurd rfl (noLoop g)

/-- The trees of some statements are there, and no deeper than a number of steps. -/
inductive Shallow (ast : Ast) : Nat → List Stmt → Prop
  | nil {n : Nat} : Shallow ast n []
  | cons {n : Nat} {s : Stmt} {rest : List Stmt} {statement : Statement} :
      ast.stmts.get? s = some statement → Shallow ast n statement.children →
      Shallow ast (n + 1) rest → Shallow ast (n + 1) (s :: rest)

theorem Shallow.congr {a b : Ast} (same : a.SameTrees b) {n : Nat} {ss : List Stmt}
    (h : a.Shallow n ss) : b.Shallow n ss := by
  induction h with
  | nil => exact .nil
  | cons hs _ _ ihInner ihRest =>
    obtain ⟨y, hy, hp⟩ := same.lookup hs
    exact .cons hy (Statement.children_eq_of_plain hp ▸ ihInner) ihRest

end Ast

namespace Body

/-- All that a visit of a statement asks for is there already: the roles that it gives, and the unit
that it registers. -/
inductive Settled (body : Body) (s : Stmt) (outer : Option Stmt) : Prop
  | outerLoop {f : Foreach} : body.ast.stmts.get? s = some (.foreach f) →
      f.iter.isAllGraph = true → f.role.isOuter = true → Settled body s outer
  | innerLoop {f : Foreach} {o : Stmt} : body.ast.stmts.get? s = some (.foreach f) →
      f.iter.isAllGraph = false → f.role = .inner → outer = some o → body.ast.OuterLoop o →
      (body.graph.registry.commId? (.nested s)).isSome → Settled body s outer
  | randomWrite {a : Assign} {access : FieldAccess} {host o : Stmt} :
      body.ast.stmts.get? s = some (.assign a) → a.randomWrite.expand = some host →
      a.target.field? = some access → outer = some o → body.ast.OuterLoop o →
      (body.graph.registry.commId? (.randomWrite host access.driver)).isSome → Settled body s outer
  | nothing {statement : Statement} : body.ast.stmts.get? s = some statement →
      statement.site = .nothing → Settled body s outer

/-- No role is taken back, no unit is struck off, and no block loses its kind or its statements. -/
structure Continues (a b : Body) : Prop where
  roles : a.ast.Followed b.ast
  units : a.graph.registry.Extends b.graph.registry
  blocks : ∀ k x, a.graph.blocks.get? k = some x →
    ∃ y, b.graph.blocks.get? k = some y ∧ y.kind = x.kind ∧ y.sents = x.sents

theorem Continues.refl (body : Body) : body.Continues body :=
  ⟨.refl _, .refl _, fun _ x hx => ⟨x, hx, rfl, rfl⟩⟩

theorem Continues.trans {a b c : Body} (h : a.Continues b) (h' : b.Continues c) : a.Continues c := by
  refine ⟨h.roles.trans h'.roles, h.units.trans h'.units, ?_⟩
  intro k x hx
  obtain ⟨y, hy, hkind, hsents⟩ := h.blocks k x hx
  obtain ⟨z, hz, hkind', hsents'⟩ := h'.blocks k y hy
  exact ⟨z, hz, hkind'.trans hkind, hsents'.trans hsents⟩

theorem Settled.mono {a b : Body} (h : a.Continues b) {s : Stmt} {outer : Option Stmt}
    (hs : a.Settled s outer) : b.Settled s outer := by
  cases hs with
  | outerLoop hf hall hout =>
    obtain ⟨role, hb, hr⟩ := h.roles.foreach hf
    exact .outerLoop hb hall (hr.1 hout)
  | innerLoop hf hall hin ho hloop hunit =>
    obtain ⟨role, hb, hr⟩ := h.roles.foreach hf
    exact .innerLoop hb hall (hr.2 hin) ho (h.roles.outerLoop hloop) (h.units _ hunit)
  | randomWrite ha hhost haccess ho hloop hunit =>
    exact .randomWrite (h.roles.other ha fun _ => Statement.noConfusion) hhost haccess ho
      (h.roles.outerLoop hloop) (h.units _ hunit)
  | @nothing statement hs hsite =>
    obtain ⟨y, hy, hp⟩ := h.roles.trees.lookup hs
    exact .nothing hy ((Statement.site_eq_of_plain hp).trans hsite)

/-- A block that can be walked, since everything in it is settled. -/
def Prepared (body : Body) (b : Block) : Prop :=
  ∃ x, body.graph.blocks.get? b = some x ∧ (x.isVertex = true → ∃ order,
    body.ast.Preorder none x.sents order ∧ body.ast.Shallow Visitor.deepest x.sents ∧
      ∀ v ∈ order, body.Settled v.1 v.2)

theorem Prepared.mono {a b : Body} (h : a.Continues b) {k : Block} (hk : a.Prepared k) :
    b.Prepared k := by
  obtain ⟨x, hx, ready⟩ := hk
  obtain ⟨y, hy, hkind, hsents⟩ := h.blocks k x hx
  refine ⟨y, hy, fun hv => ?_⟩
  have hvx : x.isVertex = true := (BlockData.isVertex_of_kind hkind).symm.trans hv
  obtain ⟨order, ho, hdepth, settled⟩ := ready hvx
  rw [hsents]
  exact ⟨order, ho.congr h.roles.trees, hdepth.congr h.roles.trees,
    fun v hm => (settled v hm).mono h⟩

end Body

theorem Registry.register_of_isSome {r : Registry} {u : CommUnit} (h : (r.commId? u).isSome) :
    ∃ id, register u r = .ok id r := by
  obtain ⟨id, hid⟩ := Option.isSome_iff_exists.mp h
  exact ⟨id, register_iff.mpr (.inl ⟨hid, rfl⟩)⟩

theorem Registry.registerRandomWrite_of_isSome {r : Registry} {host : Stmt} {symbol : Symbol}
    (h : (r.commId? (.randomWrite host symbol)).isSome) :
    ∃ id r', registerRandomWrite host symbol r = .ok id r' := by
  obtain ⟨id, hr⟩ := register_of_isSome h
  exact ⟨id, _, bind_ok.mpr ⟨id, r, hr, bind_ok.mpr ⟨⟨⟩, _, modify_ok.mpr rfl, pure_ok.mpr ⟨rfl, rfl⟩⟩⟩⟩

namespace Detection

theorem visit_continues {s : Stmt} {scope inner : Scope} {d d' : Detection}
    (h : visit s scope d = .ok inner d') : d.body.Continues d'.body := by
  have surveyed := (visit_surveyed h).1
  refine ⟨visit_followed h, surveyed.registry, ?_⟩
  intro k x hx
  exact ⟨_, surveyed.lookup_after hx, rfl, rfl⟩

theorem Trail.continues {d d' : Detection} {visits : List (Stmt × Scope)} (h : Trail d visits d') :
    d.body.Continues d'.body := by
  induction h with
  | nil d => exact .refl _
  | cons hv _ ih => exact (visit_continues hv).trans ih

/-- A visit settles its statement. -/
theorem visit_settled {s : Stmt} {scope inner : Scope} {d d' : Detection}
    (h : visit s scope d = .ok inner d') : d'.body.Settled s scope.outer := by
  obtain ⟨-, statement, hs, ⟨hsite, h⟩ | ⟨hsite, -, h⟩ | ⟨host, hsite, -, h⟩ | ⟨hsite, -, rfl⟩⟩ :=
    visit_iff.mp h
  · obtain ⟨x, f, role, -, hf, hm, -, rfl⟩ := outerLoop_iff.mp h
    cases hs.symm.trans hf
    obtain ⟨_, ⟨⟩, hall⟩ := Statement.site_eq_outerLoop_iff.mp hsite
    refine .outerLoop (Ast.get?_setRole hf role) hall ?_
    rcases LoopRole.markOuter_ok.mp hm with ⟨-, rfl⟩ | ⟨hout, rfl⟩
    · rfl
    · exact hout
  · obtain ⟨o, x, fo, flags, f, id, r, ho, -, hfo, hflags, hf, hin, hr, rfl⟩ := innerLoop_iff.mp h
    cases hs.symm.trans hf
    obtain ⟨_, ⟨⟩, hall⟩ := Statement.site_eq_innerLoop_iff.mp hsite
    have hout : fo.role.isOuter = true := LoopRole.isOuter_iff.mpr ⟨flags, hflags⟩
    have hfo' := get?_setRole_inner hf hin hfo hout
    have hne := ne_of_roles hf hin hfo hout
    have hf' := (Ast.get?_setRole_of_ne hne.symm fo (.outer (flags.union .nested))).trans
      (Ast.get?_setRole hf .inner)
    exact .innerLoop hf' hall rfl ho ⟨_, Ast.get?_setRole hfo' _, rfl⟩ (Registry.register_ok hr).2
  · obtain ⟨o, x, fo, flags, a, access, id, r, ho, -, hfo, -, ha, haccess, hr, rfl⟩ :=
      randomWrite_iff.mp h
    cases hs.symm.trans ha
    obtain ⟨_, ⟨⟩, hhost⟩ := Statement.site_eq_randomWrite_iff.mp hsite
    have hne : o ≠ s := by
      rintro rfl
      cases ha.symm.trans hfo
    refine .randomWrite ((Ast.get?_setRole_of_ne hne _ _).trans ha) hhost haccess ho
      ⟨_, Ast.get?_setRole hfo _, rfl⟩ ?_
    exact Registry.extends_addWrite r host access.driver s _ (Registry.registerRandomWrite_ok hr).2
  · exact .nothing hs hsite

theorem Trail.settled {d d' : Detection} {visits : List (Stmt × Scope)} (h : Trail d visits d') :
    ∀ v ∈ visits, d'.body.Settled v.1 v.2.outer := by
  induction h with
  | nil => simp
  | @cons d d₁ d' s scope inner rest hv htrail ih =>
    intro v hm
    rcases List.mem_cons.mp hm with rfl | hm
    · exact (visit_settled hv).mono htrail.continues
    · exact ih v hm

/-- A statement that is settled can be visited. -/
theorem visit_of_settled {s : Stmt} {scope : Scope} {d : Detection}
    (settled : d.body.Settled s scope.outer) (sent : scope.underReceiver = false)
    (allocated : d.body.graph.Allocated scope.block) :
    ∃ inner d', visit s scope d = .ok inner d' := by
  obtain ⟨x, hx⟩ := allocated
  cases settled with
  | @outerLoop f hf hall hout =>
    have hsite := Statement.site_eq_outerLoop_iff.mpr ⟨f, rfl, hall⟩
    exact ⟨_, _, visit_iff.mpr ⟨sent, _, hf, Or.inl ⟨hsite, outerLoop_iff.mpr
      ⟨x, f, f.role, hx, hf, LoopRole.markOuter_ok.mpr (Or.inr ⟨hout, rfl⟩), rfl, rfl⟩⟩⟩⟩
  | @innerLoop f o hf hall hin ho hloop hunit =>
    have hsite := Statement.site_eq_innerLoop_iff.mpr ⟨f, rfl, hall⟩
    obtain ⟨fo, hfo, hout⟩ := hloop
    obtain ⟨flags, hflags⟩ := LoopRole.isOuter_iff.mp hout
    obtain ⟨id, hr⟩ := Registry.register_of_isSome hunit
    exact ⟨_, _, visit_iff.mpr ⟨sent, _, hf, Or.inr (Or.inl ⟨hsite, rfl, innerLoop_iff.mpr
      ⟨o, x, fo, flags, f, id, _, ho, hx, hfo, hflags, hf, by rw [hin]; rfl, hr, rfl⟩⟩)⟩⟩
  | @randomWrite a access host o ha hhost haccess ho hloop hunit =>
    have hsite := Statement.site_eq_randomWrite_iff.mpr ⟨a, rfl, hhost⟩
    obtain ⟨fo, hfo, hout⟩ := hloop
    obtain ⟨flags, hflags⟩ := LoopRole.isOuter_iff.mp hout
    obtain ⟨id, r, hr⟩ := Registry.registerRandomWrite_of_isSome hunit
    exact ⟨_, _, visit_iff.mpr ⟨sent, _, ha, Or.inr (Or.inr (Or.inl ⟨host, hsite, rfl,
      randomWrite_iff.mpr ⟨o, x, fo, flags, a, access, id, r, ho, hx, hfo, hflags, ha, haccess, hr,
        rfl⟩⟩))⟩⟩
  | nothing hs hsite =>
    exact ⟨_, _, visit_iff.mpr ⟨sent, _, hs, Or.inr (Or.inr (Or.inr ⟨hsite, rfl, rfl⟩))⟩⟩

/-- Statements that are all settled can be walked, in any state that goes on from theirs. -/
theorem walkStmts_of_settled {ast : Ast} {n : Nat} {ss : List Stmt} (shallow : ast.Shallow n ss)
    (scope : Scope) {order : List (Stmt × Option Stmt)} (ho : ast.Preorder scope.outer ss order)
    {d : Detection} (same : ast.SameTrees d.body.ast)
    (settled : ∀ v ∈ order, d.body.Settled v.1 v.2) (sent : scope.underReceiver = false)
    (allocated : d.body.graph.Allocated scope.block) :
    ∃ d', forM ss (visitor.walkStmt n scope) d = .ok ⟨⟩ d' := by
  induction shallow generalizing scope order d with
  | nil => exact ⟨d, rfl⟩
  | @cons n s rest statement hs _ _ ihInner ihRest =>
    cases ho with
    | @cons _ _ _ _ inner after hs' hinner hafter =>
      cases hs.symm.trans hs'
      obtain ⟨_, d₁, hv⟩ := visit_of_settled (settled (s, scope.outer) (by simp)) sent allocated
      have hcontinues := visit_continues hv
      obtain ⟨y, hy, rfl, -⟩ := visit_ok hv
      obtain ⟨_, hy', hp⟩ := same.lookup hs
      cases hy.symm.trans hy'
      obtain ⟨z, hz, hpz⟩ := hcontinues.roles.trees.lookup hy
      have hchildren : z.children = statement.children :=
        (Statement.children_eq_of_plain hpz).trans (Statement.children_eq_of_plain hp)
      rw [Statement.innermost_eq_of_plain hp] at hv
      obtain ⟨x, hx⟩ := allocated
      obtain ⟨x₁, hx₁, -⟩ := hcontinues.blocks _ x hx
      -- The children are walked in the state behind the visit, the rest in the one behind them.
      obtain ⟨d₂, hd₂⟩ := ihInner { scope with outer := statement.innermost s scope.outer } hinner
        (same.trans hcontinues.roles.trees)
        (fun v hm => (settled v (by simp [hm])).mono hcontinues) sent ⟨x₁, hx₁⟩
      obtain ⟨_, _, htrail⟩ := walkStmts_ok hd₂
      have hcontinues' := hcontinues.trans htrail.continues
      obtain ⟨x₂, hx₂, -⟩ := hcontinues'.blocks _ x hx
      obtain ⟨d₃, hd₃⟩ := ihRest scope hafter (same.trans hcontinues'.roles.trees)
        (fun v hm => (settled v (by simp [hm])).mono hcontinues') sent ⟨x₂, hx₂⟩
      have hstmt : visitor.walkStmt (n + 1) scope s d = .ok ⟨⟩ d₂ := by
        refine bind_ok.mpr ⟨_, d₁, hv, bind_ok.mpr ⟨statement.children, d₁, ?_, hd₂⟩⟩
        rw [visitor_look]
        exact look_ok.mpr ⟨children_ok.mpr ⟨z, hz, hchildren⟩, rfl⟩
      exact ⟨d₃, bind_ok.mpr ⟨⟨⟩, d₂, hstmt, hd₃⟩⟩

/-- A walk that ends has not gone deeper than it may. -/
theorem walkStmts_shallow {n : Nat} {scope : Scope} {ss : List Stmt} {d d' : Detection} {u : Unit}
    (h : forM ss (visitor.walkStmt n scope) d = .ok u d') : d.body.ast.Shallow n ss := by
  induction n generalizing scope ss d d' u with
  | zero =>
    cases ss with
    | nil => exact .nil
    | cons s rest =>
      rw [List.forM_cons] at h
      obtain ⟨_, _, hs, _⟩ := bind_ok.mp h
      exact absurd hs throw_ok
  | succ n ih =>
    induction ss generalizing d with
    | nil => exact .nil
    | cons s rest ihRest =>
      obtain ⟨_, d₂, hs, h⟩ := bind_ok.mp h
      obtain ⟨statement, d₁, hget, hv, hcs⟩ := walkStmt_ok hs
      obtain ⟨_, _, htrail⟩ := walkStmts_ok hcs
      have same := (visit_trees hv).symm
      exact .cons hget ((ih hcs).congr same) ((ihRest h).congr (htrail.trees.symm.trans same))

theorem walkBlock_of_prepared {b : Block} {d : Detection} (prepared : d.body.Prepared b) :
    ∃ d', visitor.walkBlock ⟨true, false⟩ b d = .ok ⟨⟩ d' := by
  obtain ⟨x, hx, ready⟩ := prepared
  have haccept : isVertex b d = .ok x.isVertex d := isVertex_ok.mpr ⟨⟨x, hx, rfl⟩, rfl⟩
  cases hv : x.isVertex with
  | false =>
    rw [hv] at haccept
    exact ⟨d, bind_ok.mpr ⟨false, d, haccept, rfl⟩⟩
  | true =>
    rw [hv] at haccept
    obtain ⟨order, ho, shallow, settled⟩ := ready hv
    obtain ⟨d', hd'⟩ := walkStmts_of_settled shallow { block := b } ho (.refl _) settled rfl
      ⟨x, hx⟩
    have hlook : visitor.look (·.graph.block b) d = .ok x d := by
      rw [visitor_look]
      exact look_ok.mpr ⟨FlowGraph.block_ok.mpr hx, rfl⟩
    refine ⟨d', bind_ok.mpr ⟨true, d, haccept, ?_⟩⟩
    exact bind_ok.mpr ⟨x, d, hlook, bind_ok.mpr ⟨⟨⟩, d', hd', rfl⟩⟩

theorem walkBlocks_continues {bs : List Block} {d d' : Detection} {u : Unit}
    (h : forM bs (visitor.walkBlock ⟨true, false⟩) d = .ok u d') : d.body.Continues d'.body := by
  obtain ⟨_, _, htrail⟩ := walkBlocks_ok h
  exact htrail.continues

theorem walkBlocks_of_prepared {bs : List Block} {d : Detection}
    (prepared : ∀ b ∈ bs, d.body.Prepared b) :
    ∃ d', forM bs (visitor.walkBlock ⟨true, false⟩) d = .ok ⟨⟩ d' := by
  induction bs generalizing d with
  | nil => exact ⟨d, rfl⟩
  | cons b bs ih =>
    obtain ⟨d₁, hd₁⟩ := walkBlock_of_prepared (prepared b (by simp))
    have hone : forM [b] (visitor.walkBlock ⟨true, false⟩) d = .ok ⟨⟩ d₁ :=
      bind_ok.mpr ⟨_, d₁, hd₁, pure_ok.mpr ⟨rfl, rfl⟩⟩
    obtain ⟨d', hd'⟩ := ih fun c hc => (prepared c (by simp [hc])).mono (walkBlocks_continues hone)
    exact ⟨d', bind_ok.mpr ⟨⟨⟩, d₁, hd₁, hd'⟩⟩

theorem walkBlock_prepared {b : Block} {d d' : Detection} {u : Unit}
    (h : visitor.walkBlock ⟨true, false⟩ b d = .ok u d') : d'.body.Prepared b := by
  obtain ⟨x, hx, ⟨hv, rfl⟩ | ⟨-, hs⟩⟩ := walkBlock_cases h
  · exact ⟨x, hx, fun hv' => absurd (hv.symm.trans hv') Bool.noConfusion⟩
  · obtain ⟨order, ho, htrail⟩ := walkStmts_ok hs
    obtain ⟨y, hy, -, hsents⟩ := htrail.continues.blocks b x hx
    refine ⟨y, hy, fun _ => ⟨order, ?_, ?_, ?_⟩⟩
    · exact hsents ▸ ho.congr htrail.trees
    · exact hsents ▸ (walkStmts_shallow hs).congr htrail.trees
    · intro v hm
      exact htrail.settled (v.1, { block := b, outer := v.2 }) (List.mem_map_of_mem hm)

theorem walkBlocks_prepared {bs : List Block} {d d' : Detection} {u : Unit}
    (h : forM bs (visitor.walkBlock ⟨true, false⟩) d = .ok u d') :
    ∀ b ∈ bs, d'.body.Prepared b := by
  induction bs generalizing d with
  | nil => simp
  | cons b bs ih =>
    rw [List.forM_cons] at h
    obtain ⟨_, d₁, hb, hrest⟩ := bind_ok.mp h
    intro c hc
    rcases List.mem_cons.mp hc with rfl | hc
    · exact (walkBlock_prepared hb).mono (walkBlocks_continues hrest)
    · exact ih hrest c hc

/-- Looking for communication prepares every block that the entry leads to. -/
theorem findCommunication_prepared {d d' : Detection} {targets : TargetBlocks}
    (h : findCommunication d = .ok targets d') {b : Block} (hb : d.body.graph.Reached b) :
    d'.body.Prepared b := by
  obtain ⟨bs, hr, hw, -⟩ := findCommunication_run h
  exact walkBlocks_prepared hw b ((FlowGraph.mem_reachable_iff hr).mpr hb)

/-- Communication is found where every block that the entry leads to is prepared. -/
theorem findCommunication_of_prepared {d : Detection}
    (prepared : ∀ b, d.body.graph.Reached b → d.body.Prepared b) :
    ∃ targets d', findCommunication d = .ok targets d' := by
  obtain ⟨bs, hr⟩ := FlowGraph.reachable_total fun b hb => by
    obtain ⟨x, hx, -⟩ := prepared b hb
    exact ⟨x, hx⟩
  obtain ⟨d', hd'⟩ := walkBlocks_of_prepared fun b hb =>
    prepared b ((FlowGraph.mem_reachable_iff hr).mp hb)
  have hlook : visitor.look (·.graph.reachable) d = .ok bs d := by
    rw [visitor_look]
    exact look_ok.mpr ⟨hr, rfl⟩
  exact ⟨d'.targets, d', bind_ok.mpr ⟨⟨⟩, d', bind_ok.mpr ⟨bs, d, hlook, hd'⟩, rfl⟩⟩

end Detection

end Superstep
