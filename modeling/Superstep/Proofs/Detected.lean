import Superstep.Proofs.Reached
import Superstep.Proofs.Survey

namespace Superstep

namespace Detection

theorem isVertex_ok {b : Block} {d t : Detection} {r : Bool} :
    isVertex b d = .ok r t ↔ (∃ x, d.body.graph.blocks.get? b = some x ∧ x.isVertex = r) ∧ d = t := by
  simp only [isVertex, bind_ok, look_ok, pure_ok, FlowGraph.block_ok]
  constructor
  · rintro ⟨x, _, ⟨hx, rfl⟩, hv, rfl⟩
    exact ⟨⟨x, hx, hv⟩, rfl⟩
  · rintro ⟨⟨x, hx, hv⟩, rfl⟩
    exact ⟨x, _, ⟨hx, rfl⟩, hv, rfl⟩

theorem isVertex_error {b : Block} {d t : Detection} {e : CommError} :
    ¬isVertex b d = .error (.error e) t := by
  simp only [isVertex, bind_error, look_error, pure_error, and_false, exists_false, or_false,
    not_false_eq_true]

/-- A block is passed over, or its statements are walked. -/
theorem walkBlock_cases {b : Block} {d d' : Detection} {u : Unit}
    (h : visitor.walkBlock ⟨true, false⟩ b d = .ok u d') :
    ∃ x, d.body.graph.blocks.get? b = some x ∧ ((x.isVertex = false ∧ d = d') ∨
      (x.isVertex = true ∧
        forM x.sents (visitor.walkStmt Visitor.deepest { block := b }) d = .ok ⟨⟩ d')) := by
  obtain ⟨r, _, ha, h⟩ := bind_ok.mp h
  obtain ⟨⟨x, hx, rfl⟩, rfl⟩ := isVertex_ok.mp ha
  refine ⟨x, hx, ?_⟩
  cases hv : x.isVertex with
  | false =>
    simp only [hv, Bool.false_eq_true, if_false, pure_ok] at h
    exact Or.inl ⟨rfl, h.2⟩
  | true =>
    simp only [hv, if_true, Bool.false_eq_true, if_false, bind_ok, visitor_look, look_ok,
      FlowGraph.block_ok, pure_ok] at h
    obtain ⟨y, _, ⟨hy, rfl⟩, _, _, hs, _, rfl⟩ := h
    cases hx.symm.trans hy
    exact Or.inr ⟨rfl, hs⟩

theorem walkBlock_ok {b : Block} {d d' : Detection} {u : Unit}
    (h : visitor.walkBlock ⟨true, false⟩ b d = .ok u d') :
    ∃ x, d.body.graph.blocks.get? b = some x ∧ ((x.isVertex = false ∧ d = d') ∨
      (x.isVertex = true ∧ ∃ order, d.body.ast.Preorder none x.sents order ∧
        Trail d (order.map fun v => (v.1, { block := b, outer := v.2 })) d')) := by
  obtain ⟨x, hx, hskip | ⟨hv, hs⟩⟩ := walkBlock_cases h
  · exact ⟨x, hx, Or.inl hskip⟩
  · obtain ⟨order, ho, ht⟩ := walkStmts_ok hs
    exact ⟨x, hx, Or.inr ⟨hv, order, ho, ht⟩⟩

theorem walkBlock_error {b : Block} {d d' : Detection} {e : CommError}
    (h : visitor.walkBlock ⟨true, false⟩ b d = .error (.error e) d') :
    ∃ x visits, d.body.graph.blocks.get? b = some x ∧ x.isVertex = true ∧ Trail d visits d' ∧
      ∀ v ∈ visits, v.2.block = b := by
  rcases bind_error.mp h with ha | ⟨r, _, ha, h⟩
  · exact absurd ha isVertex_error
  obtain ⟨⟨x, hx, rfl⟩, rfl⟩ := isVertex_ok.mp ha
  cases hv : x.isVertex with
  | false =>
    simp only [hv, Bool.false_eq_true, if_false, pure_error] at h
  | true =>
    simp only [hv, if_true, Bool.false_eq_true, if_false, bind_error, visitor_look, look_error,
      look_ok, FlowGraph.block_ok, pure_error, false_or, and_false, exists_false, or_false] at h
    obtain ⟨y, _, ⟨hy, rfl⟩, hs⟩ := h
    cases hx.symm.trans hy
    obtain ⟨visits, ht, hb⟩ := walkStmts_error hs
    exact ⟨x, visits, hx, hv, ht, hb⟩

end Detection

namespace Body

/-- The visits of a walk over blocks: the statements of each vertex block in program order. -/
inductive Visits (body : Body) : List Block → List (Stmt × Scope) → Prop
  | nil : Visits body [] []
  | other {b : Block} {x : BlockData} {rest : List Block} {visits : List (Stmt × Scope)} :
      body.graph.blocks.get? b = some x → x.isVertex = false → Visits body rest visits →
      Visits body (b :: rest) visits
  | vertex {b : Block} {x : BlockData} {rest : List Block} {visits : List (Stmt × Scope)}
      {order : List (Stmt × Option Stmt)} : body.graph.blocks.get? b = some x →
      x.isVertex = true → body.ast.Preorder none x.sents order → Visits body rest visits →
      Visits body (b :: rest) (order.map (fun v => (v.1, { block := b, outer := v.2 })) ++ visits)

theorem Visits.of_surveyed {body body' : Body} {found : List (Block × CommUnit)}
    (same : body.Surveyed found body') {bs : List Block} {visits : List (Stmt × Scope)}
    (h : body'.Visits bs visits) : body.Visits bs visits := by
  induction h with
  | nil => exact .nil
  | other hy hv _ ih =>
    obtain ⟨x, hx, rfl⟩ := same.lookup_before hy
    exact .other hx hv ih
  | vertex hy hv ho _ ih =>
    obtain ⟨x, hx, rfl⟩ := same.lookup_before hy
    exact .vertex hx hv (ho.congr same.trees.symm) ih

theorem Visits.block_mem {body : Body} {bs : List Block} {visits : List (Stmt × Scope)}
    (h : body.Visits bs visits) : ∀ v ∈ visits, v.2.block ∈ bs ∧
      ∃ x, body.graph.blocks.get? v.2.block = some x ∧ x.isVertex = true := by
  induction h with
  | nil => simp
  | other _ _ _ ih =>
    intro v hv
    obtain ⟨hm, hx⟩ := ih v hv
    exact ⟨List.mem_cons_of_mem _ hm, hx⟩
  | @vertex b x rest visits order hx hvertex _ _ ih =>
    intro v hv
    rcases List.mem_append.mp hv with hv | hv
    · obtain ⟨w, _, rfl⟩ := List.mem_map.mp hv
      exact ⟨List.mem_cons_self, x, hx, hvertex⟩
    · obtain ⟨hm, hx⟩ := ih v hv
      exact ⟨List.mem_cons_of_mem _ hm, hx⟩

theorem mem_found {ast : Ast} {visits : List (Stmt × Scope)} {p : Block × CommUnit}
    (h : p ∈ ast.found visits) : ∃ v ∈ visits, v.2.block = p.1 := by
  obtain ⟨v, hv, hp⟩ := List.mem_filterMap.mp h
  obtain ⟨u, _, rfl⟩ := Option.map_eq_some_iff.mp hp
  exact ⟨v, hv, rfl⟩

theorem unitsOf_found_of_ne {ast : Ast} {visits : List (Stmt × Scope)} {b : Block}
    (h : ∀ v ∈ visits, v.2.block ≠ b) : unitsOf b (ast.found visits) = [] := by
  rw [List.eq_nil_iff_forall_not_mem]
  intro u hu
  obtain ⟨v, hv, he⟩ := mem_found (mem_unitsOf.mp hu)
  exact h v hv he

theorem unitsOf_found_of_eq {ast : Ast} {order : List (Stmt × Option Stmt)} {b : Block} :
    unitsOf b (ast.found (order.map fun v => (v.1, { block := b, outer := v.2 }))) =
      order.filterMap fun v => ast.unit? v.1 := by
  simp only [unitsOf, Ast.found, List.filterMap_map, List.filterMap_filterMap]
  congr 1
  funext v
  cases h : ast.unit? v.1 <;> simp [h]

theorem unitsOf_found_append {ast : Ast} {visits rest : List (Stmt × Scope)} {b : Block} :
    unitsOf b (ast.found (visits ++ rest)) =
      unitsOf b (ast.found visits) ++ unitsOf b (ast.found rest) := by
  simp [unitsOf, Ast.found]

/-- A block that is walked once sends the units of its statements in program order. -/
theorem Visits.unitsOf {body : Body} {bs : List Block} {visits : List (Stmt × Scope)}
    (h : body.Visits bs visits) (hn : bs.Nodup) {b : Block} {x : BlockData} (hb : b ∈ bs)
    (hx : body.graph.blocks.get? b = some x) (hv : x.isVertex = true) :
    ∃ order, body.ast.Preorder none x.sents order ∧
      Superstep.unitsOf b (body.ast.found visits) = order.filterMap fun v => body.ast.unit? v.1 := by
  induction h with
  | nil => simp at hb
  | other hy hother _ ih =>
    rcases List.mem_cons.mp hb with rfl | hb
    · cases hx.symm.trans hy
      cases hv.symm.trans hother
    · exact ih (List.nodup_cons.mp hn).2 hb
  | @vertex c y rest visits order hy _ ho hrest ih =>
    obtain ⟨hc, hn⟩ := List.nodup_cons.mp hn
    rw [unitsOf_found_append]
    rcases List.mem_cons.mp hb with rfl | hb
    · cases hx.symm.trans hy
      refine ⟨order, ho, ?_⟩
      have hlater : Superstep.unitsOf b (body.ast.found visits) = [] :=
        unitsOf_found_of_ne fun v hm he => hc (he ▸ (hrest.block_mem v hm).1)
      rw [unitsOf_found_of_eq, hlater, List.append_nil]
    · obtain ⟨order', ho', hu⟩ := ih hn hb
      refine ⟨order', ho', ?_⟩
      have hearlier : ∀ v ∈ order.map (fun v => (v.1, ({ block := c, outer := v.2 } : Scope))),
          v.2.block ≠ b := by
        intro v hm he
        obtain ⟨w, _, rfl⟩ := List.mem_map.mp hm
        cases he
        exact hc hb
      rw [unitsOf_found_of_ne hearlier, hu, List.nil_append]

end Body

namespace Detection

theorem walkBlocks_ok {bs : List Block} {d d' : Detection} {u : Unit}
    (h : forM bs (visitor.walkBlock ⟨true, false⟩) d = .ok u d') :
    ∃ visits, d.body.Visits bs visits ∧ Trail d visits d' := by
  induction bs generalizing d with
  | nil =>
    obtain ⟨_, rfl⟩ := pure_ok.mp h
    exact ⟨[], .nil, .nil d⟩
  | cons b bs ih =>
    rw [List.forM_cons] at h
    obtain ⟨_, d₁, hb, h⟩ := bind_ok.mp h
    obtain ⟨visits, hvisits, ht⟩ := ih h
    obtain ⟨x, hx, ⟨hv, rfl⟩ | ⟨hv, order, ho, hto⟩⟩ := walkBlock_ok hb
    · exact ⟨visits, .other hx hv hvisits, ht⟩
    · exact ⟨_, .vertex hx hv ho (hvisits.of_surveyed hto.surveyed.1), hto.append ht⟩

theorem walkBlocks_error {bs : List Block} {d d' : Detection} {e : CommError}
    (h : forM bs (visitor.walkBlock ⟨true, false⟩) d = .error (.error e) d') :
    ∃ visits, Trail d visits d' ∧ ∀ v ∈ visits,
      ∃ x, d.body.graph.blocks.get? v.2.block = some x ∧ x.isVertex = true := by
  induction bs generalizing d with
  | nil => exact absurd h pure_error
  | cons b bs ih =>
    rw [List.forM_cons] at h
    rcases bind_error.mp h with hb | ⟨_, d₁, hb, h⟩
    · obtain ⟨x, visits, hx, hv, ht, hblock⟩ := walkBlock_error hb
      exact ⟨visits, ht, fun v hm => ⟨x, hblock v hm ▸ hx, hv⟩⟩
    · have hone : forM [b] (visitor.walkBlock ⟨true, false⟩) d = .ok ⟨⟩ d₁ :=
        bind_ok.mpr ⟨_, d₁, hb, pure_ok.mpr ⟨rfl, rfl⟩⟩
      obtain ⟨first, hfirst, htfirst⟩ := walkBlocks_ok hone
      obtain ⟨rest, htrest, hrest⟩ := ih h
      refine ⟨first ++ rest, htfirst.append htrest, ?_⟩
      intro v hm
      rcases List.mem_append.mp hm with hm | hm
      · exact (hfirst.block_mem v hm).2
      · obtain ⟨y, hy, hv⟩ := hrest v hm
        obtain ⟨x, hx, rfl⟩ := htfirst.surveyed.1.lookup_before hy
        exact ⟨x, hx, hv⟩

end Detection

/-- Units are the communication of a body: only reached vertex blocks send, and each sends the
units of its statements in program order. -/
structure Body.Communicates (body : Body) (found : List (Block × CommUnit)) : Prop where
  sender : ∀ p ∈ found, body.graph.Reached p.1 ∧
    ∃ x, body.graph.blocks.get? p.1 = some x ∧ x.isVertex = true
  units : ∀ b x, body.graph.Reached b → body.graph.blocks.get? b = some x → x.isVertex = true →
    ∃ order, body.ast.Preorder none x.sents order ∧
      unitsOf b found = order.filterMap fun v => body.ast.unit? v.1

namespace Detection

/-- Looking for communication is a walk over the blocks that the entry leads to. -/
theorem findCommunication_run {d d' : Detection} {targets : TargetBlocks}
    (h : findCommunication d = .ok targets d') :
    ∃ bs, d.body.graph.reachable = .ok bs ∧
      forM bs (visitor.walkBlock ⟨true, false⟩) d = .ok ⟨⟩ d' ∧ targets = d'.targets := by
  obtain ⟨_, d₁, hw, h⟩ := bind_ok.mp h
  cases h
  obtain ⟨bs, _, hl, hw⟩ := bind_ok.mp hw
  rw [visitor_look] at hl
  obtain ⟨hr, rfl⟩ := look_ok.mp hl
  exact ⟨bs, hr, hw, rfl⟩

theorem findCommunication_ok {d d' : Detection} {targets : TargetBlocks}
    (h : findCommunication d = .ok targets d') :
    ∃ found, d.body.Communicates found ∧ d.body.Surveyed found d'.body ∧
      targets = (found.map Prod.fst).foldl (fun t b => (t.insert b).2) d.targets := by
  obtain ⟨bs, hr, hw, rfl⟩ := findCommunication_run h
  obtain ⟨visits, hvisits, ht⟩ := walkBlocks_ok hw
  refine ⟨_, ⟨?_, ?_⟩, ht.surveyed⟩
  · intro p hp
    obtain ⟨v, hv, he⟩ := Body.mem_found hp
    obtain ⟨hm, hx⟩ := hvisits.block_mem v hv
    rw [he] at hm hx
    exact ⟨(FlowGraph.mem_reachable_iff hr).mp hm, hx⟩
  · intro b x hb hx hv
    exact hvisits.unitsOf (FlowGraph.reachable_nodup hr) ((FlowGraph.mem_reachable_iff hr).mpr hb)
      hx hv

theorem findCommunication_error {d d' : Detection} {e : CommError}
    (h : findCommunication d = .error (.error e) d') :
    ∃ found, d.body.Surveyed found d'.body ∧
      ∀ p ∈ found, ∃ x, d.body.graph.blocks.get? p.1 = some x ∧ x.isVertex = true := by
  rcases bind_error.mp h with hw | ⟨_, d₁, _, h⟩
  · rcases bind_error.mp hw with hl | ⟨bs, _, hl, hw⟩
    · rw [visitor_look] at hl
      exact absurd hl look_error
    · rw [visitor_look] at hl
      obtain ⟨_, rfl⟩ := look_ok.mp hl
      obtain ⟨visits, ht, hvertex⟩ := walkBlocks_error hw
      refine ⟨_, ht.surveyed.1, ?_⟩
      intro p hp
      obtain ⟨v, hv, he⟩ := Body.mem_found hp
      exact he ▸ hvertex v hv
  · cases h

end Detection

end Superstep
