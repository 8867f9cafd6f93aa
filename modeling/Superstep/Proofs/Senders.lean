import Superstep.Proofs.SplitPass

namespace Superstep

/-- A statement sends messages: a loop over a neighbourhood, or an assignment that is flagged as a
random write. -/
def Statement.communicates : Statement → Bool
  | .foreach f => !f.iter.isAllGraph
  | .assign a => a.randomWrite.expand.isSome
  | _ => false

namespace Ast

/-- One of the trees of some statements holds a statement that sends messages. -/
def Communicating (ast : Ast) (ss : List Stmt) : Prop :=
  ∃ root ∈ ss, ∃ s statement, ast.Within root s ∧ ast.stmts.get? s = some statement ∧
    statement.communicates = true

theorem Preorder.within_of_mem {ast : Ast} {outer : Option Stmt} {ss : List Stmt}
    {order : List (Stmt × Option Stmt)} (h : ast.Preorder outer ss order) {v : Stmt × Option Stmt}
    (hv : v ∈ order) : ∃ root ∈ ss, ast.Within root v.1 := by
  induction h with
  | nil => simp at hv
  | @cons outer s rest statement inner after hs _ _ ihInner ihAfter =>
    rcases List.mem_cons.mp hv with rfl | hv
    · exact ⟨s, by simp, .self s⟩
    · rcases List.mem_append.mp hv with hv | hv
      · obtain ⟨c, hc, hw⟩ := ihInner hv
        exact ⟨s, by simp, .child hs hc hw⟩
      · obtain ⟨root, hr, hw⟩ := ihAfter hv
        exact ⟨root, List.mem_cons_of_mem s hr, hw⟩

/-- Every statement of a list sends a unit exactly if it sends messages. -/
def Answered (ast : Ast) (ss : List Stmt) : Prop :=
  ∀ s ∈ ss, ∀ statement, ast.stmts.get? s = some statement →
    (statement.unit? s).isSome = statement.communicates

theorem Answered.congr {a b : Ast} (same : a.SameTrees b) {ss : List Stmt} (h : b.Answered ss) :
    a.Answered ss := by
  intro s hs x hx
  obtain ⟨y, hy, hp⟩ := same.lookup hx
  have hcom : y.communicates = x.communicates := by
    cases x <;> cases y <;> simp_all [Statement.plain, Statement.communicates]
  rw [← Statement.unit?_eq_of_plain hp, ← hcom]
  exact h s hs y hy

/-- Statements that were all visited have a unit if and only if some tree sends messages. -/
theorem Preorder.units_ne_nil_iff {ast : Ast} {outer : Option Stmt} {ss : List Stmt}
    {order : List (Stmt × Option Stmt)} (h : ast.Preorder outer ss order)
    (answered : ast.Answered (order.map Prod.fst)) :
    order.filterMap (fun v => ast.unit? v.1) ≠ [] ↔ ast.Communicating ss := by
  constructor
  · intro hne
    obtain ⟨u, hu⟩ := List.exists_mem_of_ne_nil _ hne
    obtain ⟨v, hv, hu⟩ := List.mem_filterMap.mp hu
    obtain ⟨statement, hs, hu⟩ := Option.bind_eq_some_iff.mp hu
    obtain ⟨root, hr, hw⟩ := h.within_of_mem hv
    refine ⟨root, hr, v.1, statement, hw, hs, ?_⟩
    rw [← answered v.1 (List.mem_map_of_mem hv) statement hs, hu]
    rfl
  · rintro ⟨root, hr, s, statement, hw, hs, hc⟩
    have hm := h.mem_of_within hr hw
    obtain ⟨u, hu⟩ := Option.isSome_iff_exists.mp ((answered s hm statement hs).trans hc)
    obtain ⟨v, hv, rfl⟩ := List.mem_map.mp hm
    have hunit : ast.unit? v.1 = some u := by rw [Ast.unit?, hs, Option.bind_some, hu]
    exact List.ne_nil_of_mem (List.mem_filterMap.mpr ⟨v, hv, hunit⟩)

end Ast

namespace Body

/-- A vertex block whose statements send messages. -/
def Sender (body : Body) (b : Block) : Prop :=
  ∃ x, body.graph.blocks.get? b = some x ∧ x.isVertex = true ∧ body.ast.Communicating x.sents

/-- The blocks with units are found in the order in which they are walked. -/
theorem Visits.senders_sublist {body : Body} {bs : List Block} {visits : List (Stmt × Scope)}
    (h : body.Visits bs visits) (hn : bs.Nodup) :
    ((body.ast.found visits).map Prod.fst).eraseDups.Sublist bs := by
  induction h with
  | nil => exact .slnil
  | other _ _ _ ih => exact (ih (List.nodup_cons.mp hn).2).cons _
  | @vertex b x rest visits order _ _ _ hrest ih =>
    obtain ⟨hb, hn⟩ := List.nodup_cons.mp hn
    have happend : body.ast.found (order.map (fun v => (v.1, ({ block := b, outer := v.2 } : Scope))) ++
        visits) = body.ast.found (order.map fun v => (v.1, { block := b, outer := v.2 })) ++
          body.ast.found visits := by
      simp [Ast.found]
    rw [happend, List.map_append]
    apply eraseDups_sublist_cons _ _ (ih hn)
    · intro c hc
      obtain ⟨p, hp, rfl⟩ := List.mem_map.mp hc
      obtain ⟨v, hv, he⟩ := mem_found hp
      obtain ⟨w, _, rfl⟩ := List.mem_map.mp hv
      exact he.symm
    · intro hc
      obtain ⟨p, hp, rfl⟩ := List.mem_map.mp hc
      obtain ⟨v, hv, he⟩ := mem_found hp
      exact hb (he ▸ (hrest.block_mem v hv).1)

theorem Visits.mem_of_preorder {body : Body} {bs : List Block} {visits : List (Stmt × Scope)}
    (h : body.Visits bs visits) {b : Block} {x : BlockData} (hb : b ∈ bs)
    (hx : body.graph.blocks.get? b = some x) (hv : x.isVertex = true)
    {order : List (Stmt × Option Stmt)} (ho : body.ast.Preorder none x.sents order)
    {v : Stmt × Option Stmt} (hm : v ∈ order) : (v.1, { block := b, outer := v.2 }) ∈ visits := by
  induction h with
  | nil => simp at hb
  | other hy hother _ ih =>
    rcases List.mem_cons.mp hb with rfl | hb
    · cases hx.symm.trans hy
      cases hv.symm.trans hother
    · exact ih hb
  | @vertex c y rest visits order' hy _ ho' _ ih =>
    rcases List.mem_cons.mp hb with rfl | hb
    · cases hx.symm.trans hy
      cases ho.unique ho'
      exact List.mem_append_left _ (List.mem_map_of_mem hm)
    · exact List.mem_append_right _ (ih hb)

end Body

namespace Detection

/-- A visit goes through only if what sends messages has a unit to send. -/
theorem visit_answered {s : Stmt} {scope inner : Scope} {d d' : Detection}
    (h : visit s scope d = .ok inner d') : d.body.ast.Answered [s] := by
  simp only [visit, ite_outcome, bind_ok, fail_ok, false_and, exists_false, and_false, false_or,
    look_ok, stmt_ok] at h
  obtain ⟨-, statement, _, ⟨hs, rfl⟩, h⟩ := h
  intro r hr x hx
  cases List.mem_singleton.mp hr
  cases hs.symm.trans hx
  cases statement with
  | «foreach» f => cases ha : f.iter.isAllGraph <;> simp [Statement.unit?, Statement.communicates, ha]
  | assign a =>
    cases hw : a.randomWrite.expand with
    | none => simp [Statement.unit?, Statement.communicates, hw]
    | some host =>
      simp only [Statement.site, hw, bind_ok, pure_ok] at h
      obtain ⟨_, _, hwrite, -, -⟩ := h
      obtain ⟨_, _, _, _, a', access, _, _, -, -, -, -, ha', haccess, -⟩ :=
        randomWrite_iff.mp hwrite
      cases hs.symm.trans ha'
      simp [Statement.unit?, Statement.communicates, hw, haccess]
  | block _ | branch _ | loop _ | verbatim _ => rfl

theorem Trail.answered {d d' : Detection} {visits : List (Stmt × Scope)} (h : Trail d visits d') :
    d.body.ast.Answered (visits.map Prod.fst) := by
  induction h with
  | nil => intro s hs; cases hs
  | @cons d d₁ d' s scope inner rest hv _ ih =>
    intro r hr
    rcases List.mem_cons.mp hr with rfl | hr
    · exact visit_answered hv r (by simp)
    · exact ih.congr (visit_trees hv) r hr

theorem Trail.targets_order {d d' : Detection} {visits : List (Stmt × Scope)} (h : Trail d visits d')
    (first : d.targets = {}) :
    d'.targets.order = ((d.body.ast.found visits).map Prod.fst).eraseDups := by
  rw [h.surveyed.2, first, (TargetBlocks.Agrees.empty.foldl _).1, foldl_appendNew List.nodup_nil,
    List.nil_append]

theorem findCommunication_trail {d d' : Detection} {targets : TargetBlocks}
    (h : findCommunication d = .ok targets d') :
    ∃ bs visits, d.body.graph.reachable = .ok bs ∧ d.body.Visits bs visits ∧ Trail d visits d' ∧
      targets = d'.targets := by
  obtain ⟨bs, hr, hw, rfl⟩ := findCommunication_run h
  obtain ⟨visits, hvisits, ht⟩ := walkBlocks_ok hw
  exact ⟨bs, visits, hr, hvisits, ht, rfl⟩

end Detection

namespace Procedure

/-- The targets are exactly the reachable vertex blocks that send messages, in the order of the
walk, and each of them queues exactly its own units. -/
theorem findCommunication_exact {s t : Stage Procedure} {targets : TargetBlocks}
    (find : findCommunication s = .ok targets t) :
    ∃ bs, s.subject.graph.reachable = .ok bs ∧ targets.order.Sublist bs ∧ targets.order.Nodup ∧
      (∀ b, b ∈ targets.order ↔ b ∈ bs ∧ s.subject.toBody.Sender b) ∧
      (∀ b, targets.contains b = true ↔ b ∈ targets.order) ∧
      (∀ b ∈ targets.order, ∃ x order, s.subject.graph.blocks.get? b = some x ∧
        s.subject.ast.Preorder none x.sents order ∧
        s.subject.ast.Answered (order.map Prod.fst) ∧
        t.subject.graph.blocks.get? b = some { x with
          receivers := x.receivers ++ ((order.filterMap fun v => s.subject.ast.unit? v.1).filter
            (· ∉ x.receivers)).eraseDups }) ∧
      (∀ b, b ∉ targets.order → t.subject.graph.blocks.get? b = s.subject.graph.blocks.get? b) ∧
      t.subject.graph.blocks.size = s.subject.graph.blocks.size ∧
      t.subject.graph.layout = s.subject.graph.layout ∧
      t.subject.graph.entry = s.subject.graph.entry := by
  obtain ⟨d', hd, rfl⟩ := onPart_ok.mp find
  obtain ⟨bs, visits, hr, hvisits, htrail, rfl⟩ := Detection.findCommunication_trail hd
  obtain ⟨surveyed, htargets⟩ := htrail.surveyed
  have hnodup := FlowGraph.reachable_nodup hr
  have horder : d'.targets.order = ((s.subject.ast.found visits).map Prod.fst).eraseDups :=
    htrail.targets_order rfl
  -- What a vertex block of the walk sends is what its own trees send.
  have hunits : ∀ b ∈ bs, ∀ x, s.subject.graph.blocks.get? b = some x → x.isVertex = true →
      ∃ order, s.subject.ast.Preorder none x.sents order ∧
        s.subject.ast.Answered (order.map Prod.fst) ∧
        unitsOf b (s.subject.ast.found visits) = order.filterMap fun v => s.subject.ast.unit? v.1 := by
    intro b hb x hx hv
    obtain ⟨order, ho, hu⟩ := hvisits.unitsOf hnodup hb hx hv
    refine ⟨order, ho, ?_, hu⟩
    intro r hr
    obtain ⟨v, hm, rfl⟩ := List.mem_map.mp hr
    exact htrail.answered v.1 (List.mem_map_of_mem (hvisits.mem_of_preorder hb hx hv ho hm))
  have hmem : ∀ b, b ∈ d'.targets.order ↔ unitsOf b (s.subject.ast.found visits) ≠ [] := by
    intro b
    rw [horder, List.mem_eraseDups]
    refine ⟨?_, fun hne => by_contra fun hn => hne (unitsOf_eq_nil hn)⟩
    intro hb
    obtain ⟨p, hp, rfl⟩ := List.mem_map.mp hb
    exact List.ne_nil_of_mem (mem_unitsOf.mpr hp)
  have hvertex : ∀ b ∈ d'.targets.order, b ∈ bs ∧
      ∃ x, s.subject.graph.blocks.get? b = some x ∧ x.isVertex = true := by
    intro b hb
    rw [horder, List.mem_eraseDups] at hb
    obtain ⟨p, hp, rfl⟩ := List.mem_map.mp hb
    obtain ⟨v, hv, he⟩ := Body.mem_found hp
    exact he ▸ hvisits.block_mem v hv
  refine ⟨bs, hr, horder ▸ hvisits.senders_sublist hnodup, horder ▸ nodup_eraseDups _, ?_, ?_, ?_, ?_,
    surveyed.size, surveyed.layout, surveyed.entry⟩
  · intro b
    constructor
    · intro hb
      obtain ⟨hbs, x, hx, hv⟩ := hvertex b hb
      obtain ⟨order, ho, hanswered, hu⟩ := hunits b hbs x hx hv
      rw [hmem, hu] at hb
      exact ⟨hbs, x, hx, hv, (ho.units_ne_nil_iff hanswered).mp hb⟩
    · rintro ⟨hbs, x, hx, hv, hc⟩
      obtain ⟨order, ho, hanswered, hu⟩ := hunits b hbs x hx hv
      rw [hmem, hu]
      exact (ho.units_ne_nil_iff hanswered).mpr hc
  · exact htargets ▸ (TargetBlocks.Agrees.empty.foldl _).2
  · intro b hb
    obtain ⟨hbs, x, hx, hv⟩ := hvertex b hb
    obtain ⟨order, ho, hanswered, hu⟩ := hunits b hbs x hx hv
    refine ⟨x, order, hx, ho, hanswered, ?_⟩
    have hlookup := surveyed.lookup b
    rw [hx, Option.map_some, hu, foldl_appendNew_eq] at hlookup
    exact hlookup
  · intro b hb
    have hnone := not_not.mp ((hmem b).not.mp hb)
    have hlookup := surveyed.lookup b
    rw [hnone] at hlookup
    simpa using hlookup

/-- Both supersteps send, and what follows them stays as it is. -/
theorem findCommunication_exact_of_twoSupersteps :
    ∃ targets t, findCommunication (twoSupersteps 1) = .ok targets t ∧
      targets.order = [Key.wrap 1, Key.wrap 3] ∧
      (twoSupersteps 1).subject.toBody.Sender (Key.wrap 3) ∧
      t.subject.graph.blocks.get? (Key.wrap 4) =
        (twoSupersteps 1).subject.graph.blocks.get? (Key.wrap 4) := by
  have run : ((match findCommunication (twoSupersteps 1) with
      | .ok targets _ => some targets.order
      | .error _ _ => none) : Option (List Block)) = some [Key.wrap 1, Key.wrap 3] := by decide +kernel
  cases h : findCommunication (twoSupersteps 1) with
  | error e t => simp [h] at run
  | ok targets t =>
    simp only [h, Option.some.injEq] at run
    obtain ⟨bs, _, _, _, hmem, _, _, hother, _⟩ := findCommunication_exact h
    refine ⟨targets, t, rfl, run, ((hmem _).mp (by simp [run])).2, hother _ ?_⟩
    rw [run]
    decide

end Procedure

end Superstep
