import Superstep.Proofs.AppendNew
import Superstep.Proofs.Trail
import Superstep.Proofs.Valid

namespace Superstep

namespace TargetBlocks

/-- The set of blocks seen holds the blocks in order. -/
def Agrees (t : TargetBlocks) : Prop := t.seen.Lists t.order

theorem Agrees.empty : ({} : TargetBlocks).Agrees := KeySet.Lists.empty

theorem Agrees.insert {t : TargetBlocks} (h : t.Agrees) (b : Block) :
    (t.insert b).2.order = appendNew t.order b ∧ (t.insert b).2.Agrees := by
  by_cases hb : b ∈ t.order
  · rw [insert_of_contains ((h b).mpr hb), appendNew_of_mem hb]
    exact ⟨rfl, KeySet.Lists.insert_of_mem h hb⟩
  · have hn : t.contains b = false := Bool.eq_false_iff.mpr (mt (h b).mp hb)
    rw [insert_of_not_contains hn, appendNew_of_not_mem hb]
    exact ⟨rfl, KeySet.Lists.insert h b⟩

theorem Agrees.foldl {t : TargetBlocks} (h : t.Agrees) (bs : List Block) :
    (bs.foldl (fun t b => (t.insert b).2) t).order = bs.foldl appendNew t.order ∧
      (bs.foldl (fun t b => (t.insert b).2) t).Agrees := by
  induction bs generalizing t with
  | nil => exact ⟨rfl, h⟩
  | cons b bs ih =>
    obtain ⟨ho, ha⟩ := h.insert b
    rw [List.foldl_cons, List.foldl_cons, ← ho]
    exact ih ha

end TargetBlocks

/-- The units that visits find, each with the block where it is sent. -/
def Ast.found (ast : Ast) (visits : List (Stmt × Scope)) : List (Block × CommUnit) :=
  visits.filterMap fun v => (ast.unit? v.1).map (v.2.block, ·)

/-- The units that are sent in one block. -/
def unitsOf (b : Block) (found : List (Block × CommUnit)) : List CommUnit :=
  found.filterMap fun p => if p.1 = b then some p.2 else none

theorem mem_unitsOf {b : Block} {found : List (Block × CommUnit)} {u : CommUnit} :
    u ∈ unitsOf b found ↔ (b, u) ∈ found := by
  simp [unitsOf, List.mem_filterMap]

namespace Body

/-- What finding units leaves behind: each is registered, and queued in its block. -/
structure Surveyed (body : Body) (found : List (Block × CommUnit)) (body' : Body) : Prop where
  trees : body.ast.SameTrees body'.ast
  size : body'.graph.blocks.size = body.graph.blocks.size
  layout : body'.graph.layout = body.graph.layout
  entry : body'.graph.entry = body.graph.entry
  lookup : ∀ k, body'.graph.blocks.get? k = (body.graph.blocks.get? k).map fun x =>
    { x with receivers := (unitsOf k found).foldl appendNew x.receivers }
  registry : body.graph.registry.Extends body'.graph.registry
  registered : ∀ p ∈ found, (body'.graph.registry.commId? p.2).isSome

namespace Surveyed

theorem nil {body body' : Body} (trees : body.ast.SameTrees body'.ast)
    (graph : body'.graph = body.graph) : body.Surveyed [] body' := by
  refine ⟨trees, by rw [graph], by rw [graph], by rw [graph], ?_, graph ▸ .refl _, by simp⟩
  intro k
  simp [graph, unitsOf]

theorem of_recorded {u : CommUnit} {b : Block} {d d' : Detection} (h : Detection.Recorded u b d d') :
    d.body.Surveyed [(b, u)] d'.body := by
  refine ⟨h.trees, h.size, h.layout, h.entry, ?_, h.registry, by simpa using h.registered⟩
  intro k
  rw [h.lookup]
  by_cases hk : k = b
  · simp [unitsOf, hk]
  · simp [unitsOf, hk, Ne.symm hk]

theorem trans {a b c : Body} {found found' : List (Block × CommUnit)} (h : a.Surveyed found b)
    (h' : b.Surveyed found' c) : a.Surveyed (found ++ found') c := by
  refine ⟨h.trees.trans h'.trees, h'.size.trans h.size, h'.layout.trans h.layout,
    h'.entry.trans h.entry, ?_, h.registry.trans h'.registry, ?_⟩
  · intro k
    rw [h'.lookup, h.lookup, Option.map_map]
    simp [unitsOf, Function.comp_def]
  · intro p hp
    rcases List.mem_append.mp hp with hp | hp
    · exact h'.registry _ (h.registered p hp)
    · exact h'.registered p hp

theorem lookup_before {body body' : Body} {found : List (Block × CommUnit)}
    (h : body.Surveyed found body') {k : Block} {y : BlockData}
    (hy : body'.graph.blocks.get? k = some y) : ∃ x, body.graph.blocks.get? k = some x ∧
      y = { x with receivers := (unitsOf k found).foldl appendNew x.receivers } := by
  rw [h.lookup] at hy
  obtain ⟨x, hx, he⟩ := Option.map_eq_some_iff.mp hy
  exact ⟨x, hx, he.symm⟩

theorem lookup_after {body body' : Body} {found : List (Block × CommUnit)}
    (h : body.Surveyed found body') {k : Block} {x : BlockData}
    (hx : body.graph.blocks.get? k = some x) : body'.graph.blocks.get? k =
      some { x with receivers := (unitsOf k found).foldl appendNew x.receivers } := by
  rw [h.lookup, hx]
  rfl

theorem listed_before {body body' : Body} {found : List (Block × CommUnit)}
    (h : body.Surveyed found body') {k : Block} {y : BlockData} (hy : body'.graph.Listed k y) :
    ∃ x, body.graph.Listed k x ∧
      y = { x with receivers := (unitsOf k found).foldl appendNew x.receivers } := by
  obtain ⟨x, hx, he⟩ := h.lookup_before hy.2
  exact ⟨x, ⟨h.layout ▸ hy.1, hx⟩, he⟩

/-- A block graph stays valid when only vertex blocks send. -/
theorem valid {body body' : Body} {found : List (Block × CommUnit)}
    (h : body.Surveyed found body') (v : body.graph.Valid)
    (vertex : ∀ p ∈ found, ∀ x, body.graph.blocks.get? p.1 = some x → x.isVertex = true) :
    body'.graph.Valid := by
  constructor
  case allocated =>
    intro b hb
    obtain ⟨x, hx⟩ := v.allocated b (h.layout ▸ hb)
    exact ⟨_, h.lookup_after hx⟩
  case layout_nodup => exact h.layout ▸ v.layout_nodup
  case id_inj =>
    intro a b y z hy hz he
    obtain ⟨x, hx, rfl⟩ := h.listed_before hy
    obtain ⟨w, hw, rfl⟩ := h.listed_before hz
    exact v.id_inj a b x w hx hw he
  case entry_listed =>
    intro b hb
    rw [h.layout]
    exact v.entry_listed b (h.entry ▸ hb)
  case exit_listed =>
    intro a y hy b hb
    obtain ⟨x, hx, rfl⟩ := h.listed_before hy
    rw [h.layout]
    exact v.exit_listed a x hx b hb
  case pred_listed =>
    intro a y hy b hb
    obtain ⟨x, hx, rfl⟩ := h.listed_before hy
    rw [h.layout]
    exact v.pred_listed a x hx b hb
  case mirrored =>
    intro a b y z hy hz
    obtain ⟨x, hx, rfl⟩ := h.listed_before hy
    obtain ⟨w, hw, rfl⟩ := h.listed_before hz
    exact v.mirrored a b x w hx hw
  case after_vertex =>
    intro a y hy ha
    obtain ⟨x, hx, rfl⟩ := h.listed_before hy
    exact v.after_vertex a x hx ha
  case receiver_kind =>
    intro a y hy hr
    obtain ⟨x, hx, rfl⟩ := h.listed_before hy
    obtain ⟨u, hu⟩ := List.exists_mem_of_ne_nil _ hr
    rcases mem_foldl_appendNew.mp hu with hu | hu
    · exact v.receiver_kind a x hx (List.ne_nil_of_mem hu)
    · exact vertex _ (mem_unitsOf.mp hu) x hx.2
  case registered =>
    intro a y hy u hu
    obtain ⟨x, hx, rfl⟩ := h.listed_before hy
    rcases mem_foldl_appendNew.mp hu with hu | hu
    · exact h.registry u (v.registered a x hx u hu)
    · exact h.registered _ (mem_unitsOf.mp hu)
  case receivers_nodup =>
    intro a y hy
    obtain ⟨x, hx, rfl⟩ := h.listed_before hy
    exact nodup_foldl_appendNew (v.receivers_nodup a x hx) _

end Surveyed

end Body

namespace Detection

theorem visit_surveyed {s : Stmt} {scope inner : Scope} {d d' : Detection}
    (h : visit s scope d = .ok inner d') :
    d.body.Surveyed (d.body.ast.found [(s, scope)]) d'.body ∧ d'.targets =
      ((d.body.ast.found [(s, scope)]).map Prod.fst).foldl (fun t b => (t.insert b).2) d.targets := by
  obtain ⟨statement, hs, _, ⟨u, hu, hr⟩ | ⟨hu, ht, hg, hts⟩⟩ := visit_ok h
  · have hfound : d.body.ast.found [(s, scope)] = [(scope.block, u)] := by
      simp [Ast.found, Ast.unit?, hs, hu]
    rw [hfound]
    exact ⟨.of_recorded hr, hr.targets⟩
  · have hfound : d.body.ast.found [(s, scope)] = [] := by
      simp [Ast.found, Ast.unit?, hs, hu]
    rw [hfound]
    exact ⟨.nil ht hg, hts⟩

theorem Trail.surveyed {d d' : Detection} {visits : List (Stmt × Scope)} (h : Trail d visits d') :
    d.body.Surveyed (d.body.ast.found visits) d'.body ∧ d'.targets =
      ((d.body.ast.found visits).map Prod.fst).foldl (fun t b => (t.insert b).2) d.targets := by
  induction h with
  | nil d => exact ⟨.nil (.refl _) rfl, rfl⟩
  | @cons d d₁ d' s scope inner rest hv _ ih =>
    have hrest : d₁.body.ast.found rest = d.body.ast.found rest := by
      simp only [Ast.found, (visit_trees hv).unit?]
    have hfound : d.body.ast.found ((s, scope) :: rest) =
        d.body.ast.found [(s, scope)] ++ d.body.ast.found rest := by
      rw [Ast.found, Ast.found, Ast.found, ← List.filterMap_append, List.singleton_append]
    obtain ⟨hs, hts⟩ := visit_surveyed hv
    rw [hrest] at ih
    rw [hfound]
    refine ⟨hs.trans ih.1, ?_⟩
    rw [ih.2, hts, List.map_append, List.foldl_append]

end Detection

end Superstep
