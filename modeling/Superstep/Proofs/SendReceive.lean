import Superstep.Proofs.SplitPass

namespace Superstep

/-- One of the trees of some statements holds a statement that sends a unit. -/
def Ast.Sends (ast : Ast) (ss : List Stmt) : Prop :=
  ∃ s ∈ ss, ∃ site u, ast.Within s site ∧ ast.unit? site = some u

theorem Ast.Preorder.units_ne_nil {ast : Ast} {outer : Option Stmt} {ss : List Stmt}
    {order : List (Stmt × Option Stmt)} (h : ast.Preorder outer ss order) (hs : ast.Sends ss) :
    order.filterMap (fun v => ast.unit? v.1) ≠ [] := by
  obtain ⟨s, hs, site, u, hw, hu⟩ := hs
  obtain ⟨v, hv, rfl⟩ := List.mem_map.mp (h.mem_of_within hs hw)
  exact List.ne_nil_of_mem (List.mem_filterMap.mpr ⟨v, hv, hu⟩)

namespace FlowGraph

variable {g g' : FlowGraph} {queued : Block → List CommUnit → List CommUnit}
  {splits : List SplitBlocks}

theorem Rewired.created_cases (r : g.Rewired queued splits g') {p : SplitBlocks} (hp : p ∈ splits)
    {b : Block} {y : BlockData} (hb : b ∈ p.created) (hy : g'.blocks.get? b = some y) :
    y.sents = [] ∧ ((b = p.seq ∧ y.exits = [p.receive]) ∨
      (b = p.receive ∧ ∃ x next, g.blocks.get? p.send = some x ∧ x.exits = [next] ∧
        y.exits = [next])) := by
  obtain ⟨next, x, _, hc⟩ := r.chains p hp
  rcases List.mem_cons.mp hb with rfl | hb
  · obtain ⟨_, hseq⟩ := hc.seq_after
    cases hseq.symm.trans hy
    exact ⟨rfl, Or.inl ⟨rfl, rfl⟩⟩
  · cases List.mem_singleton.mp hb
    obtain ⟨_, hreceive⟩ := hc.receive_after
    cases hreceive.symm.trans hy
    exact ⟨rfl, Or.inr ⟨rfl, x, next, hc.send.2, hc.exit, rfl⟩⟩

theorem Rewired.exits_cases (r : g.Rewired queued splits g') {b : Block} {x y : BlockData}
    (hx : g.blocks.get? b = some x) (hy : g'.blocks.get? b = some y) :
    y.exits = x.exits ∨ ∃ p ∈ splits, b = p.send ∧ y.exits = [p.seq] := by
  by_cases hsend : ∃ p ∈ splits, b = p.send
  · obtain ⟨p, hp, rfl⟩ := hsend
    obtain ⟨_, _, _, hc⟩ := r.chains p hp
    cases hc.send_after.symm.trans hy
    exact Or.inr ⟨p, hp, rfl, rfl⟩
  · obtain ⟨z, hz, _, _, _, _, _, hrest⟩ := r.frame hx
    cases hz.symm.trans hy
    exact Or.inl (hrest fun p hp he => hsend ⟨p, hp, he⟩).1

/-- Only old blocks that were reached before and the chains behind them are reached. -/
theorem Rewired.reached_cases (r : g.Rewired queued splits g') (v : g.Valid) {b : Block}
    (h : g'.Reached b) :
    g.Reached b ∨ ∃ p ∈ splits, g.Reached p.send ∧ b ∈ p.created := by
  induction h with
  | entry he => exact Or.inl (.entry (r.entry ▸ he))
  | @exit a c y _ hy hc ih =>
    rcases ih with ha | ⟨p, hp, hsend, ha⟩
    · obtain ⟨x, hx⟩ := v.allocated a (v.reached_listed ha)
      rcases r.exits_cases hx hy with he | ⟨p, hp, rfl, he⟩
      · exact Or.inl (.exit ha hx (he ▸ hc))
      · rw [he, List.mem_singleton] at hc
        exact Or.inr ⟨p, hp, ha, by simp [SplitBlocks.created, hc]⟩
    · obtain ⟨_, ⟨_, he⟩ | ⟨_, x, next, hx, hexit, he⟩⟩ := r.created_cases hp ha hy
      · rw [he, List.mem_singleton] at hc
        exact Or.inr ⟨p, hp, hsend, by simp [SplitBlocks.created, hc]⟩
      · rw [he] at hc
        exact Or.inl (.exit hsend hx (hexit ▸ hc))

theorem Rewired.receivers_of_not_vertex (r : g.Rewired queued splits g') (v : g.Valid) {b : Block}
    {x y : BlockData} (hx : g.Listed b x) (hv : x.isVertex = false)
    (hy : g'.blocks.get? b = some y) : y.receivers = [] := by
  have hne : ∀ p ∈ splits, b ≠ p.send := by
    rintro p hp rfl
    obtain ⟨_, _, _, hc⟩ := r.chains p hp
    cases hc.send.2.symm.trans hx.2
    cases hc.vertex.symm.trans hv
  have hold : x.receivers = [] := by
    by_contra hr
    cases (v.receiver_kind b x hx hr).symm.trans hv
  obtain ⟨z, hz, _, _, _, _, _, hrest⟩ := r.frame hx.2
  cases hz.symm.trans hy
  exact (hrest hne).2.trans hold

end FlowGraph

namespace Procedure

/-- The purpose of the pass: after a superstep that sends comes one that receives. -/
theorem splitCommunication_sends_then_receives {s t : Stage Procedure} {splits : List SplitBlocks}
    (valid : s.subject.graph.defects = .ok []) (split : splitCommunication s = .ok splits t)
    {b : Block} {y : BlockData} (reached : t.subject.graph.Reached b)
    (block : t.subject.graph.blocks.get? b = some y) (sends : t.subject.ast.Sends y.sents) :
    y.receivers = [] ∧ (y.isVertex = true → ∃ seq receive next seqId receiveId x z order,
      y.exits = [seq] ∧
      t.subject.graph.blocks.get? seq = some
        { id := seqId, kind := .seq, afterVertex := true, entries := [b], exits := [receive],
          sents := [], receivers := [] } ∧
      s.subject.graph.blocks.get? b = some x ∧ t.subject.ast.Preorder none y.sents order ∧
      t.subject.graph.blocks.get? receive = some
        { id := receiveId, kind := .beginVertex, afterVertex := false, entries := [seq],
          exits := [next], sents := [],
          receivers := (x.receivers ++ order.filterMap fun v => t.subject.ast.unit? v.1).eraseDups } ∧
      t.subject.graph.blocks.get? next = some z ∧ z.isVertex = false) := by
  have v := FlowGraph.Valid.of_defects valid
  obtain ⟨found, hcom, htrees, hsend, r⟩ := splitCommunication_rewired split v
  rcases r.reached_cases v reached with hb | ⟨p, hp, _, hb⟩
  · obtain ⟨x, hx⟩ := v.allocated b (v.reached_listed hb)
    obtain ⟨y', hy', _, hkind, _, hsents, _⟩ := r.frame hx
    cases hy'.symm.trans block
    have hv : y.isVertex = x.isVertex := by simp only [BlockData.isVertex, hkind]
    cases hvx : x.isVertex with
    | false =>
      refine ⟨r.receivers_of_not_vertex v ⟨v.reached_listed hb, hx⟩ hvx block, ?_⟩
      intro hy
      cases (hv.trans hvx).symm.trans hy
    | true =>
      obtain ⟨order, ho, hunits⟩ := hcom.units b x hb hx hvx
      have ho' : t.subject.ast.Preorder none y.sents order := hsents ▸ ho.congr htrees
      have hunits' : unitsOf b found = order.filterMap fun v => t.subject.ast.unit? v.1 := by
        simpa only [htrees.unit?] using hunits
      have hfound : b ∈ found.map Prod.fst := by
        by_contra hn
        exact ho'.units_ne_nil sends (hunits' ▸ unitsOf_eq_nil hn)
      rw [← List.mem_eraseDups, ← hsend] at hfound
      obtain ⟨p, hp, rfl⟩ := List.mem_map.mp hfound
      obtain ⟨next, data, z, hc⟩ := r.chains p hp
      cases hc.send.2.symm.trans hx
      cases hc.send_after.symm.trans block
      obtain ⟨seqId, hseq⟩ := hc.seq_after
      obtain ⟨receiveId, hreceive⟩ := hc.receive_after
      rw [foldl_appendNew (v.receivers_nodup _ _ hc.send), hunits'] at hreceive
      exact ⟨rfl, fun _ => ⟨p.seq, p.receive, next, seqId, receiveId, x, _, order, rfl, hseq, hx, ho',
        hreceive, hc.next_after, hc.next_kind⟩⟩
  · obtain ⟨s', hs', _⟩ := sends
    rw [(r.created_cases hp hb block).1] at hs'
    cases hs'

theorem splitCommunication_sends_then_receives_of_twoSupersteps :
    (afterSplit (twoSupersteps 1)).subject.graph.Reached (Key.wrap 1) ∧
      ∃ y seq receive z, (afterSplit (twoSupersteps 1)).subject.graph.blocks.get? (Key.wrap 1) = some y ∧
        (afterSplit (twoSupersteps 1)).subject.ast.Sends y.sents ∧ y.receivers = [] ∧
        y.exits = [seq] ∧
        (afterSplit (twoSupersteps 1)).subject.graph.blocks.get? receive = some z ∧
        z.isVertex = true ∧ z.entries = [seq] := by
  obtain ⟨splits, h⟩ := twoSupersteps_split
  have valid : (twoSupersteps 1).subject.graph.defects = .ok [] := by decide +kernel
  have hentry : (afterSplit (twoSupersteps 1)).subject.graph.blocks.get? (Key.wrap 0) =
      some { id := Key.wrap 0, kind := .whileCond, entries := [Key.wrap 6],
             exits := [Key.wrap 1, Key.wrap 2] } := by decide +kernel
  have hblock : (afterSplit (twoSupersteps 1)).subject.graph.blocks.get? (Key.wrap 1) =
      some { id := Key.wrap 1, kind := .beginVertex, entries := [Key.wrap 0],
             exits := [Key.wrap 5], sents := [Key.wrap 4] } := by decide +kernel
  have hloop : (afterSplit (twoSupersteps 1)).subject.ast.stmts.get? (Key.wrap 4) =
      some (.foreach ⟨Key.wrap 0, Key.wrap 0, .allNodes, Key.wrap 3, .outer ⟨3⟩⟩) := by
    decide +kernel
  have hbody : (afterSplit (twoSupersteps 1)).subject.ast.stmts.get? (Key.wrap 3) =
      some (.block [Key.wrap 2, Key.wrap 0, Key.wrap 2]) := by decide +kernel
  have hsite : (afterSplit (twoSupersteps 1)).subject.ast.unit? (Key.wrap 2) =
      some (.nested (Key.wrap 2)) := by decide +kernel
  have hreached : (afterSplit (twoSupersteps 1)).subject.graph.Reached (Key.wrap 1) :=
    .exit (.entry (by decide +kernel)) hentry (by simp)
  have hwithin : (afterSplit (twoSupersteps 1)).subject.ast.Within (Key.wrap 4) (Key.wrap 2) :=
    .child hloop (by simp [Statement.children]) (.child hbody (by simp [Statement.children]) (.self _))
  have hsends : (afterSplit (twoSupersteps 1)).subject.ast.Sends [Key.wrap 4] :=
    ⟨_, by simp, _, _, hwithin, hsite⟩
  obtain ⟨hr, hchain⟩ := splitCommunication_sends_then_receives valid h hreached hblock hsends
  obtain ⟨seq, receive, _, _, _, _, _, _, hexits, _, _, _, hreceive, _⟩ := hchain rfl
  exact ⟨hreached, _, seq, receive, _, hblock, hsends, hr, hexits, hreceive, rfl, rfl⟩

end Procedure

end Superstep
