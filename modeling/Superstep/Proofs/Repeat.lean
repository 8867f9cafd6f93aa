import Mathlib.Data.List.Nodup
import Superstep.Proofs.Effect
import Superstep.Proofs.Obstacle
import Superstep.Proofs.Reorder
import Superstep.Proofs.SendReceive
import Superstep.Proofs.Settled

namespace Superstep

namespace FlowGraph

variable {g g' g'' : FlowGraph} {queued : Block → List CommUnit → List CommUnit}
  {splits splits' : List SplitBlocks}

theorem Splices.mirrored_layout {ids ids' : IdCounter} (run : g.Splices ids splits g' ids')
    (m : g.Mirrored (· ∈ g.layout)) (listed : ∀ p ∈ splits, p.send ∈ g.layout) :
    g'.Mirrored (· ∈ g'.layout) := by
  induction run with
  | nil => exact m
  | @snoc done g₁ g₂ ids₁ p next data run hs sp ih =>
    have hlisted : ∀ q ∈ done, q.send ∈ g.layout := fun q hq => listed q (by simp [hq])
    have hb : p.send ∈ g₁.layout := by
      rw [(run.rerouted m hlisted).layout]
      exact List.mem_append_left _ (listed p (by simp))
    exact sp.mirrored_layout hs (ih hlisted) hb

theorem Rewired.reached_after (r : g.Rewired queued splits g') {b : Block} (h : g.Reached b) :
    g'.Reached b := by
  induction h with
  | entry he => exact .entry (r.entry ▸ he)
  | @exit a c x _ hx hc ih =>
    by_cases hsend : ∃ p ∈ splits, a = p.send
    · obtain ⟨p, hp, rfl⟩ := hsend
      obtain ⟨next, _, _, chain⟩ := r.chains p hp
      cases chain.send.2.symm.trans hx
      obtain ⟨_, hseq⟩ := chain.seq_after
      obtain ⟨_, hreceive⟩ := chain.receive_after
      rw [chain.exit, List.mem_singleton] at hc
      have seqReached : g'.Reached p.seq := .exit ih chain.send_after (by simp)
      have receiveReached : g'.Reached p.receive := .exit seqReached hseq (by simp [seqBlock])
      exact .exit receiveReached hreceive (by simp [receiveBlock, hc])
    · obtain ⟨y, hy, _, _, _, _, _, hrest⟩ := r.frame hx
      exact .exit ih hy ((hrest fun p hp he => hsend ⟨p, hp, he⟩).1 ▸ hc)

theorem Rerouted.inLine_send {among : Block → Prop} (r : g.Rerouted among queued splits g')
    {p : SplitBlocks} (hp : p ∈ splits) {next : Block} {data : BlockData}
    (hs : g.Splittable p.send next data) : g'.InLine p.send := by
  obtain ⟨_, _, _, chain⟩ := r.chains p hp
  cases chain.send.2.symm.trans hs.lookup
  obtain ⟨prev, y, hprev, hy, hyv⟩ := hs.entry
  obtain ⟨y', hy', -, hkind, -⟩ := r.alike prev y hy
  obtain ⟨_, hseq⟩ := chain.seq_after
  refine ⟨_, prev, p.seq, y', _, chain.send_after, hprev, rfl, hy', ?_, hseq, rfl, rfl⟩
  exact (BlockData.isVertex_of_kind hkind).trans hyv

/-- Control leaves a block through the chain of its second split, and comes to the chain of its
first one behind that. The same units are received in both. -/
structure ReceivesTwice (g : FlowGraph) (first second : SplitBlocks) (units : List CommUnit) :
    Prop where
  same_send : second.send = first.send
  send_exits : g.exits? first.send = some [second.seq]
  second_exits : g.exits? second.seq = some [second.receive]
  between : g.exits? second.receive = some [first.seq]
  first_exits : g.exits? first.seq = some [first.receive]
  second_units : g.receivers? second.receive = some units
  first_units : g.receivers? first.receive = some units

/-- A second split of a block puts its chain in front of the one that is there. -/
theorem Rewired.receivesTwice (r : g.Rewired queued splits g') (r' : g'.Rewired queued splits' g'')
    (again : ∀ q ∈ splits', q.send ∈ splits.map SplitBlocks.send) {p q : SplitBlocks}
    (hp : p ∈ splits) (hq : q ∈ splits') (he : q.send = p.send)
    (bare : ∀ x, g.blocks.get? p.send = some x → x.receivers = []) :
    g''.ReceivesTwice p q (queued p.send []) := by
  obtain ⟨next, _, _, chain⟩ := r.chains p hp
  obtain ⟨next', _, _, chain'⟩ := r'.chains q hq
  cases (he ▸ chain.send_after).symm.trans chain'.send.2
  obtain ⟨_, hseq⟩ := chain.seq_after
  obtain ⟨_, hreceive⟩ := chain.receive_after
  rw [bare _ chain.send.2] at hreceive
  -- The exit that the second split cuts is the edge to the first chain.
  cases List.singleton_inj.mp chain'.exit
  cases hseq.symm.trans chain'.next_before.2
  obtain ⟨_, hseq'⟩ := chain'.seq_after
  obtain ⟨_, hreceive'⟩ := chain'.receive_after
  have hother : ∀ c ∈ splits', p.receive ≠ c.send := by
    intro c hc
    obtain ⟨a, ha, hsend⟩ := List.mem_map.mp (again c hc)
    obtain ⟨_, _, _, old⟩ := r.chains a ha
    exact hsend ▸ r.created_ne hp (by simp [SplitBlocks.created]) ⟨_, old.send.2⟩
  obtain ⟨y, hy, _, _, _, _, _, hrest⟩ := r'.frame hreceive
  constructor
  · exact he
  · simp [exits?, ← he, chain'.send_after]
  · simp [exits?, hseq', seqBlock]
  · simp [exits?, hreceive', receiveBlock]
  · simp [exits?, chain'.next_after, seqBlock]
  · simp [receivers?, hreceive', receiveBlock, he]
  · simp [receivers?, hy, (hrest hother).2, receiveBlock]

end FlowGraph

theorem unitsOf_ne_nil_iff {b : Block} {found : List (Block × CommUnit)} :
    unitsOf b found ≠ [] ↔ b ∈ found.map Prod.fst := by
  constructor
  · intro hne
    by_contra hb
    exact hne (unitsOf_eq_nil hb)
  · intro hb
    obtain ⟨p, hp, rfl⟩ := List.mem_map.mp hb
    exact List.ne_nil_of_mem (mem_unitsOf.mpr hp)

namespace Body

variable {body body' : Body} {found found' : List (Block × CommUnit)}

/-- Splits change nothing about what is sent: the new blocks have no statements. -/
theorem Communicates.unitsOf_after (h : body.Communicates found) (h' : body'.Communicates found')
    (v : body.graph.Valid) (trees : body.ast.SameTrees body'.ast)
    {queued : Block → List CommUnit → List CommUnit} {splits : List SplitBlocks}
    (r : body.graph.Rewired queued splits body'.graph) (b : Block) :
    unitsOf b found' = unitsOf b found := by
  by_cases hb : ∃ x, body.graph.Reached b ∧ body.graph.blocks.get? b = some x ∧ x.isVertex = true
  · obtain ⟨x, hreached, hx, hv⟩ := hb
    obtain ⟨y, hy, -, hkind, -, hsents, -⟩ := r.frame hx
    have hv' : y.isVertex = true := (BlockData.isVertex_of_kind hkind).trans hv
    obtain ⟨order, ho, hunits⟩ := h.units b x hreached hx hv
    obtain ⟨order', ho', hunits'⟩ := h'.units b y (r.reached_after hreached) hy hv'
    cases (ho.congr trees).unique (hsents ▸ ho')
    rw [hunits, hunits']
    simp only [trees.unit?]
  · have hbefore : unitsOf b found = [] := by
      apply unitsOf_eq_nil
      intro hm
      obtain ⟨p, hp, rfl⟩ := List.mem_map.mp hm
      obtain ⟨hreached, x, hx, hv⟩ := h.sender p hp
      exact hb ⟨x, hreached, hx, hv⟩
    rw [hbefore]
    apply unitsOf_eq_nil
    intro hm
    obtain ⟨p, hp, rfl⟩ := List.mem_map.mp hm
    obtain ⟨hreached, y, hy, hv⟩ := h'.sender p hp
    rcases r.reached_cases v hreached with hold | ⟨q, hq, -, hnew⟩
    · obtain ⟨x, hx⟩ := v.allocated _ (v.reached_listed hold)
      obtain ⟨z, hz, -, hkind, -⟩ := r.frame hx
      cases hz.symm.trans hy
      exact hb ⟨x, hold, hx, (BlockData.isVertex_of_kind hkind).symm.trans hv⟩
    · obtain ⟨order, ho, hunits⟩ := h'.units p.1 y hreached hy hv
      rw [(r.created_cases hq hnew hy).1] at ho
      cases ho
      exact unitsOf_ne_nil_iff.mpr (List.mem_map_of_mem hp) hunits

theorem Surveyed.congr (h : body.Surveyed found body')
    (units : ∀ b, unitsOf b found = unitsOf b found') : body.Surveyed found' body' where
  trees := h.trees
  size := h.size
  layout := h.layout
  entry := h.entry
  lookup := fun k => by rw [h.lookup, units]
  registry := h.registry
  registered := fun p hp => h.registered p (mem_unitsOf.mp (units p.1 ▸ mem_unitsOf.mpr hp))

theorem Surveyed.mirrored (h : body.Surveyed found body') {among : Block → Prop}
    (m : body.graph.Mirrored among) : body'.graph.Mirrored among where
  allocated := by
    intro a ha
    obtain ⟨x, hx⟩ := m.allocated a ha
    exact ⟨_, h.lookup_after hx⟩
  exit_mem := by
    intro a y ha hy
    obtain ⟨x, hx, rfl⟩ := h.lookup_before hy
    exact m.exit_mem a x ha hx
  entry_mem := by
    intro a y ha hy
    obtain ⟨x, hx, rfl⟩ := h.lookup_before hy
    exact m.entry_mem a x ha hx
  count_eq := by
    intro a c y z ha hc hy hz
    obtain ⟨x, hx, rfl⟩ := h.lookup_before hy
    obtain ⟨w, hw, rfl⟩ := h.lookup_before hz
    exact m.count_eq a c x w ha hc hx hw

theorem Surveyed.inLine_after (h : body.Surveyed found body') {b : Block}
    (hb : body.graph.InLine b) : body'.graph.InLine b := by
  have after : body.graph.Alike body'.graph := fun k x hx => ⟨_, h.lookup_after hx, rfl, rfl, rfl⟩
  obtain ⟨x, _, _, _, _, hx, _⟩ := id hb
  exact hb.congr hx (h.lookup_after hx) after rfl rfl

theorem Surveyed.splittable_send (h : body.Surveyed found body') {start : FlowGraph}
    {queued : Block → List CommUnit → List CommUnit} {splits : List SplitBlocks}
    (r : start.Rewired queued splits body.graph) {p : SplitBlocks} (hp : p ∈ splits)
    (line : body.graph.InLine p.send) (hunits : unitsOf p.send found ≠ []) :
    p.send ∈ body'.graph.layout ∧ ∃ next data, body'.graph.Splittable p.send next data := by
  obtain ⟨_, _, _, chain⟩ := r.chains p hp
  obtain ⟨next, hs⟩ := (h.inLine_after line).splittable (h.lookup_after chain.send_after)
    chain.vertex (foldl_appendNew_ne_nil hunits)
  refine ⟨?_, next, _, hs⟩
  rw [h.layout, r.layout]
  exact List.mem_append_left _ chain.send.1

theorem Prepared.of_rewired {start : FlowGraph} (v : start.Valid)
    {queued : Block → List CommUnit → List CommUnit} {splits : List SplitBlocks}
    (r : start.Rewired queued splits body'.graph) (continues : body.Continues body')
    (prepared : ∀ b, start.Reached b → body.Prepared b) {b : Block} (hb : body'.graph.Reached b) :
    body'.Prepared b := by
  rcases r.reached_cases v hb with hold | ⟨p, hp, -, hnew⟩
  · exact (prepared b hold).mono continues
  · obtain ⟨y, hy⟩ := FlowGraph.allocated_iff.mpr (r.created_index hp hnew).2
    have hsents := (r.created_cases hp hnew hy).1
    exact ⟨y, hy, fun _ => ⟨[], hsents ▸ .nil, hsents ▸ .nil, by simp⟩⟩

end Body

namespace Procedure

variable {s t : Stage Procedure} {splits : List SplitBlocks}

theorem splitCommunication_leaves (v : s.subject.graph.Valid)
    (split : splitCommunication s = .ok splits t) :
    t.subject.graph.Mirrored (· ∈ t.subject.graph.layout) ∧
      (∀ p ∈ splits, t.subject.graph.InLine p.send) ∧
      ∀ b, t.subject.graph.Reached b → t.subject.toBody.Prepared b := by
  obtain ⟨targets, s₁, hf, hsend, hast, run⟩ := splitCommunication_ok split
  obtain ⟨v₁, hlisted⟩ := findCommunication_valid hf v
  obtain ⟨_, -, -, -, r⟩ := splitCommunication_rewired split v
  have listed : ∀ p ∈ splits, p.send ∈ s₁.subject.graph.layout := fun p hp =>
    hlisted _ (hsend ▸ List.mem_map_of_mem hp)
  have r₁ := run.rewired v₁ listed
  have continues : s₁.subject.toBody.Continues t.subject.toBody := by
    refine ⟨hast ▸ .refl _, run.registry ▸ .refl _, ?_⟩
    intro k x hx
    obtain ⟨y, hy, -, hkind, -, hsents, -⟩ := r₁.frame hx
    exact ⟨y, hy, hkind, hsents⟩
  refine ⟨run.mirrored_layout v₁.mirrored_layout listed, ?_, ?_⟩
  · intro p hp
    obtain ⟨next, data, hs⟩ := (run.splittable v₁.mirrored_layout listed).2 p hp
    exact r₁.inLine_send hp hs
  · obtain ⟨d, hd, rfl⟩ := onPart_ok.mp hf
    exact fun b => Body.Prepared.of_rewired v r continues fun b hb =>
      Detection.findCommunication_prepared hd hb

/-- The second run finds what the first one found, and queues it once more. -/
theorem findCommunication_again (v : s.subject.graph.Valid)
    (split : splitCommunication s = .ok splits t) :
    ∃ targets t₁ found, findCommunication t = .ok targets t₁ ∧
      s.subject.graph.Rewired (fun b rs => (unitsOf b found).foldl appendNew rs) splits
        t.subject.graph ∧
      t.subject.toBody.Surveyed found t₁.subject.toBody ∧
      splits.map SplitBlocks.send = (found.map Prod.fst).eraseDups ∧
      targets.order.Nodup ∧ ∀ b, b ∈ targets.order ↔ b ∈ splits.map SplitBlocks.send := by
  obtain ⟨found, hcom, htrees, hsend, r⟩ := splitCommunication_rewired split v
  obtain ⟨-, -, prepared⟩ := splitCommunication_leaves v split
  obtain ⟨targets, d, hd⟩ := Detection.findCommunication_of_prepared
    (d := { body := t.subject.toBody, log := t.console.log }) prepared
  have hf : findCommunication t = .ok targets _ := onPart_ok.mpr ⟨d, hd, rfl⟩
  obtain ⟨-, found', hcom', surveyed, hord⟩ := findCommunication_ok hf
  have units := hcom.unitsOf_after hcom' v htrees r
  refine ⟨targets, _, found, hf, r, surveyed.congr units, hsend, hord ▸ nodup_eraseDups _, ?_⟩
  intro b
  rw [hord, hsend, List.mem_eraseDups, List.mem_eraseDups, ← unitsOf_ne_nil_iff, units,
    unitsOf_ne_nil_iff]

/-- The second run splits every block that the first one split, as long as there are keys for the
new blocks. -/
theorem splitCommunication_repeated (v : s.subject.graph.Valid)
    (bare : ∀ b x, s.subject.graph.blocks.get? b = some x → x.receivers = [])
    (split : splitCommunication s = .ok splits t) :
    (0x100000000 < t.subject.graph.blocks.size + 2 * splits.length ∧
      ∃ u, splitCommunication t = .error (.fault .indexTooWide) u) ∨
    ∃ splits' u, splitCommunication t = .ok splits' u ∧
      (splits'.map SplitBlocks.send).Perm (splits.map SplitBlocks.send) ∧
      ∀ p ∈ splits, ∃ q ∈ splits', ∃ units, units ≠ [] ∧
        u.subject.graph.ReceivesTwice p q units := by
  obtain ⟨targets, t₁, found, hf, r, surveyed, hsend, nodup, member⟩ :=
    findCommunication_again v split
  obtain ⟨m, line, -⟩ := splitCommunication_leaves v split
  obtain ⟨t₂, hsubject, heq⟩ := splitCommunication_of_found hf
  rw [splitBlocks_eq] at heq
  rw [← hsubject] at surveyed
  -- The first run may have used an id twice, so that only the edges can be relied on.
  have m₂ : t₂.subject.graph.Mirrored (· ∈ t₂.subject.graph.layout) := by
    rw [surveyed.layout]
    exact surveyed.mirrored m
  have sends : ∀ p ∈ splits, unitsOf p.send found ≠ [] := by
    intro p hp
    rw [unitsOf_ne_nil_iff, ← List.mem_eraseDups, ← hsend]
    exact List.mem_map_of_mem hp
  have splittable : ∀ b ∈ targets.order, b ∈ t₂.subject.graph.layout ∧
      ∃ next data, t₂.subject.graph.Splittable b next data := by
    intro b hb
    obtain ⟨p, hp, rfl⟩ := List.mem_map.mp ((member b).mp hb)
    exact surveyed.splittable_send r hp (line p hp) (sends p hp)
  have perm : targets.order.Perm (splits.map SplitBlocks.send) :=
    (List.perm_ext_iff_of_nodup nodup (hsend ▸ nodup_eraseDups _)).mpr member
  rcases Splitting.splitBlocks_total
    (s := ⟨t₂.subject.graph, t₂.context.ids, t₂.console.log⟩) m₂ .nil (by simp) nodup splittable
    (by simp) (fun k hk => Or.inl (m₂.index_lt hk)) with ⟨splits', u, ok⟩ | ⟨full, u, stops⟩
  · obtain ⟨horder, run⟩ := Splitting.splitBlocks_ok .nil ok
    rw [← horder] at splittable member perm
    have r₂ := run.rerouted m₂ fun q hq => (splittable _ (List.mem_map_of_mem hq)).1
    have r' := surveyed.rewired r₂ fun b hb => by
      rw [← List.mem_eraseDups, ← hsend] at hb
      exact (member b).mpr hb
    refine Or.inr ⟨splits', _, heq.trans (onPart_ok.mpr ⟨u, ok, rfl⟩), perm, ?_⟩
    intro p hp
    obtain ⟨q, hq, he⟩ := List.mem_map.mp ((member p.send).mpr (List.mem_map_of_mem hp))
    have twice := r.receivesTwice r' (fun c hc => (member _).mp (List.mem_map_of_mem hc)) hp hq he
      (bare p.send)
    exact ⟨q, hq, _, foldl_appendNew_ne_nil (sends p hp), twice⟩
  · refine Or.inl ⟨?_, _, heq.trans (onPart_error.mpr ⟨_, u, stops, rfl, rfl⟩)⟩
    have hlength := perm.length_eq
    have hsize := surveyed.size
    simp only [List.length_nil, List.length_map] at full hlength
    omega

/-- The pass splits nothing, whether or not it succeeds, and leaves the blocks and their order as
they are. -/
def SplitsNothing (s : Stage Procedure) : Prop :=
  ∃ t, (splitCommunication s = .ok [] t ∨ ∃ e, splitCommunication s = .error (.error e) t) ∧
    t.subject.graph.blocks = s.subject.graph.blocks ∧
    t.subject.graph.layout = s.subject.graph.layout

theorem splitsNothing_of_nil (v : s.subject.graph.Valid)
    (split : splitCommunication s = .ok [] t) : SplitsNothing t := by
  obtain ⟨targets, t₁, _, hf, -, -, -, -, member⟩ := findCommunication_again v split
  have silent : targets.order = [] := by
    rw [List.eq_nil_iff_forall_not_mem]
    exact fun b hb => List.not_mem_nil ((member b).mp hb)
  obtain ⟨announced, -⟩ := findCommunication_of_silent hf silent
  obtain ⟨t₂, hsubject, heq⟩ := splitCommunication_of_found hf
  rw [silent] at heq
  have graph : t₂.subject.graph = t.subject.graph := hsubject ▸ announced.graph
  exact ⟨t₂, Or.inl heq, congrArg (·.blocks) graph, congrArg (·.layout) graph⟩

/-- The pass is not idempotent: a second run splits all the blocks that the first one split, and
the same units are received in two places behind each. Only where the first run has split nothing
does the second one split nothing. -/
theorem splitCommunication_again (valid : s.subject.graph.defects = .ok [])
    (bare : ∀ b x, s.subject.graph.blocks.get? b = some x → x.receivers = [])
    (split : splitCommunication s = .ok splits t) :
    (SplitsNothing t ↔ splits = []) ∧
    ((0x100000000 < t.subject.graph.blocks.size + 2 * splits.length ∧
        ∃ u, splitCommunication t = .error (.fault .indexTooWide) u) ∨
      ∃ splits' u, splitCommunication t = .ok splits' u ∧
        (splits'.map SplitBlocks.send).Perm (splits.map SplitBlocks.send) ∧
        ∀ p ∈ splits, ∃ q ∈ splits', ∃ units, units ≠ [] ∧
          u.subject.graph.ReceivesTwice p q units) := by
  have v := FlowGraph.Valid.of_defects valid
  have repeated := splitCommunication_repeated v bare split
  refine ⟨⟨?_, ?_⟩, repeated⟩
  · rintro ⟨u, run, -⟩
    rcases repeated with ⟨-, w, stops⟩ | ⟨splits', w, ok, perm, -⟩
    · rcases run with nothing | ⟨e, fails⟩
      · cases stops.symm.trans nothing
      · cases stops.symm.trans fails
    · rcases run with nothing | ⟨e, fails⟩
      · cases ok.symm.trans nothing
        exact List.map_eq_nil_iff.mp perm.symm.eq_nil
      · cases ok.symm.trans fails
  · rintro rfl
    exact splitsNothing_of_nil v split

theorem receivers_of_values {g : FlowGraph} (h : ∀ x ∈ g.blocks.values, x.receivers = [])
    (b : Block) (x : BlockData) (hx : g.blocks.get? b = some x) : x.receivers = [] := by
  rw [FlowGraph.get?_eq_values] at hx
  exact h x (List.mem_of_getElem? hx)

theorem splitCommunication_again_of_twoSupersteps :
    (twoSupersteps 1).subject.graph.defects = .ok [] ∧ ∃ splits splits' u,
      splitCommunication (twoSupersteps 1) = .ok splits (afterSplit (twoSupersteps 1)) ∧
      splitCommunication (afterSplit (twoSupersteps 1)) = .ok splits' u ∧ splits.length = 2 ∧
      ∀ p ∈ splits, ∃ q ∈ splits', ∃ units, units ≠ [] ∧
        u.subject.graph.ReceivesTwice p q units := by
  have valid : (twoSupersteps 1).subject.graph.defects = .ok [] := by decide +kernel
  have bare := receivers_of_values (g := (twoSupersteps 1).subject.graph) (by decide +kernel)
  have before : (twoSupersteps 1).subject.graph.blocks.size = 5 := by decide +kernel
  have after : (afterSplit (twoSupersteps 1)).subject.graph.blocks.size = 9 := by decide +kernel
  obtain ⟨splits, first⟩ := twoSupersteps_split
  obtain ⟨_, -, -, -, r⟩ := splitCommunication_rewired first (.of_defects valid)
  have size := r.size
  obtain ⟨-, ⟨full, -⟩ | ⟨splits', u, second, -, twice⟩⟩ := splitCommunication_again valid bare first
  · omega
  · exact ⟨valid, splits, splits', u, first, second, by omega, twice⟩

/-- A superstep in which each vertex sends to its neighbours. -/
def broadcast : Stage Procedure where
  subject :=
    { name := "main"
      key := Key.wrap 0
      ast :=
        { stmts := Table.ofList
            [.verbatim (Key.wrap 0),
              .foreach ⟨Key.wrap 2, Key.wrap 1, .outNbrs, Key.wrap 0, .unclassified⟩,
              .foreach ⟨Key.wrap 1, Key.wrap 0, .allNodes, Key.wrap 1, .unclassified⟩] }
      graph :=
        { blocks := Table.ofList
            [{ id := Key.wrap 0, kind := .seq, exits := [Key.wrap 1] },
              { id := Key.wrap 1, kind := .beginVertex, entries := [Key.wrap 0],
                exits := [Key.wrap 2], sents := [Key.wrap 2] },
              { id := Key.wrap 2, kind := .seq, entries := [Key.wrap 1] }]
          layout := [Key.wrap 0, Key.wrap 1, Key.wrap 2]
          entry := ⟨Key.wrap 0⟩ } }
  context := { ids := ⟨Key.wrap 3⟩ }

/-- A second run of the pass splits the superstep once more. -/
theorem broadcast_split_again :
    broadcast.subject.graph.defects = .ok [] ∧
      (∀ b x, broadcast.subject.graph.blocks.get? b = some x → x.receivers = []) ∧
      ∃ splits t, splitCommunication broadcast = .ok splits t ∧ ¬SplitsNothing t := by
  refine ⟨by decide +kernel, receivers_of_values (by decide +kernel), ?_⟩
  have runs : (splitCommunication >>= fun _ => splitCommunication).run' broadcast =
      some [⟨Key.wrap 1, Key.wrap 5, Key.wrap 6⟩] := by decide +kernel
  obtain ⟨_, run⟩ := ok_of_run' runs
  obtain ⟨splits, t, first, second⟩ := bind_ok.mp run
  refine ⟨splits, t, first, ?_⟩
  rintro ⟨_, nothing | ⟨e, fails⟩, -⟩
  · cases second.symm.trans nothing
  · cases second.symm.trans fails

end Procedure

end Superstep
