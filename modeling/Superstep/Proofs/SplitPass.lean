import Superstep.Pass
import Superstep.Proofs.Detected
import Superstep.Proofs.SplitRun

namespace Superstep

theorem FlowGraph.Valid.reached_listed {g : FlowGraph} (v : g.Valid) {b : Block} (h : g.Reached b) :
    b ∈ g.layout := by
  induction h with
  | entry he => exact v.entry_listed _ he
  | @exit b c x _ hx hc ih => exact v.exit_listed b x ⟨ih, hx⟩ c hc

theorem unitsOf_eq_nil {b : Block} {found : List (Block × CommUnit)} (h : b ∉ found.map Prod.fst) :
    unitsOf b found = [] := by
  rw [List.eq_nil_iff_forall_not_mem]
  intro u hu
  exact h (List.mem_map_of_mem (mem_unitsOf.mp hu))

namespace Body

/-- Splits of all blocks that communicate, as changes of the graph before communication was looked
for. -/
theorem Surveyed.rewired {body body' : Body} {found : List (Block × CommUnit)}
    {splits : List SplitBlocks} {g' : FlowGraph} (h : body.Surveyed found body')
    (r : body'.graph.Rewired (fun _ rs => rs) splits g')
    (senders : ∀ b ∈ found.map Prod.fst, b ∈ splits.map SplitBlocks.send) :
    body.graph.Rewired (fun b rs => (unitsOf b found).foldl appendNew rs) splits g' := by
  have keep : ∀ k x, body.graph.blocks.get? k = some x → k ∉ splits.map SplitBlocks.send →
      body'.graph.blocks.get? k = some x := by
    intro k x hx hk
    rw [h.lookup, hx, unitsOf_eq_nil fun hm => hk (senders k hm)]
    rfl
  refine ⟨h.size ▸ r.keys, h.size ▸ r.size, h.layout ▸ r.layout, r.entry.trans h.entry, ?_, ?_⟩
  · intro p hp
    obtain ⟨next, data, x, hc⟩ := r.chains p hp
    obtain ⟨old, hold, rfl⟩ := h.listed_before hc.send
    obtain ⟨y, hy, _⟩ := h.listed_before hc.next_before
    have hnext : next ∉ splits.map SplitBlocks.send := by
      intro hm
      obtain ⟨q, hq, rfl⟩ := List.mem_map.mp hm
      obtain ⟨_, z, _, hz⟩ := r.chains q hq
      cases hc.next_before.2.symm.trans hz.send.2
      cases hc.next_kind.symm.trans hz.vertex
    cases hc.next_before.2.symm.trans (keep next y hy.2 hnext)
    exact ⟨next, old, x, hold, hc.vertex, hc.exit, hy, hc.next_kind, hc.next_entries, hc.send_after,
      hc.seq_after, hc.receive_after, hc.next_after⟩
  · intro k x hx hsend hnext
    have hk : k ∉ splits.map SplitBlocks.send := by
      intro hm
      obtain ⟨p, hp, he⟩ := List.mem_map.mp hm
      exact hsend p hp he.symm
    apply r.other k x (keep k x hx hk) hsend
    intro p hp y hy
    obtain ⟨z, hz, rfl⟩ := h.lookup_before hy
    exact hnext p hp z hz

end Body

namespace Procedure

/-- What finding communication does to a procedure. -/
theorem findCommunication_ok {s t : Stage Procedure} {targets : TargetBlocks}
    (h : findCommunication s = .ok targets t) :
    t.context = s.context ∧ ∃ found, s.subject.toBody.Communicates found ∧
      s.subject.toBody.Surveyed found t.subject.toBody ∧
      targets.order = (found.map Prod.fst).eraseDups := by
  obtain ⟨d', hd, rfl⟩ := onPart_ok.mp h
  obtain ⟨found, hc, hs, rfl⟩ := Detection.findCommunication_ok hd
  refine ⟨rfl, found, hc, hs, ?_⟩
  rw [(TargetBlocks.Agrees.empty.foldl _).1, foldl_appendNew List.nodup_nil, List.nil_append]

theorem findCommunication_error {s t : Stage Procedure} {e : CommError}
    (h : findCommunication s = .error (.error e) t) (v : s.subject.graph.Valid) :
    t.subject.graph.Valid := by
  obtain ⟨_, d', hd, rfl, rfl⟩ := onPart_error.mp h
  obtain ⟨found, hs, hvertex⟩ := Detection.findCommunication_error hd
  apply hs.valid v
  intro p hp x hx
  obtain ⟨y, hy, hv⟩ := hvertex p hp
  cases hx.symm.trans hy
  exact hv

/-- Splits in a procedure are splits in its block graph. -/
theorem splitBlocks_eq (bs : List Block) (s : Stage Procedure) :
    bs.mapM splitVertexBlock s =
      onPart (fun s => { graph := s.subject.graph, ids := s.context.ids, log := s.console.log })
        (fun s t => { s with subject.graph := t.graph, context.ids := t.ids, console.log := t.log })
        (·) (bs.mapM Splitting.splitVertexBlock) s := by
  apply mapM_onPart bs s
  · exact fun _ _ => rfl
  · exact fun _ _ _ => rfl
  · exact fun _ => rfl

theorem splitBlocks_ok {bs : List Block} {s t : Stage Procedure} {splits : List SplitBlocks}
    (h : bs.mapM splitVertexBlock s = .ok splits t) :
    splits.map SplitBlocks.send = bs ∧ t.subject.ast = s.subject.ast ∧
      s.subject.graph.Splices s.context.ids splits t.subject.graph t.context.ids := by
  rw [splitBlocks_eq] at h
  obtain ⟨r, hr, rfl⟩ := onPart_ok.mp h
  obtain ⟨hsend, run⟩ := Splitting.splitBlocks_ok .nil hr
  exact ⟨hsend, rfl, run⟩

theorem splitBlocks_error {bs : List Block} {s t : Stage Procedure} {e : CommError}
    (h : bs.mapM splitVertexBlock s = .error (.error e) t) :
    ∃ splits, (∀ p ∈ splits, p.send ∈ bs) ∧
      s.subject.graph.Splices s.context.ids splits t.subject.graph t.context.ids := by
  rw [splitBlocks_eq] at h
  obtain ⟨_, r, hr, rfl, rfl⟩ := onPart_error.mp h
  obtain ⟨splits, hmem, run⟩ := Splitting.splitBlocks_error .nil hr
  exact ⟨splits, hmem, run⟩

theorem findCommunication_of_isNone {s : Stage Procedure} (h : s.subject.graph.entry.isNone = true) :
    findCommunication s = .ok {} s := by
  have hr : s.subject.graph.reachable = .ok [] := by
    have he : s.subject.graph.entry.expand = none := by simpa [Packed.isNone, Packed.expand] using h
    rw [FlowGraph.reachable, he]
    rfl
  have hl : Detection.visitor.look (·.graph.reachable)
      { body := s.subject.toBody, log := s.console.log } =
      .ok [] { body := s.subject.toBody, log := s.console.log } := by
    rw [Detection.visitor_look]
    exact Detection.look_ok.mpr ⟨hr, rfl⟩
  refine onPart_ok.mpr ⟨_, bind_ok.mpr ⟨(), _, bind_ok.mpr ⟨[], _, hl, rfl⟩, rfl⟩, rfl⟩

/-- The pass finds communication and splits the blocks found, one after the other. -/
theorem splitCommunication_ok {s t : Stage Procedure} {splits : List SplitBlocks}
    (h : splitCommunication s = .ok splits t) :
    ∃ targets s₁, findCommunication s = .ok targets s₁ ∧
      splits.map SplitBlocks.send = targets.order ∧ t.subject.ast = s₁.subject.ast ∧
      s₁.subject.graph.Splices s₁.context.ids splits t.subject.graph t.context.ids := by
  obtain ⟨_, _, hget, h⟩ := bind_ok.mp h
  cases hget
  rcases ite_outcome.mp h with ⟨hn, h⟩ | ⟨_, h⟩
  · obtain ⟨rfl, rfl⟩ := pure_ok.mp h
    exact ⟨{}, s, findCommunication_of_isNone hn, rfl, rfl, .nil⟩
  · obtain ⟨targets, s₁, hf, h⟩ := bind_ok.mp h
    obtain ⟨_, s₂, hr, h⟩ := bind_ok.mp h
    cases modify_ok.mp hr
    obtain ⟨hsend, hast, run⟩ := splitBlocks_ok h
    exact ⟨targets, s₁, hf, hsend, hast, run⟩

theorem splitCommunication_error {s t : Stage Procedure} {e : CommError}
    (h : splitCommunication s = .error (.error e) t) :
    findCommunication s = .error (.error e) t ∨
      ∃ targets s₁ splits, findCommunication s = .ok targets s₁ ∧
        (∀ p ∈ splits, p.send ∈ targets.order) ∧
        s₁.subject.graph.Splices s₁.context.ids splits t.subject.graph t.context.ids := by
  rcases bind_error.mp h with hget | ⟨_, _, hget, h⟩
  · cases hget
  cases hget
  rcases ite_outcome.mp h with ⟨_, h⟩ | ⟨_, h⟩
  · exact absurd h pure_error
  · rcases bind_error.mp h with hf | ⟨targets, s₁, hf, h⟩
    · exact Or.inl hf
    · rcases bind_error.mp h with hr | ⟨_, s₂, hr, h⟩
      · exact absurd hr modify_error
      · cases modify_ok.mp hr
        obtain ⟨splits, hmem, run⟩ := splitBlocks_error h
        exact Or.inr ⟨targets, s₁, splits, hf, hmem, run⟩

theorem findCommunication_valid {s t : Stage Procedure} {targets : TargetBlocks}
    (h : findCommunication s = .ok targets t) (v : s.subject.graph.Valid) :
    t.subject.graph.Valid ∧ ∀ b ∈ targets.order, b ∈ t.subject.graph.layout := by
  obtain ⟨_, found, hc, hs, hord⟩ := findCommunication_ok h
  constructor
  · apply hs.valid v
    intro p hp x hx
    obtain ⟨_, y, hy, hv⟩ := hc.sender p hp
    cases hx.symm.trans hy
    exact hv
  · intro b hb
    rw [hord, List.mem_eraseDups] at hb
    obtain ⟨p, hp, rfl⟩ := List.mem_map.mp hb
    rw [hs.layout]
    exact v.reached_listed (hc.sender p hp).1

/-- Splits of blocks that were found to communicate, some or all, keep a procedure valid, and the ids
of the new blocks are the next ones of the counter. -/
theorem counted_of_splices {s s₁ t : Stage Procedure} {targets : TargetBlocks}
    {splits : List SplitBlocks} {issued : Nat} (hf : findCommunication s = .ok targets s₁)
    (hmem : ∀ p ∈ splits, p.send ∈ targets.order)
    (run : s₁.subject.graph.Splices s₁.context.ids splits t.subject.graph t.context.ids)
    (v : s.subject.graph.Valid) (counter : s.context.ids.next = Key.wrap issued)
    (own : s.subject.graph.IdsBelow issued)
    (room : issued + (t.subject.graph.blocks.size - s.subject.graph.blocks.size) ≤ 0x100000000) :
    t.subject.graph.Valid ∧
    t.subject.graph.IdsBelow
      (issued + (t.subject.graph.blocks.size - s.subject.graph.blocks.size)) ∧
    t.context.ids.next =
      Key.wrap (issued + (t.subject.graph.blocks.size - s.subject.graph.blocks.size)) := by
  obtain ⟨hcontext, found, _, hs, _⟩ := findCommunication_ok hf
  obtain ⟨v₁, hlisted⟩ := findCommunication_valid hf v
  have listed : ∀ p ∈ splits, p.send ∈ s₁.subject.graph.layout := fun p hp => hlisted _ (hmem p hp)
  have hsize := (run.rewired v₁ listed).size
  have hsize₁ := hs.size
  have own₁ : s₁.subject.graph.IdsBelow issued := by
    intro k y hy
    obtain ⟨x, hx, rfl⟩ := hs.lookup_before hy
    exact own k x hx
  have count : t.subject.graph.blocks.size - s.subject.graph.blocks.size = 2 * splits.length := by
    omega
  rw [count] at room ⊢
  exact run.valid v₁ listed own₁ (hcontext ▸ counter) room

theorem valid_of_splices {s s₁ t : Stage Procedure} {targets : TargetBlocks}
    {splits : List SplitBlocks} {issued : Nat} (hf : findCommunication s = .ok targets s₁)
    (hmem : ∀ p ∈ splits, p.send ∈ targets.order)
    (run : s₁.subject.graph.Splices s₁.context.ids splits t.subject.graph t.context.ids)
    (v : s.subject.graph.Valid) (counter : s.context.ids.next = Key.wrap issued)
    (own : s.subject.graph.IdsBelow issued)
    (room : issued + (t.subject.graph.blocks.size - s.subject.graph.blocks.size) ≤ 0x100000000) :
    t.subject.graph.Valid :=
  (counted_of_splices hf hmem run v counter own room).1

/-- However the pass returns, a valid procedure is still valid, if the ids of its blocks and of the
new ones are different numbers of one counter. -/
theorem splitCommunication_keeps_valid {s t : Stage Procedure} {issued : Nat}
    (valid : s.subject.graph.defects = .ok [])
    (counter : s.context.ids.next = Key.wrap issued) (own : s.subject.graph.IdsBelow issued)
    (returned : (∃ splits, splitCommunication s = .ok splits t) ∨
      ∃ e, splitCommunication s = .error (.error e) t)
    (room : issued + (t.subject.graph.blocks.size - s.subject.graph.blocks.size) ≤ 0x100000000) :
    t.subject.graph.defects = .ok [] := by
  have v := FlowGraph.Valid.of_defects valid
  apply FlowGraph.Valid.defects_eq
  rcases returned with ⟨splits, h⟩ | ⟨e, h⟩
  · obtain ⟨targets, s₁, hf, hsend, _, run⟩ := splitCommunication_ok h
    have hmem : ∀ p ∈ splits, p.send ∈ targets.order := by
      intro p hp
      rw [← hsend]
      exact List.mem_map_of_mem hp
    exact valid_of_splices hf hmem run v counter own room
  · rcases splitCommunication_error h with hf | ⟨targets, s₁, splits, hf, hmem, run⟩
    · exact findCommunication_error hf v
    · exact valid_of_splices hf hmem run v counter own room

/-- A superstep in a loop, whose statements send two units, one of them twice, and one more
superstep behind the loop. The second superstep is left by a number of parallel edges. -/
def twoSupersteps (edges : Nat) : Stage Procedure where
  subject :=
    { name := "main"
      key := Key.wrap 0
      ast :=
        { stmts := Table.ofList
            [.assign ⟨.field ⟨Key.wrap 1, Key.wrap 2⟩, Key.wrap 0, ⟨Key.wrap 3⟩⟩,
              .block [],
              .foreach ⟨Key.wrap 1, Key.wrap 0, .outNbrs, Key.wrap 1, .unclassified⟩,
              .block [Key.wrap 2, Key.wrap 0, Key.wrap 2],
              .foreach ⟨Key.wrap 0, Key.wrap 0, .allNodes, Key.wrap 3, .unclassified⟩] }
      graph :=
        { blocks := Table.ofList
            [{ id := Key.wrap 0, kind := .whileCond, entries := [Key.wrap 1],
               exits := [Key.wrap 1, Key.wrap 2] },
              { id := Key.wrap 1, kind := .beginVertex, entries := [Key.wrap 0],
                exits := [Key.wrap 0], sents := [Key.wrap 4] },
              { id := Key.wrap 2, kind := .seq, entries := [Key.wrap 0], exits := [Key.wrap 3] },
              { id := Key.wrap 3, kind := .beginVertex, entries := [Key.wrap 2],
                exits := List.replicate edges (Key.wrap 4), sents := [Key.wrap 4] },
              { id := Key.wrap 4, kind := .seq, entries := List.replicate edges (Key.wrap 3) }]
          layout := [Key.wrap 0, Key.wrap 1, Key.wrap 2, Key.wrap 3, Key.wrap 4]
          entry := ⟨Key.wrap 0⟩ } }
  context := { ids := ⟨Key.wrap 5⟩ }

theorem idsBelow_of_values {g : FlowGraph} {n : Nat} (h : ∀ x ∈ g.blocks.values, x.id.index < n) :
    g.IdsBelow n := by
  intro k x hx
  rw [FlowGraph.get?_eq_values] at hx
  exact h x (List.mem_of_getElem? hx)

/-- The first superstep has been split when the second one turns out to have two exits. -/
theorem splitCommunication_keeps_valid_of_twoSupersteps :
    ∃ e t, splitCommunication (twoSupersteps 2) = .error (.error e) t ∧
      t.subject.graph.layout.length = 7 ∧ t.subject.graph.defects = .ok [] := by
  have run : ((match splitCommunication (twoSupersteps 2) with
      | .error (.error _) t => some (t.subject.graph.layout.length, t.subject.graph.blocks.size)
      | _ => none) : Option (Nat × Nat)) = some (7, 7) := by decide +kernel
  cases h : splitCommunication (twoSupersteps 2) with
  | ok splits t => simp [h] at run
  | error e t =>
    cases e with
    | fault f => simp [h] at run
    | error e =>
      simp only [h, Option.some.injEq, Prod.mk.injEq] at run
      have room : 5 + (t.subject.graph.blocks.size - 5) ≤ 0x100000000 := by omega
      refine ⟨e, t, rfl, run.1, splitCommunication_keeps_valid ?_ rfl ?_ (Or.inr ⟨e, h⟩) room⟩
      · decide +kernel
      · exact idsBelow_of_values (by decide +kernel)

/-- What the pass makes of a procedure whose communication is `found`. -/
theorem splitCommunication_rewired {s t : Stage Procedure} {splits : List SplitBlocks}
    (h : splitCommunication s = .ok splits t) (v : s.subject.graph.Valid) :
    ∃ found, s.subject.toBody.Communicates found ∧ s.subject.ast.SameTrees t.subject.ast ∧
      splits.map SplitBlocks.send = (found.map Prod.fst).eraseDups ∧
      s.subject.graph.Rewired (fun b rs => (unitsOf b found).foldl appendNew rs) splits
        t.subject.graph := by
  obtain ⟨targets, s₁, hf, hsend, hast, run⟩ := splitCommunication_ok h
  obtain ⟨_, found, hc, hs, hord⟩ := findCommunication_ok hf
  obtain ⟨v₁, hlisted⟩ := findCommunication_valid hf v
  have hmem : ∀ p ∈ splits, p.send ∈ s₁.subject.graph.layout := by
    intro p hp
    apply hlisted
    rw [← hsend]
    exact List.mem_map_of_mem hp
  refine ⟨found, hc, hast ▸ hs.trees, hsend.trans hord, hs.rewired (run.rewired v₁ hmem) ?_⟩
  intro b hb
  rw [hsend, hord, List.mem_eraseDups]
  exact hb

/-- The exact graph after the pass. -/
theorem splitCommunication_frame {s t : Stage Procedure} {splits : List SplitBlocks}
    (valid : s.subject.graph.defects = .ok []) (split : splitCommunication s = .ok splits t) :
    (∃ targets s₁, findCommunication s = .ok targets s₁ ∧
      splits.map SplitBlocks.send = targets.order) ∧
    (splits.flatMap SplitBlocks.created).map Key.index =
      List.range' s.subject.graph.blocks.size (2 * splits.length) ∧
    t.subject.graph.blocks.size = s.subject.graph.blocks.size + 2 * splits.length ∧
    t.subject.graph.layout = s.subject.graph.layout ++ splits.flatMap SplitBlocks.created ∧
    t.subject.graph.entry = s.subject.graph.entry ∧
    (∀ p ∈ splits, ∃ next, s.subject.graph.exits? p.send = some [next] ∧
      t.subject.graph.exits? p.send = some [p.seq] ∧ t.subject.graph.entries? p.seq = some [p.send] ∧
      t.subject.graph.exits? p.seq = some [p.receive] ∧
      t.subject.graph.entries? p.receive = some [p.seq] ∧
      t.subject.graph.exits? p.receive = some [next] ∧
      t.subject.graph.entries? next = some [p.receive] ∧
      t.subject.graph.receivers? p.send = some []) ∧
    ∀ b x, s.subject.graph.blocks.get? b = some x → ∃ y, t.subject.graph.blocks.get? b = some y ∧
      y.id = x.id ∧ y.kind = x.kind ∧ y.afterVertex = x.afterVertex ∧ y.sents = x.sents ∧
      ((∀ p ∈ splits, s.subject.graph.exits? p.send ≠ some [b]) → y.entries = x.entries) ∧
      ((∀ p ∈ splits, b ≠ p.send) → y.exits = x.exits ∧ y.receivers = x.receivers) := by
  have v := FlowGraph.Valid.of_defects valid
  obtain ⟨targets, s₁, hf, hsend, _⟩ := splitCommunication_ok split
  obtain ⟨found, _, _, _, r⟩ := splitCommunication_rewired split v
  refine ⟨⟨targets, s₁, hf, hsend⟩, r.keys, r.size, r.layout, r.entry, ?_, fun b x hx => r.frame hx⟩
  intro p hp
  obtain ⟨next, data, x, hc⟩ := r.chains p hp
  obtain ⟨_, hseq⟩ := hc.seq_after
  obtain ⟨_, hreceive⟩ := hc.receive_after
  refine ⟨next, ?_⟩
  simp [FlowGraph.exits?, FlowGraph.entries?, FlowGraph.receivers?, hc.send.2, hc.exit,
    hc.send_after, hseq, hreceive, hc.next_after, FlowGraph.seqBlock, FlowGraph.receiveBlock]

/-- A stage as the pass leaves it. -/
def afterSplit (s : Stage Procedure) : Stage Procedure :=
  match splitCommunication s with
  | .ok _ t => t
  | .error _ t => t

theorem twoSupersteps_split :
    ∃ splits, splitCommunication (twoSupersteps 1) = .ok splits (afterSplit (twoSupersteps 1)) := by
  have run : (match splitCommunication (twoSupersteps 1) with
      | .ok _ _ => true
      | .error _ _ => false) = true := by decide +kernel
  cases h : splitCommunication (twoSupersteps 1) with
  | error e t => simp [h] at run
  | ok splits t => exact ⟨splits, by simp [afterSplit, h]⟩

theorem splitCommunication_frame_of_twoSupersteps :
    (twoSupersteps 1).subject.graph.defects = .ok [] ∧
      ∃ splits, splitCommunication (twoSupersteps 1) = .ok splits (afterSplit (twoSupersteps 1)) ∧
        (afterSplit (twoSupersteps 1)).subject.graph.layout =
          (twoSupersteps 1).subject.graph.layout ++ splits.flatMap SplitBlocks.created := by
  obtain ⟨splits, h⟩ := twoSupersteps_split
  have valid : (twoSupersteps 1).subject.graph.defects = .ok [] := by decide +kernel
  obtain ⟨_, _, _, hlayout, _⟩ := splitCommunication_frame valid h
  exact ⟨valid, splits, h, hlayout⟩

end Procedure

end Superstep
