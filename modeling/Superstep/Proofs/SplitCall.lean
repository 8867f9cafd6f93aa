import Superstep.Proofs.DepthFirst
import Superstep.Proofs.Edits
import Superstep.Proofs.Obstacle

namespace Superstep

namespace FlowGraph

/-- The first thing that is wrong with a block with some data that is to be split. -/
inductive Refusal (g : FlowGraph) (x : BlockData) : CommError → Prop
  | notVertexBlock : x.isVertex = false → Refusal g x (.notVertexBlock x.id)
  | noReceivers : x.isVertex = true → x.receivers = [] → Refusal g x (.noReceivers x.id)
  | obstacle {e : CommError} : x.isVertex = true → x.receivers ≠ [] → g.Obstacle x e → Refusal g x e

variable {g : FlowGraph} {b : Block} {x : BlockData} {e : CommError}

theorem Refusal.ne_edge (h : g.Refusal x e) (edge : EdgeError) : e ≠ .edge edge := by
  cases h with
  | notVertexBlock _ => simp
  | noReceivers _ _ => simp
  | obstacle _ _ h => cases h <;> simp

theorem splittable_or_refusal (hx : g.blocks.get? b = some x)
    (entries : ∀ c ∈ x.entries, g.Allocated c) (exits : ∀ c ∈ x.exits, g.Allocated c) :
    (∃ next, g.Splittable b next x) ∨ ∃ e, g.Refusal x e := by
  cases hv : x.isVertex with
  | false => exact Or.inr ⟨_, .notVertexBlock hv⟩
  | true =>
    by_cases hr : x.receivers = []
    · exact Or.inr ⟨_, .noReceivers hv hr⟩
    · by_cases line : g.InLine b
      · exact Or.inl (line.splittable hx hv hr)
      · obtain ⟨e, he⟩ := obstacle_of_not_inLine hx entries exits line
        exact Or.inr ⟨e, .obstacle hv hr he⟩

end FlowGraph

namespace Splitting

variable {s t : Splitting} {b : Block} {p : SplitBlocks}

theorem requireSplittable_of_refusal {x : BlockData} {e : CommError}
    (hx : s.graph.blocks.get? b = some x) (h : s.graph.Refusal x e) :
    requireSplittable b s = .error (.error e) s := by
  cases h with
  | notVertexBlock hv =>
    refine (bind_look (FlowGraph.block_ok.mpr hx)).trans ?_
    exact (ite_of_neg (by simp [hv]) s).trans (bind_of_error rfl)
  | noReceivers hv hr =>
    refine (bind_look (FlowGraph.block_ok.mpr hx)).trans <| (ite_of_pos hv s).trans ?_
    exact (ite_of_neg (by simp [BlockData.hasReceiver, hr]) s).trans (bind_of_error rfl)
  | obstacle hv hr h => exact requireSplittable_of_obstacle hx hv hr h

/-- A call either refuses its block in the checks and leaves everything as it was, or does all its
work: nothing after the checks can fail. -/
theorem splitVertexBlock_atomic
    (edges : ∀ a x, s.graph.blocks.get? a = some x → ∀ c, c ∈ x.exits ∨ c ∈ x.entries →
      s.graph.Allocated c)
    (layout : ∀ c ∈ s.graph.layout, s.graph.Allocated c)
    (room : s.graph.blocks.size ≤ 0xFFFFFFFE) (allocated : s.graph.Allocated b) :
    (∃ e, requireSplittable b s = .error (.error e) s ∧
      splitVertexBlock b s = .error (.error e) s ∧ ∀ edge, e ≠ .edge edge) ∨
    ∃ next p t, requireSplittable b s = .ok next s ∧ splitVertexBlock b s = .ok p t ∧
      p.send = b ∧ s.graph.exits? b = some [next] ∧
      t.graph.exits? b = some [p.seq] ∧ t.graph.entries? p.seq = some [b] ∧
      t.graph.exits? p.seq = some [p.receive] ∧ t.graph.entries? p.receive = some [p.seq] ∧
      t.graph.exits? p.receive = some [next] ∧ t.graph.entries? next = some [p.receive] ∧
      t.graph.receivers? p.receive = s.graph.receivers? b ∧ t.graph.receivers? b = some [] ∧
      t.graph.layout = s.graph.layout ++ [p.seq, p.receive] := by
  obtain ⟨x, hx⟩ := allocated
  rcases FlowGraph.splittable_or_refusal hx (fun c hc => edges b x hx c (Or.inr hc))
    (fun c hc => edges b x hx c (Or.inl hc)) with ⟨next, hs⟩ | ⟨e, refusal⟩
  · obtain ⟨p, rfl, hseq, hrec⟩ := exists_splitBlocks b (n := s.graph.blocks.size) (by omega)
    have unlisted : ∀ k : Block, s.graph.blocks.size ≤ k.index → k ∉ s.graph.layout := by
      intro k new hk
      have old := FlowGraph.allocated_iff.mp (layout k hk)
      omega
    obtain ⟨t, runs, sp, -⟩ := splitVertexBlock_of_unlisted hs hseq hrec (unlisted _ (by omega))
      (unlisted _ (by omega))
    obtain ⟨y, hy, -⟩ := hs.next
    have hsend := sp.lookup_old hs (Table.index_lt_of_get? hx)
    have hnext := sp.lookup_old hs (Table.index_lt_of_get? hy)
    refine Or.inr ⟨next, p, t, requireSplittable_of_splittable hs, runs, rfl, ?_⟩
    simp [FlowGraph.exits?, FlowGraph.entries?, FlowGraph.receivers?, hx, hs.exit, hsend, hnext, hy,
      sp.lookup_seq, sp.lookup_receive, sp.layout, FlowGraph.Spliced.relink, FlowGraph.seqBlock,
      FlowGraph.receiveBlock]
  · have refused := requireSplittable_of_refusal hx refusal
    exact Or.inl ⟨e, refused, bind_of_error refused, refusal.ne_edge⟩

/-- A superstep in a loop, between the two ends of one and the same block. -/
def pulse : Splitting where
  graph :=
    { blocks := Table.ofList
        [{ id := Key.wrap 0, kind := .whileCond, entries := [Key.wrap 1], exits := [Key.wrap 1] },
          { id := Key.wrap 1, kind := .beginVertex, entries := [Key.wrap 0], exits := [Key.wrap 0],
            receivers := [.nested (Key.wrap 3), .randomWrite (Key.wrap 2) (Key.wrap 0)] }]
      layout := [Key.wrap 0, Key.wrap 1]
      entry := ⟨Key.wrap 0⟩ }
  ids := ⟨Key.wrap 2⟩

theorem splitVertexBlock_atomic_of_pulse :
    ∃ p t, splitVertexBlock (Key.wrap 1) pulse = .ok p t ∧
      t.graph.exits? p.receive = some [Key.wrap 0] ∧
      t.graph.entries? (Key.wrap 0) = some [p.receive] ∧
      t.graph.receivers? p.receive =
        some [.nested (Key.wrap 3), .randomWrite (Key.wrap 2) (Key.wrap 0)] ∧
      t.graph.layout = [Key.wrap 0, Key.wrap 1] ++ [p.seq, p.receive] := by
  have exits := FlowGraph.allocated_of_values (g := pulse.graph) BlockData.exits (by decide +kernel)
  have entries := FlowGraph.allocated_of_values (g := pulse.graph) BlockData.entries
    (by decide +kernel)
  have allocated : ∀ k ∈ [Key.wrap 0, Key.wrap 1], pulse.graph.Allocated k := by
    intro k hk
    rcases List.mem_pair.mp hk with rfl | rfl
    · exact FlowGraph.allocated_iff.mpr (by decide)
    · exact FlowGraph.allocated_iff.mpr (by decide)
  have edges : ∀ a x, pulse.graph.blocks.get? a = some x → ∀ c, c ∈ x.exits ∨ c ∈ x.entries →
      pulse.graph.Allocated c := fun a x hx c hc => hc.elim (exits a x hx c) (entries a x hx c)
  have accepted : (requireSplittable (Key.wrap 1)).run' pulse = some (Key.wrap 0) := by
    decide +kernel
  obtain ⟨_, accepted⟩ := ok_of_run' accepted
  rcases splitVertexBlock_atomic edges allocated (by decide) (allocated (Key.wrap 1) (by simp)) with
    ⟨e, refused, -⟩ | ⟨next, p, t, hreq, runs, -, -, -, -, -, -, hexit, hentry, hreceivers, -, hlayout⟩
  · cases accepted.symm.trans refused
  · cases accepted.symm.trans hreq
    exact ⟨p, t, runs, hexit, hentry, hreceivers, hlayout⟩

end Splitting

namespace FlowGraph

/-- The block that an edge leaves records it. -/
def RecordsExit (g : FlowGraph) (a c : Block) : Prop := ∃ cs ∈ g.exits? a, c ∈ cs

/-- The block that an edge leads to records it. -/
def RecordsEntry (g : FlowGraph) (a c : Block) : Prop := ∃ as ∈ g.entries? c, a ∈ as

instance (g : FlowGraph) (a c : Block) : Decidable (g.RecordsExit a c) :=
  inferInstanceAs (Decidable (∃ cs ∈ g.exits? a, c ∈ cs))

instance (g : FlowGraph) (a c : Block) : Decidable (g.RecordsEntry a c) :=
  inferInstanceAs (Decidable (∃ as ∈ g.entries? c, a ∈ as))

theorem recordsExit_iff {g : FlowGraph} {a c : Block} :
    g.RecordsExit a c ↔ ∃ x, g.blocks.get? a = some x ∧ c ∈ x.exits := by
  simp [RecordsExit, exits?]

theorem recordsEntry_iff {g : FlowGraph} {a c : Block} :
    g.RecordsEntry a c ↔ ∃ y, g.blocks.get? c = some y ∧ a ∈ y.entries := by
  simp [RecordsEntry, entries?]

namespace Spliced

variable {g g' : FlowGraph} {ids : IdCounter} {p : SplitBlocks} {next : Block} {data y : BlockData}
  {a c source : Block} (sp : g.Spliced ids p next data g') (hs : g.Splittable p.send next data)

include sp hs

theorem recordsExit (h : g.RecordsExit a c) (other : (a, c) ≠ (p.send, next)) :
    g'.RecordsExit a c := by
  obtain ⟨x, hx, hc⟩ := recordsExit_iff.mp h
  have hne : a ≠ p.send := by
    rintro rfl
    cases hs.lookup.symm.trans hx
    rw [hs.exit, List.mem_singleton] at hc
    exact other (hc ▸ rfl)
  have hlookup := sp.lookup_old hs (Table.index_lt_of_get? hx)
  rw [hx] at hlookup
  exact recordsExit_iff.mpr ⟨_, hlookup, by simpa [relink, hne] using hc⟩

/-- Of the entries, the one of the block behind is the only one that is forgotten, whichever block
it names. -/
theorem recordsEntry (hnext : g.blocks.get? next = some y) (hsource : y.entries = [source])
    (h : g.RecordsEntry a c) (other : (a, c) ≠ (source, next)) : g'.RecordsEntry a c := by
  obtain ⟨x, hx, ha⟩ := recordsEntry_iff.mp h
  have hne : c ≠ next := by
    rintro rfl
    cases hnext.symm.trans hx
    rw [hsource, List.mem_singleton] at ha
    exact other (ha ▸ rfl)
  have hlookup := sp.lookup_old hs (Table.index_lt_of_get? hx)
  rw [hx] at hlookup
  exact recordsEntry_iff.mpr ⟨_, hlookup, by simpa [relink, hne] using ha⟩

theorem not_recordsEntry_next (ha : g.Allocated a) : ¬g'.RecordsEntry a next := by
  intro h
  obtain ⟨x, hx, hmem⟩ := recordsEntry_iff.mp h
  obtain ⟨y, hy, -⟩ := hs.next
  rw [sp.lookup_old hs (Table.index_lt_of_get? hy), hy] at hx
  cases hx
  have hentry : a = p.receive := by simpa [relink] using hmem
  exact sp.ne_receive (allocated_iff.mp ha) hentry

/-- The edges that both ends record stay recorded, the one that is split apart, exactly if the entry
that is forgotten is the split block or belongs to no such edge. -/
theorem kept_iff (hnext : g.blocks.get? next = some y) (hsource : y.entries = [source]) :
    (∀ a c, g.RecordsExit a c → g.RecordsEntry a c → (a, c) ≠ (p.send, next) →
      g'.RecordsExit a c ∧ g'.RecordsEntry a c) ↔
    source = p.send ∨ ¬g.RecordsExit source next := by
  constructor
  · intro kept
    by_contra lost
    obtain ⟨hne, recorded⟩ := not_or.mp lost
    have hexit := not_not.mp recorded
    obtain ⟨x, hx, -⟩ := recordsExit_iff.mp hexit
    have hentry : g.RecordsEntry source next := recordsEntry_iff.mpr ⟨y, hnext, by simp [hsource]⟩
    have stays := kept source next hexit hentry fun he => hne (Prod.mk.inj he).1
    exact sp.not_recordsEntry_next hs ⟨x, hx⟩ stays.2
  · intro harmless a c hexit hentry other
    refine ⟨sp.recordsExit hs hexit other, sp.recordsEntry hs hnext hsource hentry ?_⟩
    intro he
    obtain ⟨rfl, rfl⟩ := Prod.mk.inj he
    rcases harmless with rfl | unrecorded
    · exact other rfl
    · exact unrecorded hexit

end Spliced

end FlowGraph

namespace Splitting

variable {s t : Splitting} {b : Block} {p : SplitBlocks}

/-- What a split has checked when it succeeds, and which records of edges it has removed then. That
the block behind has one entry is checked, that this is the split block is not: its one entry is
forgotten even if it belongs to another edge. Where both ends record every edge there is none. -/
theorem splitVertexBlock_removes (run : splitVertexBlock b s = .ok p t) :
    ∃ prev next source data x y,
      s.graph.blocks.get? b = some data ∧ data.isVertex = true ∧ data.receivers ≠ [] ∧
      data.entries = [prev] ∧ data.exits = [next] ∧
      s.graph.blocks.get? prev = some x ∧ x.isVertex = false ∧
      s.graph.blocks.get? next = some y ∧ y.isVertex = false ∧ y.entries = [source] ∧
      (∀ a c, s.graph.RecordsExit a c → (a, c) ≠ (b, next) → t.graph.RecordsExit a c) ∧
      (∀ a c, s.graph.RecordsEntry a c → (a, c) ≠ (source, next) → t.graph.RecordsEntry a c) ∧
      ((∀ a c, s.graph.RecordsExit a c → s.graph.RecordsEntry a c → (a, c) ≠ (b, next) →
        t.graph.RecordsExit a c ∧ t.graph.RecordsEntry a c) ↔
        source = b ∨ ¬s.graph.RecordsExit source next) ∧
      (s.graph.EdgesMirrored → source = b) := by
  obtain ⟨rfl, -, next, data, hs, sp⟩ := splitVertexBlock_ok run
  obtain ⟨prev, x, hentries, hx, hxv⟩ := hs.entry
  obtain ⟨y, hy, hyv, hlen⟩ := hs.next
  obtain ⟨source, hsource⟩ := List.length_eq_one_iff.mp hlen
  refine ⟨prev, next, source, data, x, y, hs.lookup, hs.vertex, hs.receives, hentries, hs.exit, hx,
    hxv, hy, hyv, hsource, fun a c => sp.recordsExit hs, fun a c => sp.recordsEntry hs hy hsource,
    sp.kept_iff hs hy hsource, ?_⟩
  intro m
  have hown := m.next_entries hs ⟨data, hs.lookup⟩ hy
  exact List.singleton_inj.mp (hsource.symm.trans hown)

/-- A superstep between two blocks, and a block on its own, after some further edits. -/
def superstepAfter (edits : List Edit) : Splitting :=
  Edit.run
    ([.createBlock .seq, .createBlock .beginVertex, .createBlock .seq, .createBlock .seq,
      .addExit (Key.wrap 0) (Key.wrap 1), .addExit (Key.wrap 1) (Key.wrap 2),
      .addReceiver (Key.wrap 1) (.nested (Key.wrap 0))] ++ edits)
    { graph := {}, ids := {} }

theorem splitVertexBlock_removes_of_superstep :
    ∃ p t, splitVertexBlock (Key.wrap 1) (superstepAfter [.addExit (Key.wrap 3) (Key.wrap 0)]) =
        .ok p t ∧
      t.graph.RecordsExit (Key.wrap 3) (Key.wrap 0) ∧
      t.graph.RecordsEntry (Key.wrap 3) (Key.wrap 0) := by
  have accepted : (splitVertexBlock (Key.wrap 1)).run'
      (superstepAfter [.addExit (Key.wrap 3) (Key.wrap 0)]) =
      some ⟨Key.wrap 1, Key.wrap 4, Key.wrap 5⟩ := by decide +kernel
  obtain ⟨t, runs⟩ := ok_of_run' accepted
  have m : (superstepAfter [.addExit (Key.wrap 3) (Key.wrap 0)]).graph.EdgesMirrored :=
    Edit.run_keeps_mirrored (by decide) .empty
  obtain ⟨_, _, _, _, _, _, _, _, _, _, _, _, _, _, _, _, _, _, kept, own⟩ :=
    splitVertexBlock_removes runs
  have stays := kept.mpr (Or.inl (own m)) (Key.wrap 3) (Key.wrap 0) (by decide +kernel)
    (by decide +kernel) (by simp [Key.wrap])
  exact ⟨_, t, runs, stays⟩

/-- The block behind the superstep forgets its entries and gets an edge from the block on its own.
The split takes this one for the edge of the superstep, and the block behind forgets it. -/
theorem splitVertexBlock_removes_other_edge :
    ∃ s p t, s = superstepAfter [.clearEntries (Key.wrap 2), .addExit (Key.wrap 3) (Key.wrap 2)] ∧
      splitVertexBlock (Key.wrap 1) s = .ok p t ∧
      s.graph.exits? (Key.wrap 1) = some [Key.wrap 2] ∧
      s.graph.entries? (Key.wrap 2) = some [Key.wrap 3] ∧
      s.graph.RecordsExit (Key.wrap 3) (Key.wrap 2) ∧
      s.graph.RecordsEntry (Key.wrap 3) (Key.wrap 2) ∧
      ¬t.graph.RecordsEntry (Key.wrap 3) (Key.wrap 2) := by
  have accepted : (splitVertexBlock (Key.wrap 1)).run'
      (superstepAfter [.clearEntries (Key.wrap 2), .addExit (Key.wrap 3) (Key.wrap 2)]) =
      some ⟨Key.wrap 1, Key.wrap 4, Key.wrap 5⟩ := by decide +kernel
  obtain ⟨t, runs⟩ := ok_of_run' accepted
  have final : finalState (splitVertexBlock (Key.wrap 1))
      (superstepAfter [.clearEntries (Key.wrap 2), .addExit (Key.wrap 3) (Key.wrap 2)]) = t := by
    rw [finalState, runs]
  refine ⟨_, _, t, rfl, runs, by decide +kernel, by decide +kernel, by decide +kernel,
    by decide +kernel, ?_⟩
  rw [← final]
  decide +kernel

end Splitting

end Superstep
