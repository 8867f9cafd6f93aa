import Superstep.Proofs.SpliceValid

namespace Superstep

/-- The blocks that a split creates, in the order they are created. -/
def SplitBlocks.created (p : SplitBlocks) : List Block := [p.seq, p.receive]

theorem SplitBlocks.mem_created {p : SplitBlocks} {k : Block} :
    k ∈ p.created ↔ k = p.seq ∨ k = p.receive := by
  simp [created]

/-- The blocks of one more split come behind those of the splits before it. -/
theorem SplitBlocks.keys_snoc {splits : List SplitBlocks} {p : SplitBlocks} {n : Nat}
    (keys : (splits.flatMap created).map Key.index = List.range' n (2 * splits.length))
    (hseq : p.seq.index = n + 2 * splits.length)
    (hrec : p.receive.index = n + 2 * splits.length + 1) :
    ((splits ++ [p]).flatMap created).map Key.index =
      List.range' n (2 * (splits ++ [p]).length) := by
  simp only [List.flatMap_append, List.map_append, keys, List.flatMap_singleton, created,
    List.map_cons, List.map_nil, hseq, hrec, List.length_append, List.length_singleton, Nat.mul_add,
    Nat.mul_one]
  rw [← List.range'_append_1]
  rfl

namespace FlowGraph

/-- The exits of a block, if there is one. -/
def exits? (g : FlowGraph) (b : Block) : Option (List Block) := (g.blocks.get? b).map (·.exits)

/-- The entries of a block, if there is one. -/
def entries? (g : FlowGraph) (b : Block) : Option (List Block) := (g.blocks.get? b).map (·.entries)

/-- The receivers of a block, if there is one. -/
def receivers? (g : FlowGraph) (b : Block) : Option (List CommUnit) :=
  (g.blocks.get? b).map (·.receivers)

/-- One split after the other. -/
inductive Splices (g : FlowGraph) (ids : IdCounter) :
    List SplitBlocks → FlowGraph → IdCounter → Prop
  | nil : Splices g ids [] g ids
  | snoc {done : List SplitBlocks} {g₁ g₂ : FlowGraph} {ids₁ : IdCounter} {p : SplitBlocks}
      {next : Block} {data : BlockData} : Splices g ids done g₁ ids₁ →
      g₁.Splittable p.send next data → g₁.Spliced ids₁ p next data g₂ →
      Splices g ids (done ++ [p]) g₂ ids₁.issue.2.issue.2

/-- The edge from `p.send` to `next` in `g` is a chain of edges through the blocks that the split
created in `g'`, of which the second takes over the receivers. -/
structure Chained (g : FlowGraph) (among : Block → Prop) (g' : FlowGraph) (p : SplitBlocks)
    (next : Block) (data x : BlockData) (receivers : List CommUnit) : Prop where
  send : among p.send ∧ g.blocks.get? p.send = some data
  vertex : data.isVertex = true
  exit : data.exits = [next]
  next_before : among next ∧ g.blocks.get? next = some x
  next_kind : x.isVertex = false
  next_entries : x.entries = [p.send]
  send_after : g'.blocks.get? p.send = some { data with receivers := [], exits := [p.seq] }
  seq_after : ∃ id, g'.blocks.get? p.seq = some (seqBlock id p)
  receive_after : ∃ id, g'.blocks.get? p.receive = some (receiveBlock id p next receivers)
  next_after : g'.blocks.get? next = some { x with entries := [p.receive] }

/-- What splits of blocks among some make of a graph: a chain for each split, and the same data as
before for every block that is neither split nor behind a split block. Before a block is split, its
receivers become what `queued` makes of them. -/
structure Rerouted (g : FlowGraph) (among : Block → Prop)
    (queued : Block → List CommUnit → List CommUnit) (splits : List SplitBlocks) (g' : FlowGraph) :
    Prop where
  keys : (splits.flatMap SplitBlocks.created).map Key.index =
    List.range' g.blocks.size (2 * splits.length)
  size : g'.blocks.size = g.blocks.size + 2 * splits.length
  layout : g'.layout = g.layout ++ splits.flatMap SplitBlocks.created
  entry : g'.entry = g.entry
  chains : ∀ p ∈ splits, ∃ next data x,
    g.Chained among g' p next data x (queued p.send data.receivers)
  other : ∀ k x, g.blocks.get? k = some x → (∀ p ∈ splits, k ≠ p.send) →
    (∀ p ∈ splits, ∀ y, g.blocks.get? p.send = some y → y.exits ≠ [k]) →
    g'.blocks.get? k = some x

/-- The blocks of `g` are blocks of `g'`, and look the same to the check of a block next to them. -/
def Alike (g g' : FlowGraph) : Prop :=
  ∀ b x, g.blocks.get? b = some x → ∃ y, g'.blocks.get? b = some y ∧ y.id = x.id ∧
    y.kind = x.kind ∧ y.entries.length = x.entries.length

/-- What splits of listed blocks make of a graph. -/
abbrev Rewired (g : FlowGraph) (queued : Block → List CommUnit → List CommUnit)
    (splits : List SplitBlocks) (g' : FlowGraph) : Prop :=
  g.Rerouted (· ∈ g.layout) queued splits g'

namespace Rerouted

variable {g g' : FlowGraph} {among : Block → Prop} {queued : Block → List CommUnit → List CommUnit}
  {splits : List SplitBlocks}

theorem nil (g : FlowGraph) (among : Block → Prop)
    (queued : Block → List CommUnit → List CommUnit) : g.Rerouted among queued [] g where
  keys := rfl
  size := rfl
  layout := by simp
  entry := rfl
  chains := by simp
  other := fun _ _ hx _ _ => hx

theorem mem_created_iff (r : g.Rerouted among queued splits g') {k : Block} :
    k ∈ splits.flatMap SplitBlocks.created ↔
      g.blocks.size ≤ k.index ∧ k.index < g.blocks.size + 2 * splits.length := by
  rw [← List.mem_range'_1, ← r.keys, List.mem_map]
  constructor
  · exact fun hk => ⟨k, hk, rfl⟩
  · rintro ⟨b, hb, he⟩
    exact Key.ext he ▸ hb

theorem created_index (r : g.Rerouted among queued splits g') {p : SplitBlocks} (hp : p ∈ splits)
    {k : Block} (hk : k ∈ p.created) : g.blocks.size ≤ k.index ∧ k.index < g'.blocks.size := by
  rw [r.size]
  exact r.mem_created_iff.mp (List.mem_flatMap.mpr ⟨p, hp, hk⟩)

theorem created_ne (r : g.Rerouted among queued splits g') {p : SplitBlocks} (hp : p ∈ splits)
    {k b : Block} (hk : k ∈ p.created) (hb : g.Allocated b) : k ≠ b := by
  intro he
  have hnew := (r.created_index hp hk).1
  have hold := allocated_iff.mp hb
  rw [he] at hnew
  omega

/-- An old block is as it was, or it is one of the two ends of the edge that a split made a chain. -/
theorem old_cases (r : g.Rerouted among queued splits g') {b : Block} {x : BlockData}
    (hx : g.blocks.get? b = some x) :
    ((∀ p ∈ splits, b ≠ p.send) ∧
      (∀ p ∈ splits, ∀ y, g.blocks.get? p.send = some y → y.exits ≠ [b]) ∧
      g'.blocks.get? b = some x) ∨
    ∃ p ∈ splits, ∃ next data z, g.Chained among g' p next data z (queued p.send data.receivers) ∧
      (b = p.send ∨ b = next) := by
  by_cases hsend : ∀ p ∈ splits, b ≠ p.send
  · by_cases hnext : ∀ p ∈ splits, ∀ y, g.blocks.get? p.send = some y → y.exits ≠ [b]
    · exact Or.inl ⟨hsend, hnext, r.other b x hx hsend hnext⟩
    · simp only [not_forall, not_not] at hnext
      obtain ⟨p, hp, y, hy, he⟩ := hnext
      obtain ⟨next, data, z, hc⟩ := r.chains p hp
      cases hc.send.2.symm.trans hy
      exact Or.inr ⟨p, hp, next, _, z, hc, Or.inr (List.singleton_inj.mp (he.symm.trans hc.exit))⟩
  · simp only [not_forall, not_not] at hsend
    obtain ⟨p, hp, he⟩ := hsend
    obtain ⟨next, data, z, hc⟩ := r.chains p hp
    exact Or.inr ⟨p, hp, next, data, z, hc, Or.inl he⟩

/-- What stays as it was: everything but the entries of a block behind a split block, and the exits
and receivers of a split block. -/
theorem frame (r : g.Rerouted among queued splits g') {b : Block} {x : BlockData}
    (hx : g.blocks.get? b = some x) :
    ∃ y, g'.blocks.get? b = some y ∧ y.id = x.id ∧ y.kind = x.kind ∧
      y.afterVertex = x.afterVertex ∧ y.sents = x.sents ∧
      ((∀ p ∈ splits, g.exits? p.send ≠ some [b]) → y.entries = x.entries) ∧
      ((∀ p ∈ splits, b ≠ p.send) → y.exits = x.exits ∧ y.receivers = x.receivers) := by
  rcases r.old_cases hx with ⟨_, _, hy⟩ | ⟨p, hp, next, data, z, hc, rfl | rfl⟩
  · exact ⟨x, hy, rfl, rfl, rfl, rfl, fun _ => rfl, fun _ => ⟨rfl, rfl⟩⟩
  · cases hc.send.2.symm.trans hx
    exact ⟨_, hc.send_after, rfl, rfl, rfl, rfl, fun _ => rfl, fun hne => absurd rfl (hne p hp)⟩
  · cases hc.next_before.2.symm.trans hx
    refine ⟨_, hc.next_after, rfl, rfl, rfl, rfl, ?_, fun _ => ⟨rfl, rfl⟩⟩
    intro hne
    exact absurd (by simp [exits?, hc.send.2, hc.exit]) (hne p hp)

/-- A block behind a split block had one entry, and has another one now. -/
theorem alike (r : g.Rerouted among queued splits g') : g.Alike g' := by
  intro b x hx
  rcases r.old_cases hx with ⟨_, _, hy⟩ | ⟨p, hp, next, data, z, hc, rfl | rfl⟩
  · exact ⟨x, hy, rfl, rfl, rfl⟩
  · cases hc.send.2.symm.trans hx
    exact ⟨_, hc.send_after, rfl, rfl, rfl⟩
  · cases hc.next_before.2.symm.trans hx
    refine ⟨_, hc.next_after, rfl, rfl, ?_⟩
    rw [hc.next_entries]
    rfl

/-- A vertex block is behind no split block, so it keeps its data until it is split. -/
theorem lookup_vertex (r : g.Rerouted among queued splits g') {b : Block} {x : BlockData}
    (hx : g.blocks.get? b = some x) (hv : x.isVertex = true) (unsplit : ∀ p ∈ splits, b ≠ p.send) :
    g'.blocks.get? b = some x := by
  rcases r.old_cases hx with ⟨_, _, hy⟩ | ⟨p, hp, next, data, z, hc, he | rfl⟩
  · exact hy
  · exact absurd he (unsplit p hp)
  · cases hc.next_before.2.symm.trans hx
    cases hc.next_kind.symm.trans hv

theorem unsplit_of_splittable (r : g.Rerouted among queued splits g') {b next : Block}
    {data : BlockData} (hs : g'.Splittable b next data) : ∀ p ∈ splits, b ≠ p.send := by
  rintro p hp rfl
  obtain ⟨_, _, _, hc⟩ := r.chains p hp
  cases hc.send_after.symm.trans hs.lookup
  exact hs.receives rfl

/-- Splits change nothing that the check of another block looks at. -/
theorem splittable_iff (r : g.Rerouted among queued splits g') (m : g.Mirrored among)
    {b next : Block} {data : BlockData} (hb : among b) (unsplit : ∀ p ∈ splits, b ≠ p.send) :
    g'.Splittable b next data ↔ g.Splittable b next data := by
  constructor
  · intro hs
    obtain ⟨old, hold⟩ := m.allocated b hb
    obtain ⟨y, hy, -, hkind, -⟩ := r.frame hold
    cases hy.symm.trans hs.lookup
    have hv : old.isVertex = true := (BlockData.isVertex_of_kind hkind).symm.trans hs.vertex
    cases (r.lookup_vertex hold hv unsplit).symm.trans hs.lookup
    obtain ⟨prev, z, hprev, hz, hzv⟩ := hs.entry
    obtain ⟨w, hw, hwv, hlen⟩ := hs.next
    obtain ⟨z₀, hz₀⟩ := m.allocated prev (m.entry_mem b data hb hold prev (by simp [hprev]))
    obtain ⟨w₀, hw₀⟩ := m.allocated next (m.exit_mem b data hb hold next (by simp [hs.exit]))
    obtain ⟨_, hz', -, hzkind, -⟩ := r.alike _ _ hz₀
    obtain ⟨_, hw', -, hwkind, hwlen⟩ := r.alike _ _ hw₀
    cases hz'.symm.trans hz
    cases hw'.symm.trans hw
    refine ⟨hold, hs.vertex, hs.receives, ⟨prev, z₀, hprev, hz₀, ?_⟩, hs.exit, w₀, hw₀, ?_, ?_⟩
    · exact (BlockData.isVertex_of_kind hzkind).symm.trans hzv
    · exact (BlockData.isVertex_of_kind hwkind).symm.trans hwv
    · exact hwlen.symm.trans hlen
  · intro hs
    obtain ⟨prev, z, hprev, hz, hzv⟩ := hs.entry
    obtain ⟨w, hw, hwv, hlen⟩ := hs.next
    obtain ⟨z', hz', -, hzkind, -⟩ := r.alike _ _ hz
    obtain ⟨w', hw', -, hwkind, hwlen⟩ := r.alike _ _ hw
    refine ⟨r.lookup_vertex hs.lookup hs.vertex unsplit, hs.vertex, hs.receives,
      ⟨prev, z', hprev, hz', ?_⟩, hs.exit, w', hw', ?_, hwlen.trans hlen⟩
    · exact (BlockData.isVertex_of_kind hzkind).trans hzv
    · exact (BlockData.isVertex_of_kind hwkind).trans hwv

theorem snoc (r : g.Rerouted among (fun _ rs => rs) splits g') (m : g.Mirrored among)
    {g'' : FlowGraph} {ids : IdCounter} {p : SplitBlocks} {next : Block} {data : BlockData}
    (hb : among p.send) (hs : g'.Splittable p.send next data)
    (sp : g'.Spliced ids p next data g'') :
    g.Rerouted among (fun _ rs => rs) (splits ++ [p]) g'' := by
  have hne := r.unsplit_of_splittable hs
  have hs₀ := (r.splittable_iff m hb hne).mp hs
  have hn : among next := m.exit_mem _ _ hb hs₀.lookup next (by simp [hs.exit])
  obtain ⟨x, hx, hxv, -⟩ := hs₀.next
  have hxe := m.next_entries hs₀ hb hx
  have hsend : ∀ q ∈ splits, next ≠ q.send := by
    rintro q hq rfl
    obtain ⟨_, _, _, hc⟩ := r.chains q hq
    cases hc.send.2.symm.trans hx
    cases hc.vertex.symm.trans hxv
  have hfar : ∀ q ∈ splits, ∀ y, g.blocks.get? q.send = some y → y.exits ≠ [next] := by
    intro q hq y hy he
    obtain ⟨_, _, _, hc⟩ := r.chains q hq
    cases hc.send.2.symm.trans hy
    cases List.singleton_inj.mp (hc.exit.symm.trans he)
    cases hc.next_before.2.symm.trans hx
    exact hne q hq (List.singleton_inj.mp (hxe.symm.trans hc.next_entries))
  have keep : ∀ k y, g'.blocks.get? k = some y → k ≠ p.send → k ≠ next →
      g''.blocks.get? k = some y := by
    intro k y hy hks hkn
    rw [sp.lookup_old hs (Table.index_lt_of_get? hy), hy]
    simp [Spliced.relink, hks, hkn]
  have hnext : g'.blocks.get? next = some x := r.other next x hx hsend hfar
  refine ⟨?_, ?_, ?_, sp.entry.trans r.entry, ?_, ?_⟩
  · exact SplitBlocks.keys_snoc r.keys (sp.seq_index.trans r.size)
      (sp.receive_index.trans (congrArg (· + 1) r.size))
  · simp only [sp.size, r.size, List.length_append, List.length_singleton]
    omega
  · simp [sp.layout, r.layout, SplitBlocks.created]
  · intro q hq
    rcases List.mem_append.mp hq with hq | hq
    · obtain ⟨n, y, z, hc⟩ := r.chains q hq
      have hqn : n ≠ p.send := by
        rintro rfl
        cases hc.next_before.2.symm.trans hs₀.lookup
        cases hc.next_kind.symm.trans hs.vertex
      have created : ∀ k ∈ q.created, k ≠ p.send ∧ k ≠ next := fun k hk =>
        ⟨r.created_ne hq hk (m.allocated _ hb), r.created_ne hq hk (m.allocated _ hn)⟩
      refine ⟨n, y, z, { hc with
        send_after := ?_, seq_after := ?_, receive_after := ?_, next_after := ?_ }⟩
      · exact keep _ _ hc.send_after (Ne.symm (hne q hq)) (Ne.symm (hsend q hq))
      · obtain ⟨id, hid⟩ := hc.seq_after
        obtain ⟨hks, hkn⟩ := created q.seq (by simp [SplitBlocks.created])
        exact ⟨id, keep _ _ hid hks hkn⟩
      · obtain ⟨id, hid⟩ := hc.receive_after
        obtain ⟨hks, hkn⟩ := created q.receive (by simp [SplitBlocks.created])
        exact ⟨id, keep _ _ hid hks hkn⟩
      · refine keep _ _ hc.next_after hqn ?_
        rintro rfl
        exact hfar q hq y hc.send.2 hc.exit
    · cases List.mem_singleton.mp hq
      refine ⟨next, data, x, ⟨hb, hs₀.lookup⟩, hs.vertex, hs.exit, ⟨hn, hx⟩, hxv, hxe, ?_,
        ⟨_, sp.lookup_seq⟩, ⟨_, sp.lookup_receive⟩, ?_⟩
      · rw [sp.lookup_old hs (Table.index_lt_of_get? hs.lookup), hs.lookup]
        simp [Spliced.relink, hs.ne_next]
      · rw [sp.lookup_old hs (Table.index_lt_of_get? hnext), hnext]
        simp [Spliced.relink, hs.ne_next.symm]
  · intro k y hy hks hkn
    apply keep k y (r.other k y hy (fun q hq => hks q (by simp [hq])) fun q hq => hkn q (by simp [hq]))
    · exact hks p (by simp)
    · rintro rfl
      exact hkn p (by simp) data hs₀.lookup hs.exit

end Rerouted

theorem Splices.size {g g' : FlowGraph} {ids ids' : IdCounter} {splits : List SplitBlocks}
    (run : g.Splices ids splits g' ids') :
    g'.blocks.size = g.blocks.size + 2 * splits.length := by
  induction run with
  | nil => rfl
  | snoc _ _ hspliced ih =>
    rw [hspliced.size, ih, List.length_append, List.length_singleton]
    omega

theorem Splices.of_nil {g g' : FlowGraph} {ids ids' : IdCounter} (run : g.Splices ids [] g' ids') :
    g' = g ∧ ids' = ids := by
  generalize h : ([] : List SplitBlocks) = splits at run
  cases run with
  | nil => exact ⟨rfl, rfl⟩
  | snoc _ _ _ => simp at h

theorem Splices.rerouted {g g' : FlowGraph} {among : Block → Prop} {ids ids' : IdCounter}
    {splits : List SplitBlocks} (run : g.Splices ids splits g' ids') (m : g.Mirrored among)
    (sends : ∀ p ∈ splits, among p.send) : g.Rerouted among (fun _ rs => rs) splits g' := by
  induction run with
  | nil => exact .nil g among _
  | @snoc done g₁ g₂ ids₁ p next data run hs sp ih =>
    have r := ih fun q hq => sends q (by simp [hq])
    exact r.snoc m (sends p (by simp)) hs sp

theorem Splices.rewired {g g' : FlowGraph} {ids ids' : IdCounter} {splits : List SplitBlocks}
    (run : g.Splices ids splits g' ids') (v : g.Valid) (listed : ∀ p ∈ splits, p.send ∈ g.layout) :
    g.Rewired (fun _ rs => rs) splits g' :=
  run.rerouted v.mirrored_layout listed

/-- Splits keep a graph valid as long as there is room for the ids of the new blocks. -/
theorem Splices.valid {g g' : FlowGraph} {ids ids' : IdCounter} {splits : List SplitBlocks} {n : Nat}
    (run : g.Splices ids splits g' ids') (v : g.Valid) (listed : ∀ p ∈ splits, p.send ∈ g.layout)
    (own : g.IdsBelow n) (counter : ids.next = Key.wrap n)
    (room : n + 2 * splits.length ≤ 0x100000000) :
    g'.Valid ∧ g'.IdsBelow (n + 2 * splits.length) ∧ ids'.next = Key.wrap (n + 2 * splits.length) := by
  induction run with
  | nil => exact ⟨v, own, counter⟩
  | @snoc done g₁ g₂ ids₁ p next data run hs sp ih =>
    simp only [List.length_append, List.length_singleton] at room ⊢
    have hlisted : ∀ q ∈ done, q.send ∈ g.layout := fun q hq => listed q (by simp [hq])
    obtain ⟨v₁, own₁, counter₁⟩ := ih hlisted (by omega)
    have hb : p.send ∈ g₁.layout := by
      rw [(run.rewired v hlisted).layout]
      exact List.mem_append_left _ (listed p (by simp))
    have room₁ : n + 2 * done.length + 2 ≤ 0x100000000 := by omega
    refine ⟨sp.valid_of_counter hs v₁ hb own₁ counter₁ room₁, ?_, ?_⟩
    · simpa only [Nat.mul_add, Nat.mul_one, Nat.add_assoc] using sp.idsBelow hs own₁ counter₁ room₁
    · simpa only [Nat.mul_add, Nat.mul_one, Nat.add_assoc] using (issue_ids counter₁ room₁).2.2

end FlowGraph

end Superstep
