import Superstep.Proofs.Splice
import Superstep.Proofs.Valid

namespace Superstep

namespace FlowGraph

/-- The edges of some blocks lead to blocks among them, and the two ends of every edge record it
equally often. -/
structure Mirrored (g : FlowGraph) (among : Block → Prop) : Prop where
  allocated : ∀ a, among a → g.Allocated a
  exit_mem : ∀ a x, among a → g.blocks.get? a = some x → ∀ c ∈ x.exits, among c
  entry_mem : ∀ a x, among a → g.blocks.get? a = some x → ∀ c ∈ x.entries, among c
  count_eq : ∀ a c x y, among a → among c → g.blocks.get? a = some x → g.blocks.get? c = some y →
    x.exits.count c = y.entries.count a

/-- All edges are recorded equally often at both ends, and lead to blocks. -/
def EdgesMirrored (g : FlowGraph) : Prop := g.Mirrored g.Allocated

theorem Valid.mirrored_layout {g : FlowGraph} (v : g.Valid) : g.Mirrored (· ∈ g.layout) where
  allocated := v.allocated
  exit_mem := fun a x ha hx => v.exit_listed a x ⟨ha, hx⟩
  entry_mem := fun a x ha hx => v.pred_listed a x ⟨ha, hx⟩
  count_eq := fun a c x y ha hc hx hy => v.mirrored a c x y ⟨ha, hx⟩ ⟨hc, hy⟩

theorem Mirrored.index_lt {g : FlowGraph} {among : Block → Prop} (m : g.Mirrored among) {k : Block}
    (hk : among k) : k.index < g.blocks.size :=
  allocated_iff.mp (m.allocated k hk)

/-- The other end of an exit records it. -/
theorem Mirrored.mem_entries {g : FlowGraph} {among : Block → Prop} (m : g.Mirrored among)
    {b c : Block} {x y : BlockData} (hb : among b) (hx : g.blocks.get? b = some x) (hc : c ∈ x.exits)
    (hy : g.blocks.get? c = some y) : b ∈ y.entries := by
  have hcount := m.count_eq b c x y hb (m.exit_mem b x hb hx c hc) hx hy
  have hpos := List.count_pos_iff.mpr hc
  exact List.count_pos_iff.mp (by omega)

/-- The exit of a block that can be split has that block as its only entry. -/
theorem Mirrored.next_entries {g : FlowGraph} {among : Block → Prop} (m : g.Mirrored among)
    {b next : Block} {data x : BlockData} (hs : g.Splittable b next data) (hb : among b)
    (hx : g.blocks.get? next = some x) : x.entries = [b] := by
  obtain ⟨y, hy, -, hlen⟩ := hs.next
  cases hx.symm.trans hy
  obtain ⟨e, he⟩ := List.length_eq_one_iff.mp hlen
  have hmem := m.mem_entries hb hs.lookup (by simp [hs.exit]) hx
  rw [he] at hmem ⊢
  rw [List.mem_singleton.mp hmem]

theorem Splittable.ne_next {g : FlowGraph} {b next : Block} {data : BlockData}
    (hs : g.Splittable b next data) : b ≠ next := by
  rintro rfl
  obtain ⟨x, hx, hv, -⟩ := hs.next
  cases hs.lookup.symm.trans hx
  simp [hs.vertex] at hv

namespace Spliced

variable {g g' : FlowGraph} {ids : IdCounter} {p : SplitBlocks} {next : Block} {data : BlockData}
  {among : Block → Prop}

theorem seq_ne_receive (sp : g.Spliced ids p next data g') : p.seq ≠ p.receive := by
  intro h
  have h1 := sp.seq_index
  have h2 := sp.receive_index
  rw [h] at h1
  omega

theorem ne_seq (sp : g.Spliced ids p next data g') {k : Block} (hk : k.index < g.blocks.size) :
    k ≠ p.seq := by
  rintro rfl
  have := sp.seq_index
  omega

theorem ne_receive (sp : g.Spliced ids p next data g') {k : Block} (hk : k.index < g.blocks.size) :
    k ≠ p.receive := by
  rintro rfl
  have := sp.receive_index
  omega

theorem lookup_seq (sp : g.Spliced ids p next data g') :
    g'.blocks.get? p.seq = some (seqBlock ids.issue.1 p) := by
  simp [sp.lookup]

theorem lookup_receive (sp : g.Spliced ids p next data g') :
    g'.blocks.get? p.receive = some (receiveBlock ids.issue.2.issue.1 p next data.receivers) := by
  simp [sp.lookup, sp.seq_ne_receive.symm]

/-- What a split makes of a block that was there before: the block that is split gets a new exit
and receives nothing, and the block after it gets a new entry. -/
def relink (p : SplitBlocks) (next k : Block) (x : BlockData) : BlockData :=
  { x with
    exits := if k = p.send then [p.seq] else x.exits
    receivers := if k = p.send then [] else x.receivers
    entries := if k = next then [p.receive] else x.entries }

theorem lookup_old (sp : g.Spliced ids p next data g') (hs : g.Splittable p.send next data)
    {k : Block} (hk : k.index < g.blocks.size) :
    g'.blocks.get? k = (g.blocks.get? k).map (relink p next k) := by
  rw [sp.lookup, if_neg (sp.ne_seq hk), if_neg (sp.ne_receive hk)]
  by_cases hb : k = p.send
  · subst k
    simp [hs.lookup, hs.ne_next, relink]
  · by_cases hn : k = next
    · cases g.blocks.get? k <;> simp [hn, Ne.symm hs.ne_next, relink]
    · cases g.blocks.get? k <;> simp [hb, hn, relink]

theorem lookup_cases (sp : g.Spliced ids p next data g') (hs : g.Splittable p.send next data)
    {k : Block} {x' : BlockData} (hx : g'.blocks.get? k = some x') :
    (k = p.seq ∧ x' = seqBlock ids.issue.1 p) ∨
      (k = p.receive ∧ x' = receiveBlock ids.issue.2.issue.1 p next data.receivers) ∨
      ∃ x, g.blocks.get? k = some x ∧ x' = relink p next k x := by
  by_cases hk : k.index < g.blocks.size
  · rw [sp.lookup_old hs hk] at hx
    obtain ⟨x, hg, he⟩ := Option.map_eq_some_iff.mp hx
    exact Or.inr (Or.inr ⟨x, hg, he.symm⟩)
  · have hlt := Table.index_lt_of_get? hx
    rw [sp.size] at hlt
    rcases (show k.index = g.blocks.size ∨ k.index = g.blocks.size + 1 by omega) with he | he
    · cases Key.ext (he.trans sp.seq_index.symm)
      exact Or.inl ⟨rfl, (Option.some.inj (sp.lookup_seq.symm.trans hx)).symm⟩
    · cases Key.ext (he.trans sp.receive_index.symm)
      exact Or.inr (Or.inl ⟨rfl, (Option.some.inj (sp.lookup_receive.symm.trans hx)).symm⟩)

theorem allocated_new (sp : g.Spliced ids p next data g') (hs : g.Splittable p.send next data)
    {k : Block} : g'.Allocated k ↔ g.Allocated k ∨ k = p.seq ∨ k = p.receive := by
  constructor
  · rintro ⟨x', hx⟩
    rcases sp.lookup_cases hs hx with ⟨he, -⟩ | ⟨he, -⟩ | ⟨x, hg, -⟩
    · exact Or.inr (Or.inl he)
    · exact Or.inr (Or.inr he)
    · exact Or.inl ⟨x, hg⟩
  · rintro (hk | rfl | rfl)
    · obtain ⟨x, hx⟩ := hk
      exact ⟨_, by rw [sp.lookup_old hs (Table.index_lt_of_get? hx), hx]; rfl⟩
    · exact ⟨_, sp.lookup_seq⟩
    · exact ⟨_, sp.lookup_receive⟩

section Edges

variable (sp : g.Spliced ids p next data g') (hs : g.Splittable p.send next data)
  (m : g.Mirrored among) (hb : among p.send)

include sp hs in
theorem mem_cases {a : Block} {x : BlockData} (ha : among a ∨ a = p.seq ∨ a = p.receive)
    (hx : g'.blocks.get? a = some x) :
    (a = p.seq ∧ x = seqBlock ids.issue.1 p) ∨
      (a = p.receive ∧ x = receiveBlock ids.issue.2.issue.1 p next data.receivers) ∨
      ∃ y, among a ∧ g.blocks.get? a = some y ∧ x = relink p next a y := by
  rcases sp.lookup_cases hs hx with hseq | hreceive | ⟨y, hy, he⟩
  · exact Or.inl hseq
  · exact Or.inr (Or.inl hreceive)
  · have hlt := Table.index_lt_of_get? hy
    have hmem := ha.resolve_right fun h => h.elim (sp.ne_seq hlt) (sp.ne_receive hlt)
    exact Or.inr (Or.inr ⟨y, hmem, hy, he⟩)

include hs m hb in
theorem next_mem : among next := m.exit_mem _ _ hb hs.lookup next (by simp [hs.exit])

include sp hs m hb in
theorem count_eq_old {a c : Block} {x y : BlockData} (ha : among a) (hc : among c)
    (hx : g.blocks.get? a = some x) (hy : g.blocks.get? c = some y) :
    (relink p next a x).exits.count c = (relink p next c y).entries.count a := by
  have hn := next_mem hs m hb
  have hedge := m.count_eq a c x y ha hc hx hy
  simp only [relink]
  by_cases hab : a = p.send
  · subst a
    cases hs.lookup.symm.trans hx
    have hcs := sp.ne_seq (m.index_lt hc)
    by_cases hcn : c = next
    · have hns := sp.ne_seq (m.index_lt hn)
      have hbr := sp.ne_receive (m.index_lt hb)
      simp [hcn, hns.symm, hbr.symm]
    · simp only [hs.exit, List.count_singleton, Ne.symm hcn, beq_iff_eq, if_false] at hedge
      simp [hcn, hcs.symm, ← hedge]
  · by_cases hcn : c = next
    · subst c
      have har := sp.ne_receive (m.index_lt ha)
      have he := m.next_entries hs hb hy
      simp only [he, List.count_singleton, beq_iff_eq, Ne.symm hab, if_false] at hedge
      simp [hab, har.symm, hedge]
    · simpa [hab, hcn] using hedge

include sp hs m hb in
/-- The new edges are recorded on both of their ends, and so are the old ones that are left. -/
theorem count_eq {a c : Block} {x y : BlockData} (source : among a ∨ a = p.seq ∨ a = p.receive)
    (target : among c ∨ c = p.seq ∨ c = p.receive) (sourceData : g'.blocks.get? a = some x)
    (targetData : g'.blocks.get? c = some y) : x.exits.count c = y.entries.count a := by
  have hsr := sp.seq_ne_receive
  have hold : ∀ k, among k → k ≠ p.seq ∧ k ≠ p.receive := fun k hk =>
    ⟨sp.ne_seq (m.index_lt hk), sp.ne_receive (m.index_lt hk)⟩
  have hn := next_mem hs m hb
  obtain ⟨hbs, hbr⟩ := hold _ hb
  obtain ⟨hns, hnr⟩ := hold _ hn
  rcases mem_cases sp hs source sourceData with ⟨rfl, rfl⟩ | ⟨rfl, rfl⟩ | ⟨x, ha, hx, rfl⟩ <;>
    rcases mem_cases sp hs target targetData with ⟨rfl, rfl⟩ | ⟨rfl, rfl⟩ | ⟨y, hc, hy, rfl⟩
  · simp [seqBlock, hsr.symm, hbs]
  · simp [seqBlock, receiveBlock]
  · obtain ⟨hcs, hcr⟩ := hold c hc
    have habsent : p.seq ∉ y.entries := fun hm => (hold _ (m.entry_mem c y hc hy _ hm)).1 rfl
    simp only [seqBlock, relink]
    split
    · simp [hcr.symm, hsr.symm]
    · simp [hcr.symm, List.count_eq_zero_of_not_mem habsent]
  · simp [seqBlock, receiveBlock, hns, hbr]
  · simp [receiveBlock, hnr, hsr]
  · obtain ⟨hcs, hcr⟩ := hold c hc
    have habsent : p.receive ∉ y.entries := fun hm => (hold _ (m.entry_mem c y hc hy _ hm)).2 rfl
    simp only [receiveBlock, relink]
    split
    · simp [*]
    · simp [Ne.symm ‹_›, List.count_eq_zero_of_not_mem habsent]
  · obtain ⟨has, har⟩ := hold a ha
    have habsent : p.seq ∉ x.exits := fun hm => (hold _ (m.exit_mem a x ha hx _ hm)).1 rfl
    simp only [seqBlock, relink]
    split
    · simp [*]
    · simp [Ne.symm ‹_›, List.count_eq_zero_of_not_mem habsent]
  · obtain ⟨has, har⟩ := hold a ha
    have habsent : p.receive ∉ x.exits := fun hm => (hold _ (m.exit_mem a x ha hx _ hm)).2 rfl
    simp only [receiveBlock, relink]
    split
    · simp [hsr, has.symm]
    · simp [has.symm, List.count_eq_zero_of_not_mem habsent]
  · exact count_eq_old sp hs m hb ha hc hx hy

include sp hs m hb in
/-- A split keeps the edges mirrored, those of the new blocks included. -/
theorem mirrored : g'.Mirrored (fun k => among k ∨ k = p.seq ∨ k = p.receive) where
  allocated := fun a ha => (sp.allocated_new hs).mpr (ha.imp_left (m.allocated a))
  exit_mem := by
    intro a x ha hx c hc
    rcases mem_cases sp hs ha hx with ⟨-, rfl⟩ | ⟨-, rfl⟩ | ⟨y, hy, hlookup, rfl⟩
    · exact Or.inr (Or.inr (by simpa [seqBlock] using hc))
    · have he : c = next := by simpa [receiveBlock] using hc
      exact Or.inl (he ▸ next_mem hs m hb)
    · simp only [relink] at hc
      split at hc
      · exact Or.inr (Or.inl (by simpa using hc))
      · exact Or.inl (m.exit_mem a y hy hlookup c hc)
  entry_mem := by
    intro a x ha hx c hc
    rcases mem_cases sp hs ha hx with ⟨-, rfl⟩ | ⟨-, rfl⟩ | ⟨y, hy, hlookup, rfl⟩
    · have he : c = p.send := by simpa [seqBlock] using hc
      exact Or.inl (he ▸ hb)
    · exact Or.inr (Or.inl (by simpa [receiveBlock] using hc))
    · simp only [relink] at hc
      split at hc
      · exact Or.inr (Or.inr (by simpa using hc))
      · exact Or.inl (m.entry_mem a y hy hlookup c hc)
  count_eq := fun _ _ _ _ ha hc hx hy => count_eq sp hs m hb ha hc hx hy

end Edges

theorem edgesMirrored (sp : g.Spliced ids p next data g') (hs : g.Splittable p.send next data)
    (m : g.EdgesMirrored) : g'.EdgesMirrored := by
  have h := sp.mirrored hs m ⟨data, hs.lookup⟩
  simp only [← sp.allocated_new hs] at h
  exact h

end Spliced

end FlowGraph

end Superstep
