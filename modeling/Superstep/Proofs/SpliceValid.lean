import Superstep.Proofs.Mirrored

namespace Superstep

namespace FlowGraph

theorem Valid.index_lt {g : FlowGraph} (v : g.Valid) {k : Block} (hk : k ∈ g.layout) :
    k.index < g.blocks.size :=
  v.mirrored_layout.index_lt hk

namespace Spliced

variable {g g' : FlowGraph} {ids : IdCounter} {p : SplitBlocks} {next : Block} {data : BlockData}

theorem listed_cases (sp : g.Spliced ids p next data g') (hs : g.Splittable p.send next data)
    {k : Block} {x' : BlockData} (h : g'.Listed k x') :
    (k = p.seq ∧ x' = seqBlock ids.issue.1 p) ∨
      (k = p.receive ∧ x' = receiveBlock ids.issue.2.issue.1 p next data.receivers) ∨
      ∃ x, g.Listed k x ∧ x' = relink p next k x := by
  obtain ⟨hl, hx⟩ := h
  have hmem : k ∈ g.layout ∨ k = p.seq ∨ k = p.receive := by simpa [sp.layout] using hl
  rcases mem_cases sp hs hmem hx with hseq | hreceive | ⟨x, hk, hg, he⟩
  · exact Or.inl hseq
  · exact Or.inr (Or.inl hreceive)
  · exact Or.inr (Or.inr ⟨x, ⟨hk, hg⟩, he⟩)

theorem mem_layout (sp : g.Spliced ids p next data g') {k : Block} :
    k ∈ g'.layout ↔ k ∈ g.layout ∨ k = p.seq ∨ k = p.receive := by
  simp [sp.layout]

theorem mirrored_layout (sp : g.Spliced ids p next data g') (hs : g.Splittable p.send next data)
    (m : g.Mirrored (· ∈ g.layout)) (hb : p.send ∈ g.layout) : g'.Mirrored (· ∈ g'.layout) := by
  simpa only [← sp.mem_layout] using mirrored sp hs m hb

theorem valid (sp : g.Spliced ids p next data g') (hs : g.Splittable p.send next data)
    (v : g.Valid) (hb : p.send ∈ g.layout)
    (fresh : ∀ k x, g.Listed k x → x.id ≠ ids.issue.1 ∧ x.id ≠ ids.issue.2.issue.1)
    (distinct : ids.issue.1 ≠ ids.issue.2.issue.1) : g'.Valid where
  allocated := (sp.mirrored_layout hs v.mirrored_layout hb).allocated
  layout_nodup := by
    rw [sp.layout]
    refine List.nodup_append.mpr ⟨v.layout_nodup, by simp [sp.seq_ne_receive], ?_⟩
    intro k hk l hl he
    subst l
    rcases List.mem_cons.mp hl with he | hl
    · exact sp.ne_seq (v.index_lt hk) he
    · exact sp.ne_receive (v.index_lt hk) (by simpa using hl)
  id_inj := by
    intro a c x y ha hc he
    rcases sp.listed_cases hs ha with ⟨rfl, rfl⟩ | ⟨rfl, rfl⟩ | ⟨x, hx, rfl⟩ <;>
      rcases sp.listed_cases hs hc with ⟨rfl, rfl⟩ | ⟨rfl, rfl⟩ | ⟨y, hy, rfl⟩
    · rfl
    · exact absurd he distinct
    · exact absurd he.symm (fresh c y hy).1
    · exact absurd he.symm distinct
    · rfl
    · exact absurd he.symm (fresh c y hy).2
    · exact absurd he (fresh a x hx).1
    · exact absurd he (fresh a x hx).2
    · exact v.id_inj a c x y hx hy he
  entry_listed := by
    intro k hk
    rw [sp.entry] at hk
    exact sp.mem_layout.mpr (Or.inl (v.entry_listed k hk))
  exit_listed := fun a x ha => (sp.mirrored_layout hs v.mirrored_layout hb).exit_mem a x ha.1 ha.2
  pred_listed := fun a x ha => (sp.mirrored_layout hs v.mirrored_layout hb).entry_mem a x ha.1 ha.2
  mirrored := fun a c x y ha hc =>
    (sp.mirrored_layout hs v.mirrored_layout hb).count_eq a c x y ha.1 hc.1 ha.2 hc.2
  after_vertex := by
    intro a x ha
    rcases sp.listed_cases hs ha with ⟨-, rfl⟩ | ⟨-, rfl⟩ | ⟨y, hy, rfl⟩
    · exact fun _ => rfl
    · exact fun h => absurd h (by simp [receiveBlock])
    · exact v.after_vertex a y hy
  receiver_kind := by
    intro a x ha
    rcases sp.listed_cases hs ha with ⟨-, rfl⟩ | ⟨-, rfl⟩ | ⟨y, hy, rfl⟩
    · exact fun h => absurd rfl h
    · exact fun _ => rfl
    · intro h
      simp only [relink] at h
      split at h
      · exact absurd rfl h
      · exact v.receiver_kind a y hy h
  registered := by
    intro a x ha u hu
    rw [sp.registry]
    rcases sp.listed_cases hs ha with ⟨-, rfl⟩ | ⟨-, rfl⟩ | ⟨y, hy, rfl⟩
    · simp [seqBlock] at hu
    · exact v.registered _ _ ⟨hb, hs.lookup⟩ u hu
    · simp only [relink] at hu
      split at hu
      · simp at hu
      · exact v.registered a y hy u hu
  receivers_nodup := by
    intro a x ha
    rcases sp.listed_cases hs ha with ⟨-, rfl⟩ | ⟨-, rfl⟩ | ⟨y, hy, rfl⟩
    · simp [seqBlock]
    · exact v.receivers_nodup p.send data ⟨hb, hs.lookup⟩
    · simp only [relink]
      split
      · simp
      · exact v.receivers_nodup a y hy

end Spliced

/-- The ids of all blocks are among the first `n` that were issued. -/
def IdsBelow (g : FlowGraph) (n : Nat) : Prop :=
  ∀ k x, g.blocks.get? k = some x → x.id.index < n

theorem issue_ids {ids : IdCounter} {n : Nat} (counter : ids.next = Key.wrap n)
    (room : n + 2 ≤ 0x100000000) :
    ids.issue.1.index = n ∧ ids.issue.2.issue.1.index = n + 1 ∧
      ids.issue.2.issue.2.next = Key.wrap (n + 2) := by
  have h0 : (Key.wrap n : BlockId).index = n := Key.index_wrap_of_le (by omega)
  have h1 : (Key.wrap (n + 1) : BlockId).index = n + 1 := Key.index_wrap_of_le (by omega)
  simp [IdCounter.issue, counter, h0, h1]

theorem Spliced.idsBelow {g g' : FlowGraph} {ids : IdCounter} {p : SplitBlocks} {next : Block}
    {data : BlockData} {n : Nat} (sp : g.Spliced ids p next data g')
    (hs : g.Splittable p.send next data) (own : g.IdsBelow n) (counter : ids.next = Key.wrap n)
    (room : n + 2 ≤ 0x100000000) : g'.IdsBelow (n + 2) := by
  obtain ⟨h0, h1, -⟩ := issue_ids counter room
  intro k x hx
  rcases sp.lookup_cases hs hx with ⟨-, rfl⟩ | ⟨-, rfl⟩ | ⟨y, hy, rfl⟩
  · simp only [seqBlock]
    omega
  · simp only [receiveBlock]
    omega
  · have := own k y hy
    simp only [relink]
    omega

theorem Spliced.valid_of_counter {g g' : FlowGraph} {ids : IdCounter} {p : SplitBlocks}
    {next : Block} {data : BlockData} {n : Nat} (sp : g.Spliced ids p next data g')
    (hs : g.Splittable p.send next data) (v : g.Valid) (hb : p.send ∈ g.layout)
    (own : g.IdsBelow n) (counter : ids.next = Key.wrap n) (room : n + 2 ≤ 0x100000000) :
    g'.Valid := by
  obtain ⟨h0, h1, -⟩ := issue_ids counter room
  apply sp.valid hs v hb
  · intro k x hx
    have := own k x hx.2
    constructor
    · intro he
      rw [he] at this
      omega
    · intro he
      rw [he] at this
      omega
  · intro he
    rw [he] at h0
    omega

end FlowGraph

end Superstep
