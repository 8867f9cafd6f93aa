import Mathlib.Data.List.Nodup
import Mathlib.Data.List.Pairwise
import Mathlib.Logic.Equiv.Defs
import Mathlib.Logic.Function.Iterate
import Superstep.Proofs.Edits
import Superstep.Proofs.SplitRun

namespace Superstep

namespace BlockData

/-- The block with its edges under new names. -/
def rename (ρ : Block → Block) (x : BlockData) : BlockData :=
  { x with entries := x.entries.map ρ, exits := x.exits.map ρ }

theorem rename_of_fixed {ρ : Block → Block} {x : BlockData} (hen : ∀ k ∈ x.entries, ρ k = k)
    (hex : ∀ k ∈ x.exits, ρ k = k) : x.rename ρ = x := by
  have entries : x.entries.map ρ = x.entries := (List.map_congr_left hen).trans (List.map_id _)
  have exits : x.exits.map ρ = x.exits := (List.map_congr_left hex).trans (List.map_id _)
  rw [rename, entries, exits]

end BlockData

theorem find?_of_unique {α : Type} {f : α → Bool} {xs : List α} {a : α} (ha : a ∈ xs)
    (hf : f a = true) (unique : ∀ b ∈ xs, f b = true → b = a) : xs.find? f = some a := by
  cases h : xs.find? f with
  | none => exact absurd hf (List.find?_eq_none.mp h a ha)
  | some b => rw [unique b (List.mem_of_find?_eq_some h) (List.find?_some h)]

namespace SplitBlocks

/-- The split of the same block in another run. -/
def counterpart (splits : List SplitBlocks) (p : SplitBlocks) : SplitBlocks :=
  (splits.find? (·.send == p.send)).getD p

/-- The new name of a block: what a split created gets the name of what the split of the same block
created in another run. -/
def renamed (splits splits' : List SplitBlocks) (k : Block) : Block :=
  match splits.find? fun p => k = p.seq ∨ k = p.receive with
  | none => k
  | some p => if k = p.seq then (counterpart splits' p).seq else (counterpart splits' p).receive

/-- Two runs split the same blocks, and created blocks with the same keys. -/
structure SameSplits (splits splits' : List SplitBlocks) : Prop where
  fresh : (splits.flatMap created).Nodup
  fresh' : (splits'.flatMap created).Nodup
  sends : (splits.map send).Nodup
  perm : (splits'.map send).Perm (splits.map send)
  keys : ∀ k, k ∈ splits'.flatMap created ↔ k ∈ splits.flatMap created

variable {splits splits' : List SplitBlocks} {p q : SplitBlocks} {k : Block}

theorem eq_of_created (h : (splits.flatMap created).Nodup) (hp : p ∈ splits) (hq : q ∈ splits)
    (hkp : k ∈ p.created) (hkq : k ∈ q.created) : p = q := by
  by_contra hne
  have : Std.Symm (Function.onFun List.Disjoint created) := ⟨fun _ _ h _ hq hp => h hp hq⟩
  exact (List.nodup_flatMap.mp h).2.forall hp hq hne hkp hkq

theorem nodup_of_keys {n m : Nat} (keys : (splits.flatMap created).map Key.index = List.range' n m) :
    (splits.flatMap created).Nodup := by
  apply List.Nodup.of_map Key.index
  rw [keys]
  exact List.nodup_range'

theorem renamed_of_not_created (h : k ∉ splits.flatMap created) : renamed splits splits' k = k := by
  have hfind : (splits.find? fun p => k = p.seq ∨ k = p.receive) = none := by
    rw [List.find?_eq_none]
    intro p hp hk
    exact h (List.mem_flatMap.mpr ⟨p, hp, mem_created.mpr (of_decide_eq_true hk)⟩)
  unfold renamed
  rw [hfind]

namespace SameSplits

theorem symm (h : SameSplits splits splits') : SameSplits splits' splits where
  fresh := h.fresh'
  fresh' := h.fresh
  sends := h.perm.nodup_iff.mpr h.sends
  perm := h.perm.symm
  keys := fun k => (h.keys k).symm

theorem exists_counterpart (h : SameSplits splits splits') (hp : p ∈ splits) :
    ∃ q ∈ splits', q.send = p.send :=
  List.mem_map.mp (h.perm.mem_iff.mpr (List.mem_map_of_mem hp))

theorem counterpart_eq (h : SameSplits splits splits') (hq : q ∈ splits') (he : q.send = p.send) :
    counterpart splits' p = q := by
  have hfind : splits'.find? (·.send == p.send) = some q := by
    refine find?_of_unique hq (beq_iff_eq.mpr he) fun r hr hsend => ?_
    exact List.inj_on_of_nodup_map h.symm.sends hr hq ((beq_iff_eq.mp hsend).trans he.symm)
  rw [counterpart, hfind]
  rfl

theorem renamed_created (h : SameSplits splits splits') (hp : p ∈ splits) (hq : q ∈ splits')
    (he : q.send = p.send) :
    renamed splits splits' p.seq = q.seq ∧ renamed splits splits' p.receive = q.receive := by
  have hfind : ∀ k ∈ p.created,
      (splits.find? fun r => k = r.seq ∨ k = r.receive) = some p := by
    intro k hk
    refine find?_of_unique hp (decide_eq_true (mem_created.mp hk)) fun r hr hkr => ?_
    exact eq_of_created h.fresh hr hp (mem_created.mpr (of_decide_eq_true hkr)) hk
  have hne : p.receive ≠ p.seq := by
    have hnodup := (List.nodup_flatMap.mp h.fresh).1 p hp
    simpa [created, eq_comm] using hnodup
  unfold renamed
  rw [hfind p.seq (by simp [created]), hfind p.receive (by simp [created])]
  simp [h.counterpart_eq hq he, hne]

theorem renamed_renamed (h : SameSplits splits splits') (k : Block) :
    renamed splits' splits (renamed splits splits' k) = k := by
  by_cases hk : k ∈ splits.flatMap created
  · obtain ⟨p, hp, hk⟩ := List.mem_flatMap.mp hk
    obtain ⟨q, hq, he⟩ := h.exists_counterpart hp
    obtain ⟨hseq, hrec⟩ := h.renamed_created hp hq he
    obtain ⟨hseq', hrec'⟩ := h.symm.renamed_created hq hp he.symm
    rcases mem_created.mp hk with rfl | rfl
    · rw [hseq, hseq']
    · rw [hrec, hrec']
  · rw [renamed_of_not_created hk, renamed_of_not_created (mt (h.keys k).mp hk)]

/-- The new names are a permutation of all keys. -/
def toPerm (h : SameSplits splits splits') : Equiv.Perm Block where
  toFun := renamed splits splits'
  invFun := renamed splits' splits
  left_inv := h.renamed_renamed
  right_inv := h.symm.renamed_renamed

end SameSplits

end SplitBlocks

namespace FlowGraph

variable {g g₁ g₂ : FlowGraph} {among : Block → Prop} {ids ids' : IdCounter}
  {queued : Block → List CommUnit → List CommUnit} {splits splits' : List SplitBlocks}

namespace Splices

theorem registry (run : g.Splices ids splits g₁ ids') : g₁.registry = g.registry := by
  induction run with
  | nil => rfl
  | snoc _ _ sp ih => exact sp.registry.trans ih

/-- How many ids are used up depends on the number of splits alone. -/
theorem counter (run : g.Splices ids splits g₁ ids') :
    ids' = (fun c : IdCounter => c.issue.2.issue.2)^[splits.length] ids := by
  induction run with
  | nil => rfl
  | snoc _ _ _ ih =>
    rw [List.length_append, List.length_singleton, Function.iterate_succ_apply', ← ih]

/-- All blocks that are split are different, and could be split at first. -/
theorem splittable (run : g.Splices ids splits g₁ ids') (m : g.Mirrored among)
    (sends : ∀ p ∈ splits, among p.send) : (splits.map SplitBlocks.send).Nodup ∧
      ∀ p ∈ splits, ∃ next data, g.Splittable p.send next data := by
  induction run with
  | nil => simp
  | @snoc done g₁ g₂ ids₁ p next data run hs sp ih =>
    have hsends : ∀ q ∈ done, among q.send := fun q hq => sends q (by simp [hq])
    obtain ⟨nodup, before⟩ := ih hsends
    have r := run.rerouted m hsends
    have unsplit := r.unsplit_of_splittable hs
    constructor
    · rw [List.map_append, List.map_singleton, List.nodup_append]
      refine ⟨nodup, List.nodup_singleton _, ?_⟩
      intro a ha c hc
      obtain ⟨q, hq, rfl⟩ := List.mem_map.mp ha
      rw [List.mem_singleton.mp hc]
      exact Ne.symm (unsplit q hq)
    · intro q hq
      rcases List.mem_append.mp hq with hq | hq
      · exact before q hq
      · cases List.mem_singleton.mp hq
        exact ⟨next, data, (r.splittable_iff m (sends p (by simp)) unsplit).mp hs⟩

end Splices

namespace Rerouted

theorem created_nodup (r : g.Rerouted among queued splits g₁) :
    (splits.flatMap SplitBlocks.created).Nodup :=
  SplitBlocks.nodup_of_keys r.keys

/-- A block after splits belongs to the chain of one of them, or is as it was. -/
theorem lookup_cases (r : g.Rerouted among queued splits g₁) {k : Block} {y : BlockData}
    (hy : g₁.blocks.get? k = some y) :
    (g.blocks.get? k = some y ∧ (∀ p ∈ splits, k ≠ p.send) ∧
      ∀ p ∈ splits, ∀ x, g.blocks.get? p.send = some x → x.exits ≠ [k]) ∨
    ∃ p ∈ splits, ∃ next data x, g.Chained among g₁ p next data x (queued p.send data.receivers) ∧
      (k = p.send ∨ k = p.seq ∨ k = p.receive ∨ k = next) := by
  by_cases hold : g.Allocated k
  · obtain ⟨x, hx⟩ := hold
    rcases r.old_cases hx with ⟨hsend, hnext, hsame⟩ | ⟨p, hp, next, data, z, hc, he⟩
    · cases hsame.symm.trans hy
      exact Or.inl ⟨hx, hsend, hnext⟩
    · refine Or.inr ⟨p, hp, next, data, z, hc, ?_⟩
      exact he.imp_right fun h => Or.inr (Or.inr h)
  · have hlt := Table.index_lt_of_get? hy
    rw [r.size] at hlt
    have hnew := r.mem_created_iff.mpr ⟨Nat.le_of_not_lt (mt allocated_iff.mpr hold), hlt⟩
    obtain ⟨p, hp, hk⟩ := List.mem_flatMap.mp hnew
    obtain ⟨next, data, z, hc⟩ := r.chains p hp
    refine Or.inr ⟨p, hp, next, data, z, hc, Or.inr ?_⟩
    exact (SplitBlocks.mem_created.mp hk).imp_right Or.inl

/-- The last of the new blocks has a key. -/
theorem room (r : g.Rerouted among queued splits g₁) (hne : splits ≠ []) :
    g.blocks.size + 2 * splits.length ≤ 0x100000000 := by
  have hpos := List.length_pos_iff.mpr hne
  have hlast : g.blocks.size + 2 * splits.length - 1 ∈
      (splits.flatMap SplitBlocks.created).map Key.index := by
    rw [r.keys, List.mem_range'_1]
    omega
  obtain ⟨k, _, hk⟩ := List.mem_map.mp hlast
  have := k.index_le
  omega

end Rerouted

/-- A renaming of blocks takes `g₁` to `g₂`. The blocks that were there in `g` keep their keys and
ids. -/
structure Renames (g : FlowGraph) (ρ : Equiv.Perm Block) (g₁ g₂ : FlowGraph) : Prop where
  fixes : ∀ k, g.Allocated k → ρ k = k
  entry : g₂.entry = g₁.entry
  registry : g₂.registry = g₁.registry
  allocated : ∀ k, g₂.Allocated (ρ k) ↔ g₁.Allocated k
  block : ∀ k x, g₁.blocks.get? k = some x → ∃ id,
    g₂.blocks.get? (ρ k) = some { x.rename ρ with id } ∧ (g.Allocated k → id = x.id)

namespace Rerouted

variable (m : g.EdgesMirrored) (r₁ : g.Rerouted g.Allocated (fun _ rs => rs) splits g₁)
  (r₂ : g.Rerouted g.Allocated (fun _ rs => rs) splits' g₂)
  (same : SplitBlocks.SameSplits splits splits')

include r₁ in
theorem toPerm_of_allocated {k : Block} (hk : g.Allocated k) : same.toPerm k = k := by
  apply SplitBlocks.renamed_of_not_created
  intro hm
  have hnew := (r₁.mem_created_iff.mp hm).1
  have hold := allocated_iff.mp hk
  omega

include m r₁ in
theorem rename_of_allocated {k : Block} {x : BlockData} (hx : g.blocks.get? k = some x) :
    x.rename same.toPerm = x := by
  apply BlockData.rename_of_fixed
  · intro c hc
    exact r₁.toPerm_of_allocated same (m.entry_mem k x ⟨x, hx⟩ hx c hc)
  · intro c hc
    exact r₁.toPerm_of_allocated same (m.exit_mem k x ⟨x, hx⟩ hx c hc)

include m r₁ r₂ in
theorem block_renamed {k : Block} {x : BlockData} (hx : g₁.blocks.get? k = some x) :
    ∃ id, g₂.blocks.get? (same.toPerm k) = some { x.rename same.toPerm with id } ∧
      (g.Allocated k → id = x.id) := by
  rcases r₁.lookup_cases hx with ⟨hg, hsend, hnext⟩ | ⟨p, hp, next, data, y, hc, hk⟩
  · refine ⟨x.id, ?_, fun _ => rfl⟩
    rw [r₁.toPerm_of_allocated same ⟨x, hg⟩, r₁.rename_of_allocated m same hg]
    apply r₂.other k x hg
    · intro q hq
      obtain ⟨p, hp, he⟩ := same.symm.exists_counterpart hq
      exact he ▸ hsend p hp
    · intro q hq z hz
      obtain ⟨p, hp, he⟩ := same.symm.exists_counterpart hq
      exact hnext p hp z (he ▸ hz)
  · obtain ⟨q, hq, he⟩ := same.exists_counterpart hp
    obtain ⟨hseq, hrec⟩ : same.toPerm p.seq = q.seq ∧ same.toPerm p.receive = q.receive :=
      same.renamed_created hp hq he
    obtain ⟨_, _, _, hc'⟩ := r₂.chains q hq
    cases hc.send.2.symm.trans (he ▸ hc'.send.2)
    cases List.singleton_inj.mp (hc.exit.symm.trans hc'.exit)
    cases hc.next_before.2.symm.trans hc'.next_before.2
    have hpsend := r₁.toPerm_of_allocated same hc.send.1
    have hpnext := r₁.toPerm_of_allocated same hc.next_before.1
    have hentries := congrArg BlockData.entries (r₁.rename_of_allocated m same hc.send.2)
    have hexits := congrArg BlockData.exits (r₁.rename_of_allocated m same hc.next_before.2)
    simp only [BlockData.rename] at hentries hexits
    rcases hk with rfl | rfl | rfl | rfl
    · cases hc.send_after.symm.trans hx
      refine ⟨data.id, ?_, fun _ => rfl⟩
      rw [hpsend, ← he, hc'.send_after]
      simp [BlockData.rename, hseq, hentries]
    · obtain ⟨_, hold⟩ := hc.seq_after
      obtain ⟨id, hnew⟩ := hc'.seq_after
      cases hold.symm.trans hx
      refine ⟨id, ?_, fun h => absurd rfl (r₁.created_ne hp (by simp [SplitBlocks.created]) h)⟩
      rw [hseq, hnew]
      simp [seqBlock, BlockData.rename, hpsend, hrec, he]
    · obtain ⟨_, hold⟩ := hc.receive_after
      obtain ⟨id, hnew⟩ := hc'.receive_after
      cases hold.symm.trans hx
      refine ⟨id, ?_, fun h => absurd rfl (r₁.created_ne hp (by simp [SplitBlocks.created]) h)⟩
      rw [hrec, hnew]
      simp [receiveBlock, BlockData.rename, hseq, hpnext]
    · cases hc.next_after.symm.trans hx
      refine ⟨y.id, ?_, fun _ => rfl⟩
      rw [hpnext, hc'.next_after]
      simp [BlockData.rename, hrec, hexits]

include m r₁ r₂ in
theorem renames (registry : g₂.registry = g₁.registry) : g.Renames same.toPerm g₁ g₂ where
  fixes := fun k hk => r₁.toPerm_of_allocated same hk
  entry := r₂.entry.trans r₁.entry.symm
  registry := registry
  allocated := by
    intro k
    constructor
    · intro h
      rw [allocated_iff, r₁.size]
      by_cases hk : k ∈ splits.flatMap SplitBlocks.created
      · exact (r₁.mem_created_iff.mp hk).2
      · have hfix : same.toPerm k = k := SplitBlocks.renamed_of_not_created hk
        have hlength := same.perm.length_eq
        simp only [List.length_map] at hlength
        rwa [hfix, allocated_iff, r₂.size, hlength] at h
    · rintro ⟨x, hx⟩
      obtain ⟨_, h, _⟩ := r₁.block_renamed m r₂ same hx
      exact ⟨_, h⟩
  block := fun _ _ hx => r₁.block_renamed m r₂ same hx

end Rerouted

end FlowGraph

namespace Splitting

open SplitBlocks (created)

variable {s t : Splitting} {bs bs' : List Block} {splits : List SplitBlocks}

/-- Blocks that could be split in one order can be split in any other. -/
theorem splitBlocks_of_perm (m : s.graph.EdgesMirrored) (blocks : ∀ b ∈ bs, s.graph.Allocated b)
    (split : bs.mapM splitVertexBlock s = .ok splits t) (order : bs'.Perm bs) :
    ∃ splits' t', bs'.mapM splitVertexBlock s = .ok splits' t' := by
  obtain ⟨hsend, run⟩ := splitBlocks_ok .nil split
  rw [List.nil_append] at run
  have sends : ∀ p ∈ splits, s.graph.Allocated p.send := fun p hp =>
    blocks _ (hsend ▸ List.mem_map_of_mem hp)
  obtain ⟨nodup, splittable⟩ := run.splittable m sends
  have r := run.rerouted m sends
  have hlength : bs'.length = splits.length := by
    rw [order.length_eq, ← hsend, List.length_map]
  have free : ∀ k ∈ s.graph.layout, k.index < s.graph.blocks.size ∨
      s.graph.blocks.size + 2 * (0 + bs'.length) ≤ k.index := by
    intro k hk
    by_contra hrange
    refine splitBlocks_unlisted split k (r.mem_created_iff.mpr ?_) hk
    omega
  have splittable' : ∀ b ∈ bs', s.graph.Allocated b ∧
      ∃ next data, s.graph.Splittable b next data := by
    intro b hb
    have hb' := order.mem_iff.mp hb
    rw [← hsend] at hb'
    obtain ⟨p, hp, rfl⟩ := List.mem_map.mp hb'
    exact ⟨sends p hp, splittable p hp⟩
  rcases splitBlocks_total m .nil (by simp) (order.nodup_iff.mpr (hsend ▸ nodup)) splittable'
    (by simp) free with ok | ⟨full, t', stops⟩
  · exact ok
  · by_cases hnil : splits = []
    · rw [hnil, List.length_nil, List.length_eq_zero_iff] at hlength
      rw [hlength] at stops
      exact absurd stops pure_error
    · have := r.room hnil
      simp only [List.length_nil] at full
      omega

/-- The order of splits does not matter: another one succeeds as well, and gives the same graph up
to the names and the ids of the new blocks. -/
theorem splitBlocks_reorder (mirrored : s.graph.EdgesMirrored)
    (blocks : ∀ b ∈ bs, s.graph.Allocated b)
    (split : bs.mapM splitVertexBlock s = .ok splits t) (order : bs'.Perm bs) :
    ∃ splits' t' ρ, bs'.mapM splitVertexBlock s = .ok splits' t' ∧
      splits.map SplitBlocks.send = bs ∧ splits'.map SplitBlocks.send = bs' ∧
      (∀ p ∈ splits, ∀ q ∈ splits', q.send = p.send → ρ p.seq = q.seq ∧ ρ p.receive = q.receive) ∧
      s.graph.Renames ρ t.graph t'.graph ∧ t'.ids = t.ids ∧
      t.graph.layout = s.graph.layout ++ splits.flatMap created ∧
      t'.graph.layout = s.graph.layout ++ splits'.flatMap created := by
  obtain ⟨splits', t', split'⟩ := splitBlocks_of_perm mirrored blocks split order
  obtain ⟨hsend, run⟩ := splitBlocks_ok .nil split
  obtain ⟨hsend', run'⟩ := splitBlocks_ok .nil split'
  rw [List.nil_append] at run run'
  have sends : ∀ p ∈ splits, s.graph.Allocated p.send := fun p hp =>
    blocks _ (hsend ▸ List.mem_map_of_mem hp)
  have sends' : ∀ q ∈ splits', s.graph.Allocated q.send := fun q hq =>
    blocks _ (order.mem_iff.mp (hsend' ▸ List.mem_map_of_mem hq))
  have r := run.rerouted mirrored sends
  have r' := run'.rerouted mirrored sends'
  have hlength : splits'.length = splits.length := by
    rw [← List.length_map SplitBlocks.send, hsend', order.length_eq, ← hsend, List.length_map]
  have same : SplitBlocks.SameSplits splits splits' :=
    { fresh := r.created_nodup
      fresh' := r'.created_nodup
      sends := (run.splittable mirrored sends).1
      perm := by rwa [hsend, hsend']
      keys := fun k => by rw [r.mem_created_iff, r'.mem_created_iff, hlength] }
  refine ⟨splits', t', same.toPerm, split', hsend, hsend', ?_, ?_, ?_, r.layout, r'.layout⟩
  · exact fun p hp q hq he => same.renamed_created hp hq he
  · exact r.renames mirrored r' same (run'.registry.trans run.registry.symm)
  · rw [run.counter, run'.counter, hlength]

/-- Two vertex blocks with one block between them, which both splits look at. -/
def neighbours : Splitting :=
  Edit.run
    [.createBlock .seq, .createBlock .beginVertex, .createBlock .seq, .createBlock .beginVertex,
      .createBlock .seq, .addExit (Key.wrap 0) (Key.wrap 1), .addExit (Key.wrap 1) (Key.wrap 2),
      .addExit (Key.wrap 2) (Key.wrap 3), .addExit (Key.wrap 3) (Key.wrap 4),
      .addReceiver (Key.wrap 1) (.nested (Key.wrap 0)),
      .addReceiver (Key.wrap 3) (.nested (Key.wrap 1))]
    { graph := {}, ids := {} }

theorem splitBlocks_reorder_of_neighbours :
    neighbours.graph.EdgesMirrored ∧ ∃ splits t splits' t' ρ,
      [Key.wrap 1, Key.wrap 3].mapM splitVertexBlock neighbours = .ok splits t ∧
      [Key.wrap 3, Key.wrap 1].mapM splitVertexBlock neighbours = .ok splits' t' ∧
      neighbours.graph.Renames ρ t.graph t'.graph ∧ ρ (Key.wrap 5) = Key.wrap 7 := by
  have mirrored : neighbours.graph.EdgesMirrored :=
    Edit.run_keeps_mirrored (by decide) FlowGraph.EdgesMirrored.empty
  have blocks : ∀ b ∈ [Key.wrap 1, Key.wrap 3], neighbours.graph.Allocated b := by
    simp only [FlowGraph.allocated_iff]
    decide +kernel
  have first : (match [Key.wrap 1, Key.wrap 3].mapM splitVertexBlock neighbours with
      | .ok splits _ => splits
      | .error _ _ => []) = [⟨Key.wrap 1, Key.wrap 5, Key.wrap 6⟩,
        ⟨Key.wrap 3, Key.wrap 7, Key.wrap 8⟩] := by decide +kernel
  have second : (match [Key.wrap 3, Key.wrap 1].mapM splitVertexBlock neighbours with
      | .ok splits _ => splits
      | .error _ _ => []) = [⟨Key.wrap 3, Key.wrap 5, Key.wrap 6⟩,
        ⟨Key.wrap 1, Key.wrap 7, Key.wrap 8⟩] := by decide +kernel
  cases split : [Key.wrap 1, Key.wrap 3].mapM splitVertexBlock neighbours with
  | error e t => simp [split] at first
  | ok splits t =>
    obtain ⟨splits', t', ρ, split', _, _, names, renames, _⟩ :=
      splitBlocks_reorder mirrored blocks split (List.Perm.swap ..)
    simp only [split] at first
    simp only [split'] at second
    refine ⟨mirrored, splits, t, splits', t', ρ, rfl, split', renames, ?_⟩
    exact (names ⟨Key.wrap 1, Key.wrap 5, Key.wrap 6⟩ (by simp [first])
      ⟨Key.wrap 1, Key.wrap 7, Key.wrap 8⟩ (by simp [second]) rfl).1

end Splitting

end Superstep
