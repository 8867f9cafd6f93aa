import Superstep.Proofs.DepthFirst
import Superstep.Proofs.Reorder
import Superstep.Proofs.SplitPass

namespace Superstep

namespace SplitBlocks

/-- A block and, if it was split, the blocks that its split created. -/
def expansion (splits : List SplitBlocks) (b : Block) : List Block :=
  b :: ((splits.find? (·.send == b)).map created).getD []

variable {splits : List SplitBlocks} {p : SplitBlocks} {b k : Block}

theorem expansion_of_split (sends : (splits.map send).Nodup) (hp : p ∈ splits) :
    expansion splits p.send = [p.send, p.seq, p.receive] := by
  have hfind : splits.find? (·.send == p.send) = some p := by
    refine find?_of_unique hp (beq_self_eq_true _) fun q hq hsend => ?_
    exact List.inj_on_of_nodup_map sends hq hp (beq_iff_eq.mp hsend)
  rw [expansion, hfind]
  rfl

theorem expansion_of_unsplit (unsplit : ∀ p ∈ splits, b ≠ p.send) : expansion splits b = [b] := by
  have hfind : splits.find? (·.send == b) = none := by
    rw [List.find?_eq_none]
    intro p hp hsend
    exact unsplit p hp (beq_iff_eq.mp hsend).symm
  rw [expansion, hfind]
  rfl

theorem mem_expansion_cases (hk : k ∈ expansion splits b) :
    k = b ∨ ∃ p ∈ splits, p.send = b ∧ k ∈ p.created := by
  rcases List.mem_cons.mp hk with he | hk
  · exact Or.inl he
  · cases hfind : splits.find? (·.send == b) with
    | none =>
      rw [hfind] at hk
      cases hk
    | some p =>
      rw [hfind] at hk
      have hsend : p.send = b := by simpa using List.find?_some hfind
      exact Or.inr ⟨p, List.mem_of_find?_eq_some hfind, hsend, hk⟩

end SplitBlocks

namespace FlowGraph

open SplitBlocks (expansion)

/-- Where control goes after splits: from a split block through the blocks that its split created to
the one exit that it had, and from any other block as before. Entries play no part in it. -/
structure Detoured (g : FlowGraph) (splits : List SplitBlocks) (g' : FlowGraph) : Prop where
  keys : (splits.flatMap SplitBlocks.created).map Key.index =
    List.range' g.blocks.size (2 * splits.length)
  size : g'.blocks.size = g.blocks.size + 2 * splits.length
  sends : (splits.map SplitBlocks.send).Nodup
  entry : g'.entry = g.entry
  chain : ∀ p ∈ splits, ∃ next, g.exits? p.send = some [next] ∧ g'.exits? p.send = some [p.seq] ∧
    g'.exits? p.seq = some [p.receive] ∧ g'.exits? p.receive = some [next]
  kept : ∀ b, g.Allocated b → (∀ p ∈ splits, b ≠ p.send) → g'.exits? b = g.exits? b

variable {g g₁ g' : FlowGraph} {ids ids' : IdCounter} {splits : List SplitBlocks}

theorem exits?_eq_some_iff {b : Block} {exits : List Block} :
    g.exits? b = some exits ↔ ∃ x, g.blocks.get? b = some x ∧ x.exits = exits :=
  Option.map_eq_some_iff

theorem index_lt_of_exits? {b : Block} {exits : List Block} (h : g.exits? b = some exits) :
    b.index < g.blocks.size := by
  obtain ⟨x, hx, -⟩ := exits?_eq_some_iff.mp h
  exact Table.index_lt_of_get? hx

theorem Drains.of_exits {n : Nat} {b : Block} {exits pending entered out : List Block}
    (hb : b ∉ entered) (hx : g.exits? b = some exits)
    (h : g.Drains n (exits ++ pending) (entered ++ [b]) out) :
    g.Drains (n + 1) (b :: pending) entered out := by
  obtain ⟨x, hget, rfl⟩ := exits?_eq_some_iff.mp hx
  exact .enter hb hget h

theorem Spliced.exits?_eq {p : SplitBlocks} {next : Block} {data : BlockData}
    (sp : g.Spliced ids p next data g') (k : Block) :
    g'.exits? k =
      if k = p.seq then some [p.receive] else if k = p.receive then some [next]
      else if k = p.send then some [p.seq] else g.exits? k := by
  simp only [exits?, sp.lookup]
  split_ifs
  · rfl
  · rfl
  · rfl
  · cases g.blocks.get? k <;> rfl
  · rfl

namespace Detoured

theorem nil (g : FlowGraph) : g.Detoured [] g where
  keys := rfl
  size := rfl
  sends := List.nodup_nil
  entry := rfl
  chain := by simp
  kept := fun _ _ _ => rfl

theorem fresh (d : g.Detoured splits g') {p : SplitBlocks} (hp : p ∈ splits) {k : Block}
    (hk : k ∈ p.created) : g.blocks.size ≤ k.index := by
  have hmem : k.index ∈ (splits.flatMap SplitBlocks.created).map Key.index :=
    List.mem_map_of_mem (List.mem_flatMap.mpr ⟨p, hp, hk⟩)
  rw [d.keys, List.mem_range'_1] at hmem
  exact hmem.1

theorem created_ne (d : g.Detoured splits g') {p : SplitBlocks} (hp : p ∈ splits) {k b : Block}
    (hk : k ∈ p.created) (hb : g.Allocated b) : k ≠ b := by
  rintro rfl
  have hnew := d.fresh hp hk
  have hold := allocated_iff.mp hb
  omega

/-- One more split. The exits that it changes are those of a block that was not split before. -/
theorem snoc (d : g.Detoured splits g₁) {p : SplitBlocks} {next : Block} {data : BlockData}
    (hb : g.Allocated p.send) (unsplit : ∀ q ∈ splits, p.send ≠ q.send)
    (hs : g₁.Splittable p.send next data) (sp : g₁.Spliced ids p next data g') :
    g.Detoured (splits ++ [p]) g' := by
  have keep : ∀ k exits, g₁.exits? k = some exits → k ≠ p.send → g'.exits? k = some exits := by
    intro k exits hk hne
    have hlt := index_lt_of_exits? hk
    rw [sp.exits?_eq, if_neg (sp.ne_seq hlt), if_neg (sp.ne_receive hlt), if_neg hne, hk]
  have hsend : g.exits? p.send = some [next] := by
    rw [← d.kept p.send hb unsplit]
    exact exits?_eq_some_iff.mpr ⟨data, hs.lookup, hs.exit⟩
  refine ⟨SplitBlocks.keys_snoc d.keys (sp.seq_index.trans d.size)
    (sp.receive_index.trans (congrArg (· + 1) d.size)), ?_, ?_, sp.entry.trans d.entry, ?_, ?_⟩
  · simp only [sp.size, d.size, List.length_append, List.length_singleton]
    omega
  · rw [List.map_append, List.map_singleton, List.nodup_append]
    refine ⟨d.sends, List.nodup_singleton _, ?_⟩
    intro a ha c hc
    obtain ⟨q, hq, rfl⟩ := List.mem_map.mp ha
    rw [List.mem_singleton.mp hc]
    exact Ne.symm (unsplit q hq)
  · intro q hq
    rcases List.mem_append.mp hq with hq | hq
    · obtain ⟨n, hbefore, hfirst, hseq, hreceive⟩ := d.chain q hq
      exact ⟨n, hbefore, keep _ _ hfirst (Ne.symm (unsplit q hq)),
        keep _ _ hseq (d.created_ne hq (by simp [SplitBlocks.created]) hb),
        keep _ _ hreceive (d.created_ne hq (by simp [SplitBlocks.created]) hb)⟩
    · cases List.mem_singleton.mp hq
      have hlt := Table.index_lt_of_get? hs.lookup
      refine ⟨next, hsend, ?_, ?_, ?_⟩
      · rw [sp.exits?_eq, if_neg (sp.ne_seq hlt), if_neg (sp.ne_receive hlt), if_pos rfl]
      · rw [sp.exits?_eq, if_pos rfl]
      · rw [sp.exits?_eq, if_neg sp.seq_ne_receive.symm, if_pos rfl]
  · intro b hold hne
    obtain ⟨x, hx⟩ := hold
    have hbefore : g.exits? b = some x.exits := exits?_eq_some_iff.mpr ⟨x, hx, rfl⟩
    have hsame := d.kept b ⟨x, hx⟩ fun q hq => hne q (by simp [hq])
    rw [hbefore] at hsame ⊢
    exact keep b _ hsame (hne p (by simp))

/-- What happened to exits does not depend on what else is in the blocks. -/
theorem congr (d : g₁.Detoured splits g') (size : g₁.blocks.size = g.blocks.size)
    (entry : g₁.entry = g.entry) (exits : ∀ k, g₁.exits? k = g.exits? k) :
    g.Detoured splits g' where
  keys := size ▸ d.keys
  size := size ▸ d.size
  sends := d.sends
  entry := d.entry.trans entry
  chain := fun p hp => exits p.send ▸ d.chain p hp
  kept := fun b hb hne => by
    rw [← exits b]
    exact d.kept b (allocated_iff.mpr (size ▸ allocated_iff.mp hb)) hne

theorem mem_expansions_iff (d : g.Detoured splits g') {b : Block} (hb : g.Allocated b)
    {entered : List Block} : b ∈ entered.flatMap (expansion splits) ↔ b ∈ entered := by
  constructor
  · intro hm
    obtain ⟨c, hc, hm⟩ := List.mem_flatMap.mp hm
    rcases SplitBlocks.mem_expansion_cases hm with rfl | ⟨p, hp, -, hk⟩
    · exact hc
    · exact absurd rfl (d.created_ne hp hk hb)
  · intro hm
    exact List.mem_flatMap.mpr ⟨b, hm, List.mem_cons_self⟩

theorem send_mem_of_created (d : g.Detoured splits g') {entered : List Block}
    (allocated : ∀ b ∈ entered, g.Allocated b) {p : SplitBlocks} (hp : p ∈ splits) {k : Block}
    (hk : k ∈ p.created) (hm : k ∈ entered.flatMap (expansion splits)) : p.send ∈ entered := by
  obtain ⟨c, hc, hm⟩ := List.mem_flatMap.mp hm
  rcases SplitBlocks.mem_expansion_cases hm with rfl | ⟨q, hq, rfl, hkq⟩
  · exact absurd rfl (d.created_ne hp hk (allocated k hc))
  · rw [SplitBlocks.eq_of_created (SplitBlocks.nodup_of_keys d.keys) hp hq hk hkq]
    exact hc

/-- The chain of a split is entered in three rounds. -/
theorem drains_chain (d : g.Detoured splits g') {p : SplitBlocks} (hp : p ∈ splits)
    (hsend : g.Allocated p.send) {next : Block} (hnext : g.exits? p.send = some [next])
    {pending entered out : List Block} {n : Nat}
    (apart : ∀ k ∈ [p.send, p.seq, p.receive], k ∉ entered)
    (h : g'.Drains n ([next] ++ pending) (entered ++ [p.send, p.seq, p.receive]) out) :
    g'.Drains (n + 3) (p.send :: pending) entered out := by
  obtain ⟨next', hbefore, hfirst, hseq, hreceive⟩ := d.chain p hp
  cases hnext.symm.trans hbefore
  have hne : p.seq ≠ p.send := d.created_ne hp (by simp [SplitBlocks.created]) hsend
  have hne' : p.receive ≠ p.send := d.created_ne hp (by simp [SplitBlocks.created]) hsend
  have hpair : p.seq ≠ p.receive := by
    have hnodup := (List.nodup_flatMap.mp (SplitBlocks.nodup_of_keys d.keys)).1 p hp
    simpa [SplitBlocks.created] using hnodup
  have third : g'.Drains (n + 1) ([p.receive] ++ pending) (entered ++ [p.send] ++ [p.seq]) out := by
    refine .of_exits ?_ hreceive (by simpa using h)
    simp [hne', hpair.symm, apart p.receive]
  have second : g'.Drains (n + 2) ([p.seq] ++ pending) (entered ++ [p.send]) out :=
    .of_exits (by simp [hne, apart p.seq]) hseq third
  exact .of_exits (apart p.send (by simp)) hfirst second

/-- A search of the new graph keeps step with one of the old graph. The pending blocks of both are
the same whenever a block of the old graph is due, and where the old search enters a block that was
split, the new one enters its chain in three rounds. -/
theorem drains (d : g.Detoured splits g') {n : Nat} {pending entered out : List Block}
    (h : g.Drains n pending entered out) (allocated : ∀ b ∈ entered, g.Allocated b) :
    ∃ m, g'.Drains m pending (entered.flatMap (expansion splits))
      (out.flatMap (expansion splits)) := by
  induction h with
  | done => exact ⟨0, .done⟩
  | @pass n b pending entered out hb _ ih =>
    obtain ⟨m, hm⟩ := ih allocated
    exact ⟨m + 1, .pass ((d.mem_expansions_iff (allocated b hb)).mpr hb) hm⟩
  | @enter n b data pending entered out hb hx _ ih =>
    have there : g.Allocated b := ⟨data, hx⟩
    have entering : ∀ c ∈ entered ++ [b], g.Allocated c := by
      intro c hc
      rcases List.mem_append.mp hc with hc | hc
      · exact allocated c hc
      · exact List.mem_singleton.mp hc ▸ there
    obtain ⟨m, hm⟩ := ih entering
    rw [List.flatMap_append, List.flatMap_singleton] at hm
    have hexits : g.exits? b = some data.exits := exits?_eq_some_iff.mpr ⟨data, hx, rfl⟩
    have fresh : b ∉ entered.flatMap (expansion splits) := mt (d.mem_expansions_iff there).mp hb
    by_cases split : ∃ p ∈ splits, b = p.send
    · obtain ⟨p, hp, rfl⟩ := split
      obtain ⟨next, hnext, -⟩ := d.chain p hp
      have hdata : data.exits = [next] := Option.some.inj (hexits.symm.trans hnext)
      rw [hdata, SplitBlocks.expansion_of_split d.sends hp] at hm
      refine ⟨m + 3, d.drains_chain hp there hnext ?_ hm⟩
      intro k hk
      rcases List.mem_cons.mp hk with rfl | hk
      · exact fresh
      · exact fun hin => hb (d.send_mem_of_created allocated hp hk hin)
    · have unsplit : ∀ p ∈ splits, b ≠ p.send := fun p hp he => split ⟨p, hp, he⟩
      rw [SplitBlocks.expansion_of_unsplit unsplit] at hm
      exact ⟨m + 1, .of_exits fresh ((d.kept b there unsplit).trans hexits) hm⟩

end Detoured

theorem Splices.detoured (run : g.Splices ids splits g' ids')
    (sends : (splits.map SplitBlocks.send).Nodup) (allocated : ∀ p ∈ splits, g.Allocated p.send) :
    g.Detoured splits g' := by
  induction run with
  | nil => exact .nil g
  | @snoc done g₁ g₂ ids₁ p next data run hs sp ih =>
    rw [List.map_append, List.map_singleton, List.nodup_append] at sends
    obtain ⟨nodup, -, apart⟩ := sends
    have d := ih nodup fun q hq => allocated q (by simp [hq])
    refine d.snoc (allocated p (by simp)) ?_ hs sp
    intro q hq
    exact Ne.symm (apart _ (List.mem_map_of_mem hq) _ (by simp))

/-- The new graph is searched in the order of the old one, with every split block followed by the
blocks that its split created. -/
theorem Detoured.reachable_eq (d : g.Detoured splits g') {order : List Block}
    (h : g.reachable = .ok order) :
    g'.reachable = .ok (order.flatMap (expansion splits)) := by
  obtain ⟨n, drains⟩ := reachable_iff_drains.mp h
  rw [reachable_iff_drains, d.entry]
  exact d.drains drains (by simp)

end FlowGraph

namespace Procedure

variable {s t : Stage Procedure} {splits : List SplitBlocks}

/-- Looking for communication changes no exits, and the splits after it are of different blocks. -/
theorem splitCommunication_detoured (split : splitCommunication s = .ok splits t) :
    ∃ targets s₁ order, findCommunication s = .ok targets s₁ ∧
      splits.map SplitBlocks.send = targets.order ∧ s.subject.graph.reachable = .ok order ∧
      (∀ b ∈ targets.order, b ∈ order) ∧ s.subject.graph.Detoured splits t.subject.graph := by
  obtain ⟨targets, s₁, hf, hsend, -, run⟩ := splitCommunication_ok split
  obtain ⟨-, found, hcom, surveyed, hord⟩ := findCommunication_ok hf
  obtain ⟨d, hd, -⟩ := onPart_ok.mp hf
  obtain ⟨order, hr, -⟩ := Detection.findCommunication_run hd
  have senders : ∀ b ∈ targets.order, s.subject.graph.Reached b ∧ s.subject.graph.Allocated b := by
    intro b hb
    rw [hord, List.mem_eraseDups] at hb
    obtain ⟨q, hq, rfl⟩ := List.mem_map.mp hb
    obtain ⟨hreached, x, hx, -⟩ := hcom.sender q hq
    exact ⟨hreached, x, hx⟩
  have allocated : ∀ p ∈ splits, s₁.subject.graph.Allocated p.send := by
    intro p hp
    obtain ⟨-, x, hx⟩ := senders p.send (hsend ▸ List.mem_map_of_mem hp)
    exact ⟨_, surveyed.lookup_after hx⟩
  have d := run.detoured (by rw [hsend, hord]; exact nodup_eraseDups _) allocated
  refine ⟨targets, s₁, order, hf, hsend, hr,
    fun b hb => (FlowGraph.mem_reachable_iff hr).mpr (senders b hb).1,
    d.congr surveyed.size surveyed.entry ?_⟩
  intro k
  rw [FlowGraph.exits?, FlowGraph.exits?, surveyed.lookup, Option.map_map]
  rfl

/-- After the pass the blocks are walked in the same order as before it, with the two blocks of its
split right behind every target. -/
theorem splitCommunication_walk_order (split : splitCommunication s = .ok splits t) :
    ∃ targets s₁ order, findCommunication s = .ok targets s₁ ∧
      splits.map SplitBlocks.send = targets.order ∧ s.subject.graph.reachable = .ok order ∧
      (∀ b ∈ targets.order, b ∈ order) ∧
      (∀ p ∈ splits, SplitBlocks.expansion splits p.send = [p.send, p.seq, p.receive]) ∧
      (∀ b, b ∉ targets.order → SplitBlocks.expansion splits b = [b]) ∧
      t.subject.graph.reachable = .ok (order.flatMap (SplitBlocks.expansion splits)) := by
  obtain ⟨targets, s₁, order, hf, hsend, hr, hmem, d⟩ := splitCommunication_detoured split
  refine ⟨targets, s₁, order, hf, hsend, hr, hmem, ?_, ?_, d.reachable_eq hr⟩
  · exact fun p hp => SplitBlocks.expansion_of_split d.sends hp
  · intro b hb
    apply SplitBlocks.expansion_of_unsplit
    rintro p hp rfl
    exact hb (hsend ▸ List.mem_map_of_mem hp)

/-- The chain of the first superstep ends at the head of the loop, which has been walked by then. -/
theorem splitCommunication_walk_order_of_twoSupersteps :
    ∃ t, splitCommunication (twoSupersteps 1) =
        .ok [⟨Key.wrap 1, Key.wrap 5, Key.wrap 6⟩, ⟨Key.wrap 3, Key.wrap 7, Key.wrap 8⟩] t ∧
      (twoSupersteps 1).subject.graph.reachable = .ok ([0, 1, 2, 3, 4].map Key.wrap) ∧
      t.subject.graph.reachable = .ok ([0, 1, 5, 6, 2, 3, 7, 8, 4].map Key.wrap) := by
  have runs : splitCommunication.run' (twoSupersteps 1) =
      some [⟨Key.wrap 1, Key.wrap 5, Key.wrap 6⟩, ⟨Key.wrap 3, Key.wrap 7, Key.wrap 8⟩] := by
    decide +kernel
  have before : (twoSupersteps 1).subject.graph.reachable = .ok ([0, 1, 2, 3, 4].map Key.wrap) := by
    decide +kernel
  obtain ⟨t, split⟩ := ok_of_run' runs
  obtain ⟨_, _, order, -, -, hr, -, -, -, after⟩ := splitCommunication_walk_order split
  cases before.symm.trans hr
  exact ⟨t, split, before, after⟩

end Procedure

end Superstep
