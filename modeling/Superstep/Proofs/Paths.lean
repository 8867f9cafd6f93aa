import Superstep.Proofs.SendReceive

namespace Superstep

/-- Blocks one after the other, each but the last left by the exit of a number. -/
inductive Path where
  | stop (b : Block)
  | go (b : Block) (exit : Nat) (rest : Path)

namespace Path

def head : Path → Block
  | stop b => b
  | go b _ _ => b

def last : Path → Block
  | stop b => b
  | go _ _ rest => rest.last

/-- A path without some of its blocks. The other blocks are left by the same exits, and nothing may
be left of the path. -/
def erase (gone : List Block) : Path → Option Path
  | stop b => if b ∈ gone then none else some (stop b)
  | go b exit rest =>
    if b ∈ gone then rest.erase gone
    else some (((rest.erase gone).map (go b exit)).getD (stop b))

variable {gone : List Block} {b : Block} {exit : Nat} {rest q : Path}

theorem erase_stop (hb : b ∉ gone) : (stop b).erase gone = some (stop b) := if_neg hb

theorem erase_go_of_mem (hb : b ∈ gone) : (go b exit rest).erase gone = rest.erase gone := if_pos hb

theorem erase_go (hb : b ∉ gone) (hq : rest.erase gone = some q) :
    (go b exit rest).erase gone = some (go b exit q) := by
  have step : (go b exit rest).erase gone =
      some (((rest.erase gone).map (go b exit)).getD (stop b)) := if_neg hb
  rw [step, hq]
  rfl

theorem erase_go_of_none (hb : b ∉ gone) (hq : rest.erase gone = none) :
    (go b exit rest).erase gone = some (stop b) := by
  have step : (go b exit rest).erase gone =
      some (((rest.erase gone).map (go b exit)).getD (stop b)) := if_neg hb
  rw [step, hq]
  rfl

theorem erase_isSome {p : Path} (h : p.last ∉ gone) : ∃ q, p.erase gone = some q := by
  induction p with
  | stop b => exact ⟨stop b, erase_stop h⟩
  | go b exit rest ih =>
    obtain ⟨q, hq⟩ := ih h
    by_cases hb : b ∈ gone
    · exact ⟨q, (erase_go_of_mem hb).trans hq⟩
    · exact ⟨go b exit q, erase_go hb hq⟩

end Path

namespace FlowGraph

/-- The path leads through blocks of the graph along their exits. -/
def IsPath (g : FlowGraph) : Path → Prop
  | .stop b => ∃ x, g.blocks.get? b = some x
  | .go b exit rest =>
    ∃ x, g.blocks.get? b = some x ∧ x.exits[exit]? = some rest.head ∧ g.IsPath rest

/-- The statements met along a path. -/
def statements (g : FlowGraph) : Path → List Stmt
  | .stop b => ((g.blocks.get? b).map (·.sents)).getD []
  | .go b _ rest => ((g.blocks.get? b).map (·.sents)).getD [] ++ g.statements rest

theorem statements_stop {g : FlowGraph} {b : Block} {x : BlockData} (hx : g.blocks.get? b = some x) :
    g.statements (.stop b) = x.sents := by
  simp [statements, hx]

theorem statements_go {g : FlowGraph} {b : Block} {x : BlockData} (hx : g.blocks.get? b = some x)
    (exit : Nat) (rest : Path) : g.statements (.go b exit rest) = x.sents ++ g.statements rest := by
  simp [statements, hx]

theorem getElem?_singleton_eq {c m : Block} {i : Nat} (h : [c][i]? = some m) : i = 0 ∧ c = m := by
  cases i with
  | zero => exact ⟨rfl, by simpa using h⟩
  | succ i => simp at h

/-- A path that ends in a block that is kept can be told from what erasing leaves of it, if there is
no choice in the blocks that are erased. -/
theorem IsPath.eq_of_erase {g : FlowGraph} {gone : List Block}
    (single : ∀ b ∈ gone, ∀ x, g.blocks.get? b = some x → ∃ c, x.exits = [c]) {p q : Path}
    (hp : g.IsPath p) (hq : g.IsPath q) (head : p.head = q.head) (lastp : p.last ∉ gone)
    (lastq : q.last ∉ gone) (he : p.erase gone = q.erase gone) : p = q := by
  induction p generalizing q with
  | stop b =>
    cases q with
    | stop c => exact congrArg Path.stop head
    | go c j q =>
      cases head
      have hb : b ∉ gone := lastp
      obtain ⟨q', hq'⟩ := Path.erase_isSome (p := q) lastq
      rw [Path.erase_stop hb, Path.erase_go hb hq'] at he
      cases he
  | go b i p ih =>
    obtain ⟨p', hp'⟩ := Path.erase_isSome (p := p) lastp
    cases q with
    | stop c =>
      cases head
      have hb : b ∉ gone := lastq
      rw [Path.erase_go hb hp', Path.erase_stop hb] at he
      cases he
    | go c j q =>
      cases head
      obtain ⟨q', hq'⟩ := Path.erase_isSome (p := q) lastq
      obtain ⟨x, hx, hi, hp⟩ := hp
      obtain ⟨y, hy, hj, hq⟩ := hq
      cases hx.symm.trans hy
      by_cases hb : b ∈ gone
      · obtain ⟨c, hc⟩ := single b hb x hx
        rw [hc] at hi hj
        obtain ⟨rfl, hpc⟩ := getElem?_singleton_eq hi
        obtain ⟨rfl, hqc⟩ := getElem?_singleton_eq hj
        rw [Path.erase_go_of_mem hb, Path.erase_go_of_mem hb] at he
        rw [ih hp hq (hpc.symm.trans hqc) lastp lastq he]
      · rw [Path.erase_go hb hp', Path.erase_go hb hq'] at he
        cases he
        have hhead : p.head = q.head := Option.some.inj (hi.symm.trans hj)
        rw [ih hp hq hhead lastp lastq (hp'.trans hq'.symm)]

/-- Where a block of the new graph leads to in the old one, through new blocks only: an old block
to itself, the new blocks of a split to the exit of the block that was split. -/
inductive Leads (g : FlowGraph) (splits : List SplitBlocks) : Block → Block → Prop
  | old {b : Block} : b ∈ g.layout → Leads g splits b b
  | new {p : SplitBlocks} {x : BlockData} {b next : Block} : p ∈ splits → b ∈ p.created →
      g.blocks.get? p.send = some x → x.exits = [next] → Leads g splits b next

namespace Rewired

variable {g g' : FlowGraph} {queued : Block → List CommUnit → List CommUnit}
  {splits : List SplitBlocks}

theorem old_not_created (r : g.Rewired queued splits g') (v : g.Valid) {b : Block}
    (hb : b ∈ g.layout) : b ∉ splits.flatMap SplitBlocks.created := by
  intro hm
  obtain ⟨p, hp, hc⟩ := List.mem_flatMap.mp hm
  exact r.created_ne hp hc (v.allocated b hb) rfl

theorem created_single (r : g.Rewired queued splits g') :
    ∀ b ∈ splits.flatMap SplitBlocks.created, ∀ y, g'.blocks.get? b = some y →
      ∃ c, y.exits = [c] := by
  intro b hb y hy
  obtain ⟨p, hp, hc⟩ := List.mem_flatMap.mp hb
  obtain ⟨_, ⟨_, he⟩ | ⟨_, _, next, _, _, he⟩⟩ := r.created_cases hp hc hy
  · exact ⟨p.receive, he⟩
  · exact ⟨next, he⟩

/-- A step of the new graph is a step inside a chain, or a step of the old graph to where it
leads. -/
theorem leads_step (r : g.Rewired queued splits g') (v : g.Valid) {b m n : Block} {y : BlockData}
    {i : Nat} (h : g.Leads splits b n) (hy : g'.blocks.get? b = some y)
    (hm : y.exits[i]? = some m) :
    (b ∈ splits.flatMap SplitBlocks.created ∧ g.Leads splits m n) ∨
      (b ∈ g.layout ∧ b = n ∧ ∃ x n', g.blocks.get? b = some x ∧ x.exits[i]? = some n' ∧
        g.Leads splits m n') := by
  cases h with
  | old hb =>
    obtain ⟨x, hx⟩ := v.allocated b hb
    refine Or.inr ⟨hb, rfl, x, ?_⟩
    rcases r.exits_cases hx hy with he | ⟨p, hp, rfl, he⟩
    · rw [he] at hm
      exact ⟨m, hx, hm, .old (v.exit_listed b x ⟨hb, hx⟩ m (List.mem_of_getElem? hm))⟩
    · obtain ⟨next, data, _, hc⟩ := r.chains p hp
      cases hc.send.2.symm.trans hx
      rw [he] at hm
      obtain ⟨rfl, rfl⟩ := getElem?_singleton_eq hm
      exact ⟨next, hx, by simp [hc.exit], .new hp (by simp [SplitBlocks.created]) hx hc.exit⟩
  | @new p x _ _ hp hb hx hexit =>
    refine Or.inl ⟨List.mem_flatMap.mpr ⟨p, hp, hb⟩, ?_⟩
    obtain ⟨_, ⟨_, he⟩ | ⟨_, z, next, hz, hnext, he⟩⟩ := r.created_cases hp hb hy
    · rw [he] at hm
      obtain ⟨_, rfl⟩ := getElem?_singleton_eq hm
      exact .new hp (by simp [SplitBlocks.created]) hx hexit
    · cases hx.symm.trans hz
      cases List.singleton_inj.mp (hexit.symm.trans hnext)
      rw [he] at hm
      obtain ⟨_, rfl⟩ := getElem?_singleton_eq hm
      obtain ⟨_, _, w, hc⟩ := r.chains p hp
      cases hc.send.2.symm.trans hx
      cases List.singleton_inj.mp (hc.exit.symm.trans hexit)
      exact .old hc.next_before.1

theorem sents_of_created (r : g.Rewired queued splits g') {b : Block} {y : BlockData}
    (hb : b ∈ splits.flatMap SplitBlocks.created) (hy : g'.blocks.get? b = some y) :
    y.sents = [] := by
  obtain ⟨p, hp, hc⟩ := List.mem_flatMap.mp hb
  exact (r.created_cases hp hc hy).1

theorem sents_of_old (r : g.Rewired queued splits g') {b : Block} {x y : BlockData}
    (hx : g.blocks.get? b = some x) (hy : g'.blocks.get? b = some y) : y.sents = x.sents := by
  obtain ⟨z, hz, _, _, _, hsents, _⟩ := r.frame hx
  cases hz.symm.trans hy
  exact hsents

/-- What is left of a path of the new graph without the new blocks: nothing if it stays in a chain,
and otherwise a path of the old graph that meets the same statements. -/
theorem erase_path (r : g.Rewired queued splits g') (v : g.Valid) {p : Path} {n : Block}
    (hp : g'.IsPath p) (hl : g.Leads splits p.head n) :
    (p.head ∈ splits.flatMap SplitBlocks.created ∧
      p.erase (splits.flatMap SplitBlocks.created) = none ∧ g'.statements p = []) ∨
    ∃ q, p.erase (splits.flatMap SplitBlocks.created) = some q ∧ g.IsPath q ∧ q.head = n ∧
      g.statements q = g'.statements p := by
  induction p generalizing n with
  | stop b =>
    obtain ⟨y, hy⟩ := hp
    cases hl with
    | old hb =>
      obtain ⟨x, hx⟩ := v.allocated b hb
      refine Or.inr ⟨.stop b, Path.erase_stop (r.old_not_created v hb), ⟨x, hx⟩, rfl, ?_⟩
      rw [statements_stop hx, statements_stop hy, r.sents_of_old hx hy]
    | @new p _ _ _ hp hb _ _ =>
      have hnew : b ∈ splits.flatMap SplitBlocks.created := List.mem_flatMap.mpr ⟨p, hp, hb⟩
      refine Or.inl ⟨hnew, if_pos hnew, ?_⟩
      rw [statements_stop hy, r.sents_of_created hnew hy]
  | go b i rest ih =>
    obtain ⟨y, hy, hi, hrest⟩ := hp
    change g.Leads splits b n at hl
    rw [statements_go hy]
    rcases r.leads_step v hl hy hi with ⟨hnew, hl'⟩ | ⟨hb, rfl, x, n', hx, hexit, hl'⟩
    · rw [r.sents_of_created hnew hy, List.nil_append, Path.erase_go_of_mem hnew]
      rcases ih hrest hl' with ⟨_, he, hs⟩ | ⟨q, he, hq, hn, hs⟩
      · exact Or.inl ⟨hnew, he, hs⟩
      · exact Or.inr ⟨q, he, hq, hn, hs⟩
    · have hkeep := r.old_not_created v hb
      rw [r.sents_of_old hx hy]
      rcases ih hrest hl' with ⟨_, he, hs⟩ | ⟨q, he, hq, rfl, hs⟩
      · refine Or.inr ⟨.stop b, Path.erase_go_of_none hkeep he, ⟨x, hx⟩, rfl, ?_⟩
        rw [statements_stop hx, hs, List.append_nil]
      · refine Or.inr ⟨.go b i q, Path.erase_go hkeep he, ⟨x, hx, hexit, hq⟩, rfl, ?_⟩
        rw [statements_go hx, hs]

/-- Every path of the old graph is what is left of a path of the new graph. -/
theorem lift_path (r : g.Rewired queued splits g') (v : g.Valid) {q : Path} (hq : g.IsPath q)
    (hh : q.head ∈ g.layout) :
    ∃ p, g'.IsPath p ∧ p.head = q.head ∧ p.last ∉ splits.flatMap SplitBlocks.created ∧
      p.erase (splits.flatMap SplitBlocks.created) = some q := by
  have hkeep := r.old_not_created v hh
  induction q with
  | stop b =>
    obtain ⟨x, hx⟩ := hq
    obtain ⟨y, hy, _⟩ := r.frame hx
    exact ⟨.stop b, ⟨y, hy⟩, rfl, hkeep, Path.erase_stop hkeep⟩
  | go b i rest ih =>
    obtain ⟨x, hx, hi, hrest⟩ := hq
    have hm : rest.head ∈ g.layout := v.exit_listed b x ⟨hh, hx⟩ _ (List.mem_of_getElem? hi)
    obtain ⟨p, hp, hhead, hlast, he⟩ := ih hrest hm (r.old_not_created v hm)
    obtain ⟨y, hy, _⟩ := r.frame hx
    rcases r.exits_cases hx hy with hexits | ⟨sp, hsp, rfl, hexits⟩
    · refine ⟨.go b i p, ⟨y, hy, ?_, hp⟩, rfl, hlast, Path.erase_go hkeep he⟩
      rw [hexits, hhead, hi]
    · obtain ⟨next, data, _, hc⟩ := r.chains sp hsp
      cases hc.send.2.symm.trans hx
      rw [hc.exit] at hi
      obtain ⟨rfl, hnext⟩ := getElem?_singleton_eq hi
      obtain ⟨_, hseq⟩ := hc.seq_after
      obtain ⟨_, hreceive⟩ := hc.receive_after
      have hseqNew : sp.seq ∈ splits.flatMap SplitBlocks.created :=
        List.mem_flatMap.mpr ⟨sp, hsp, by simp [SplitBlocks.created]⟩
      have hreceiveNew : sp.receive ∈ splits.flatMap SplitBlocks.created :=
        List.mem_flatMap.mpr ⟨sp, hsp, by simp [SplitBlocks.created]⟩
      refine ⟨.go sp.send 0 (.go sp.seq 0 (.go sp.receive 0 p)), ⟨y, hy, ?_, _, hseq, rfl, _, hreceive,
        ?_, hp⟩, rfl, hlast, Path.erase_go hkeep ?_⟩
      · rw [hexits]
        rfl
      · rw [hhead, ← hnext]
        rfl
      · rw [Path.erase_go_of_mem hseqNew, Path.erase_go_of_mem hreceiveNew, he]

end Rewired

end FlowGraph

namespace Procedure

/-- The paths of the graph after the pass, without the new blocks, are the paths of the graph before
it, and they meet the same statements. -/
theorem splitCommunication_paths {s t : Stage Procedure} {splits : List SplitBlocks}
    (valid : s.subject.graph.defects = .ok []) (split : splitCommunication s = .ok splits t) :
    (∀ p, t.subject.graph.IsPath p → t.subject.graph.entry.expand = some p.head →
      ∃ q, p.erase (splits.flatMap SplitBlocks.created) = some q ∧ s.subject.graph.IsPath q ∧
        s.subject.graph.entry.expand = some q.head ∧
        s.subject.graph.statements q = t.subject.graph.statements p) ∧
    ∀ q, s.subject.graph.IsPath q → s.subject.graph.entry.expand = some q.head →
      ∃! p, t.subject.graph.IsPath p ∧ t.subject.graph.entry.expand = some p.head ∧
        p.last ∉ splits.flatMap SplitBlocks.created ∧
        p.erase (splits.flatMap SplitBlocks.created) = some q := by
  have v := FlowGraph.Valid.of_defects valid
  obtain ⟨found, _, _, _, r⟩ := splitCommunication_rewired split v
  rw [r.entry]
  constructor
  · intro p hp hentry
    have hold := v.entry_listed _ hentry
    rcases r.erase_path v hp (.old hold) with ⟨hnew, _⟩ | ⟨q, he, hq, hhead, hs⟩
    · exact absurd hnew (r.old_not_created v hold)
    · exact ⟨q, he, hq, hhead ▸ hentry, hs⟩
  · intro q hq hentry
    obtain ⟨p, hp, hhead, hlast, he⟩ := r.lift_path v hq (v.entry_listed _ hentry)
    refine ⟨p, ⟨hp, hhead ▸ hentry, hlast, he⟩, ?_⟩
    rintro p' ⟨hp', hentry', hlast', he'⟩
    have hheads : p'.head = p.head := Option.some.inj (hentry'.symm.trans (hhead ▸ hentry))
    exact hp'.eq_of_erase r.created_single hp hheads hlast' hlast (he'.trans he.symm)

/-- Once around the loop, by the first exit of its head. -/
theorem splitCommunication_paths_of_twoSupersteps :
    ∃ splits p, splitCommunication (twoSupersteps 1) = .ok splits (afterSplit (twoSupersteps 1)) ∧
      (afterSplit (twoSupersteps 1)).subject.graph.IsPath p ∧
      p.erase (splits.flatMap SplitBlocks.created) =
        some (.go (Key.wrap 0) 0 (.go (Key.wrap 1) 0 (.stop (Key.wrap 0)))) := by
  obtain ⟨splits, h⟩ := twoSupersteps_split
  have valid : (twoSupersteps 1).subject.graph.defects = .ok [] := by decide +kernel
  have hpath : (twoSupersteps 1).subject.graph.IsPath
      (.go (Key.wrap 0) 0 (.go (Key.wrap 1) 0 (.stop (Key.wrap 0)))) :=
    ⟨_, rfl, rfl, _, rfl, rfl, _, rfl⟩
  obtain ⟨p, ⟨hp, _, _, he⟩, _⟩ := (splitCommunication_paths valid h).2 _ hpath (by decide +kernel)
  exact ⟨splits, p, h, hp, he⟩

end Procedure

end Superstep
