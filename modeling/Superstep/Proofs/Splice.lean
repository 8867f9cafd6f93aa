import Superstep.Communication.Split
import Superstep.Proofs.Lookup

namespace Superstep

namespace Splitting

variable {α : Type}

theorem look_ok {f : FlowGraph → Except Fault α} {s t : Splitting} {a : α} :
    look f s = .ok a t ↔ f s.graph = .ok a ∧ s = t := by
  unfold look
  cases f s.graph <;> simp

theorem look_error {f : FlowGraph → Except Fault α} {s t : Splitting} {e : CommError} :
    ¬look f s = .error (.error e) t := by
  unfold look
  cases f s.graph <;> simp

theorem update_ok {f : FlowGraph → Except Fault FlowGraph} {s t : Splitting} {u : Unit} :
    update f s = .ok u t ↔ ∃ g, f s.graph = .ok g ∧ t = { s with graph := g } :=
  updatePart_ok

theorem update_error {f : FlowGraph → Except Fault FlowGraph} {s t : Splitting} {e : CommError} :
    ¬update f s = .error (.error e) t := by
  simp [update, updatePart_error]

theorem createBlock_ok {kind : BlockKind} {s t : Splitting} {b : Block} :
    createBlock kind s = .ok b t ↔
      b.index = s.graph.blocks.size ∧
        t = { s with
          graph := { s.graph with blocks := s.graph.blocks.push { id := s.ids.issue.1, kind } }
          ids := s.ids.issue.2 } := by
  simp only [createBlock, onPart_ok, Prod.exists, FlowGraph.createBlock_ok]
  constructor
  · rintro ⟨g, ids, ⟨hb, rfl, rfl⟩, rfl⟩
    exact ⟨hb, rfl⟩
  · rintro ⟨hb, rfl⟩
    exact ⟨_, _, ⟨hb, rfl, rfl⟩, rfl⟩

theorem createBlock_error {kind : BlockKind} {s t : Splitting} {e : CommError} :
    ¬createBlock kind s = .error (.error e) t := by
  simp [createBlock, onPart_error]

theorem createBlock_of_full {kind : BlockKind} {s : Splitting}
    (full : 0xFFFFFFFF < s.graph.blocks.size) :
    createBlock kind s = .error (.fault .indexTooWide)
      { s with
        graph := { s.graph with blocks := s.graph.blocks.push { id := s.ids.issue.1, kind } }
        ids := s.ids.issue.2 } :=
  onPart_error.mpr ⟨_, (_, _), FlowGraph.createBlock_error.mpr ⟨full, rfl, rfl, rfl⟩, rfl, rfl⟩

theorem fail_ok {e : CommError} {s t : Splitting} {a : α} : ¬fail e s = .ok a t :=
  throw_ok

theorem nth_ok {edge : FlowGraph → Except Fault (Except EdgeError Block)} {s t : Splitting}
    {b : Block} : nth edge s = .ok b t ↔ edge s.graph = .ok (.ok b) ∧ s = t := by
  simp only [nth, bind_ok, look_ok]
  constructor
  · rintro ⟨r, _, ⟨hr, rfl⟩, h⟩
    cases r with
    | error e => exact absurd h fail_ok
    | ok c =>
      obtain ⟨rfl, rfl⟩ := pure_ok.mp h
      exact ⟨hr, rfl⟩
  · rintro ⟨hr, rfl⟩
    exact ⟨_, _, ⟨hr, rfl⟩, pure_ok.mpr ⟨rfl, rfl⟩⟩

section Run

variable {s : Splitting}

theorem bind_look {β : Type} {f : FlowGraph → Except Fault α} {a : α} {rest : α → Act β}
    (h : f s.graph = .ok a) : (look f >>= rest) s = rest a s :=
  bind_of_ok (look_ok.mpr ⟨h, rfl⟩)

theorem bind_update {f : FlowGraph → Except Fault FlowGraph} {g : FlowGraph} {rest : Unit → Act α}
    (h : f s.graph = .ok g) : (update f >>= rest) s = rest () { s with graph := g } :=
  bind_of_ok (a := ()) (update_ok.mpr ⟨g, h, rfl⟩)

end Run

theorem look_still (f : FlowGraph → Except Fault α) : Still (look f) := by
  intro s
  unfold look
  cases f s.graph <;> simp [eq_comm]

theorem nth_still (edge : FlowGraph → Except Fault (Except EdgeError Block)) :
    Still (nth edge) := by
  apply (look_still edge).bind
  intro r
  cases r with
  | error e => exact .throw _
  | ok b => exact .pure b

end Splitting

namespace FlowGraph

/-- What a split asks of a block `b` with the exit `next`. -/
structure Splittable (g : FlowGraph) (b next : Block) (data : BlockData) : Prop where
  lookup : g.blocks.get? b = some data
  vertex : data.isVertex = true
  receives : data.receivers ≠ []
  entry : ∃ prev x, data.entries = [prev] ∧ g.blocks.get? prev = some x ∧ x.isVertex = false
  exit : data.exits = [next]
  next : ∃ x, g.blocks.get? next = some x ∧ x.isVertex = false ∧ x.entries.length = 1

/-- The new sequential block of a split. -/
def seqBlock (id : BlockId) (p : SplitBlocks) : BlockData :=
  { id, kind := .seq, afterVertex := true, entries := [p.send], exits := [p.receive] }

/-- The new vertex block of a split, which takes over the receivers. -/
def receiveBlock (id : BlockId) (p : SplitBlocks) (next : Block) (receivers : List CommUnit) :
    BlockData :=
  { id, kind := .beginVertex, entries := [p.seq], exits := [next], receivers }

/-- The graph in which a block with the given data is split, block by block. -/
structure Spliced (g : FlowGraph) (ids : IdCounter) (p : SplitBlocks) (next : Block)
    (data : BlockData) (g' : FlowGraph) : Prop where
  seq_index : p.seq.index = g.blocks.size
  receive_index : p.receive.index = g.blocks.size + 1
  size : g'.blocks.size = g.blocks.size + 2
  layout : g'.layout = g.layout ++ [p.seq, p.receive]
  entry : g'.entry = g.entry
  registry : g'.registry = g.registry
  lookup : ∀ k, g'.blocks.get? k =
    if k = p.seq then some (seqBlock ids.issue.1 p)
    else if k = p.receive then some (receiveBlock ids.issue.2.issue.1 p next data.receivers)
    else if k = p.send then some { data with receivers := [], exits := [p.seq] }
    else if k = next then (g.blocks.get? k).map ({ · with entries := [p.receive] })
    else g.blocks.get? k

end FlowGraph

namespace Splitting

theorem nthEntry_ok {g : FlowGraph} {b prev : Block} {i : Nat} {data : BlockData}
    (hd : g.blocks.get? b = some data) :
    g.nthEntry b i = .ok (.ok prev) ↔ data.entries[i]? = some prev := by
  simp only [FlowGraph.nthEntry, except_bind_ok, FlowGraph.block_ok, hd, Option.some.injEq,
    exists_eq_left']
  cases data.entries[i]? <;> simp [pure, Except.pure]

theorem nthExit_ok {g : FlowGraph} {b next : Block} {i : Nat} {data : BlockData}
    (hd : g.blocks.get? b = some data) :
    g.nthExit b i = .ok (.ok next) ↔ data.exits[i]? = some next := by
  simp only [FlowGraph.nthExit, except_bind_ok, FlowGraph.block_ok, hd, Option.some.injEq,
    exists_eq_left']
  cases data.exits[i]? <;> simp [pure, Except.pure]

theorem requireSplittable_ok {b next : Block} {s t : Splitting}
    (h : requireSplittable b s = .ok next t) :
    s = t ∧ ∃ data, s.graph.Splittable b next data := by
  simp only [requireSplittable, bind_ok, look_ok, ite_outcome, fail_ok, nth_ok, pure_ok,
    FlowGraph.block_ok, false_and, exists_false, and_false, or_false, false_or] at h
  obtain ⟨data, _, ⟨hd, rfl⟩, hv, hr, hen, hex, prev, _, ⟨hp, rfl⟩, nx, _, ⟨hn, rfl⟩,
    prevData, _, ⟨hpd, rfl⟩, hpv, nextData, _, ⟨hnd, rfl⟩, hnv, hne, rfl, rfl⟩ := h
  refine ⟨rfl, data, hd, hv, by simpa [BlockData.hasReceiver] using hr, ?_, ?_, ?_⟩
  · obtain ⟨x, hx⟩ := List.length_eq_one_iff.mp hen
    have hpx : x = prev := by simpa [hx] using (nthEntry_ok hd).mp hp
    exact ⟨prev, prevData, hpx ▸ hx, hpd, by simpa using hpv⟩
  · obtain ⟨x, hx⟩ := List.length_eq_one_iff.mp hex
    have hnx : x = nx := by simpa [hx] using (nthExit_ok hd).mp hn
    exact hnx ▸ hx
  · exact ⟨nextData, hnd, by simpa using hnv, hne⟩

/-- The checks of a vertex block that receives and has one entry and one exit are those of its
neighbours. -/
theorem requireSplittable_eval {b prev next : Block} {x y : BlockData} {s : Splitting}
    (hx : s.graph.blocks.get? b = some x) (hv : x.isVertex = true) (hr : x.receivers ≠ [])
    (hen : x.entries = [prev]) (hex : x.exits = [next]) (hy : s.graph.blocks.get? prev = some y) :
    requireSplittable b s = (do
      if y.isVertex then fail (.vertexPredecessor x.id y.id)
      let z ← look (·.block next)
      if z.isVertex then fail (.vertexSuccessor x.id z.id)
      unless z.entries.length = 1 do fail (.successorEntryCount x.id z.id z.entries.length)
      return next) s := by
  have hprev : s.graph.nthEntry b 0 = .ok (.ok prev) := (nthEntry_ok hx).mpr (by simp [hen])
  have hnext : s.graph.nthExit b 0 = .ok (.ok next) := (nthExit_ok hx).mpr (by simp [hex])
  have hreceives : x.hasReceiver = true := by simpa [BlockData.hasReceiver] using hr
  refine (bind_look (FlowGraph.block_ok.mpr hx)).trans ?_
  refine (ite_of_pos hv s).trans <| (ite_of_pos hreceives s).trans ?_
  refine (ite_of_pos (by simp [hen]) s).trans <| (ite_of_pos (by simp [hex]) s).trans ?_
  refine (bind_of_ok (nth_ok.mpr ⟨hprev, rfl⟩)).trans ?_
  refine (bind_of_ok (nth_ok.mpr ⟨hnext, rfl⟩)).trans ?_
  exact bind_look (FlowGraph.block_ok.mpr hy)

theorem requireSplittable_of_splittable {b next : Block} {data : BlockData} {s : Splitting}
    (hs : s.graph.Splittable b next data) : requireSplittable b s = .ok next s := by
  obtain ⟨prev, x, hen, hp, hpv⟩ := hs.entry
  obtain ⟨y, hn, hnv, hlen⟩ := hs.next
  refine (requireSplittable_eval hs.lookup hs.vertex hs.receives hen hs.exit hp).trans ?_
  refine (ite_of_neg (by simp [hpv]) s).trans ?_
  refine (bind_look (FlowGraph.block_ok.mpr hn)).trans ?_
  exact (ite_of_neg (by simp [hnv]) s).trans (ite_of_pos hlen s)

theorem requireSplittable_still (b : Block) : Still (requireSplittable b) := by
  unfold requireSplittable
  refine (look_still _).bind fun data => ?_
  have refused : ∀ {β : Type} (e : CommError) (k : Unit → Act β), Still (fail e >>= k) := by
    intro β e k s
    exact ⟨fun a t h => by simp [bind_ok, fail_ok] at h, fun e' t h => by
      rcases bind_error.mp h with h | ⟨_, _, h, _⟩
      · exact (Still.throw _ s).2 _ t h
      · exact absurd h fail_ok⟩
  refine .ite (.ite (.ite (.ite ?_ (refused _ _)) (refused _ _)) (refused _ _)) (refused _ _)
  refine (nth_still _).bind fun prev => (nth_still _).bind fun next => ?_
  refine (look_still _).bind fun prevData => .ite (refused _ _) ?_
  refine (look_still _).bind fun nextData => .ite (refused _ _) ?_
  exact .ite (.pure next) (refused _ _)

theorem takeOver_error {b : Block} {units : List CommUnit} {s t : Splitting} {e : CommError} :
    ¬takeOver b units s = .error (.error e) t := by
  induction units generalizing s with
  | nil => exact pure_error
  | cons unit units ih =>
    intro h
    rcases bind_error.mp h with h | ⟨_, _, _, h⟩
    · exact update_error h
    · exact ih h

/-- The units that a block takes over stand behind those it had. -/
theorem takeOver_run {b : Block} {s : Splitting} (hb : b.index < s.graph.blocks.size)
    (units : List CommUnit) :
    ∃ g, takeOver b units s = .ok () { s with graph := g } ∧ s.graph.SameOutline g ∧
      ∀ k, g.blocks.get? k =
        if k = b then
          (s.graph.blocks.get? k).map fun d => { d with receivers := d.receivers ++ units }
        else s.graph.blocks.get? k := by
  induction units generalizing s with
  | nil => exact ⟨s.graph, rfl, .refl _, fun k => by simp⟩
  | cons unit units ih =>
    obtain ⟨g₁, first⟩ := FlowGraph.updateBlock_total hb (·.addReceiver unit)
    have outline := FlowGraph.updateBlock_outline first
    obtain ⟨g, later, outline', lookup⟩ := ih (s := { s with graph := g₁ }) (outline.size ▸ hb)
    refine ⟨g, (bind_update first).trans later, outline.trans outline', fun k => ?_⟩
    rw [lookup k, FlowGraph.updateBlock_lookup first k]
    split
    · rw [Option.map_map]
      congr 1
      funext d
      simp [BlockData.addReceiver]
    · rfl

theorem splitVertexBlock_error {b : Block} {s t : Splitting} {e : CommError}
    (h : splitVertexBlock b s = .error (.error e) t) : t = s := by
  simp only [splitVertexBlock, bind_error, look_error, createBlock_error, update_error,
    takeOver_error, modify_error, pure_error, and_false, exists_false, or_false] at h
  exact (requireSplittable_still b s).2 _ t h

/-- What the updates of a split make of each block, given the fresh blocks. -/
def Relinked (g g' : FlowGraph) (p : SplitBlocks) (next : Block) (receivers : List CommUnit) : Prop :=
  ∀ k, g'.blocks.get? k =
    if k = p.seq then (g.blocks.get? k).map fun d =>
      { d with afterVertex := true, entries := d.entries ++ [p.send], exits := d.exits ++ [p.receive] }
    else if k = p.receive then (g.blocks.get? k).map fun d =>
      { d with
        receivers := d.receivers ++ receivers
        entries := d.entries ++ [p.seq]
        exits := d.exits ++ [next] }
    else if k = p.send then (g.blocks.get? k).map ({ · with receivers := [], exits := [p.seq] })
    else if k = next then (g.blocks.get? k).map ({ · with entries := [p.receive] })
    else g.blocks.get? k

section Relink

variable {p : SplitBlocks} {next : Block} {receivers : List CommUnit}

theorem relinked_of_updates {g g1 g2 g3 g4 g5 g6 g7 g8 : FlowGraph}
    (hbn : p.send ≠ next) (hbs : p.send ≠ p.seq) (hbr : p.send ≠ p.receive)
    (hns : next ≠ p.seq) (hnr : next ≠ p.receive) (hsr : p.seq ≠ p.receive)
    (e1 : g.updateBlock p.seq (·.setAfterVertex true) = .ok g1)
    (e2 : ∀ k, g2.blocks.get? k =
      if k = p.receive then
        (g1.blocks.get? k).map fun d => { d with receivers := d.receivers ++ receivers }
      else g1.blocks.get? k)
    (e3 : g2.updateBlock p.send BlockData.clearReceivers = .ok g3)
    (e4 : g3.clearExits p.send = .ok g4) (e5 : g4.clearEntries next = .ok g5)
    (e6 : g5.addExit p.send p.seq = .ok g6) (e7 : g6.addExit p.seq p.receive = .ok g7)
    (e8 : g7.addExit p.receive next = .ok g8) : Relinked g g8 p next receivers := by
  intro k
  have l1 := FlowGraph.updateBlock_lookup e1 k
  have l2 := e2 k
  have l3 := FlowGraph.updateBlock_lookup e3 k
  have l4 := FlowGraph.updateBlock_lookup e4 k
  have l5 := FlowGraph.updateBlock_lookup e5 k
  have l6 := FlowGraph.addExit_lookup hbs e6 k
  have l7 := FlowGraph.addExit_lookup hsr e7 k
  have l8 := FlowGraph.addExit_lookup hnr.symm e8 k
  by_cases hks : k = p.seq
  · subst k
    simp only [hsr, hbs.symm, hns.symm, if_true, if_false] at l1 l2 l3 l4 l5 l6 l7 l8 ⊢
    rw [l8, l7, l6, l5, l4, l3, l2, l1]
    simp only [Option.map_map]
    rfl
  · by_cases hkr : k = p.receive
    · subst k
      simp only [hks, hbr.symm, hnr.symm, if_true, if_false] at l1 l2 l3 l4 l5 l6 l7 l8 ⊢
      rw [l8, l7, l6, l5, l4, l3, l2, l1]
      simp only [Option.map_map]
      rfl
    · by_cases hkb : k = p.send
      · subst k
        simp only [hks, hkr, hbn, if_true, if_false] at l1 l2 l3 l4 l5 l6 l7 l8 ⊢
        rw [l8, l7, l6, l5, l4, l3, l2, l1]
        simp only [Option.map_map]
        rfl
      · by_cases hkn : k = next
        · subst k
          simp only [hks, hkr, hkb, if_true, if_false] at l1 l2 l3 l4 l5 l6 l7 l8 ⊢
          rw [l8, l7, l6, l5, l4, l3, l2, l1]
          simp only [Option.map_map]
          rfl
        · simp only [hks, hkr, hkb, hkn, if_false] at l1 l2 l3 l4 l5 l6 l7 l8 ⊢
          rw [l8, l7, l6, l5, l4, l3, l2, l1]

/-- The updates of a split never stop, given the fresh blocks. -/
theorem relink_run {s : Splitting} (receivers : List CommUnit)
    (hbn : p.send ≠ next) (hbs : p.send ≠ p.seq) (hbr : p.send ≠ p.receive)
    (hns : next ≠ p.seq) (hnr : next ≠ p.receive) (hsr : p.seq ≠ p.receive)
    (hb : p.send.index < s.graph.blocks.size) (hn : next.index < s.graph.blocks.size)
    (hseq : p.seq.index < s.graph.blocks.size) (hrec : p.receive.index < s.graph.blocks.size) :
    ∃ g', s.graph.SameOutline g' ∧ Relinked s.graph g' p next receivers ∧
      ∀ rest : Act SplitBlocks, (do
        update (·.updateBlock p.seq (·.setAfterVertex true))
        takeOver p.receive receivers
        update (·.updateBlock p.send BlockData.clearReceivers)
        update (·.clearExits p.send)
        update (·.clearEntries next)
        update (·.addExit p.send p.seq)
        update (·.addExit p.seq p.receive)
        update (·.addExit p.receive next)
        rest) s = rest { s with graph := g' } := by
  obtain ⟨g1, e1⟩ := FlowGraph.updateBlock_total hseq (·.setAfterVertex true)
  have o1 := FlowGraph.updateBlock_outline e1
  obtain ⟨g2, queue, queued, e2⟩ :=
    takeOver_run (s := { s with graph := g1 }) (o1.size ▸ hrec) receivers
  have o2 := o1.trans queued
  obtain ⟨g3, e3⟩ := FlowGraph.updateBlock_total (o2.size ▸ hb) BlockData.clearReceivers
  have o3 := o2.trans (FlowGraph.updateBlock_outline e3)
  obtain ⟨g4, e4⟩ := FlowGraph.updateBlock_total (o3.size ▸ hb) ({ · with exits := [] })
  have o4 := o3.trans (FlowGraph.updateBlock_outline e4)
  obtain ⟨g5, e5⟩ := FlowGraph.updateBlock_total (o4.size ▸ hn) ({ · with entries := [] })
  have o5 := o4.trans (FlowGraph.updateBlock_outline e5)
  obtain ⟨g6, e6⟩ := FlowGraph.addExit_total hbs (o5.size ▸ hb) (o5.size ▸ hseq)
  have o6 := o5.trans (FlowGraph.addExit_outline hbs e6)
  obtain ⟨g7, e7⟩ := FlowGraph.addExit_total hsr (o6.size ▸ hseq) (o6.size ▸ hrec)
  have o7 := o6.trans (FlowGraph.addExit_outline hsr e7)
  obtain ⟨g8, e8⟩ := FlowGraph.addExit_total hnr.symm (o7.size ▸ hrec) (o7.size ▸ hn)
  have o8 := o7.trans (FlowGraph.addExit_outline hnr.symm e8)
  refine ⟨g8, o8, relinked_of_updates hbn hbs hbr hns hnr hsr e1 e2 e3 e4 e5 e6 e7 e8, ?_⟩
  intro rest
  refine (bind_update e1).trans ?_
  refine (bind_of_ok queue).trans ?_
  refine (bind_update e3).trans ?_
  refine (bind_update e4).trans ?_
  refine (bind_update e5).trans ?_
  refine (bind_update e6).trans ?_
  refine (bind_update e7).trans ?_
  exact bind_update e8

end Relink

/-- The state in which the two blocks of a split exist and no edge has changed. -/
def allot (s : Splitting) : Splitting :=
  { s with
    graph :=
      { s.graph with
        blocks := (s.graph.blocks.push { id := s.ids.issue.1, kind := .seq }).push
          { id := s.ids.issue.2.issue.1, kind := .beginVertex } }
    ids := s.ids.issue.2.issue.2 }

theorem size_allot (s : Splitting) : (allot s).graph.blocks.size = s.graph.blocks.size + 2 := by
  simp [allot]

section Split

variable {s : Splitting} {p : SplitBlocks} {next : Block} {data : BlockData}

theorem spliced_of_relinked {g : FlowGraph} (hs : s.graph.Splittable p.send next data)
    (hseq : p.seq.index = s.graph.blocks.size) (hrec : p.receive.index = s.graph.blocks.size + 1)
    (outline : (allot s).graph.SameOutline g)
    (relinked : Relinked (allot s).graph g p next data.receivers) :
    s.graph.Spliced s.ids p next data { g with layout := g.layout ++ [p.seq] ++ [p.receive] } := by
  have hsr : p.seq ≠ p.receive := by
    intro he
    rw [he] at hseq
    omega
  have hbi := Table.index_lt_of_get? hs.lookup
  have hbs : p.send ≠ p.seq := by
    intro he
    rw [he] at hbi
    omega
  have hbr : p.send ≠ p.receive := by
    intro he
    rw [he] at hbi
    omega
  refine ⟨hseq, hrec, outline.size.trans (size_allot s), ?_, outline.entry, outline.registry, ?_⟩
  · simp [outline.layout, allot]
  · intro k
    have isSeq : k.index = s.graph.blocks.size ↔ k = p.seq :=
      ⟨fun hk => Key.ext (hk.trans hseq.symm), fun hk => hk ▸ hseq⟩
    have isReceive : k.index = s.graph.blocks.size + 1 ↔ k = p.receive :=
      ⟨fun hk => Key.ext (hk.trans hrec.symm), fun hk => hk ▸ hrec⟩
    refine (relinked k).trans ?_
    simp only [allot, Table.get?_push, Table.size_push, isSeq, isReceive]
    by_cases hks : k = p.seq
    · simp [hks, hsr, FlowGraph.seqBlock]
    · by_cases hkr : k = p.receive
      · simp [hkr, hsr.symm, FlowGraph.receiveBlock]
      · by_cases hkb : k = p.send
        · simp [hkb, hbs, hbr, hs.lookup]
        · simp [hks, hkr, hkb]

/-- With two keys left, everything up to the listing of the new blocks is done, and what follows
the listing changes nothing in the graph. -/
theorem splitVertexBlock_eval (hs : s.graph.Splittable p.send next data)
    (hseq : p.seq.index = s.graph.blocks.size) (hrec : p.receive.index = s.graph.blocks.size + 1) :
    ∃ g last, g.layout = s.graph.layout ∧
      s.graph.Spliced s.ids p next data { g with layout := g.layout ++ [p.seq] ++ [p.receive] } ∧
      splitVertexBlock p.send s = (do
        update (·.appendBlock p.seq)
        update (·.appendBlock p.receive)
        last) { s with graph := g, ids := s.ids.issue.2.issue.2 } ∧
      ∀ t : Splitting, t.graph.Allocated p.seq → t.graph.Allocated p.receive →
        ∃ t', last t = .ok p t' ∧ t'.graph = t.graph ∧ t'.ids = t.ids := by
  obtain ⟨y, hy, hyv, -⟩ := hs.next
  have hbi := Table.index_lt_of_get? hs.lookup
  have hni := Table.index_lt_of_get? hy
  have hbn : p.send ≠ next := by
    intro he
    cases hs.lookup.symm.trans (he ▸ hy)
    simp [hs.vertex] at hyv
  have apart : ∀ {k l : Block}, k.index < l.index → k ≠ l := by
    intro k l hlt he
    rw [he] at hlt
    omega
  have hsize := size_allot s
  obtain ⟨g, outline, relinked, run⟩ := relink_run (s := allot s) data.receivers hbn
    (apart (by omega)) (apart (by omega)) (apart (by omega)) (apart (by omega)) (apart (by omega))
    (by omega) (by omega) (by omega) (by omega)
  refine ⟨g, _, outline.layout, spliced_of_relinked hs hseq hrec outline relinked,
    (bind_of_ok (requireSplittable_of_splittable hs)).trans <|
      (bind_look (FlowGraph.block_ok.mpr hs.lookup)).trans <|
      (bind_of_ok (createBlock_ok.mpr ⟨hseq, rfl⟩)).trans <|
      (bind_of_ok (createBlock_ok.mpr ⟨by simpa using hrec, rfl⟩)).trans <| run _, ?_⟩
  intro t hseq hrec
  obtain ⟨x, hx⟩ := hseq
  obtain ⟨z, hz⟩ := hrec
  exact ⟨_, (bind_look (FlowGraph.block_ok.mpr hx)).trans <|
    (bind_look (FlowGraph.block_ok.mpr hz)).trans rfl, rfl, rfl⟩

theorem splitVertexBlock_of_unlisted (hs : s.graph.Splittable p.send next data)
    (hseq : p.seq.index = s.graph.blocks.size) (hrec : p.receive.index = s.graph.blocks.size + 1)
    (seqFree : p.seq ∉ s.graph.layout) (recFree : p.receive ∉ s.graph.layout) :
    ∃ t, splitVertexBlock p.send s = .ok p t ∧ s.graph.Spliced s.ids p next data t.graph ∧
      t.ids = s.ids.issue.2.issue.2 := by
  obtain ⟨g, last, hlayout, spliced, eval, ends⟩ := splitVertexBlock_eval hs hseq hrec
  have hsr : p.receive ≠ p.seq := by
    intro he
    rw [he] at hrec
    omega
  have first : g.appendBlock p.seq = .ok { g with layout := g.layout ++ [p.seq] } :=
    FlowGraph.appendBlock_ok.mpr ⟨hlayout ▸ seqFree, rfl⟩
  have second : ({ g with layout := g.layout ++ [p.seq] } : FlowGraph).appendBlock p.receive =
      .ok { g with layout := g.layout ++ [p.seq] ++ [p.receive] } := by
    refine FlowGraph.appendBlock_ok.mpr ⟨?_, rfl⟩
    simp only [List.mem_append, List.mem_singleton, hlayout, recFree, hsr, or_self, not_false_eq_true]
  obtain ⟨t, ht, hgraph, hids⟩ := ends
    { s with
      graph := { g with layout := g.layout ++ [p.seq] ++ [p.receive] }
      ids := s.ids.issue.2.issue.2 }
    ⟨_, (spliced.lookup p.seq).trans (if_pos rfl)⟩
    ⟨_, (spliced.lookup p.receive).trans ((if_neg hsr).trans (if_pos rfl))⟩
  refine ⟨t, eval.trans ?_, hgraph ▸ spliced, hids⟩
  refine (bind_update first).trans ?_
  exact (bind_update second).trans ht

/-- A split stops at the listing if a new block is listed already. All blocks are then as if it
had gone on. -/
theorem splitVertexBlock_of_listed (hs : s.graph.Splittable p.send next data)
    (hseq : p.seq.index = s.graph.blocks.size) (hrec : p.receive.index = s.graph.blocks.size + 1)
    (listed : p.seq ∈ s.graph.layout ∨ p.receive ∈ s.graph.layout) :
    ∃ t g', splitVertexBlock p.send s = .error (.fault .listedTwice) t ∧
      s.graph.Spliced s.ids p next data g' ∧ t.graph.blocks = g'.blocks := by
  obtain ⟨g, last, hlayout, spliced, eval, -⟩ := splitVertexBlock_eval hs hseq hrec
  by_cases seqListed : p.seq ∈ s.graph.layout
  · have first : g.appendBlock p.seq = .error .listedTwice := if_pos (hlayout ▸ seqListed)
    exact ⟨_, _, eval.trans (bind_of_error (updatePart_error.mpr ⟨_, first, rfl, rfl⟩)), spliced,
      rfl⟩
  · have first : g.appendBlock p.seq = .ok { g with layout := g.layout ++ [p.seq] } :=
      FlowGraph.appendBlock_ok.mpr ⟨hlayout ▸ seqListed, rfl⟩
    have recListed : p.receive ∈ g.layout ++ [p.seq] :=
      List.mem_append_left _ (hlayout ▸ listed.resolve_left seqListed)
    have second : ({ g with layout := g.layout ++ [p.seq] } : FlowGraph).appendBlock p.receive =
        .error .listedTwice := if_pos recListed
    exact ⟨_, _, eval.trans <| (bind_update first).trans <|
      bind_of_error (updatePart_error.mpr ⟨_, second, rfl, rfl⟩), spliced, rfl⟩

/-- A split stops when there are no keys for its blocks. No edge has changed then. -/
theorem splitVertexBlock_of_full {b : Block} (hs : s.graph.Splittable b next data)
    (full : 0x100000000 < s.graph.blocks.size + 2) :
    ∃ t, splitVertexBlock b s = .error (.fault .indexTooWide) t ∧
      (t.graph.blocks = s.graph.blocks.push { id := s.ids.issue.1, kind := .seq } ∨
        t.graph.blocks = (allot s).graph.blocks) := by
  have checks : ∀ {rest : Block → BlockData → Act SplitBlocks},
      (requireSplittable b >>= fun next => look (·.block b) >>= rest next) s = rest next data s :=
    (bind_of_ok (requireSplittable_of_splittable hs)).trans (bind_look (FlowGraph.block_ok.mpr hs.lookup))
  by_cases none : 0xFFFFFFFF < s.graph.blocks.size
  · exact ⟨_, checks.trans (bind_of_error (createBlock_of_full none)), Or.inl rfl⟩
  · obtain ⟨seq, hseq⟩ : ∃ k : Block, k.index = s.graph.blocks.size :=
      ⟨⟨s.graph.blocks.size, by omega⟩, rfl⟩
    have last : 0xFFFFFFFF < (s.graph.blocks.push { id := s.ids.issue.1, kind := .seq }).size := by
      rw [Table.size_push]
      omega
    exact ⟨_, checks.trans <| (bind_of_ok (createBlock_ok.mpr ⟨hseq, rfl⟩)).trans <|
      bind_of_error (createBlock_of_full last), Or.inr rfl⟩

end Split

/-- The blocks of a split of `b` with the next two keys. -/
theorem exists_splitBlocks (b : Block) {n : Nat} (room : n + 2 ≤ 0x100000000) :
    ∃ p : SplitBlocks, p.send = b ∧ p.seq.index = n ∧ p.receive.index = n + 1 :=
  ⟨⟨b, ⟨n, by omega⟩, ⟨n + 1, by omega⟩⟩, rfl, rfl, rfl⟩

theorem splitVertexBlock_ok {b : Block} {s t : Splitting} {p : SplitBlocks}
    (h : splitVertexBlock b s = .ok p t) :
    p.send = b ∧ t.ids = s.ids.issue.2.issue.2 ∧ ∃ next data, s.graph.Splittable b next data ∧
      s.graph.Spliced s.ids p next data t.graph := by
  obtain ⟨next, _, hreq, -⟩ := bind_ok.mp h
  obtain ⟨rfl, data, hs⟩ := requireSplittable_ok hreq
  by_cases room : s.graph.blocks.size + 2 ≤ 0x100000000
  · obtain ⟨q, rfl, hseq, hrec⟩ := exists_splitBlocks b room
    by_cases listed : q.seq ∈ s.graph.layout ∨ q.receive ∈ s.graph.layout
    · obtain ⟨_, _, stops, _⟩ := splitVertexBlock_of_listed hs hseq hrec listed
      cases h.symm.trans stops
    · obtain ⟨seqFree, recFree⟩ := not_or.mp listed
      obtain ⟨_, runs, spliced, hids⟩ := splitVertexBlock_of_unlisted hs hseq hrec seqFree recFree
      cases h.symm.trans runs
      exact ⟨rfl, hids, next, data, hs, spliced⟩
  · obtain ⟨_, stops, _⟩ := splitVertexBlock_of_full hs (by omega)
    cases h.symm.trans stops

end Splitting

end Superstep
