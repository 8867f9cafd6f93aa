import Superstep.Proofs.Mirrored

namespace Superstep

/-- A call of one operation on a block graph. -/
inductive Edit where
  | createBlock (kind : BlockKind)
  | appendBlock (b : Block)
  | setEntry (b : Block)
  | addExit (source target : Block)
  | addEntry (target source : Block)
  | clearExits (b : Block)
  | clearEntries (b : Block)
  | addSent (b : Block) (stmt : Stmt)
  | addReceiver (b : Block) (unit : CommUnit)
  | clearReceivers (b : Block)
  | setAfterVertex (b : Block) (value : Bool)
  | register (unit : CommUnit)
  | registerRandomWrite (host : Stmt) (symbol : Symbol)
  | addWrite (host : Stmt) (symbol : Symbol) (assign : Stmt)
  | split (b : Block)
  /-- Someone else takes the next id of the shared counter. -/
  | issueId
deriving DecidableEq

namespace Edit

/-- Forgets edges at one of their ends only. -/
def oneSided : Edit → Bool
  | clearExits _ | clearEntries _ => true
  | _ => false

def onRegistry {α : Type} (act : EStateM Fault Registry α) : Splitting.Act α :=
  onPart (·.graph.registry) (fun s registry => { s with graph.registry := registry }) .fault act

/-- What a call leaves behind, whether it succeeds, is refused or stops in the middle. -/
def apply : Edit → Splitting → Splitting
  | createBlock kind => finalState (Splitting.createBlock kind)
  | appendBlock b => finalState (Splitting.update (·.appendBlock b))
  | setEntry b => finalState (Splitting.update (·.setEntry b))
  | addExit source target => finalState (Splitting.update (·.addExit source target))
  | addEntry target source => finalState (Splitting.update (·.addEntry target source))
  | clearExits b => finalState (Splitting.update (·.clearExits b))
  | clearEntries b => finalState (Splitting.update (·.clearEntries b))
  | addSent b stmt => finalState (Splitting.update (·.updateBlock b (·.addSent stmt)))
  | addReceiver b unit => finalState (Splitting.update (·.updateBlock b (·.addReceiver unit)))
  | clearReceivers b => finalState (Splitting.update (·.updateBlock b BlockData.clearReceivers))
  | setAfterVertex b value =>
    finalState (Splitting.update (·.updateBlock b (·.setAfterVertex value)))
  | register unit => finalState (onRegistry (Registry.register unit))
  | registerRandomWrite host symbol =>
    finalState (onRegistry (Registry.registerRandomWrite host symbol))
  | addWrite host symbol assign =>
    finalState (onRegistry (modify (·.addWrite host symbol assign)))
  | split b => finalState (Splitting.splitVertexBlock b)
  | issueId => fun s => { s with ids := s.ids.issue.2 }

/-- The calls one after the other. -/
def run (edits : List Edit) (s : Splitting) : Splitting := edits.foldl (fun s e => e.apply s) s

end Edit

namespace FlowGraph

variable {g g' : FlowGraph}

namespace EdgesMirrored

theorem empty : ({} : FlowGraph).EdgesMirrored := by
  have vacant : ∀ k, ¬({} : FlowGraph).Allocated k := fun k hk =>
    Nat.not_lt_zero _ (allocated_iff.mp hk)
  exact ⟨fun a ha => absurd ha (vacant a), fun a x ha => absurd ha (vacant a),
    fun a x ha => absurd ha (vacant a), fun a c x y ha => absurd ha (vacant a)⟩

/-- Blocks whose edge lists are as they were, and new ones without edges, change nothing. -/
theorem of_sameEdges (m : g.EdgesMirrored) (keep : ∀ k, g.Allocated k → g'.Allocated k)
    (same : ∀ k x', g'.blocks.get? k = some x' →
      (∃ x, g.blocks.get? k = some x ∧ x'.exits = x.exits ∧ x'.entries = x.entries) ∨
      (¬g.Allocated k ∧ x'.exits = [] ∧ x'.entries = [])) : g'.EdgesMirrored where
  allocated := fun a ha => ha
  exit_mem := by
    intro a x' _ hx' c hc
    rcases same a x' hx' with ⟨x, hx, he, -⟩ | ⟨-, he, -⟩
    · exact keep c (m.exit_mem a x ⟨x, hx⟩ hx c (he ▸ hc))
    · simp [he] at hc
  entry_mem := by
    intro a x' _ hx' c hc
    rcases same a x' hx' with ⟨x, hx, -, he⟩ | ⟨-, -, he⟩
    · exact keep c (m.entry_mem a x ⟨x, hx⟩ hx c (he ▸ hc))
    · simp [he] at hc
  count_eq := by
    intro a c x' y' _ _ hx' hy'
    rcases same a x' hx' with ⟨x, hx, hexits, -⟩ | ⟨ha, hexits, -⟩ <;>
      rcases same c y' hy' with ⟨y, hy, -, hentries⟩ | ⟨hc, -, hentries⟩
    · rw [hexits, hentries]
      exact m.count_eq a c x y ⟨x, hx⟩ ⟨y, hy⟩ hx hy
    · have habsent : c ∉ x.exits := fun hm => hc (m.exit_mem a x ⟨x, hx⟩ hx c hm)
      simp [hexits, hentries, List.count_eq_zero_of_not_mem habsent]
    · have habsent : a ∉ y.entries := fun hm => ha (m.entry_mem c y ⟨y, hy⟩ hy a hm)
      simp [hexits, hentries, List.count_eq_zero_of_not_mem habsent]
    · simp [hexits, hentries]

theorem congr (m : g.EdgesMirrored) (h : g'.blocks = g.blocks) : g'.EdgesMirrored := by
  refine m.of_sameEdges (fun k hk => ?_) fun k x hx => Or.inl ⟨x, h ▸ hx, rfl, rfl⟩
  rwa [Allocated, h]

theorem push (m : g.EdgesMirrored) {data : BlockData} (hexits : data.exits = [])
    (hentries : data.entries = []) (h : g'.blocks = g.blocks.push data) : g'.EdgesMirrored := by
  refine m.of_sameEdges (fun k hk => ?_) fun k x hx => ?_
  · rw [allocated_iff] at hk ⊢
    rw [h, Table.size_push]
    omega
  · rw [h, Table.get?_push] at hx
    split at hx
    · cases hx
      refine Or.inr ⟨fun hk => ?_, hexits, hentries⟩
      have := allocated_iff.mp hk
      omega
    · exact Or.inl ⟨x, hx, rfl, rfl⟩

theorem updateBlock (m : g.EdgesMirrored) {b : Block} {f : BlockData → BlockData}
    (h : g.updateBlock b f = .ok g') (hexits : ∀ x, (f x).exits = x.exits)
    (hentries : ∀ x, (f x).entries = x.entries) : g'.EdgesMirrored := by
  refine m.of_sameEdges (fun k hk => ?_) fun k x' hx' => Or.inl ?_
  · rw [allocated_iff] at hk ⊢
    rwa [(updateBlock_outline h).size]
  · rw [updateBlock_lookup h] at hx'
    split at hx'
    · obtain ⟨x, hx, rfl⟩ := Option.map_eq_some_iff.mp hx'
      exact ⟨x, hx, hexits x, hentries x⟩
    · exact ⟨x', hx', rfl, rfl⟩

end EdgesMirrored

/-- An edge from a block to itself included. -/
theorem addExit_edges {a b : Block} (h : g.addExit a b = .ok g') :
    g.Allocated a ∧ g.Allocated b ∧ ∀ k, g'.blocks.get? k = (g.blocks.get? k).map fun x =>
      { x with
        exits := x.exits ++ if k = a then [b] else []
        entries := x.entries ++ if k = b then [a] else [] } := by
  by_cases hab : a = b
  · subst b
    unfold addExit at h
    rw [if_pos rfl] at h
    obtain ⟨x, hx, -⟩ := updateBlock_ok.mp h
    refine ⟨⟨x, hx⟩, ⟨x, hx⟩, fun k => (updateBlock_lookup h k).trans ?_⟩
    by_cases hk : k = a
    · simp [hk, BlockData.addExit, BlockData.addEntry]
    · simp [hk]
  · obtain ⟨x, y, hx, hy, -⟩ := addExit_ok hab h
    refine ⟨⟨x, hx⟩, ⟨y, hy⟩, fun k => (addExit_lookup hab h k).trans ?_⟩
    by_cases ha : k = a
    · simp [ha, hab, BlockData.addExit]
    · by_cases hb : k = b
      · simp [hb, Ne.symm hab, BlockData.addEntry]
      · simp [ha, hb]

theorem EdgesMirrored.addExit (m : g.EdgesMirrored) {a b : Block} (h : g.addExit a b = .ok g') :
    g'.EdgesMirrored := by
  obtain ⟨ha, hb, lookup⟩ := addExit_edges h
  have keep : ∀ k, g.Allocated k → g'.Allocated k := by
    intro k hk
    obtain ⟨x, hx⟩ := hk
    exact ⟨_, by rw [lookup, hx]; rfl⟩
  refine ⟨fun a ha => ha, ?_, ?_, ?_⟩
  · intro k x' _ hx' c hc
    rw [lookup] at hx'
    obtain ⟨x, hx, rfl⟩ := Option.map_eq_some_iff.mp hx'
    rcases List.mem_append.mp hc with hc | hc
    · exact keep c (m.exit_mem k x ⟨x, hx⟩ hx c hc)
    · split at hc
      · exact keep c (List.mem_singleton.mp hc ▸ hb)
      · cases hc
  · intro k x' _ hx' c hc
    rw [lookup] at hx'
    obtain ⟨x, hx, rfl⟩ := Option.map_eq_some_iff.mp hx'
    rcases List.mem_append.mp hc with hc | hc
    · exact keep c (m.entry_mem k x ⟨x, hx⟩ hx c hc)
    · split at hc
      · exact keep c (List.mem_singleton.mp hc ▸ ha)
      · cases hc
  · intro k c x' y' _ _ hx' hy'
    rw [lookup] at hx' hy'
    obtain ⟨x, hx, rfl⟩ := Option.map_eq_some_iff.mp hx'
    obtain ⟨y, hy, rfl⟩ := Option.map_eq_some_iff.mp hy'
    have hold := m.count_eq k c x y ⟨x, hx⟩ ⟨y, hy⟩ hx hy
    have hnew : (if k = a then [b] else []).count c = (if c = b then [a] else []).count k := by
      by_cases hka : k = a <;> by_cases hcb : c = b <;> simp [hka, hcb, Ne.symm]
    simp only [List.count_append, hold, hnew]

end FlowGraph

namespace Splitting

variable {s : Splitting}

theorem finalState_update (f : FlowGraph → Except Fault FlowGraph) (s : Splitting) :
    (∃ g, f s.graph = .ok g ∧ (finalState (update f) s).graph = g) ∨
      (finalState (update f) s).graph = s.graph := by
  cases h : f s.graph with
  | ok g =>
    have runs : update f s = .ok () { s with graph := g } := update_ok.mpr ⟨g, h, rfl⟩
    exact Or.inl ⟨g, rfl, congrArg graph (finalState_of_ok runs)⟩
  | error e =>
    have stops : update f s = .error (.fault e) s := updatePart_error.mpr ⟨e, h, rfl, rfl⟩
    exact Or.inr (congrArg graph (finalState_of_error stops))

theorem update_mirrored (m : s.graph.EdgesMirrored) {f : FlowGraph → Except Fault FlowGraph}
    (keeps : ∀ g, f s.graph = .ok g → g.EdgesMirrored) :
    (finalState (update f) s).graph.EdgesMirrored := by
  rcases finalState_update f s with ⟨g, hg, he⟩ | he
  · exact he ▸ keeps g hg
  · exact he ▸ m

theorem createBlock_mirrored (m : s.graph.EdgesMirrored) (kind : BlockKind) :
    (finalState (createBlock kind) s).graph.EdgesMirrored := by
  by_cases room : s.graph.blocks.size ≤ 0xFFFFFFFF
  · have h : createBlock kind s = .ok ⟨s.graph.blocks.size, room⟩ _ := createBlock_ok.mpr ⟨rfl, rfl⟩
    rw [finalState_of_ok h]
    exact m.push rfl rfl rfl
  · rw [finalState_of_error (createBlock_of_full (by omega))]
    exact m.push rfl rfl rfl

/-- A split that is refused changes nothing, one that runs out of keys leaves blocks without edges
behind, and from the listing on all edges are in place. -/
theorem splitVertexBlock_mirrored (m : s.graph.EdgesMirrored) (b : Block) :
    (finalState (splitVertexBlock b) s).graph.EdgesMirrored := by
  cases hreq : requireSplittable b s with
  | error e t =>
    have stops : splitVertexBlock b s = .error e t := bind_of_error hreq
    rw [finalState_of_error stops, (requireSplittable_still b s).2 e t hreq]
    exact m
  | ok next t =>
    obtain ⟨rfl, data, hs⟩ := requireSplittable_ok hreq
    by_cases room : s.graph.blocks.size + 2 ≤ 0x100000000
    · obtain ⟨p, rfl, hseq, hrec⟩ := exists_splitBlocks b room
      by_cases listed : p.seq ∈ s.graph.layout ∨ p.receive ∈ s.graph.layout
      · obtain ⟨t, g, stops, sp, hblocks⟩ := splitVertexBlock_of_listed hs hseq hrec listed
        rw [finalState_of_error stops]
        exact (sp.edgesMirrored hs m).congr hblocks
      · obtain ⟨seqFree, recFree⟩ := not_or.mp listed
        obtain ⟨t, runs, sp, -⟩ := splitVertexBlock_of_unlisted hs hseq hrec seqFree recFree
        rw [finalState_of_ok runs]
        exact sp.edgesMirrored hs m
    · obtain ⟨t, stops, hblocks | hblocks⟩ := splitVertexBlock_of_full hs (by omega)
      · rw [finalState_of_error stops]
        exact m.push rfl rfl hblocks
      · rw [finalState_of_error stops]
        have first : ({ s.graph with
            blocks := s.graph.blocks.push { id := s.ids.issue.1, kind := .seq } } :
              FlowGraph).EdgesMirrored := m.push rfl rfl rfl
        exact first.push rfl rfl hblocks

end Splitting

namespace Edit

/-- One call keeps the edges mirrored, however it ends. -/
theorem apply_mirrored {e : Edit} (twoSided : e.oneSided = false) {s : Splitting}
    (m : s.graph.EdgesMirrored) : (e.apply s).graph.EdgesMirrored := by
  cases e with
  | createBlock kind => exact Splitting.createBlock_mirrored m kind
  | appendBlock b =>
    refine Splitting.update_mirrored m fun g h => ?_
    obtain ⟨-, rfl⟩ := FlowGraph.appendBlock_ok.mp h
    exact m.congr rfl
  | setEntry b =>
    refine Splitting.update_mirrored m fun g h => ?_
    obtain ⟨_, _, h⟩ := except_bind_ok.mp h
    cases h
    exact m.congr rfl
  | addExit source target => exact Splitting.update_mirrored m fun g h => m.addExit h
  | addEntry target source => exact Splitting.update_mirrored m fun g h => m.addExit h
  | clearExits b => cases twoSided
  | clearEntries b => cases twoSided
  | addSent b stmt =>
    exact Splitting.update_mirrored m fun g h => m.updateBlock h (fun _ => rfl) fun _ => rfl
  | addReceiver b unit =>
    exact Splitting.update_mirrored m fun g h => m.updateBlock h (fun _ => rfl) fun _ => rfl
  | clearReceivers b =>
    exact Splitting.update_mirrored m fun g h => m.updateBlock h (fun _ => rfl) fun _ => rfl
  | setAfterVertex b value =>
    exact Splitting.update_mirrored m fun g h => m.updateBlock h (fun _ => rfl) fun _ => rfl
  | register unit => exact m.congr (by rw [apply, onRegistry, finalState_onPart])
  | registerRandomWrite host symbol => exact m.congr (by rw [apply, onRegistry, finalState_onPart])
  | addWrite host symbol assign => exact m.congr (by rw [apply, onRegistry, finalState_onPart])
  | split b => exact Splitting.splitVertexBlock_mirrored m b
  | issueId => exact m.congr rfl

theorem run_keeps_mirrored {edits : List Edit} (twoSided : ∀ e ∈ edits, e.oneSided = false)
    {s : Splitting} (m : s.graph.EdgesMirrored) : (run edits s).graph.EdgesMirrored := by
  induction edits generalizing s with
  | nil => exact m
  | cons e edits ih =>
    exact ih (fun e' he => twoSided e' (by simp [he])) (apply_mirrored (twoSided e (by simp)) m)

/-- A graph that is built from nothing without forgetting edges at one end records every edge
equally often at both ends. -/
theorem run_mirrored (ids : IdCounter) {edits : List Edit}
    (twoSided : ∀ e ∈ edits, e.oneSided = false) {g : FlowGraph}
    (built : (run edits { graph := {}, ids }).graph = g) :
    (∀ a b x y, g.blocks.get? a = some x → g.blocks.get? b = some y →
      x.exits.count b = y.entries.count a) ∧
    ∀ a x, g.blocks.get? a = some x → ∀ b, b ∈ x.exits ∨ b ∈ x.entries → g.Allocated b := by
  have m : g.EdgesMirrored := built ▸ run_keeps_mirrored twoSided FlowGraph.EdgesMirrored.empty
  constructor
  · intro a b x y hx hy
    exact m.count_eq a b x y ⟨x, hx⟩ ⟨y, hy⟩ hx hy
  · intro a x hx b hb
    exact hb.elim (m.exit_mem a x ⟨x, hx⟩ hx b) (m.entry_mem a x ⟨x, hx⟩ hx b)

/-- A block with a self loop and two parallel edges leads to a vertex block, which is split. The
edge to the block that does not exist and two of the splits fail. -/
def vertexAfterLoop : List Edit :=
  [.createBlock .ifCond, .createBlock .beginVertex, .createBlock .seq,
    .addExit (Key.wrap 0) (Key.wrap 0), .addExit (Key.wrap 0) (Key.wrap 1),
    .addEntry (Key.wrap 2) (Key.wrap 1), .addExit (Key.wrap 2) (Key.wrap 0),
    .addExit (Key.wrap 2) (Key.wrap 0), .addExit (Key.wrap 0) (Key.wrap 9),
    .split (Key.wrap 1), .addReceiver (Key.wrap 1) (.nested (Key.wrap 0)), .split (Key.wrap 1),
    .split (Key.wrap 1)]

theorem run_mirrored_of_vertexAfterLoop :
    ∃ g x y, (run vertexAfterLoop { graph := {}, ids := {} }).graph = g ∧ g.blocks.size = 5 ∧
      g.blocks.get? (Key.wrap 0) = some x ∧ g.blocks.get? (Key.wrap 2) = some y ∧
      x.exits = [Key.wrap 0, Key.wrap 1] ∧ x.exits.count (Key.wrap 0) = x.entries.count (Key.wrap 0) ∧
      y.exits = [Key.wrap 0, Key.wrap 0] ∧ y.exits.count (Key.wrap 0) = x.entries.count (Key.wrap 2) ∧
      y.entries = [Key.wrap 4] ∧ g.Allocated (Key.wrap 4) := by
  have twoSided : ∀ e ∈ vertexAfterLoop, e.oneSided = false := by decide
  have hfirst : (run vertexAfterLoop { graph := {}, ids := {} }).graph.blocks.get? (Key.wrap 0) =
      some { id := Key.wrap 0, kind := .ifCond, entries := [Key.wrap 0, Key.wrap 2, Key.wrap 2],
             exits := [Key.wrap 0, Key.wrap 1] } := by decide +kernel
  have hlast : (run vertexAfterLoop { graph := {}, ids := {} }).graph.blocks.get? (Key.wrap 2) =
      some { id := Key.wrap 2, kind := .seq, entries := [Key.wrap 4],
             exits := [Key.wrap 0, Key.wrap 0] } := by decide +kernel
  obtain ⟨counts, blocks⟩ := run_mirrored {} twoSided rfl
  exact ⟨_, _, _, rfl, by decide +kernel, hfirst, hlast, rfl, counts _ _ _ _ hfirst hfirst, rfl,
    counts _ _ _ _ hlast hfirst, rfl, blocks _ _ hlast _ (Or.inr (by simp))⟩

end Edit

end Superstep
