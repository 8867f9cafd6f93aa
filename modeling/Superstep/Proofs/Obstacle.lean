import Superstep.Proofs.SplitPass

namespace Superstep

namespace FlowGraph

/-- The block has one entry and one exit, which are no vertex blocks, and the exit has one entry. -/
def InLine (g : FlowGraph) (b : Block) : Prop :=
  ∃ x prev next y z, g.blocks.get? b = some x ∧ x.entries = [prev] ∧ x.exits = [next] ∧
    g.blocks.get? prev = some y ∧ y.isVertex = false ∧
    g.blocks.get? next = some z ∧ z.isVertex = false ∧ z.entries.length = 1

/-- The first thing that keeps a block with some data from being in line. -/
inductive Obstacle (g : FlowGraph) (x : BlockData) : CommError → Prop
  | entryCount : x.entries.length ≠ 1 → Obstacle g x (.entryCount x.id x.entries.length)
  | exitCount : x.entries.length = 1 → x.exits.length ≠ 1 →
      Obstacle g x (.exitCount x.id x.exits.length)
  | vertexPredecessor {prev next : Block} {y : BlockData} : x.entries = [prev] → x.exits = [next] →
      g.blocks.get? prev = some y → y.isVertex = true → Obstacle g x (.vertexPredecessor x.id y.id)
  | vertexSuccessor {prev next : Block} {y z : BlockData} : x.entries = [prev] → x.exits = [next] →
      g.blocks.get? prev = some y → y.isVertex = false → g.blocks.get? next = some z →
      z.isVertex = true → Obstacle g x (.vertexSuccessor x.id z.id)
  | successorEntryCount {prev next : Block} {y z : BlockData} : x.entries = [prev] →
      x.exits = [next] → g.blocks.get? prev = some y → y.isVertex = false →
      g.blocks.get? next = some z → z.isVertex = false → z.entries.length ≠ 1 →
      Obstacle g x (.successorEntryCount x.id z.id z.entries.length)

variable {g g' : FlowGraph} {b : Block} {x x' : BlockData} {e : CommError}

theorem Obstacle.not_inLine (h : g.Obstacle x e) (hx : g.blocks.get? b = some x) : ¬g.InLine b := by
  rintro ⟨_, prev, next, y, z, hb, hen, hex, hy, hyv, hz, hzv, hlen⟩
  cases hx.symm.trans hb
  cases h with
  | entryCount hne => simp [hen] at hne
  | exitCount _ hne => simp [hex] at hne
  | vertexPredecessor hen' _ hy' hv =>
    cases hen.symm.trans hen'
    cases hy.symm.trans hy'
    cases hyv.symm.trans hv
  | vertexSuccessor _ hex' _ _ hz' hv =>
    cases hex.symm.trans hex'
    cases hz.symm.trans hz'
    cases hzv.symm.trans hv
  | successorEntryCount _ hex' _ _ hz' _ hne =>
    cases hex.symm.trans hex'
    cases hz.symm.trans hz'
    exact hne hlen

theorem obstacle_of_not_inLine (hx : g.blocks.get? b = some x)
    (entries : ∀ c ∈ x.entries, g.Allocated c) (exits : ∀ c ∈ x.exits, g.Allocated c)
    (h : ¬g.InLine b) : ∃ e, g.Obstacle x e := by
  by_cases hen : x.entries.length = 1
  · by_cases hex : x.exits.length = 1
    · obtain ⟨prev, hprev⟩ := List.length_eq_one_iff.mp hen
      obtain ⟨next, hnext⟩ := List.length_eq_one_iff.mp hex
      obtain ⟨y, hy⟩ := entries prev (by simp [hprev])
      obtain ⟨z, hz⟩ := exits next (by simp [hnext])
      cases hyv : y.isVertex with
      | true => exact ⟨_, .vertexPredecessor hprev hnext hy hyv⟩
      | false =>
        cases hzv : z.isVertex with
        | true => exact ⟨_, .vertexSuccessor hprev hnext hy hyv hz hzv⟩
        | false =>
          refine ⟨_, .successorEntryCount hprev hnext hy hyv hz hzv fun hlen => h ?_⟩
          exact ⟨x, prev, next, y, z, hx, hprev, hnext, hy, hyv, hz, hzv, hlen⟩
    · exact ⟨_, .exitCount hen hex⟩
  · exact ⟨_, .entryCount hen⟩

theorem Mirrored.obstacle_of_not_inLine {among : Block → Prop} (m : g.Mirrored among) (hb : among b)
    (hx : g.blocks.get? b = some x) (h : ¬g.InLine b) : ∃ e, g.Obstacle x e :=
  FlowGraph.obstacle_of_not_inLine hx (fun c hc => m.allocated c (m.entry_mem b x hb hx c hc))
    (fun c hc => m.allocated c (m.exit_mem b x hb hx c hc)) h

theorem InLine.splittable (h : g.InLine b) (hx : g.blocks.get? b = some x)
    (hv : x.isVertex = true) (hr : x.receivers ≠ []) : ∃ next, g.Splittable b next x := by
  obtain ⟨_, prev, next, y, z, hb, hen, hex, hy, hyv, hz⟩ := h
  cases hx.symm.trans hb
  exact ⟨next, hx, hv, hr, ⟨prev, y, hen, hy, hyv⟩, hex, z, hz⟩

theorem Obstacle.congr (h : g.Obstacle x e) (a : g.Alike g') (hid : x'.id = x.id)
    (hen : x'.entries = x.entries) (hex : x'.exits = x.exits) : g'.Obstacle x' e := by
  cases h with
  | entryCount hne =>
    rw [← hid, ← hen] at *
    exact .entryCount hne
  | exitCount hone hne =>
    rw [← hid, ← hex] at *
    exact .exitCount (hen ▸ hone) hne
  | vertexPredecessor hprev hnext hy hv =>
    obtain ⟨y', hy', hyid, hykind, -⟩ := a _ _ hy
    rw [← hid, ← hyid]
    refine .vertexPredecessor (hen.trans hprev) (hex.trans hnext) hy' ?_
    exact (BlockData.isVertex_of_kind hykind).trans hv
  | vertexSuccessor hprev hnext hy hyv hz hzv =>
    obtain ⟨y', hy', -, hykind, -⟩ := a _ _ hy
    obtain ⟨z', hz', hzid, hzkind, -⟩ := a _ _ hz
    rw [← hid, ← hzid]
    refine .vertexSuccessor (hen.trans hprev) (hex.trans hnext) hy' ?_ hz' ?_
    · exact (BlockData.isVertex_of_kind hykind).trans hyv
    · exact (BlockData.isVertex_of_kind hzkind).trans hzv
  | successorEntryCount hprev hnext hy hyv hz hzv hne =>
    obtain ⟨y', hy', -, hykind, -⟩ := a _ _ hy
    obtain ⟨z', hz', hzid, hzkind, hzlen⟩ := a _ _ hz
    rw [← hid, ← hzid, ← hzlen]
    refine .successorEntryCount (hen.trans hprev) (hex.trans hnext) hy' ?_ hz' ?_ (hzlen ▸ hne)
    · exact (BlockData.isVertex_of_kind hykind).trans hyv
    · exact (BlockData.isVertex_of_kind hzkind).trans hzv

theorem InLine.congr (h : g.InLine b) (hx : g.blocks.get? b = some x)
    (hx' : g'.blocks.get? b = some x') (a : g.Alike g') (hen : x'.entries = x.entries)
    (hex : x'.exits = x.exits) : g'.InLine b := by
  obtain ⟨_, prev, next, y, z, hb, hprev, hnext, hy, hyv, hz, hzv, hlen⟩ := h
  cases hx.symm.trans hb
  obtain ⟨y', hy', -, hykind, -⟩ := a _ _ hy
  obtain ⟨z', hz', -, hzkind, hzlen⟩ := a _ _ hz
  refine ⟨x', prev, next, y', z', hx', hen.trans hprev, hex.trans hnext, hy', ?_, hz', ?_,
    hzlen.trans hlen⟩
  · exact (BlockData.isVertex_of_kind hykind).trans hyv
  · exact (BlockData.isVertex_of_kind hzkind).trans hzv

end FlowGraph

namespace Splitting

variable {s : Splitting}

theorem requireSplittable_of_obstacle {b : Block} {x : BlockData} {e : CommError}
    (hx : s.graph.blocks.get? b = some x) (hv : x.isVertex = true) (hr : x.receivers ≠ [])
    (h : s.graph.Obstacle x e) : requireSplittable b s = .error (.error e) s := by
  have hreceives : x.hasReceiver = true := by simpa [BlockData.hasReceiver] using hr
  cases h with
  | entryCount hne =>
    refine (bind_look (FlowGraph.block_ok.mpr hx)).trans ?_
    refine (ite_of_pos hv s).trans <| (ite_of_pos hreceives s).trans ?_
    exact (ite_of_neg hne s).trans (bind_of_error rfl)
  | exitCount hone hne =>
    refine (bind_look (FlowGraph.block_ok.mpr hx)).trans ?_
    refine (ite_of_pos hv s).trans <| (ite_of_pos hreceives s).trans <| (ite_of_pos hone s).trans ?_
    exact (ite_of_neg hne s).trans (bind_of_error rfl)
  | vertexPredecessor hprev hnext hy hyv =>
    refine (requireSplittable_eval hx hv hr hprev hnext hy).trans ?_
    exact (ite_of_pos hyv s).trans (bind_of_error rfl)
  | vertexSuccessor hprev hnext hy hyv hz hzv =>
    refine (requireSplittable_eval hx hv hr hprev hnext hy).trans ?_
    refine (ite_of_neg (by simp [hyv]) s).trans <| (bind_look (FlowGraph.block_ok.mpr hz)).trans ?_
    exact (ite_of_pos hzv s).trans (bind_of_error rfl)
  | successorEntryCount hprev hnext hy hyv hz hzv hne =>
    refine (requireSplittable_eval hx hv hr hprev hnext hy).trans ?_
    refine (ite_of_neg (by simp [hyv]) s).trans <| (bind_look (FlowGraph.block_ok.mpr hz)).trans ?_
    exact (ite_of_neg (by simp [hzv]) s).trans <| (ite_of_neg hne s).trans (bind_of_error rfl)

/-- Vertex blocks that receive are split in turn up to the first one that is not in line, and what
stops there is the obstacle that was there at first. -/
theorem splitBlocks_outcome (v : s.graph.Valid) {bs : List Block} (nodup : bs.Nodup)
    (receive : ∀ b ∈ bs, ∃ x, s.graph.Listed b x ∧ x.isVertex = true ∧ x.receivers ≠ []) :
    (0x100000000 < s.graph.blocks.size + 2 * bs.length ∧
      ∃ t, bs.mapM splitVertexBlock s = .error (.fault .indexTooWide) t) ∨
    ((∀ b ∈ bs, s.graph.InLine b) ∧ ∃ splits t, bs.mapM splitVertexBlock s = .ok splits t) ∨
    ∃ done b rest x e splits t, bs = done ++ b :: rest ∧ (∀ c ∈ done, s.graph.InLine c) ∧
      s.graph.blocks.get? b = some x ∧ s.graph.Obstacle x e ∧
      bs.mapM splitVertexBlock s = .error (.error e) t ∧ splits.map SplitBlocks.send = done ∧
      s.graph.Rewired (fun _ rs => rs) splits t.graph := by
  have m := v.mirrored_layout
  have free : ∀ n, ∀ k ∈ s.graph.layout, k.index < s.graph.blocks.size ∨ n ≤ k.index :=
    fun _ k hk => Or.inl (v.index_lt hk)
  have splittable : ∀ b ∈ bs, s.graph.InLine b →
      b ∈ s.graph.layout ∧ ∃ next data, s.graph.Splittable b next data := by
    intro b hb hline
    obtain ⟨x, hx, hv, hr⟩ := receive b hb
    obtain ⟨next, hs⟩ := hline.splittable hx.2 hv hr
    exact ⟨hx.1, next, x, hs⟩
  by_cases all : ∀ b ∈ bs, s.graph.InLine b
  · rcases splitBlocks_total m .nil (by simp) nodup (fun b hb => splittable b hb (all b hb))
      (by simp) (free _) with ok | full
    · exact Or.inr (Or.inl ⟨all, ok⟩)
    · exact Or.inl (by simpa using full)
  · classical
    simp only [not_forall, exists_prop] at all
    obtain ⟨c, hc, hline⟩ := all
    obtain ⟨b, done, rest, before, hb, rfl, -⟩ := List.exists_of_eraseP
      (p := fun b => decide ¬s.graph.InLine b) hc (by simpa using hline)
    have hdone : ∀ c ∈ done, s.graph.InLine c := fun c hc => by simpa using before c hc
    obtain ⟨hnodup, -, hapart⟩ := List.nodup_append.mp nodup
    rcases splitBlocks_total m .nil (by simp) hnodup
      (fun c hc => splittable c (by simp [hc]) (hdone c hc)) (by simp) (free _) with
        ⟨splits, t, ok⟩ | ⟨full, t, stops⟩
    · obtain ⟨hsend, run⟩ := splitBlocks_ok .nil ok
      obtain ⟨x, hx, hv, hr⟩ := receive b (by simp)
      obtain ⟨e, he⟩ := m.obstacle_of_not_inLine hx.1 hx.2 (by simpa using hb)
      have r : s.graph.Rewired (fun _ rs => rs) splits t.graph := by
        refine run.rewired v fun p hp => ?_
        have hp : p.send ∈ done := hsend ▸ List.mem_map_of_mem hp
        exact (splittable _ (by simp [hp]) (hdone _ hp)).1
      have unsplit : ∀ p ∈ splits, b ≠ p.send := fun p hp =>
        (hapart _ (hsend ▸ List.mem_map_of_mem hp) b (by simp)).symm
      have stops : splitVertexBlock b t = .error (.error e) t :=
        bind_of_error (requireSplittable_of_obstacle (r.lookup_vertex hx.2 hv unsplit) hv hr
          (he.congr r.alike rfl rfl rfl))
      refine Or.inr (Or.inr ⟨done, b, rest, x, e, splits, t, rfl, hdone, hx.2, he, ?_, hsend, r⟩)
      rw [List.mapM_append, List.mapM_cons]
      exact (bind_of_ok ok).trans (bind_of_error (bind_of_error stops))
    · refine Or.inl ⟨?_, t, ?_⟩
      · simp only [List.length_nil, List.length_append] at full ⊢
        omega
      · rw [List.mapM_append]
        exact bind_of_error stops

end Splitting

namespace Body.Surveyed

variable {body body' : Body} {found : List (Block × CommUnit)}

theorem alike (h : body.Surveyed found body') : body'.graph.Alike body.graph := by
  intro b y hy
  obtain ⟨x, hx, rfl⟩ := h.lookup_before hy
  exact ⟨x, hx, rfl, rfl, rfl⟩

theorem inLine_before (h : body.Surveyed found body') {b : Block} (hb : body'.graph.InLine b) :
    body.graph.InLine b := by
  obtain ⟨y, _, _, _, _, hy, _⟩ := id hb
  obtain ⟨x, hx, rfl⟩ := h.lookup_before hy
  exact hb.congr hy hx h.alike rfl rfl

theorem obstacle_before (h : body.Surveyed found body') {b : Block} {y : BlockData} {e : CommError}
    (hy : body'.graph.blocks.get? b = some y) (he : body'.graph.Obstacle y e) :
    ∃ x, body.graph.blocks.get? b = some x ∧ body.graph.Obstacle x e := by
  obtain ⟨x, hx, rfl⟩ := h.lookup_before hy
  exact ⟨x, hx, he.congr h.alike rfl rfl rfl⟩

end Body.Surveyed

namespace Procedure

variable {s s₁ : Stage Procedure} {targets : TargetBlocks}

/-- The blocks found to communicate are different vertex blocks, and have something to receive
afterwards. -/
theorem findCommunication_receives (v : s.subject.graph.Valid)
    (found : findCommunication s = .ok targets s₁) :
    targets.order.Nodup ∧ ∀ b ∈ targets.order, ∃ x, s₁.subject.graph.Listed b x ∧
      x.isVertex = true ∧ x.receivers ≠ [] := by
  obtain ⟨_, hits, hc, hs, hord⟩ := findCommunication_ok found
  constructor
  · exact hord ▸ nodup_eraseDups _
  · intro b hb
    rw [hord, List.mem_eraseDups] at hb
    obtain ⟨p, hp, rfl⟩ := List.mem_map.mp hb
    obtain ⟨hreached, x, hx, hv⟩ := hc.sender p hp
    have hl := v.reached_listed hreached
    refine ⟨_, ⟨hs.layout ▸ hl, hs.lookup_after hx⟩, hv, ?_⟩
    exact foldl_appendNew_ne_nil (List.ne_nil_of_mem (mem_unitsOf.mpr hp))

/-- Once the communication is found, the pass is a run of splits. -/
theorem splitCommunication_of_found (found : findCommunication s = .ok targets s₁) :
    ∃ s₂ : Stage Procedure, s₂.subject = s₁.subject ∧
      splitCommunication s = targets.order.mapM splitVertexBlock s₂ := by
  by_cases hn : s.subject.graph.entry.isNone = true
  · cases found.symm.trans (findCommunication_of_isNone hn)
    exact ⟨s, rfl, (bind_of_ok rfl).trans (ite_of_pos hn s)⟩
  · refine ⟨_, ?_, (bind_of_ok rfl).trans <| (ite_of_neg hn s).trans <|
      (bind_of_ok found).trans (bind_of_ok rfl)⟩
    rfl

/-- How the pass ends, told from the procedure before it. -/
theorem splitCommunication_outcome (v : s.subject.graph.Valid)
    (found : findCommunication s = .ok targets s₁) :
    (0x100000000 < s.subject.graph.blocks.size + 2 * targets.order.length ∧
      ∃ t, splitCommunication s = .error (.fault .indexTooWide) t) ∨
    ((∀ b ∈ targets.order, s.subject.graph.InLine b) ∧
      ∃ splits t, splitCommunication s = .ok splits t) ∨
    ∃ done b rest x e splits t, targets.order = done ++ b :: rest ∧
      (∀ c ∈ done, s.subject.graph.InLine c) ∧ s.subject.graph.blocks.get? b = some x ∧
      s.subject.graph.Obstacle x e ∧ splitCommunication s = .error (.error e) t ∧
      splits.map SplitBlocks.send = done ∧
      s₁.subject.graph.Rewired (fun _ rs => rs) splits t.subject.graph := by
  obtain ⟨v₁, _⟩ := findCommunication_valid found v
  obtain ⟨_, _, _, hs, _⟩ := findCommunication_ok found
  obtain ⟨nodup, receive⟩ := findCommunication_receives v found
  obtain ⟨s₂, hsubject, heq⟩ := splitCommunication_of_found found
  rw [splitBlocks_eq] at heq
  rw [← hsubject] at v₁ hs receive ⊢
  rcases Splitting.splitBlocks_outcome (s := ⟨s₂.subject.graph, s₂.context.ids, s₂.console.log⟩)
    v₁ nodup receive with ⟨full, t, stops⟩ | ⟨all, splits, t, ok⟩ |
      ⟨done, b, rest, y, e, splits, t, horder, hdone, hy, he, fails, hsend, r⟩
  · exact Or.inl ⟨hs.size ▸ full, _, heq.trans (onPart_error.mpr ⟨_, t, stops, rfl, rfl⟩)⟩
  · exact Or.inr (Or.inl ⟨fun b hb => hs.inLine_before (all b hb), splits, _,
      heq.trans (onPart_ok.mpr ⟨t, ok, rfl⟩)⟩)
  · obtain ⟨x, hx, he'⟩ := hs.obstacle_before hy he
    exact Or.inr (Or.inr ⟨done, b, rest, x, e, splits, _, horder,
      fun c hc => hs.inLine_before (hdone c hc), hx, he',
      heq.trans (onPart_error.mpr ⟨_, t, fails, rfl, rfl⟩), hsend, r⟩)

/-- Splits do not get in each other's way: the pass succeeds if all targets are in line at first,
and else the first one that is not stops it. -/
theorem splitCommunication_obstacle (valid : s.subject.graph.defects = .ok [])
    (found : findCommunication s = .ok targets s₁) :
    (0x100000000 < s.subject.graph.blocks.size + 2 * targets.order.length ∧
      ∃ t, splitCommunication s = .error (.fault .indexTooWide) t) ∨
    (((∃ splits t, splitCommunication s = .ok splits t) ↔
        ∀ b ∈ targets.order, s.subject.graph.InLine b) ∧
      ((¬∀ b ∈ targets.order, s.subject.graph.InLine b) → ∃ done b rest x e splits t,
        targets.order = done ++ b :: rest ∧ (∀ c ∈ done, s.subject.graph.InLine c) ∧
        ¬s.subject.graph.InLine b ∧ s.subject.graph.blocks.get? b = some x ∧
        s.subject.graph.Obstacle x e ∧ splitCommunication s = .error (.error e) t ∧
        splits.map SplitBlocks.send = done ∧
        s₁.subject.graph.Rewired (fun _ rs => rs) splits t.subject.graph) ∧
      ∀ e t, splitCommunication s = .error (.error e) t → (∀ id, e ≠ .notVertexBlock id) ∧
        (∀ id, e ≠ .noReceivers id) ∧ ∀ missing, e ≠ .edge missing) := by
  have v := FlowGraph.Valid.of_defects valid
  rcases splitCommunication_outcome v found with full | ⟨all, splits, t, ok⟩ |
    ⟨done, b, rest, x, e, splits, t, horder, hdone, hx, he, fails, hsend, r⟩
  · exact Or.inl full
  · refine Or.inr ⟨⟨fun _ => all, fun _ => ⟨splits, t, ok⟩⟩, fun h => absurd all h, ?_⟩
    intro e t' h
    cases ok.symm.trans h
  · have hb := he.not_inLine hx
    refine Or.inr ⟨⟨?_, fun all => absurd (all b (by simp [horder])) hb⟩, fun _ => ?_, ?_⟩
    · rintro ⟨splits', t', ok⟩
      cases fails.symm.trans ok
    · exact ⟨done, b, rest, x, e, splits, t, horder, hdone, hb, hx, he, fails, hsend, r⟩
    · intro e' t' h
      cases fails.symm.trans h
      cases he <;> simp

/-- The first superstep is in line, and has been split when the two exits of the second one stop
the pass. -/
theorem splitCommunication_obstacle_of_twoSupersteps :
    ∃ targets s₁ t, findCommunication (twoSupersteps 2) = .ok targets s₁ ∧
      targets.order = [Key.wrap 1, Key.wrap 3] ∧
      splitCommunication (twoSupersteps 2) = .error (.error (.exitCount (Key.wrap 3) 2)) t ∧
      t.subject.graph.layout.length = s₁.subject.graph.layout.length + 2 := by
  have run : ((match findCommunication (twoSupersteps 2) with
      | .ok targets _ => some targets.order
      | .error _ _ => none) : Option (List Block)) = some [Key.wrap 1, Key.wrap 3] := by
    decide +kernel
  have valid : (twoSupersteps 2).subject.graph.defects = .ok [] := by decide +kernel
  have hsize : (twoSupersteps 2).subject.graph.blocks.size = 5 := by decide +kernel
  have first : (twoSupersteps 2).subject.graph.InLine (Key.wrap 1) :=
    ⟨_, Key.wrap 0, Key.wrap 0, _, _, rfl, rfl, rfl, rfl, rfl, rfl, rfl, rfl⟩
  have second : (twoSupersteps 2).subject.graph.blocks.get? (Key.wrap 3) = some
      { id := Key.wrap 3, kind := .beginVertex, entries := [Key.wrap 2],
        exits := [Key.wrap 4, Key.wrap 4], sents := [Key.wrap 4] } := rfl
  have blocked : ¬(twoSupersteps 2).subject.graph.InLine (Key.wrap 3) :=
    FlowGraph.Obstacle.not_inLine (.exitCount rfl (by simp)) second
  cases found : findCommunication (twoSupersteps 2) with
  | error e t => simp [found] at run
  | ok targets s₁ =>
    simp only [found, Option.some.injEq] at run
    rcases splitCommunication_obstacle valid found with ⟨full, _⟩ | ⟨_, stops, _⟩
    · rw [hsize, run] at full
      simp at full
    · obtain ⟨done, b, rest, x, e, splits, t, horder, hdone, hb, hx, he, fails, hsend, r⟩ :=
        stops fun all => blocked (all _ (by simp [run]))
      have hlast : done = [Key.wrap 1] ∧ b = Key.wrap 3 := by
        rw [run] at horder
        rcases List.cons_eq_append_iff.mp horder with ⟨rfl, hcons⟩ | ⟨done', rfl, hrest⟩
        · cases hcons
          exact absurd first hb
        · rcases List.singleton_eq_append_iff.mp hrest with ⟨rfl, hcons⟩ | ⟨-, hcons⟩
          · cases hcons
            exact ⟨rfl, rfl⟩
          · cases hcons
      obtain ⟨rfl, rfl⟩ := hlast
      cases second.symm.trans hx
      have hlayout : t.subject.graph.layout.length = s₁.subject.graph.layout.length + 2 := by
        have hlength : splits.length = 1 := by simpa using congrArg List.length hsend
        obtain ⟨p, rfl⟩ := List.length_eq_one_iff.mp hlength
        simp [r.layout, SplitBlocks.created]
      cases he with
      | exitCount => exact ⟨targets, s₁, t, rfl, run, fails, hlayout⟩
      | entryCount hne => simp at hne
      | vertexPredecessor _ hex => simp at hex
      | vertexSuccessor _ hex => simp at hex
      | successorEntryCount _ hex => simp at hex

end Procedure

end Superstep
