import Superstep.Proofs.Reached
import Superstep.Proofs.Registration
import Superstep.Proofs.Valid

namespace Superstep

namespace FlowGraph

/-- Every key in the layout, as the entry and in the edge lists names a block. -/
structure Closed (g : FlowGraph) : Prop where
  layout : ∀ b ∈ g.layout, g.Allocated b
  entry : ∀ b, g.entry.expand = some b → g.Allocated b
  exits : ∀ a x, g.blocks.get? a = some x → ∀ b ∈ x.exits, g.Allocated b
  entries : ∀ a x, g.blocks.get? a = some x → ∀ b ∈ x.entries, g.Allocated b

theorem layoutDefects_total {g : FlowGraph} {rest : List Block} (h : ∀ b ∈ rest, g.Allocated b)
    (registered : BlockSet) (ids : List BlockId) :
    ∃ ds, g.layoutDefects rest registered ids = .ok ds := by
  induction rest generalizing registered ids with
  | nil => exact ⟨([], registered), rfl⟩
  | cons b rest ih =>
    obtain ⟨data, hd⟩ := h b (by simp)
    obtain ⟨others, ho⟩ := ih (fun c hc => h c (by simp [hc])) (registered.insert b).2
      (data.id :: ids)
    exact ⟨_, except_bind_ok.mpr ⟨data, block_ok.mpr hd, except_bind_ok.mpr ⟨others, ho, rfl⟩⟩⟩

theorem entryDefects_total {g : FlowGraph} (h : ∀ b, g.entry.expand = some b → g.Allocated b)
    (registered : BlockSet) : ∃ ds, g.entryDefects registered = .ok ds := by
  unfold entryDefects
  cases he : g.entry.expand with
  | none => exact ⟨[], rfl⟩
  | some b =>
    obtain ⟨data, hd⟩ := h b he
    by_cases hl : registered.contains b = true
    · exact ⟨[], if_pos hl⟩
    · exact ⟨_, (if_neg hl).trans (except_bind_ok.mpr ⟨data, block_ok.mpr hd, rfl⟩)⟩

theorem exitDefects_total {g : FlowGraph} {succ : Block} (h : g.Allocated succ)
    (registered : BlockSet) (b : Block) (data : BlockData) :
    ∃ ds, g.exitDefects registered b data succ = .ok ds := by
  obtain ⟨x, hx⟩ := h
  exact ⟨_, except_bind_ok.mpr ⟨x, block_ok.mpr hx, rfl⟩⟩

theorem entryEdgeDefects_total {g : FlowGraph} {pred : Block} (h : g.Allocated pred)
    (registered : BlockSet) (b : Block) (data : BlockData) :
    ∃ ds, g.entryEdgeDefects registered b data pred = .ok ds := by
  obtain ⟨x, hx⟩ := h
  exact ⟨_, except_bind_ok.mpr ⟨x, block_ok.mpr hx, rfl⟩⟩

theorem Closed.blockDefects_total {g : FlowGraph} (closed : g.Closed) {b : Block}
    (hb : g.Allocated b) (registered : BlockSet) : ∃ ds, g.blockDefects registered b = .ok ds := by
  obtain ⟨data, hd⟩ := hb
  have hexits : ∀ c ∈ data.exits, ∃ ds, g.exitDefects registered b data c = .ok ds := fun c hc =>
    exitDefects_total (closed.exits b data hd c hc) registered b data
  have hentries : ∀ c ∈ data.entries, ∃ ds, g.entryEdgeDefects registered b data c = .ok ds :=
    fun c hc => entryEdgeDefects_total (closed.entries b data hd c hc) registered b data
  obtain ⟨exits, he⟩ := except_mapM_total hexits
  obtain ⟨entries, hp⟩ := except_mapM_total hentries
  exact ⟨_, except_bind_ok.mpr ⟨data, block_ok.mpr hd, except_bind_ok.mpr ⟨exits, he,
    except_bind_ok.mpr ⟨entries, hp, rfl⟩⟩⟩⟩

/-- A closed graph gets a verdict. -/
theorem Closed.defects_total {g : FlowGraph} (closed : g.Closed) : ∃ ds, g.defects = .ok ds := by
  obtain ⟨layout, hl⟩ := layoutDefects_total closed.layout .empty []
  obtain ⟨entry, he⟩ := entryDefects_total closed.entry layout.2
  have hblocks : ∀ b ∈ g.layout, ∃ ds, g.blockDefects layout.2 b = .ok ds := fun b hb =>
    closed.blockDefects_total (closed.layout b hb) layout.2
  obtain ⟨blocks, hb⟩ := except_mapM_total hblocks
  exact ⟨_, except_bind_ok.mpr ⟨layout, hl, except_bind_ok.mpr ⟨entry, he,
    except_bind_ok.mpr ⟨blocks, hb, rfl⟩⟩⟩⟩

/-- The verdict on a closed graph is sound and complete: no defect is reported exactly if every
rule holds for all listed blocks and all pairs of them. -/
theorem Closed.defects_nil_iff {g : FlowGraph} (closed : g.Closed) :
    ∃ ds, g.defects = .ok ds ∧ (ds = [] ↔
      g.layout.Nodup ∧
      (∀ a b x y, g.Listed a x → g.Listed b y → x.id = y.id → a = b) ∧
      (∀ b, g.entry.expand = some b → b ∈ g.layout) ∧
      (∀ a b x, g.Listed a x → g.Allocated b → b ∈ x.exits ∨ b ∈ x.entries → b ∈ g.layout) ∧
      (∀ a b x y, g.Listed a x → g.Listed b y → x.exits.count b = y.entries.count a) ∧
      (∀ a x, g.Listed a x → x.afterVertex = true → x.kind = .seq) ∧
      (∀ a x, g.Listed a x → x.receivers ≠ [] → x.kind = .beginVertex) ∧
      (∀ a x, g.Listed a x → ∀ u ∈ x.receivers, ∃ id, g.registry.units.get? id = some u) ∧
      ∀ a x, g.Listed a x → x.receivers.Nodup) := by
  obtain ⟨ds, hds⟩ := closed.defects_total
  refine ⟨ds, hds, ?_⟩
  have vertex : ∀ x : BlockData, x.isVertex = true ↔ x.kind = .beginVertex := fun x =>
    decide_eq_true_iff
  constructor
  · intro hnil
    have v := Valid.of_defects (hnil ▸ hds)
    refine ⟨v.layout_nodup, v.id_inj, v.entry_listed, ?_, v.mirrored, v.after_vertex, ?_, ?_,
      v.receivers_nodup⟩
    · intro a b x ha _ hb
      rcases hb with hb | hb
      · exact v.exit_listed a x ha b hb
      · exact v.pred_listed a x ha b hb
    · intro a x ha hr
      exact (vertex x).mp (v.receiver_kind a x ha hr)
    · intro a x ha u hu
      exact Registry.isSome_commId?.mp (v.registered a x ha u hu)
  · intro rules
    obtain ⟨hnodup, hids, hentry, hedges, hcount, hafter, hkind, hregistered, hunits⟩ := rules
    have v : g.Valid :=
      { allocated := closed.layout
        layout_nodup := hnodup
        id_inj := hids
        entry_listed := hentry
        exit_listed := fun a x ha b hb =>
          hedges a b x ha (closed.exits a x ha.2 b hb) (Or.inl hb)
        pred_listed := fun a x ha b hb =>
          hedges a b x ha (closed.entries a x ha.2 b hb) (Or.inr hb)
        mirrored := hcount
        after_vertex := hafter
        receiver_kind := fun a x ha hr => (vertex x).mpr (hkind a x ha hr)
        registered := fun a x ha u hu => Registry.isSome_commId?.mpr (hregistered a x ha u hu)
        receivers_nodup := hunits }
    exact Except.ok.inj (hds.symm.trans v.defects_eq)

/-- A loop head with an edge to itself and two edges to a superstep, which records some of them. -/
def loopHead (recorded : Nat) : FlowGraph where
  blocks := Table.ofList
    [{ id := Key.wrap 0, kind := .whileCond, entries := [Key.wrap 0, Key.wrap 1],
       exits := [Key.wrap 0, Key.wrap 1, Key.wrap 1] },
      { id := Key.wrap 1, kind := .beginVertex, entries := List.replicate recorded (Key.wrap 0),
        exits := [Key.wrap 0], receivers := [.nested (Key.wrap 7)] }]
  layout := [Key.wrap 0, Key.wrap 1]
  entry := ⟨Key.wrap 0⟩
  registry := finalState (Registry.registerNested (Key.wrap 7)) {}

theorem loopHead_closed (recorded : Nat) : (loopHead recorded).Closed := by
  have two : (loopHead recorded).blocks.size = 2 := rfl
  have first : (loopHead recorded).Allocated (Key.wrap 0) := allocated_iff.mpr (two ▸ by decide)
  have second : (loopHead recorded).Allocated (Key.wrap 1) := allocated_iff.mpr (two ▸ by decide)
  have known : ∀ a x, (loopHead recorded).blocks.get? a = some x →
      ∀ b, b ∈ x.exits ∨ b ∈ x.entries → b = Key.wrap 0 ∨ b = Key.wrap 1 := by
    intro a x hx b hb
    rw [get?_eq_values] at hx
    have hm : x ∈ (loopHead recorded).blocks.values := List.mem_of_getElem? hx
    rcases List.mem_cons.mp hm with rfl | hm
    · simpa using hb
    · cases List.mem_singleton.mp hm
      simp only [List.mem_singleton, List.mem_replicate] at hb
      rcases hb with hb | hb
      · exact Or.inl hb
      · exact Or.inl hb.2
  have reach : ∀ b, b = Key.wrap 0 ∨ b = Key.wrap 1 → (loopHead recorded).Allocated b := by
    intro b hb
    rcases hb with rfl | rfl
    · exact first
    · exact second
  refine ⟨?_, ?_, ?_, ?_⟩
  · exact fun b hb => reach b (by simpa [loopHead] using hb)
  · exact fun b hb => reach b (Or.inl (Option.some.inj hb).symm)
  · exact fun a x hx b hb => reach b (known a x hx b (Or.inl hb))
  · exact fun a x hx b hb => reach b (known a x hx b (Or.inr hb))

/-- With both of the parallel edges recorded all is well, with one of them it is not. -/
theorem Closed.defects_nil_iff_of_loopHead :
    (loopHead 2).defects = .ok [] ∧ (loopHead 1).Closed ∧
      ∃ ds, (loopHead 1).defects = .ok ds ∧ ds ≠ [] := by
  refine ⟨by decide +kernel, loopHead_closed 1, ?_⟩
  obtain ⟨ds, hds, hiff⟩ := (loopHead_closed 1).defects_nil_iff
  refine ⟨ds, hds, ?_⟩
  intro hnil
  obtain ⟨_, _, _, _, hcount, _⟩ := hiff.mp hnil
  have hedge := hcount (Key.wrap 0) (Key.wrap 1) _ _ ⟨by decide, rfl⟩ ⟨by decide, rfl⟩
  exact absurd hedge (by decide)

end FlowGraph

end Superstep
