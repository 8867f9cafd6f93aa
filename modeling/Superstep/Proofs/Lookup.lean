import Superstep.FlowGraph
import Superstep.Proofs.Outcome

namespace Superstep

namespace Table

variable {label : String} {last : Nat} {V : Type}

theorem get_ok {t : Table (Key label last) V} {k : Key label last} {v : V} :
    t.get k = .ok v ↔ t.get? k = some v := by
  unfold get
  cases t.get? k <;> simp

theorem length_values {K : Type} (t : Table K V) : t.values.length = t.size := by
  simp [values, size]

theorem values_push {K : Type} (t : Table K V) (v : V) : (t.push v).values = t.values ++ [v] := by
  simp [values, push]

theorem get?_eq_values (t : Table (Key label last) V) (k : Key label last) :
    t.get? k = t.values[k.index]? := by
  simp [get?, values]

theorem index_lt_of_get? {t : Table (Key label last) V} {k : Key label last} {v : V}
    (h : t.get? k = some v) : k.index < t.size := by
  by_contra hn
  have := get?_eq_none_iff.mpr (Nat.le_of_not_lt hn)
  simp [h] at this

theorem get?_isSome_iff {t : Table (Key label last) V} {k : Key label last} :
    (∃ v, t.get? k = some v) ↔ k.index < t.size := by
  constructor
  · rintro ⟨v, hv⟩
    exact index_lt_of_get? hv
  · intro h
    cases hk : t.get? k with
    | none =>
      have := get?_eq_none_iff.mp hk
      omega
    | some v => exact ⟨v, rfl⟩

theorem get?_set_of_ne {t : Table (Key label last) V} {k l : Key label last} (h : k ≠ l) (w : V) :
    (t.set k w).get? l = t.get? l := by
  simp [get?_set, h]

theorem update_ok {t t' : Table (Key label last) V} {k : Key label last} {f : V → V} :
    t.update k f = .ok t' ↔ ∃ v, t.get? k = some v ∧ t' = t.set k (f v) := by
  unfold update
  cases t.get? k <;> simp [eq_comm]

theorem updatePair_ok {t t' : Table (Key label last) V} {a b : Key label last} {f g : V → V} :
    t.updatePair a b f g = .ok t' ↔
      a ≠ b ∧ ∃ x y, t.get? a = some x ∧ t.get? b = some y ∧
        t' = (t.set a (f x)).set b (g y) := by
  unfold updatePair getPair
  by_cases h : a = b
  · simp [h]
  · cases t.get? a <;> cases t.get? b <;> simp [h, eq_comm]

end Table

theorem BlockData.isVertex_of_kind {x y : BlockData} (h : y.kind = x.kind) :
    y.isVertex = x.isVertex := by
  simp only [isVertex, h]

namespace FlowGraph

/-- The key names a block. -/
def Allocated (g : FlowGraph) (b : Block) : Prop := ∃ data, g.blocks.get? b = some data

theorem allocated_iff {g : FlowGraph} {b : Block} : g.Allocated b ↔ b.index < g.blocks.size :=
  Table.get?_isSome_iff

theorem block_ok {g : FlowGraph} {b : Block} {data : BlockData} :
    g.block b = .ok data ↔ g.blocks.get? b = some data :=
  Table.get_ok

theorem updateBlock_ok {g g' : FlowGraph} {b : Block} {f : BlockData → BlockData} :
    g.updateBlock b f = .ok g' ↔
      ∃ data, g.blocks.get? b = some data ∧ g' = { g with blocks := g.blocks.set b (f data) } := by
  simp only [updateBlock, except_bind_ok, Table.update_ok]
  constructor
  · rintro ⟨_, ⟨data, hd, rfl⟩, h⟩
    cases h
    exact ⟨data, hd, rfl⟩
  · rintro ⟨data, hd, rfl⟩
    exact ⟨_, ⟨data, hd, rfl⟩, rfl⟩

/-- Only the data of blocks differs. -/
structure SameOutline (g g' : FlowGraph) : Prop where
  size : g'.blocks.size = g.blocks.size
  layout : g'.layout = g.layout
  entry : g'.entry = g.entry
  registry : g'.registry = g.registry

theorem SameOutline.refl (g : FlowGraph) : g.SameOutline g := ⟨rfl, rfl, rfl, rfl⟩

theorem SameOutline.trans {g g' g'' : FlowGraph} (h : g.SameOutline g') (h' : g'.SameOutline g'') :
    g.SameOutline g'' :=
  ⟨h'.size.trans h.size, h'.layout.trans h.layout, h'.entry.trans h.entry,
    h'.registry.trans h.registry⟩

theorem updateBlock_outline {g g' : FlowGraph} {b : Block} {f : BlockData → BlockData}
    (h : g.updateBlock b f = .ok g') : g.SameOutline g' := by
  obtain ⟨data, hd, rfl⟩ := updateBlock_ok.mp h
  exact ⟨Table.size_set .., rfl, rfl, rfl⟩

theorem updateBlock_total {g : FlowGraph} {b : Block} (h : b.index < g.blocks.size)
    (f : BlockData → BlockData) : ∃ g', g.updateBlock b f = .ok g' := by
  obtain ⟨data, hd⟩ := allocated_iff.mpr h
  exact ⟨_, updateBlock_ok.mpr ⟨data, hd, rfl⟩⟩

theorem updateBlock_lookup {g g' : FlowGraph} {b : Block} {f : BlockData → BlockData}
    (h : g.updateBlock b f = .ok g') (k : Block) :
    g'.blocks.get? k = if k = b then (g.blocks.get? k).map f else g.blocks.get? k := by
  obtain ⟨data, hd, rfl⟩ := updateBlock_ok.mp h
  by_cases hk : k = b
  · subst k
    simp [Table.get?_set, hd]
  · simp [Table.get?_set, hk, Ne.symm hk]

theorem addExit_ok {g g' : FlowGraph} {a b : Block} (hab : a ≠ b) (h : g.addExit a b = .ok g') :
    ∃ x y, g.blocks.get? a = some x ∧ g.blocks.get? b = some y ∧
      g' = { g with blocks := (g.blocks.set a (x.addExit b)).set b (y.addEntry a) } := by
  simp only [addExit, if_neg hab, except_bind_ok, Table.updatePair_ok] at h
  obtain ⟨_, ⟨-, x, y, hx, hy, rfl⟩, h⟩ := h
  cases h
  exact ⟨x, y, hx, hy, rfl⟩

theorem addExit_total {g : FlowGraph} {a b : Block} (hab : a ≠ b) (ha : a.index < g.blocks.size)
    (hb : b.index < g.blocks.size) : ∃ g', g.addExit a b = .ok g' := by
  obtain ⟨x, hx⟩ := allocated_iff.mpr ha
  obtain ⟨y, hy⟩ := allocated_iff.mpr hb
  refine ⟨{ g with blocks := (g.blocks.set a (x.addExit b)).set b (y.addEntry a) }, ?_⟩
  simp only [addExit, if_neg hab, except_bind_ok, Table.updatePair_ok]
  exact ⟨_, ⟨hab, x, y, hx, hy, rfl⟩, rfl⟩

theorem addExit_outline {g g' : FlowGraph} {a b : Block} (hab : a ≠ b)
    (h : g.addExit a b = .ok g') : g.SameOutline g' := by
  obtain ⟨x, y, hx, hy, rfl⟩ := addExit_ok hab h
  exact ⟨by simp, rfl, rfl, rfl⟩

theorem addExit_lookup {g g' : FlowGraph} {a b : Block} (hab : a ≠ b)
    (h : g.addExit a b = .ok g') (k : Block) :
    g'.blocks.get? k =
      if k = a then (g.blocks.get? k).map (·.addExit b)
      else if k = b then (g.blocks.get? k).map (·.addEntry a) else g.blocks.get? k := by
  obtain ⟨x, y, hx, hy, rfl⟩ := addExit_ok hab h
  by_cases ha : k = a
  · subst k
    simp [Table.get?_set, hx, Ne.symm hab]
  · by_cases hb : k = b
    · subst k
      simp [Table.get?_set, hy, hab, ha]
    · simp [Table.get?_set, ha, hb, Ne.symm ha, Ne.symm hb]

theorem appendBlock_ok {g g' : FlowGraph} {b : Block} :
    g.appendBlock b = .ok g' ↔ b ∉ g.layout ∧ g' = { g with layout := g.layout ++ [b] } := by
  unfold appendBlock
  split <;> simp [*, eq_comm]

theorem createBlock_ok {g g' : FlowGraph} {ids ids' : IdCounter} {kind : BlockKind} {b : Block} :
    createBlock kind (g, ids) = .ok b (g', ids') ↔
      b.index = g.blocks.size ∧ ids' = ids.issue.2 ∧
        g' = { g with blocks := g.blocks.push { id := ids.issue.1, kind } } := by
  simp only [createBlock, onPart_ok, Table.insert_ok, Prod.mk.injEq]
  constructor
  · rintro ⟨_, ⟨hb, rfl⟩, hg, hi⟩
    exact ⟨hb, hi, hg⟩
  · rintro ⟨hb, hi, hg⟩
    exact ⟨_, ⟨hb, rfl⟩, hg, hi⟩

theorem createBlock_error {g g' : FlowGraph} {ids ids' : IdCounter} {kind : BlockKind} {e : Fault} :
    createBlock kind (g, ids) = .error e (g', ids') ↔
      0xFFFFFFFF < g.blocks.size ∧ e = .indexTooWide ∧ ids' = ids.issue.2 ∧
        g' = { g with blocks := g.blocks.push { id := ids.issue.1, kind } } := by
  simp only [createBlock, onPart_error, Table.insert_error, Prod.mk.injEq]
  constructor
  · rintro ⟨_, _, ⟨full, rfl, rfl⟩, rfl, hg, hi⟩
    exact ⟨full, rfl, hi, hg⟩
  · rintro ⟨full, rfl, hi, hg⟩
    exact ⟨_, _, ⟨full, rfl, rfl⟩, rfl, hg, hi⟩

end FlowGraph

end Superstep
