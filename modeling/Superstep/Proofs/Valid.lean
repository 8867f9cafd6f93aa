import Superstep.Defect
import Superstep.Proofs.Lookup

namespace Superstep

namespace FlowGraph

/-- A block that the layout lists, with its data. -/
def Listed (g : FlowGraph) (b : Block) (data : BlockData) : Prop :=
  b ∈ g.layout ∧ g.blocks.get? b = some data

/-- The rules of a block graph, for every listed block and every pair of them. -/
structure Valid (g : FlowGraph) : Prop where
  allocated : ∀ b ∈ g.layout, ∃ data, g.blocks.get? b = some data
  layout_nodup : g.layout.Nodup
  id_inj : ∀ a b x y, g.Listed a x → g.Listed b y → x.id = y.id → a = b
  entry_listed : ∀ b, g.entry.expand = some b → b ∈ g.layout
  exit_listed : ∀ a x, g.Listed a x → ∀ b ∈ x.exits, b ∈ g.layout
  pred_listed : ∀ a x, g.Listed a x → ∀ b ∈ x.entries, b ∈ g.layout
  mirrored : ∀ a b x y, g.Listed a x → g.Listed b y → x.exits.count b = y.entries.count a
  after_vertex : ∀ a x, g.Listed a x → x.afterVertex = true → x.kind = .seq
  receiver_kind : ∀ a x, g.Listed a x → x.receivers ≠ [] → x.isVertex = true
  registered : ∀ a x, g.Listed a x → ∀ u ∈ x.receivers, (g.registry.commId? u).isSome
  receivers_nodup : ∀ a x, g.Listed a x → x.receivers.Nodup

theorem layoutDefects_registered {g : FlowGraph} {rest listed : List Block} {ids : List BlockId}
    {registered : BlockSet} {out : List Defect × BlockSet} (agree : registered.Lists listed)
    (h : g.layoutDefects rest registered ids = .ok out) : out.2.Lists (listed ++ rest) := by
  induction rest generalizing listed registered ids out with
  | nil =>
    cases h
    rwa [List.append_nil]
  | cons b rest ih =>
    obtain ⟨data, _, h⟩ := except_bind_ok.mp h
    obtain ⟨others, ho, h⟩ := except_bind_ok.mp h
    cases h
    have after := ih (agree.insert b) ho
    rwa [List.append_assoc, List.singleton_append] at after

section LayoutDefects

variable {g : FlowGraph} {b : Block} {rest listed : List Block} {ids : List BlockId}
  {registered : BlockSet} (agree : registered.Lists listed)

include agree

theorem layoutDefects_cons_eq_nil {after : BlockSet} :
    g.layoutDefects (b :: rest) registered ids = .ok ([], after) ↔
      ∃ data, g.blocks.get? b = some data ∧ b ∉ listed ∧ data.id ∉ ids ∧
        g.layoutDefects rest (registered.insert b).2 (data.id :: ids) = .ok ([], after) := by
  refine except_bind_ok.trans ?_
  constructor
  · rintro ⟨data, hd, h⟩
    obtain ⟨⟨others, after'⟩, ho, he⟩ := except_bind_ok.mp h
    have he' := Except.ok.inj he
    simp only [Prod.mk.injEq, List.append_eq_nil_iff, ite_eq_right_iff, List.cons_ne_nil, imp_false,
      agree.insert_fst] at he'
    obtain ⟨⟨⟨hl, hi⟩, rfl⟩, rfl⟩ := he'
    exact ⟨data, block_ok.mp hd, hl, hi, ho⟩
  · rintro ⟨data, hd, hl, hi, ho⟩
    refine ⟨data, block_ok.mpr hd, except_bind_ok.mpr ⟨([], after), ho, ?_⟩⟩
    rw [if_neg (mt agree.insert_fst.mp hl), if_neg hi]
    rfl

theorem layoutDefects_eq_nil :
    (∃ after, g.layoutDefects rest registered ids = .ok ([], after)) ↔
      (∀ b ∈ rest, ∃ x, g.blocks.get? b = some x) ∧ rest.Nodup ∧ (∀ b ∈ rest, b ∉ listed) ∧
        (∀ b ∈ rest, ∀ x, g.blocks.get? b = some x → x.id ∉ ids) ∧
        ∀ a ∈ rest, ∀ b ∈ rest, ∀ x y, g.blocks.get? a = some x → g.blocks.get? b = some y →
          x.id = y.id → a = b := by
  induction rest generalizing listed registered ids with
  | nil =>
    have hnil : g.layoutDefects [] registered ids = .ok ([], registered) := rfl
    simp [hnil]
  | cons b rest ih =>
    constructor
    · rintro ⟨after, h⟩
      obtain ⟨data, hd, hl, hi, ho⟩ := (layoutDefects_cons_eq_nil agree).mp h
      obtain ⟨hex, hn, hlist, hids, hinj⟩ := (ih (agree.insert b)).mp ⟨after, ho⟩
      have hb : b ∉ rest := fun hm => hlist b hm (by simp)
      have hne : ∀ c ∈ rest, ∀ y, g.blocks.get? c = some y → y.id ≠ data.id :=
        fun c hc y hy hh => hids c hc y hy (by simp [hh])
      refine ⟨?_, List.nodup_cons.mpr ⟨hb, hn⟩, ?_, ?_, ?_⟩
      · simpa [hd] using hex
      · rintro c hc
        rcases List.mem_cons.mp hc with rfl | hc
        · exact hl
        · exact fun hm => hlist c hc (by simp [hm])
      · intro c hc y hy
        rcases List.mem_cons.mp hc with rfl | hc
        · cases hd.symm.trans hy
          exact hi
        · exact fun hm => hids c hc y hy (by simp [hm])
      · intro c hc e he x y hx hy hxy
        rcases List.mem_cons.mp hc with rfl | hcr <;> rcases List.mem_cons.mp he with rfl | her
        · rfl
        · cases hd.symm.trans hx
          exact absurd hxy.symm (hne e her y hy)
        · cases hd.symm.trans hy
          exact absurd hxy (hne c hcr x hx)
        · exact hinj c hcr e her x y hx hy hxy
    · rintro ⟨hex, hn, hlist, hids, hinj⟩
      obtain ⟨data, hd⟩ := hex b (by simp)
      have hn' := List.nodup_cons.mp hn
      suffices h : ∃ after,
          g.layoutDefects rest (registered.insert b).2 (data.id :: ids) = .ok ([], after) by
        obtain ⟨after, ho⟩ := h
        exact ⟨after, (layoutDefects_cons_eq_nil agree).mpr
          ⟨data, hd, hlist b (by simp), hids b (by simp) data hd, ho⟩⟩
      refine (ih (agree.insert b)).mpr ⟨?_, hn'.2, ?_, ?_, ?_⟩
      · exact fun c hc => hex c (by simp [hc])
      · rintro c hc hm
        rcases List.mem_append.mp hm with hm | hm
        · exact hlist c (by simp [hc]) hm
        · cases List.mem_singleton.mp hm
          exact hn'.1 hc
      · intro c hc y hy hm
        rcases List.mem_cons.mp hm with he | hm
        · have := hinj c (by simp [hc]) b (by simp) y data hy hd he
          exact hn'.1 (this ▸ hc)
        · exact hids c (by simp [hc]) y hy hm
      · exact fun a ha c hc => hinj a (by simp [ha]) c (by simp [hc])

end LayoutDefects

section EdgeDefects

variable {g : FlowGraph} {registered : BlockSet} (agree : registered.Lists g.layout)

include agree

theorem entryDefects_eq_nil :
    g.entryDefects registered = .ok [] ↔ ∀ b, g.entry.expand = some b → b ∈ g.layout := by
  unfold entryDefects
  cases g.entry.expand with
  | none => simp
  | some b =>
    by_cases hb : b ∈ g.layout
    · simp [(agree b).mpr hb, hb]
    · have outside : registered.contains b = false := Bool.eq_false_iff.mpr (mt (agree b).mp hb)
      simp only [outside, hb, Bool.false_eq_true, if_false, Option.some.injEq, forall_eq',
        iff_false]
      intro h
      obtain ⟨data, _, h⟩ := except_bind_ok.mp h
      cases h

/-- What both ends of an edge are checked for. The defects differ, and which end counts what. -/
theorem edge_eq_nil {c : Block} {unlisted uneven : BlockData → Defect} {even : BlockData → Prop}
    [DecidablePred even] :
    (do
      let x ← g.block c
      return (if registered.contains c then [] else [unlisted x]) ++
        if even x then [] else [uneven x] : Except Fault (List Defect)) = .ok [] ↔
    c ∈ g.layout ∧ ∃ x, g.blocks.get? c = some x ∧ even x := by
  simp only [except_bind_ok, block_ok, agree c]
  constructor
  · rintro ⟨x, hx, h⟩
    have h' := Except.ok.inj h
    simp only [List.append_eq_nil_iff, ite_eq_left_iff, List.cons_ne_nil, imp_false,
      Classical.not_not] at h'
    exact ⟨h'.1, x, hx, h'.2⟩
  · rintro ⟨hl, x, hx, hc⟩
    exact ⟨x, hx, by simp [hl, hc, pure, Except.pure]⟩

theorem exitDefects_eq_nil {b succ : Block} {data : BlockData} :
    g.exitDefects registered b data succ = .ok [] ↔
      succ ∈ g.layout ∧ ∃ x, g.blocks.get? succ = some x ∧ data.exits.count succ = x.entries.count b :=
  edge_eq_nil agree

theorem entryEdgeDefects_eq_nil {b pred : Block} {data : BlockData} :
    g.entryEdgeDefects registered b data pred = .ok [] ↔
      pred ∈ g.layout ∧ ∃ x, g.blocks.get? pred = some x ∧ x.exits.count b = data.entries.count pred :=
  edge_eq_nil agree

end EdgeDefects

theorem receiverDefects_eq_nil {g : FlowGraph} {id : BlockId} {units received : List CommUnit} :
    g.receiverDefects id units received = [] ↔
      (∀ u ∈ units, (g.registry.commId? u).isSome) ∧ units.Nodup ∧ ∀ u ∈ units, u ∉ received := by
  induction units generalizing received with
  | nil => simp [receiverDefects]
  | cons u units ih =>
    simp only [receiverDefects, List.append_eq_nil_iff, ite_eq_left_iff, ite_eq_right_iff,
      List.cons_ne_nil, imp_false, Classical.not_not, ih, List.mem_cons, List.nodup_cons,
      forall_eq_or_imp, not_or]
    constructor
    · rintro ⟨⟨hu, hr⟩, hreg, hn, hd⟩
      exact ⟨⟨hu, hreg⟩, ⟨fun hm => (hd u hm).1 rfl, hn⟩, hr, fun v hv => (hd v hv).2⟩
    · rintro ⟨⟨hu, hreg⟩, ⟨hm, hn⟩, hr, hd⟩
      exact ⟨⟨hu, hr⟩, hreg, hn, fun v hv => ⟨fun he => hm (he ▸ hv), hd v hv⟩⟩

theorem blockDefects_eq_nil {g : FlowGraph} {registered : BlockSet} {b : Block} :
    g.blockDefects registered b = .ok [] ↔
      ∃ data, g.blocks.get? b = some data ∧
        (∀ succ ∈ data.exits, g.exitDefects registered b data succ = .ok []) ∧
        (∀ pred ∈ data.entries, g.entryEdgeDefects registered b data pred = .ok []) ∧
        (data.afterVertex = true → data.kind = .seq) ∧
        (data.receivers ≠ [] → data.isVertex = true) ∧
        g.receiverDefects data.id data.receivers [] = [] := by
  simp only [blockDefects, except_bind_ok, block_ok, ← except_mapM_flatten_nil]
  constructor
  · rintro ⟨data, hd, exits, he, entries, hp, h⟩
    have h' := Except.ok.inj h
    simp only [List.append_eq_nil_iff, ite_eq_right_iff, List.cons_ne_nil, imp_false, not_and,
      Classical.not_not, BlockData.hasReceiver, Bool.not_eq_true', List.isEmpty_eq_false_iff] at h'
    obtain ⟨⟨⟨⟨hx, hy⟩, ha⟩, hv⟩, hr⟩ := h'
    exact ⟨data, hd, ⟨exits, he, hx⟩, ⟨entries, hp, hy⟩, ha, hv, hr⟩
  · rintro ⟨data, hd, ⟨exits, he, hx⟩, ⟨entries, hp, hy⟩, ha, hv, hr⟩
    refine ⟨data, hd, exits, he, entries, hp, ?_⟩
    have ha' : ¬(data.afterVertex = true ∧ data.kind ≠ .seq) := fun h => h.2 (ha h.1)
    have hv' : ¬(data.hasReceiver = true ∧ ¬data.isVertex = true) := by
      rintro ⟨h, hn⟩
      exact hn (hv (by simpa [BlockData.hasReceiver] using h))
    rw [hx, hy, if_neg ha', if_neg hv', hr]
    rfl

theorem defects_eq_nil {g : FlowGraph} :
    g.defects = .ok [] ↔ ∃ registered,
      g.layoutDefects g.layout .empty [] = .ok ([], registered) ∧ g.entryDefects registered = .ok [] ∧
        ∀ b ∈ g.layout, g.blockDefects registered b = .ok [] := by
  simp only [defects, except_bind_ok, ← except_mapM_flatten_nil]
  constructor
  · rintro ⟨⟨layout, registered⟩, hl, entry, he, blocks, hb, h⟩
    have h' := Except.ok.inj h
    simp only [List.append_eq_nil_iff] at h'
    obtain ⟨⟨rfl, rfl⟩, hf⟩ := h'
    exact ⟨registered, hl, he, blocks, hb, hf⟩
  · rintro ⟨registered, hl, he, blocks, hb, hf⟩
    exact ⟨([], registered), hl, [], he, blocks, hb, by simp [hf, pure, Except.pure]⟩

theorem Valid.of_defects {g : FlowGraph} (h : g.defects = .ok []) : g.Valid := by
  obtain ⟨registered, hl, he, hb⟩ := defects_eq_nil.mp h
  have agree : registered.Lists g.layout := layoutDefects_registered .empty hl
  obtain ⟨hex, hn, -, -, hinj⟩ := (layoutDefects_eq_nil .empty).mp ⟨registered, hl⟩
  have hblock : ∀ a x, g.Listed a x →
      (∀ succ ∈ x.exits, g.exitDefects registered a x succ = .ok []) ∧
      (∀ pred ∈ x.entries, g.entryEdgeDefects registered a x pred = .ok []) ∧
      (x.afterVertex = true → x.kind = .seq) ∧ (x.receivers ≠ [] → x.isVertex = true) ∧
      g.receiverDefects x.id x.receivers [] = [] := by
    intro a x ha
    obtain ⟨data, hd, hrest⟩ := blockDefects_eq_nil.mp (hb a ha.1)
    cases hd.symm.trans ha.2
    exact hrest
  refine ⟨hex, hn, ?_, (entryDefects_eq_nil agree).mp he, ?_, ?_, ?_, ?_, ?_, ?_, ?_⟩
  · exact fun a b x y ha hb => hinj a ha.1 b hb.1 x y ha.2 hb.2
  · exact fun a x ha b hm => ((exitDefects_eq_nil agree).mp ((hblock a x ha).1 b hm)).1
  · exact fun a x ha b hm => ((entryEdgeDefects_eq_nil agree).mp ((hblock a x ha).2.1 b hm)).1
  · intro a b x y ha hb
    by_cases hm : b ∈ x.exits
    · obtain ⟨_, z, hz, hc⟩ := (exitDefects_eq_nil agree).mp ((hblock a x ha).1 b hm)
      cases hz.symm.trans hb.2
      exact hc
    · by_cases hm' : a ∈ y.entries
      · obtain ⟨_, z, hz, hc⟩ := (entryEdgeDefects_eq_nil agree).mp ((hblock b y hb).2.1 a hm')
        cases hz.symm.trans ha.2
        exact hc
      · rw [List.count_eq_zero_of_not_mem hm, List.count_eq_zero_of_not_mem hm']
  · exact fun a x ha => (hblock a x ha).2.2.1
  · exact fun a x ha => (hblock a x ha).2.2.2.1
  · exact fun a x ha => (receiverDefects_eq_nil.mp (hblock a x ha).2.2.2.2).1
  · exact fun a x ha => (receiverDefects_eq_nil.mp (hblock a x ha).2.2.2.2).2.1

theorem Valid.defects_eq {g : FlowGraph} (v : g.Valid) : g.defects = .ok [] := by
  obtain ⟨registered, hl⟩ : ∃ registered,
      g.layoutDefects g.layout .empty [] = .ok ([], registered) := by
    refine (layoutDefects_eq_nil .empty).mpr ⟨v.allocated, v.layout_nodup, by simp, by simp, ?_⟩
    exact fun a ha b hb x y hx hy => v.id_inj a b x y ⟨ha, hx⟩ ⟨hb, hy⟩
  have agree : registered.Lists g.layout := layoutDefects_registered .empty hl
  refine defects_eq_nil.mpr ⟨registered, hl, (entryDefects_eq_nil agree).mpr v.entry_listed, ?_⟩
  intro b hb
  obtain ⟨data, hd⟩ := v.allocated b hb
  have hlisted : g.Listed b data := ⟨hb, hd⟩
  apply blockDefects_eq_nil.mpr
  refine ⟨data, hd, ?_, ?_, v.after_vertex b data hlisted, v.receiver_kind b data hlisted, ?_⟩
  · intro c hc
    have hcl := v.exit_listed b data hlisted c hc
    obtain ⟨y, hy⟩ := v.allocated c hcl
    exact (exitDefects_eq_nil agree).mpr ⟨hcl, y, hy, v.mirrored b c data y hlisted ⟨hcl, hy⟩⟩
  · intro c hc
    have hcl := v.pred_listed b data hlisted c hc
    obtain ⟨y, hy⟩ := v.allocated c hcl
    exact (entryEdgeDefects_eq_nil agree).mpr
      ⟨hcl, y, hy, v.mirrored c b y data ⟨hcl, hy⟩ hlisted⟩
  · exact receiverDefects_eq_nil.mpr
      ⟨v.registered b data hlisted, v.receivers_nodup b data hlisted, by simp⟩

end FlowGraph

end Superstep
