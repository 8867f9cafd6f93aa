import Mathlib.Order.Defs.Unbundled
import Superstep.Proofs.Lookup

namespace Superstep

namespace IdCounter

/-- The counter once it has handed out a number of ids. -/
def after (c : IdCounter) : Nat → IdCounter
  | 0 => c
  | n + 1 => c.issue.2.after n

/-- The next ids that a counter hands out, in order. -/
def upcoming (c : IdCounter) : Nat → List BlockId
  | 0 => []
  | n + 1 => c.issue.1 :: c.issue.2.upcoming n

theorem after_add (c : IdCounter) (m n : Nat) : c.after (m + n) = (c.after m).after n := by
  induction m generalizing c with
  | zero => rw [Nat.zero_add, after]
  | succ m ih =>
    rw [Nat.succ_add]
    exact ih c.issue.2

theorem upcoming_add (c : IdCounter) (m n : Nat) :
    c.upcoming (m + n) = c.upcoming m ++ (c.after m).upcoming n := by
  induction m generalizing c with
  | zero => rw [Nat.zero_add, upcoming, after, List.nil_append]
  | succ m ih =>
    rw [Nat.succ_add]
    exact congrArg (c.issue.1 :: ·) (ih c.issue.2)

@[simp] theorem length_upcoming (c : IdCounter) (n : Nat) : (c.upcoming n).length = n := by
  induction n generalizing c with
  | zero => rfl
  | succ n ih => rw [upcoming, List.length_cons, ih]

theorem index_next_after (c : IdCounter) (n : Nat) :
    (c.after n).next.index = (c.next.index + n) % 0x100000000 := by
  induction n generalizing c with
  | zero =>
    have := c.next.index_le
    simp only [after, Nat.add_zero]
    omega
  | succ n ih =>
    have hnext : c.issue.2.next.index = (c.next.index + 1) % 0x100000000 := rfl
    rw [after, ih, hnext]
    omega

/-- The ids handed out are consecutive numbers, which start again at zero. -/
theorem getElem?_upcoming (c : IdCounter) {n k : Nat} (h : k < n) :
    (c.upcoming n)[k]? = some (c.after k).issue.1 := by
  induction n generalizing c k with
  | zero => omega
  | succ n ih =>
    cases k with
    | zero => rfl
    | succ k =>
      rw [upcoming, List.getElem?_cons_succ, after]
      exact ih c.issue.2 (by omega)

end IdCounter

namespace FlowGraph

/-- The ids of all blocks, in the order of their creation. -/
def blockIds (g : FlowGraph) : List BlockId := g.blocks.values.map (·.id)

/-- The id of the block that was created as number `i`, from zero. -/
def idAt (g : FlowGraph) (i : Nat) : Option BlockId := g.blockIds[i]?

theorem idAt_eq (g : FlowGraph) (i : Nat) : g.idAt i = (g.blocks.values[i]?).map (·.id) :=
  List.getElem?_map

theorem idAt_of_get? {g : FlowGraph} {b : Block} {x : BlockData} (h : g.blocks.get? b = some x) :
    g.idAt b.index = some x.id := by
  have hvalues : g.blocks.values[b.index]? = some x := by
    simpa [Table.get?, Table.values] using h
  rw [idAt_eq, hvalues]
  rfl

theorem length_blockIds (g : FlowGraph) : g.blockIds.length = g.blocks.size := by
  simp [blockIds, Table.values, Table.size]

theorem blockIds_set {g : FlowGraph} {b : Block} {x y : BlockData} (hx : g.blocks.get? b = some x)
    (hid : y.id = x.id) :
    ({ g with blocks := g.blocks.set b y } : FlowGraph).blockIds = g.blockIds := by
  have hold : g.blockIds[b.index]? = some y.id := hid ▸ idAt_of_get? hx
  have hset : ({ g with blocks := g.blocks.set b y } : FlowGraph).blockIds =
      g.blockIds.set b.index y.id := by
    simp [blockIds, Table.values, Table.set, List.map_set]
  obtain ⟨hlt, hold⟩ := List.getElem?_eq_some_iff.mp hold
  rw [hset, ← hold, List.set_getElem_self]

theorem blockIds_push (g : FlowGraph) (x : BlockData) :
    ({ g with blocks := g.blocks.push x } : FlowGraph).blockIds = g.blockIds ++ [x.id] := by
  simp [blockIds, Table.values, Table.push]

theorem updateBlock_blockIds {g g' : FlowGraph} {b : Block} {f : BlockData → BlockData}
    (h : g.updateBlock b f = .ok g') (hid : ∀ x, (f x).id = x.id) : g'.blockIds = g.blockIds := by
  obtain ⟨x, hx, rfl⟩ := updateBlock_ok.mp h
  exact blockIds_set hx (hid x)

theorem addExit_blockIds {g g' : FlowGraph} {a b : Block} (h : g.addExit a b = .ok g') :
    g'.blockIds = g.blockIds := by
  by_cases hab : a = b
  · subst b
    have hself : g.updateBlock a (fun x => (x.addExit a).addEntry a) = .ok g' :=
      (if_pos rfl).symm.trans h
    exact updateBlock_blockIds hself fun _ => rfl
  · obtain ⟨x, y, hx, hy, rfl⟩ := addExit_ok hab h
    have hy' : (g.blocks.set a (x.addExit b)).get? b = some y :=
      (Table.get?_set_of_ne hab _).trans hy
    refine (blockIds_set (g := { g with blocks := g.blocks.set a (x.addExit b) }) hy' ?_).trans ?_
    · rfl
    · exact blockIds_set hx rfl

theorem appendBlock_blockIds {g g' : FlowGraph} {b : Block} (h : g.appendBlock b = .ok g') :
    g'.blockIds = g.blockIds := by
  obtain ⟨-, rfl⟩ := appendBlock_ok.mp h
  rfl

end FlowGraph

/-- The ids of the blocks that there are, and the counter that the next ones come from. -/
structure Ledger where
  blockIds : List BlockId
  ids : IdCounter

/-- Blocks were created, each with the next id of the counter, and no other id was handed out. -/
def Ledger.Grown (a b : Ledger) : Prop :=
  ∃ n, b.blockIds = a.blockIds ++ a.ids.upcoming n ∧ b.ids = a.ids.after n

namespace Ledger.Grown

theorem of_same {a b : Ledger} (blockIds : b.blockIds = a.blockIds) (ids : b.ids = a.ids) :
    a.Grown b :=
  ⟨0, by rw [blockIds, IdCounter.upcoming, List.append_nil], ids⟩

theorem trans {a b c : Ledger} (h : a.Grown b) (h' : b.Grown c) : a.Grown c := by
  obtain ⟨m, hblocks, hids⟩ := h
  obtain ⟨n, hblocks', hids'⟩ := h'
  refine ⟨m + n, ?_, ?_⟩
  · rw [hblocks', hblocks, hids, IdCounter.upcoming_add, List.append_assoc]
  · rw [hids', hids, IdCounter.after_add]

instance : IsPreorder Ledger Ledger.Grown where
  refl := fun _ => of_same rfl rfl
  trans := fun _ _ _ => trans

end Ledger.Grown

/-- Ids of a counter went to takers, in order: each to a new block, or to none that is looked at.
The other blocks kept their ids, and there are no further blocks. -/
structure Charged {κ : Type} (c : IdCounter) (takers : List (Option κ))
    (before after : κ → Option BlockId) : Prop where
  kept : ∀ slot id, before slot = some id → after slot = some id
  taken : ∀ (k : Nat) slot, takers[k]? = some (some slot) →
    before slot = none ∧ after slot = some (c.after k).issue.1
  origin : ∀ slot id, after slot = some id → before slot = some id ∨ some slot ∈ takers
  once : ∀ (i j : Nat) slot, takers[i]? = some (some slot) → takers[j]? = some (some slot) → i = j

namespace Charged

variable {κ : Type} {c : IdCounter} {takers takers' : List (Option κ)}
  {before middle after : κ → Option BlockId}

/-- Ids that no block has. -/
theorem none (c : IdCounter) (n : Nat) (blocks : κ → Option BlockId) :
    Charged c (List.replicate n Option.none) blocks blocks := by
  have nobody : ∀ (k : Nat) slot, ¬(List.replicate n (Option.none : Option κ))[k]? = some (some slot) := by
    intro k slot h
    obtain ⟨-, h⟩ := List.mem_replicate.mp (List.mem_of_getElem? h)
    cases h
  exact ⟨fun _ _ h => h, fun k slot h => absurd h (nobody k slot), fun _ _ h => Or.inl h,
    fun i _ slot h => absurd h (nobody i slot)⟩

theorem trans (h : Charged c takers before middle)
    (h' : Charged (c.after takers.length) takers' middle after) :
    Charged c (takers ++ takers') before after := by
  have late : ∀ (k : Nat) slot, takers.length ≤ k → (takers ++ takers')[k]? = some (some slot) →
      takers'[k - takers.length]? = some (some slot) := by
    intro k slot hk ht
    rwa [List.getElem?_append_right hk] at ht
  have early : ∀ (k : Nat) slot, k < takers.length → (takers ++ takers')[k]? = some (some slot) →
      takers[k]? = some (some slot) := by
    intro k slot hk ht
    rwa [List.getElem?_append_left hk] at ht
  -- A taker of the first part has its block in the middle, one of the second part has not.
  have apart : ∀ (i j : Nat) slot, i < takers.length → takers.length ≤ j →
      (takers ++ takers')[i]? = some (some slot) → ¬(takers ++ takers')[j]? = some (some slot) := by
    intro i j slot hi hj hti htj
    have present := (h.taken i slot (early i slot hi hti)).2
    have absent := (h'.taken _ slot (late j slot hj htj)).1
    rw [present] at absent
    cases absent
  refine ⟨fun slot id hs => h'.kept slot id (h.kept slot id hs), ?_, ?_, ?_⟩
  · intro k slot hk
    by_cases hlt : k < takers.length
    · obtain ⟨hb, hm⟩ := h.taken k slot (early k slot hlt hk)
      exact ⟨hb, h'.kept slot _ hm⟩
    · obtain ⟨hm, ha⟩ := h'.taken _ slot (late k slot (by omega) hk)
      refine ⟨?_, ?_⟩
      · cases hb : before slot with
        | none => rfl
        | some id => cases hm.symm.trans (h.kept slot id hb)
      · rw [ha, ← IdCounter.after_add, Nat.add_sub_cancel' (by omega)]
  · intro slot id ha
    rw [List.mem_append]
    rcases h'.origin slot id ha with hm | ht
    · exact (h.origin slot id hm).imp_right Or.inl
    · exact Or.inr (Or.inr ht)
  · intro i j slot hi hj
    by_cases hli : i < takers.length <;> by_cases hlj : j < takers.length
    · exact h.once i j slot (early i slot hli hi) (early j slot hlj hj)
    · exact absurd hj (apart i j slot hli (by omega) hi)
    · exact absurd hi (apart j i slot hlj (by omega) hj)
    · have := h'.once _ _ slot (late i slot (by omega) hi) (late j slot (by omega) hj)
      omega

/-- The blocks of one owner among those of all. -/
theorem lift {takers : List (Option Nat)} {before after : Nat → Option BlockId}
    (h : Charged c takers before after) (p : κ) {all all' : κ × Nat → Option BlockId}
    (own : ∀ i, all (p, i) = before i) (own' : ∀ i, all' (p, i) = after i)
    (other : ∀ q i, q ≠ p → all' (q, i) = all (q, i)) :
    Charged c (takers.map (Option.map (p, ·))) all all' := by
  have owner : ∀ (k : Nat) slot, (takers.map (Option.map (p, ·)))[k]? = some (some slot) →
      slot.1 = p ∧ takers[k]? = some (some slot.2) := by
    intro k slot hk
    rw [List.getElem?_map] at hk
    obtain ⟨taker, htaker, hslot⟩ := Option.map_eq_some_iff.mp hk
    obtain ⟨i, rfl, rfl⟩ := Option.map_eq_some_iff.mp hslot
    exact ⟨rfl, htaker⟩
  refine ⟨?_, ?_, ?_, ?_⟩
  · rintro ⟨q, i⟩ id hid
    by_cases hq : q = p
    · subst hq
      rw [own] at hid
      rw [own', h.kept i id hid]
    · rw [other q i hq, hid]
  · rintro k ⟨q, i⟩ hk
    obtain ⟨rfl, htaker⟩ := owner k _ hk
    rw [own, own']
    exact h.taken k i htaker
  · rintro ⟨q, i⟩ id hid
    by_cases hq : q = p
    · subst hq
      rw [own'] at hid
      rw [own]
      refine (h.origin i id hid).imp_right fun hm => ?_
      exact List.mem_map.mpr ⟨some i, hm, rfl⟩
    · rw [other q i hq] at hid
      exact Or.inl hid
  · intro i j slot hi hj
    exact h.once i j slot.2 (owner i slot hi).2 (owner j slot hj).2

/-- Where there were no blocks, each block has the id that was issued at one position. -/
theorem position (h : Charged c takers (fun _ => Option.none) after) {slot : κ} {id : BlockId}
    (hid : after slot = some id) :
    ∃ k, takers[k]? = some (some slot) ∧ id = (c.after k).issue.1 := by
  rcases h.origin slot id hid with hb | ht
  · cases hb
  · obtain ⟨k, hk⟩ := List.mem_iff_getElem?.mp ht
    have := (h.taken k slot hk).2
    exact ⟨k, hk, Option.some.inj (hid.symm.trans this)⟩

/-- Blocks share an id exactly if it came round again from the one to the other. -/
theorem issue_eq_iff (c : IdCounter) (k l : Nat) :
    (c.after k).issue.1 = (c.after l).issue.1 ↔ k % 0x100000000 = l % 0x100000000 := by
  have hk : (c.after k).issue.1.index = (c.next.index + k) % 0x100000000 := c.index_next_after k
  have hl : (c.after l).issue.1.index = (c.next.index + l) % 0x100000000 := c.index_next_after l
  rw [Key.ext_iff, hk, hl]
  omega

theorem injective (h : Charged c takers (fun _ => Option.none) after)
    (room : takers.length ≤ 0x100000000) {slot slot' : κ} {id : BlockId}
    (hid : after slot = some id) (hid' : after slot' = some id) : slot = slot' := by
  obtain ⟨k, hk, he⟩ := h.position hid
  obtain ⟨l, hl, he'⟩ := h.position hid'
  have hk' := (List.getElem?_eq_some_iff.mp hk).1
  have hl' := (List.getElem?_eq_some_iff.mp hl).1
  have same := (issue_eq_iff c k l).mp (he.symm.trans he')
  have hkl : k = l := by omega
  subst hkl
  cases hk.symm.trans hl
  rfl

end Charged

/-- The new slots of a list that grew from one length to another. -/
def newSlots (old new : Nat) : List (Option Nat) := (List.range' old (new - old)).map some

theorem Ledger.Grown.charged {a b : Ledger} (h : a.Grown b) :
    Charged a.ids (newSlots a.blockIds.length b.blockIds.length) (a.blockIds[·]?) (b.blockIds[·]?) ∧
      b.ids = a.ids.after (newSlots a.blockIds.length b.blockIds.length).length := by
  obtain ⟨n, hblocks, hids⟩ := h
  have hlength : b.blockIds.length = a.blockIds.length + n := by
    rw [hblocks, List.length_append, IdCounter.length_upcoming]
  have hnew : newSlots a.blockIds.length b.blockIds.length =
      (List.range' a.blockIds.length n).map some := by
    rw [newSlots, hlength, Nat.add_sub_cancel_left]
  have slot : ∀ k i : Nat, ((List.range' a.blockIds.length n).map some)[k]? = some (some i) →
      k < n ∧ i = a.blockIds.length + k := by
    intro k i hk
    rw [List.getElem?_map] at hk
    obtain ⟨j, hj, he⟩ := Option.map_eq_some_iff.mp hk
    cases he
    obtain ⟨hlt, hj⟩ := List.getElem?_eq_some_iff.mp hj
    rw [List.length_range'] at hlt
    rw [List.getElem_range'] at hj
    omega
  rw [hnew]
  refine ⟨⟨?_, ?_, ?_, ?_⟩, by rw [hids, List.length_map, List.length_range']⟩
  · intro i id hid
    rw [hblocks, List.getElem?_append_left (List.getElem?_eq_some_iff.mp hid).1]
    exact hid
  · intro k i hk
    obtain ⟨hlt, rfl⟩ := slot k i hk
    refine ⟨List.getElem?_eq_none (by omega), ?_⟩
    rw [hblocks, List.getElem?_append_right (by omega), Nat.add_sub_cancel_left]
    exact a.ids.getElem?_upcoming hlt
  · intro i id hid
    by_cases hlt : i < a.blockIds.length
    · rw [hblocks, List.getElem?_append_left hlt] at hid
      exact Or.inl hid
    · have hi := (List.getElem?_eq_some_iff.mp hid).1
      refine Or.inr (List.mem_map.mpr ⟨i, ?_, rfl⟩)
      rw [List.mem_range'_1]
      omega
  · intro i j k hi hj
    have := (slot i k hi).2
    have := (slot j k hj).2
    omega

end Superstep
