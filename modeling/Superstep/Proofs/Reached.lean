import Mathlib.Data.List.Nodup
import Mathlib.Data.List.Perm.Subperm
import Superstep.Reach
import Superstep.Proofs.Lookup

namespace Superstep

/-- There are no more different keys than indices. -/
theorem Key.length_le_of_index_lt {label : String} {last n : Nat} {ks : List (Key label last)}
    (different : ks.Nodup) (below : ∀ k ∈ ks, k.index < n) : ks.length ≤ n := by
  have hnodup : (ks.map Key.index).Nodup := different.map fun _ _ => Key.ext
  have hsub : ks.map Key.index ⊆ List.range n := by
    intro i hi
    obtain ⟨k, hk, rfl⟩ := List.mem_map.mp hi
    exact List.mem_range.mpr (below k hk)
  have hlen := (List.subperm_of_subset hnodup hsub).length_le
  simpa using hlen

namespace FlowGraph

/-- A block that the entry leads to along exits. -/
inductive Reached (g : FlowGraph) : Block → Prop
  | entry {b : Block} : g.entry.expand = some b → Reached g b
  | exit {b c : Block} {data : BlockData} : Reached g b → g.blocks.get? b = some data →
      c ∈ data.exits → Reached g c

/-- The number of exits of those blocks that have not been entered, where the first block has the
index `i`. -/
def openExits (entered : List Block) : Nat → List BlockData → Nat
  | _, [] => 0
  | i, x :: rest =>
    (if i ∈ entered.map Key.index then 0 else x.exits.length) + openExits entered (i + 1) rest

theorem exitCount_eq (g : FlowGraph) : g.exitCount = openExits [] 0 g.blocks.values := by
  have fold : ∀ xs n i,
      List.foldl (fun n (b : BlockData) => n + b.exits.length) n xs = n + openExits [] i xs := by
    intro xs
    induction xs with
    | nil => simp [openExits]
    | cons x xs ih =>
      intro n i
      simp only [List.foldl_cons, ih _ (i + 1), openExits, List.map_nil, List.not_mem_nil, if_false]
      omega
  unfold exitCount
  rw [fold _ 0 0]
  omega

theorem openExits_of_lt {entered : List Block} {b : Block} {xs : List BlockData} {i : Nat}
    (h : b.index < i) : openExits (entered ++ [b]) i xs = openExits entered i xs := by
  induction xs generalizing i with
  | nil => rfl
  | cons x xs ih =>
    have hne : i ≠ b.index := by omega
    simp only [openExits, List.map_append, List.mem_append, List.map_cons, List.map_nil,
      List.mem_singleton, hne, or_false, ih (show b.index < i + 1 by omega)]

/-- Entering a block takes its exits off the count. -/
theorem openExits_enter {entered : List Block} {b : Block} (fresh : b ∉ entered) {x : BlockData}
    {xs : List BlockData} {i j : Nat} (hi : b.index = i + j) (hx : xs[j]? = some x) :
    openExits (entered ++ [b]) i xs + x.exits.length = openExits entered i xs := by
  have hfresh : b.index ∉ entered.map Key.index := by
    intro hm
    obtain ⟨c, hc, he⟩ := List.mem_map.mp hm
    exact fresh (Key.ext he ▸ hc)
  induction xs generalizing i j with
  | nil => simp at hx
  | cons y xs ih =>
    cases j with
    | zero =>
      have hib : i = b.index := by omega
      have hyx : y = x := by simpa using hx
      subst hib hyx
      simp only [openExits, openExits_of_lt (show b.index < b.index + 1 by omega), List.map_append,
        List.mem_append, List.map_cons, List.map_nil, List.mem_singleton, or_true, if_true, hfresh,
        if_false]
      omega
    | succ j =>
      have hne : i ≠ b.index := by omega
      have hrest := ih (i := i + 1) (j := j) (by omega) (by simpa using hx)
      simp only [openExits, List.map_append, List.mem_append, List.map_cons, List.map_nil,
        List.mem_singleton, hne, or_false]
      omega

theorem get?_eq_values (g : FlowGraph) (b : Block) :
    g.blocks.get? b = g.blocks.values[b.index]? :=
  Table.get?_eq_values g.blocks b

section Preorder

variable {g : FlowGraph} {steps : Nat} {b : Block} {pending entered : List Block}
  {seen : BlockSet} (agree : seen.Lists entered)

include agree

theorem preorder_of_mem (hb : b ∈ entered) :
    g.preorder (steps + 1) (b :: pending) entered seen =
      g.preorder steps pending entered (seen.insert b).2 :=
  if_pos (agree.insert_fst.mpr hb)

theorem preorder_of_block {data : BlockData} (hb : b ∉ entered) (hd : g.block b = .ok data) :
    g.preorder (steps + 1) (b :: pending) entered seen =
      g.preorder steps (data.exits ++ pending) (entered ++ [b]) (seen.insert b).2 :=
  (if_neg (mt agree.insert_fst.mp hb)).trans (by rw [hd])

theorem preorder_of_fault {e : Fault} (hb : b ∉ entered) (hd : g.block b = .error e) :
    g.preorder (steps + 1) (b :: pending) entered seen = .error e :=
  (if_neg (mt agree.insert_fst.mp hb)).trans (by rw [hd])

end Preorder

/-- With steps for all pending blocks and all exits still to come, the result has every block that
was entered or pending, and with a block every block that it leads to. -/
theorem preorder_complete {g : FlowGraph} {steps : Nat} {pending entered out : List Block}
    {seen : BlockSet} (agree : seen.Lists entered)
    (h : g.preorder steps pending entered seen = .ok out)
    (enough : pending.length + openExits entered 0 g.blocks.values ≤ steps)
    (closed : ∀ b ∈ entered, ∀ x, g.blocks.get? b = some x →
      ∀ c ∈ x.exits, c ∈ entered ∨ c ∈ pending) :
    (∀ b ∈ entered, b ∈ out) ∧ (∀ b ∈ pending, b ∈ out) ∧
      ∀ b ∈ out, ∀ x, g.blocks.get? b = some x → ∀ c ∈ x.exits, c ∈ out := by
  induction steps generalizing pending entered seen with
  | zero =>
    have hp : pending = [] := List.length_eq_zero_iff.mp (by omega)
    subst hp
    cases Except.ok.inj h
    exact ⟨fun b hb => hb, by simp, fun b hb x hx c hc => by simpa using closed b hb x hx c hc⟩
  | succ steps ih =>
    cases pending with
    | nil =>
      cases Except.ok.inj h
      exact ⟨fun b hb => hb, by simp, fun b hb x hx c hc => by simpa using closed b hb x hx c hc⟩
    | cons b pending =>
      simp only [List.length_cons] at enough
      by_cases hb : b ∈ entered
      · rw [preorder_of_mem agree hb] at h
        obtain ⟨he, hp, hc⟩ := ih (agree.insert_of_mem hb) h (by omega) (by
          intro a ha x hx c hc
          rcases closed a ha x hx c hc with hm | hm
          · exact Or.inl hm
          · rcases List.mem_cons.mp hm with rfl | hm
            · exact Or.inl hb
            · exact Or.inr hm)
        refine ⟨he, ?_, hc⟩
        intro a ha
        rcases List.mem_cons.mp ha with rfl | ha
        · exact he a hb
        · exact hp a ha
      · cases hd : g.block b with
        | error e => cases (preorder_of_fault agree hb hd).symm.trans h
        | ok data =>
          rw [preorder_of_block agree hb hd] at h
          have hget := block_ok.mp hd
          have hopen := openExits_enter hb (Nat.zero_add b.index).symm (get?_eq_values g b ▸ hget)
          obtain ⟨he, hp, hc⟩ := ih (agree.insert b) h (by simp only [List.length_append]; omega) (by
            intro a ha x hx c hc
            rcases List.mem_append.mp ha with ha | ha
            · rcases closed a ha x hx c hc with hm | hm
              · exact Or.inl (List.mem_append_left _ hm)
              · rcases List.mem_cons.mp hm with rfl | hm
                · exact Or.inl (by simp)
                · exact Or.inr (List.mem_append_right _ hm)
            · cases List.mem_singleton.mp ha
              cases hget.symm.trans hx
              exact Or.inr (List.mem_append_left _ hc))
          refine ⟨fun a ha => he a (List.mem_append_left _ ha), ?_, hc⟩
          intro a ha
          rcases List.mem_cons.mp ha with rfl | ha
          · exact he a (by simp)
          · exact hp a (List.mem_append_right _ ha)

theorem preorder_sound {g : FlowGraph} {P : Block → Prop}
    (step : ∀ b x, P b → g.blocks.get? b = some x → ∀ c ∈ x.exits, P c) {steps : Nat}
    {pending entered out : List Block} {seen : BlockSet} (agree : seen.Lists entered)
    (h : g.preorder steps pending entered seen = .ok out)
    (hp : ∀ b ∈ pending, P b) (he : ∀ b ∈ entered, P b) (hn : entered.Nodup) :
    (∀ b ∈ out, P b) ∧ out.Nodup := by
  induction steps generalizing pending entered seen with
  | zero =>
    cases pending <;> cases Except.ok.inj h <;> exact ⟨he, hn⟩
  | succ steps ih =>
    cases pending with
    | nil =>
      cases Except.ok.inj h
      exact ⟨he, hn⟩
    | cons b pending =>
      have hpb := hp b (by simp)
      have hrest : ∀ a ∈ pending, P a := fun a ha => hp a (by simp [ha])
      by_cases hb : b ∈ entered
      · rw [preorder_of_mem agree hb] at h
        exact ih (agree.insert_of_mem hb) h hrest he hn
      · cases hd : g.block b with
        | error e => cases (preorder_of_fault agree hb hd).symm.trans h
        | ok data =>
          rw [preorder_of_block agree hb hd] at h
          apply ih (agree.insert b) h
          · intro a ha
            rcases List.mem_append.mp ha with ha | ha
            · exact step b data hpb (block_ok.mp hd) a ha
            · exact hrest a ha
          · intro a ha
            rcases List.mem_append.mp ha with ha | ha
            · exact he a ha
            · cases List.mem_singleton.mp ha
              exact hpb
          · refine List.nodup_append.mpr ⟨hn, by simp, ?_⟩
            intro a ha c hc hac
            cases List.mem_singleton.mp hc
            exact hb (hac ▸ ha)

/-- The search fails on no graph whose edges lead to blocks. -/
theorem preorder_total {g : FlowGraph} {P : Block → Prop}
    (step : ∀ b x, P b → g.blocks.get? b = some x → ∀ c ∈ x.exits, P c)
    (allocated : ∀ b, P b → g.Allocated b) {steps : Nat} {pending entered : List Block}
    {seen : BlockSet} (agree : seen.Lists entered) (hp : ∀ b ∈ pending, P b) :
    ∃ out, g.preorder steps pending entered seen = .ok out := by
  induction steps generalizing pending entered seen with
  | zero => cases pending <;> exact ⟨entered, rfl⟩
  | succ steps ih =>
    cases pending with
    | nil => exact ⟨entered, rfl⟩
    | cons b pending =>
      have hrest : ∀ a ∈ pending, P a := fun a ha => hp a (by simp [ha])
      by_cases hb : b ∈ entered
      · rw [preorder_of_mem agree hb]
        exact ih (agree.insert_of_mem hb) hrest
      · obtain ⟨x, hx⟩ := allocated b (hp b (by simp))
        rw [preorder_of_block agree hb (block_ok.mpr hx)]
        apply ih (agree.insert b)
        intro a ha
        rcases List.mem_append.mp ha with ha | ha
        · exact step b x (hp b (by simp)) hx a ha
        · exact hrest a ha

theorem reachable_total {g : FlowGraph} (allocated : ∀ b, g.Reached b → g.Allocated b) :
    ∃ bs, g.reachable = .ok bs :=
  preorder_total (fun _ _ hb hx _ hc => .exit hb hx hc) allocated .empty
    fun _ hc => .entry (Option.mem_toList.mp hc)

theorem reachable_nodup {g : FlowGraph} {bs : List Block} (h : g.reachable = .ok bs) : bs.Nodup :=
  (preorder_sound (P := fun _ => True) (fun _ _ _ _ _ _ => trivial) .empty h (by simp) (by simp)
    (by simp)).2

/-- The blocks found are those that the entry leads to. -/
theorem mem_reachable_iff {g : FlowGraph} {bs : List Block} (h : g.reachable = .ok bs) {b : Block} :
    b ∈ bs ↔ g.Reached b := by
  constructor
  · have hsound := preorder_sound (P := g.Reached) (fun b x hb hx c hc => .exit hb hx hc) .empty h
      (fun c hc => .entry (Option.mem_toList.mp hc)) (by simp) (by simp)
    exact hsound.1 b
  · have hlen : g.entry.expand.toList.length ≤ 1 := by cases g.entry.expand <;> simp
    obtain ⟨-, hp, hc⟩ := preorder_complete .empty h (by rw [exitCount_eq]; omega) (by simp)
    intro hr
    induction hr with
    | entry he => exact hp _ (by simp [he])
    | exit _ hx hm ih => exact hc _ ih _ hx _ hm

end FlowGraph

end Superstep
