import Superstep.Proofs.Reached

namespace Superstep

namespace FlowGraph

/-- The search without a bound: after `n` rounds no block is pending any more, and `out` are the
blocks that have been entered. A round passes over the first pending block or enters it. -/
inductive Drains (g : FlowGraph) : Nat → List Block → List Block → List Block → Prop
  | done {entered : List Block} : Drains g 0 [] entered entered
  | pass {n : Nat} {b : Block} {pending entered out : List Block} : b ∈ entered →
      Drains g n pending entered out → Drains g (n + 1) (b :: pending) entered out
  | enter {n : Nat} {b : Block} {data : BlockData} {pending entered out : List Block} :
      b ∉ entered → g.blocks.get? b = some data →
      Drains g n (data.exits ++ pending) (entered ++ [b]) out →
      Drains g (n + 1) (b :: pending) entered out

/-- Depth-first search by recursion. A marked block is passed over, any other one is marked when it
is entered, and then its exits are visited in order. What is marked is answered in the order it was
marked in. Calls are nested no more than `depth` deep. -/
def visit (g : FlowGraph) : Nat → List Block → Block → Option (List Block)
  | 0, _, _ => none
  | depth + 1, marked, b =>
    if b ∈ marked then some marked
    else do
      let data ← g.blocks.get? b
      data.exits.foldlM (visit g depth) (marked ++ [b])

variable {g : FlowGraph} {n steps depth : Nat} {b : Block}
  {pending entered marked all out bs : List Block} {seen : BlockSet}

namespace Drains

/-- The bounded search ends in the same way once its bound is no less than the number of rounds. -/
theorem preorder_eq (h : g.Drains n pending entered out) (agree : seen.Lists entered)
    (enough : n ≤ steps) : g.preorder steps pending entered seen = .ok out := by
  induction h generalizing steps seen with
  | done => cases steps <;> rfl
  | pass hb _ ih =>
    cases steps with
    | zero => omega
    | succ steps =>
      rw [preorder_of_mem agree hb]
      exact ih (agree.insert_of_mem hb) (by omega)
  | enter hb hx _ ih =>
    cases steps with
    | zero => omega
    | succ steps =>
      rw [preorder_of_block agree hb (block_ok.mpr hx)]
      exact ih (agree.insert _) (by omega)

/-- A round takes one block off the pending ones, and the exits that it adds are those of a block
that is entered for the first time. -/
theorem rounds_le (h : g.Drains n pending entered out) :
    n ≤ pending.length + openExits entered 0 g.blocks.values := by
  induction h with
  | done => exact Nat.zero_le _
  | pass _ _ ih =>
    simp only [List.length_cons]
    omega
  | @enter _ b _ _ _ _ hb hx _ ih =>
    have hopen := openExits_enter hb (Nat.zero_add b.index).symm (get?_eq_values g b ▸ hx)
    simp only [List.length_append, List.length_cons] at ih ⊢
    omega

end Drains

theorem drains_of_preorder (agree : seen.Lists entered)
    (h : g.preorder steps pending entered seen = .ok out)
    (enough : pending.length + openExits entered 0 g.blocks.values ≤ steps) :
    ∃ n, g.Drains n pending entered out := by
  induction steps generalizing pending entered seen with
  | zero =>
    have hp : pending = [] := List.length_eq_zero_iff.mp (by omega)
    subst hp
    cases Except.ok.inj h
    exact ⟨0, .done⟩
  | succ steps ih =>
    cases pending with
    | nil =>
      cases Except.ok.inj h
      exact ⟨0, .done⟩
    | cons b pending =>
      simp only [List.length_cons] at enough
      by_cases hb : b ∈ entered
      · rw [preorder_of_mem agree hb] at h
        obtain ⟨n, hn⟩ := ih (agree.insert_of_mem hb) h (by omega)
        exact ⟨n + 1, .pass hb hn⟩
      · cases hd : g.block b with
        | error e => cases (preorder_of_fault agree hb hd).symm.trans h
        | ok data =>
          rw [preorder_of_block agree hb hd] at h
          have hget := block_ok.mp hd
          have hopen := openExits_enter hb (Nat.zero_add b.index).symm (get?_eq_values g b ▸ hget)
          obtain ⟨n, hn⟩ := ih (agree.insert b) h (by simp only [List.length_append]; omega)
          exact ⟨n + 1, .enter hb hget hn⟩

theorem Drains.le_of_entry (h : g.Drains n g.entry.expand.toList [] out) : n ≤ g.exitCount + 1 := by
  have hlen : g.entry.expand.toList.length ≤ 1 := by cases g.entry.expand <;> simp
  have hrounds := h.rounds_le
  rw [exitCount_eq]
  omega

/-- The bound on the steps is never reached. -/
theorem reachable_iff_drains :
    g.reachable = .ok out ↔ ∃ n, g.Drains n g.entry.expand.toList [] out := by
  constructor
  · intro h
    have hlen : g.entry.expand.toList.length ≤ 1 := by cases g.entry.expand <;> simp
    exact drains_of_preorder .empty h (by rw [exitCount_eq]; omega)
  · rintro ⟨n, h⟩
    exact h.preorder_eq .empty h.le_of_entry

theorem visit_of_mem (hb : b ∈ marked) : g.visit (depth + 1) marked b = some marked :=
  if_pos hb

theorem visit_of_block {data : BlockData} (hb : b ∉ marked) (hx : g.blocks.get? b = some data) :
    g.visit (depth + 1) marked b = data.exits.foldlM (g.visit depth) (marked ++ [b]) :=
  (if_neg hb).trans (by rw [hx]; rfl)

theorem visit_of_missing (hb : b ∉ marked) (hx : g.blocks.get? b = none) :
    g.visit (depth + 1) marked b = none :=
  (if_neg hb).trans (by rw [hx]; rfl)

/-- The pending blocks of the search are those that the suspended calls of the recursion have still
to visit: what it does with the first of them is what the innermost call does, and then it goes on
with those of the calls around that one. -/
theorem drains_of_visits (h : bs.foldlM (g.visit depth) marked = some all)
    (rest : g.Drains n pending all out) : ∃ m, g.Drains m (bs ++ pending) marked out := by
  induction depth generalizing bs pending marked all n with
  | zero =>
    cases bs with
    | nil =>
      cases h
      exact ⟨n, rest⟩
    | cons b bs => cases h
  | succ depth ihDepth =>
    induction bs generalizing marked with
    | nil =>
      cases h
      exact ⟨n, rest⟩
    | cons b bs ih =>
      rw [List.foldlM_cons] at h
      obtain ⟨inner, hb, hbs⟩ := Option.bind_eq_some_iff.mp h
      obtain ⟨m, later⟩ := ih hbs
      by_cases known : b ∈ marked
      · cases (visit_of_mem known).symm.trans hb
        exact ⟨m + 1, .pass known later⟩
      · cases hx : g.blocks.get? b with
        | none => cases (visit_of_missing known hx).symm.trans hb
        | some data =>
          rw [visit_of_block known hx] at hb
          obtain ⟨m', inside⟩ := ihDepth hb later
          exact ⟨m' + 1, .enter known hx inside⟩

/-- Different blocks of a graph. -/
structure Distinct (g : FlowGraph) (bs : List Block) : Prop where
  nodup : bs.Nodup
  allocated : ∀ b ∈ bs, g.Allocated b

namespace Distinct

theorem length_le (h : g.Distinct bs) : bs.length ≤ g.blocks.size :=
  Key.length_le_of_index_lt h.nodup fun b hb => allocated_iff.mp (h.allocated b hb)

theorem snoc (h : g.Distinct bs) (fresh : b ∉ bs) (hb : g.Allocated b) : g.Distinct (bs ++ [b]) where
  nodup := by
    refine List.nodup_append.mpr ⟨h.nodup, by simp, ?_⟩
    intro a ha c hc he
    cases List.mem_singleton.mp hc
    exact fresh (he ▸ ha)
  allocated := by
    intro a ha
    rcases List.mem_append.mp ha with ha | ha
    · exact h.allocated a ha
    · exact List.mem_singleton.mp ha ▸ hb

end Distinct

/-- Every nested call has one more block marked than the call around it, so calls are nested no
deeper than there are blocks. -/
theorem visits_total (exits : ∀ a x, g.blocks.get? a = some x → ∀ c ∈ x.exits, g.Allocated c)
    (distinct : g.Distinct marked) (allocated : ∀ b ∈ bs, g.Allocated b)
    (enough : g.blocks.size < depth + marked.length) :
    ∃ all, bs.foldlM (g.visit depth) marked = some all ∧ g.Distinct all ∧
      marked.length ≤ all.length := by
  induction depth generalizing bs marked with
  | zero =>
    have hlen := distinct.length_le
    omega
  | succ depth ihDepth =>
    induction bs generalizing marked with
    | nil => exact ⟨marked, rfl, distinct, Nat.le_refl _⟩
    | cons b bs ih =>
      have hfirst : ∃ inner, g.visit (depth + 1) marked b = some inner ∧ g.Distinct inner ∧
          marked.length ≤ inner.length := by
        by_cases known : b ∈ marked
        · exact ⟨marked, visit_of_mem known, distinct, Nat.le_refl _⟩
        · obtain ⟨data, hx⟩ := allocated b (by simp)
          have hlen : (marked ++ [b]).length = marked.length + 1 := by simp
          obtain ⟨inner, hi, hd, hle⟩ := ihDepth (distinct.snoc known ⟨data, hx⟩)
            (exits b data hx) (by omega)
          exact ⟨inner, (visit_of_block known hx).trans hi, hd, by omega⟩
      obtain ⟨inner, hb, hinner, hle⟩ := hfirst
      obtain ⟨all, hall, hd, hle'⟩ := ih hinner (fun c hc => allocated c (by simp [hc])) (by omega)
      refine ⟨all, ?_, hd, by omega⟩
      rw [List.foldlM_cons, hb]
      exact hall

/-- The search with a list of pending blocks ends, finds each block that the entry leads to once,
and enters them in the order in which the recursive search marks them. -/
theorem reachable_depthFirst (entry : ∀ b, g.entry.expand = some b → g.Allocated b)
    (exits : ∀ a x, g.blocks.get? a = some x → ∀ b ∈ x.exits, g.Allocated b) :
    ∃ order, g.reachable = .ok order ∧
      (∃ n, n ≤ g.exitCount + 1 ∧ g.Drains n g.entry.expand.toList [] order) ∧
      order.Nodup ∧ (∀ b, b ∈ order ↔ g.Reached b) ∧
      ∀ depth, g.blocks.size < depth →
        g.entry.expand.toList.foldlM (g.visit depth) [] = some order := by
  have searched : ∀ depth, g.blocks.size < depth → ∃ order,
      g.entry.expand.toList.foldlM (g.visit depth) [] = some order ∧ g.reachable = .ok order := by
    intro depth deep
    have allocated : ∀ b ∈ g.entry.expand.toList, g.Allocated b := fun b hb =>
      entry b (Option.mem_toList.mp hb)
    obtain ⟨order, visited, -, -⟩ := visits_total exits ⟨List.nodup_nil, by simp⟩ allocated deep
    obtain ⟨m, drains⟩ := drains_of_visits visited (.done : g.Drains 0 [] order order)
    rw [List.append_nil] at drains
    exact ⟨order, visited, reachable_iff_drains.mpr ⟨m, drains⟩⟩
  obtain ⟨order, -, found⟩ := searched (g.blocks.size + 1) (by omega)
  obtain ⟨n, drains⟩ := reachable_iff_drains.mp found
  refine ⟨order, found, ⟨n, drains.le_of_entry, drains⟩, reachable_nodup found,
    fun b => mem_reachable_iff found, ?_⟩
  intro depth deep
  obtain ⟨order', visited, found'⟩ := searched depth deep
  cases found.symm.trans found'
  exact visited

theorem allocated_of_values (edges : BlockData → List Block)
    (h : (g.blocks.values.all fun x => (edges x).all (·.index < g.blocks.size)) = true) (a : Block)
    (x : BlockData) (hx : g.blocks.get? a = some x) (b : Block) (hb : b ∈ edges x) :
    g.Allocated b := by
  rw [get?_eq_values] at hx
  have hall := List.all_eq_true.mp h x (List.mem_of_getElem? hx)
  exact allocated_iff.mpr (of_decide_eq_true (List.all_eq_true.mp hall b hb))

/-- A loop with an edge to itself and two to a cycle of two blocks, which is entered past the loop
too. A block that nothing leads to has an edge to the entry. -/
def crossroads : FlowGraph where
  blocks := Table.ofList
    [{ id := Key.wrap 0, kind := .ifCond, entries := [Key.wrap 2, Key.wrap 4],
       exits := [Key.wrap 1, Key.wrap 2] },
      { id := Key.wrap 1, kind := .whileCond, entries := [Key.wrap 0, Key.wrap 1],
        exits := [Key.wrap 1, Key.wrap 3, Key.wrap 3] },
      { id := Key.wrap 2, kind := .ifCond, entries := [Key.wrap 0, Key.wrap 3],
        exits := [Key.wrap 3, Key.wrap 0] },
      { id := Key.wrap 3, kind := .seq, entries := [Key.wrap 1, Key.wrap 1, Key.wrap 2],
        exits := [Key.wrap 2] },
      { id := Key.wrap 4, kind := .seq, exits := [Key.wrap 0] }]
  entry := ⟨Key.wrap 0⟩

/-- The second exit of the entry is pending from the first round on, and is entered last, by way of
the first. -/
theorem reachable_depthFirst_of_crossroads :
    crossroads.reachable = .ok ([0, 1, 3, 2].map Key.wrap) ∧ ¬crossroads.Reached (Key.wrap 4) ∧
      ∀ depth, 5 < depth →
        [Key.wrap 0].foldlM (crossroads.visit depth) [] = some ([0, 1, 3, 2].map Key.wrap) := by
  have entry : ∀ b, crossroads.entry.expand = some b → crossroads.Allocated b := by
    intro b hb
    cases hb
    exact allocated_iff.mpr (by decide)
  obtain ⟨order, found, -, -, member, visited⟩ := reachable_depthFirst entry
    (allocated_of_values BlockData.exits (by decide +kernel))
  have eval : crossroads.reachable = .ok ([0, 1, 3, 2].map Key.wrap) := by decide +kernel
  cases eval.symm.trans found
  refine ⟨eval, fun hr => ?_, visited⟩
  exact absurd ((member _).mpr hr) (by decide)

end FlowGraph

end Superstep
