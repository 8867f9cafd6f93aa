import Superstep.Communication.Error
import Superstep.Proofs.Lockstep
import Superstep.Proofs.Reached

namespace Superstep

/-- What can be seen of block ids and of the counter that they come from. Counters that look alike
hand out ids that look alike. -/
structure IdView where
  Seen : Type
  id : BlockId → BlockId
  counter : IdCounter → Seen
  issue : ∀ c d, counter c = counter d →
    id c.issue.1 = id d.issue.1 ∧ counter c.issue.2 = counter d.issue.2

namespace IdView

/-- Every id is seen as it is. -/
def exact : IdView where
  Seen := IdCounter
  id i := i
  counter c := c
  issue := by
    rintro c _ rfl
    exact ⟨rfl, rfl⟩

/-- No two ids can be told apart. -/
def blind : IdView where
  Seen := Unit
  id _ := Key.wrap 0
  counter _ := ()
  issue := fun _ _ _ => ⟨rfl, rfl⟩

end IdView

variable (view : IdView)

def BlockData.seen (x : BlockData) : BlockData := { x with id := view.id x.id }

/-- The blocks differ at most in their ids, and those look alike. -/
abbrev BlockData.Like (x y : BlockData) : Prop := x.seen view = y.seen view

/-- A table with every value replaced. -/
def Table.map {K V W : Type} (f : V → W) (t : Table K V) : Table K W := ⟨t.slots.map f⟩

def FlowGraph.seen (g : FlowGraph) : FlowGraph := { g with blocks := g.blocks.map (·.seen view) }

/-- The graphs differ at most in the ids of their blocks, and those look alike. -/
abbrev FlowGraph.Like (g h : FlowGraph) : Prop := g.seen view = h.seen view

def EdgeError.seen : EdgeError → EdgeError
  | entryOutOfRange block index found => .entryOutOfRange (view.id block) index found
  | exitOutOfRange block index found => .exitOutOfRange (view.id block) index found

def CommError.seen : CommError → CommError
  | receiverTraversal block stmt => .receiverTraversal (view.id block) stmt
  | innerLoopWithoutOuter block stmt => .innerLoopWithoutOuter (view.id block) stmt
  | randomWriteWithoutOuter block stmt => .randomWriteWithoutOuter (view.id block) stmt
  | randomWriteWithoutField stmt => .randomWriteWithoutField stmt
  | conflictingLoopRole stmt existing => .conflictingLoopRole stmt existing
  | notVertexBlock block => .notVertexBlock (view.id block)
  | noReceivers block => .noReceivers (view.id block)
  | entryCount block found => .entryCount (view.id block) found
  | exitCount block found => .exitCount (view.id block) found
  | vertexPredecessor block pred => .vertexPredecessor (view.id block) (view.id pred)
  | vertexSuccessor block succ => .vertexSuccessor (view.id block) (view.id succ)
  | successorEntryCount block succ found =>
    .successorEntryCount (view.id block) (view.id succ) found
  | edge e => .edge (e.seen view)

/-- The same fault, which is not that of a failed verification. -/
def Fault.Like (f f' : Fault) : Prop := f = f' ∧ ∀ name, f ≠ .failedVerification name

/-- The same cause, with ids that look alike, or the same fault. -/
inductive Halt.Like : Halt CommError → Halt CommError → Prop
  | error {e e' : CommError} : e.seen view = e'.seen view → Halt.Like (.error e) (.error e')
  | fault {f f' : Fault} : f.Like f' → Halt.Like (.fault f) (.fault f')

variable {view}

theorem BlockData.Like.fields {x y : BlockData} (h : x.Like view y) :
    ∃ i, x = { y with id := i } ∧ view.id i = view.id y.id := by
  cases x
  cases y
  obtain ⟨hid, rfl, rfl, rfl, rfl, rfl, rfl⟩ := BlockData.mk.inj h
  exact ⟨_, rfl, hid⟩

theorem Table.get?_map {label : String} {last : Nat} {V W : Type} (f : V → W)
    (t : Table (Key label last) V) (k : Key label last) : (t.map f).get? k = (t.get? k).map f :=
  Array.getElem?_map

theorem Table.map_set {label : String} {last : Nat} {V W : Type} (f : V → W)
    (t : Table (Key label last) V) (k : Key label last) (v : V) :
    (t.set k v).map f = (t.map f).set k (f v) := by
  simp [Table.map, set]

theorem Table.map_push {K V W : Type} (f : V → W) (t : Table K V) (v : V) :
    (t.push v).map f = (t.map f).push (f v) := by
  simp [Table.map, push]

theorem Table.get_alike {label : String} {last : Nat} {V : Type} (t : Table (Key label last) V)
    (k : Key label last) : Alike Fault.Like Eq (t.get k) (t.get k) := by
  unfold get
  cases t.get? k with
  | none => exact .error ⟨rfl, fun _ => Fault.noConfusion⟩
  | some v => exact .ok rfl

namespace FlowGraph

variable {g h : FlowGraph}

namespace Like

theorem get? (like : g.Like view h) (b : Block) :
    (∃ x y, g.blocks.get? b = some x ∧ h.blocks.get? b = some y ∧ x.Like view y) ∨
      (g.blocks.get? b = none ∧ h.blocks.get? b = none) := by
  have same : (g.blocks.get? b).map (·.seen view) = (h.blocks.get? b).map (·.seen view) := by
    rw [← Table.get?_map, ← Table.get?_map]
    exact congrArg (·.blocks.get? b) like
  cases hx : g.blocks.get? b with
  | none =>
    rw [hx] at same
    exact Or.inr ⟨rfl, Option.map_eq_none_iff.mp same.symm⟩
  | some x =>
    rw [hx] at same
    obtain ⟨y, hy, he⟩ := Option.map_eq_some_iff.mp same.symm
    exact Or.inl ⟨x, y, rfl, hy, he.symm⟩

theorem layout (like : g.Like view h) : g.layout = h.layout :=
  (FlowGraph.mk.inj like).2.1

theorem entry (like : g.Like view h) : g.entry = h.entry :=
  (FlowGraph.mk.inj like).2.2.1

theorem registry (like : g.Like view h) : g.registry = h.registry :=
  (FlowGraph.mk.inj like).2.2.2

theorem size (like : g.Like view h) : g.blocks.size = h.blocks.size := by
  have same := congrArg (·.blocks.size) like
  simpa [FlowGraph.seen, Table.map, Table.size] using same

theorem values (like : g.Like view h) {i : Nat} {x y : BlockData}
    (hx : g.blocks.values[i]? = some x) (hy : h.blocks.values[i]? = some y) : x.Like view y := by
  have same : g.blocks.values.map (·.seen view) = h.blocks.values.map (·.seen view) := by
    have hblocks := congrArg Table.values (FlowGraph.mk.inj like).1
    simpa [Table.map, Table.values] using hblocks
  have hi := congrArg (·[i]?) same
  simpa [hx, hy] using hi

theorem set (like : g.Like view h) {x y : BlockData} (hxy : x.Like view y) (b : Block) :
    ({ g with blocks := g.blocks.set b x } : FlowGraph).Like view
      { h with blocks := h.blocks.set b y } := by
  obtain ⟨hblocks, hlayout, hentry, hregistry⟩ := FlowGraph.mk.inj like
  unfold Like seen
  rw [Table.map_set, Table.map_set, hxy, hblocks, hlayout, hentry, hregistry]

theorem push (like : g.Like view h) {x y : BlockData} (hxy : x.Like view y) :
    ({ g with blocks := g.blocks.push x } : FlowGraph).Like view
      { h with blocks := h.blocks.push y } := by
  obtain ⟨hblocks, hlayout, hentry, hregistry⟩ := FlowGraph.mk.inj like
  unfold Like seen
  rw [Table.map_push, Table.map_push, hxy, hblocks, hlayout, hentry, hregistry]

end Like

theorem missing_like : Fault.missingSlot.Like .missingSlot := ⟨rfl, fun _ => Fault.noConfusion⟩

theorem block_alike (like : g.Like view h) (b : Block) :
    Alike Fault.Like (BlockData.Like view) (g.block b) (h.block b) := by
  unfold block Table.get
  rcases like.get? b with ⟨x, y, hx, hy, hxy⟩ | ⟨hx, hy⟩
  · rw [hx, hy]
    exact .ok hxy
  · rw [hx, hy]
    exact .error missing_like

theorem updateBlock_alike (like : g.Like view h) (b : Block) {f f' : BlockData → BlockData}
    (hf : ∀ x y, x.Like view y → (f x).Like view (f' y)) :
    Alike Fault.Like (Like view) (g.updateBlock b f) (h.updateBlock b f') := by
  unfold updateBlock Table.update
  rcases like.get? b with ⟨x, y, hx, hy, hxy⟩ | ⟨hx, hy⟩
  · rw [hx, hy]
    exact .ok (like.set (hf x y hxy) b)
  · rw [hx, hy]
    exact .error missing_like

theorem addExit_alike (like : g.Like view h) (a b : Block) :
    Alike Fault.Like (Like view) (g.addExit a b) (h.addExit a b) := by
  have exits : ∀ x y : BlockData, x.Like view y → (x.addExit b).Like view (y.addExit b) := by
    intro x y hxy
    obtain ⟨i, rfl, hi⟩ := hxy.fields
    exact congrArg (fun id : BlockId => { y.addExit b with id }) hi
  have entries : ∀ x y : BlockData, x.Like view y → (x.addEntry a).Like view (y.addEntry a) := by
    intro x y hxy
    obtain ⟨i, rfl, hi⟩ := hxy.fields
    exact congrArg (fun id : BlockId => { y.addEntry a with id }) hi
  by_cases hab : a = b
  · have hg : g.addExit a b = g.updateBlock a fun x => (x.addExit b).addEntry a := if_pos hab
    have hh : h.addExit a b = h.updateBlock a fun x => (x.addExit b).addEntry a := if_pos hab
    rw [hg, hh]
    exact updateBlock_alike like a fun x y hxy => entries _ _ (exits x y hxy)
  · unfold addExit Table.updatePair Table.getPair
    simp only [if_neg hab]
    rcases like.get? a with ⟨x, y, hx, hy, hxy⟩ | ⟨hx, hy⟩ <;>
      rcases like.get? b with ⟨z, w, hz, hw, hzw⟩ | ⟨hz, hw⟩ <;>
      simp only [hx, hy, hz, hw]
    · exact .ok ((like.set (exits x y hxy) a).set (entries z w hzw) b)
    · exact .error ⟨rfl, fun _ => Fault.noConfusion⟩
    · exact .error ⟨rfl, fun _ => Fault.noConfusion⟩
    · exact .error ⟨rfl, fun _ => Fault.noConfusion⟩

theorem appendBlock_alike (like : g.Like view h) (b : Block) :
    Alike Fault.Like (Like view) (g.appendBlock b) (h.appendBlock b) := by
  by_cases hb : b ∈ g.layout
  · have hg : g.appendBlock b = .error .listedTwice := if_pos hb
    have hh : h.appendBlock b = .error .listedTwice := if_pos (like.layout ▸ hb)
    rw [hg, hh]
    exact .error ⟨rfl, fun _ => Fault.noConfusion⟩
  · have hg : g.appendBlock b = .ok { g with layout := g.layout ++ [b] } := if_neg hb
    have hh : h.appendBlock b = .ok { h with layout := h.layout ++ [b] } := if_neg (like.layout ▸ hb)
    rw [hg, hh]
    refine .ok ?_
    exact congrArg (fun k : FlowGraph => { k with layout := k.layout ++ [b] }) like

theorem nthEntry_alike (like : g.Like view h) (b : Block) (i : Nat) :
    Alike Fault.Like (Alike (fun e e' => e.seen view = e'.seen view) Eq) (g.nthEntry b i)
      (h.nthEntry b i) := by
  refine (block_alike like b).bind fun x y hxy => ?_
  obtain ⟨id, rfl, hid⟩ := hxy.fields
  cases y.entries[i]? with
  | none =>
    exact .ok (.error (congrArg (EdgeError.entryOutOfRange · i y.entries.length) hid))
  | some source =>
    exact .ok (.ok rfl)

theorem nthExit_alike (like : g.Like view h) (b : Block) (i : Nat) :
    Alike Fault.Like (Alike (fun e e' => e.seen view = e'.seen view) Eq) (g.nthExit b i)
      (h.nthExit b i) := by
  refine (block_alike like b).bind fun x y hxy => ?_
  obtain ⟨id, rfl, hid⟩ := hxy.fields
  cases y.exits[i]? with
  | none =>
    exact .ok (.error (congrArg (EdgeError.exitOutOfRange · i y.exits.length) hid))
  | some target =>
    exact .ok (.ok rfl)

theorem exitCount_seen (view : IdView) (g : FlowGraph) : (g.seen view).exitCount = g.exitCount := by
  simp [exitCount, seen, Table.map, Table.values, List.foldl_map, BlockData.seen]

theorem preorder_alike (like : g.Like view h) (steps : Nat) (pending : List Block)
    {entered : List Block} {marks : BlockSet} (agree : marks.Lists entered) :
    Alike Fault.Like Eq (g.preorder steps pending entered marks)
      (h.preorder steps pending entered marks) := by
  induction steps generalizing pending entered marks with
  | zero => cases pending <;> exact .ok rfl
  | succ steps ih =>
    cases pending with
    | nil => exact .ok rfl
    | cons b pending =>
      by_cases hb : b ∈ entered
      · rw [preorder_of_mem agree hb, preorder_of_mem agree hb]
        exact ih pending (agree.insert_of_mem hb)
      · rcases (block_alike like b).outcomes with ⟨x, y, hx, hy, hxy⟩ | ⟨e, e', hx, hy, he⟩
        · rw [preorder_of_block agree hb hx, preorder_of_block agree hb hy]
          obtain ⟨i, rfl, -⟩ := hxy.fields
          exact ih _ (agree.insert b)
        · rw [preorder_of_fault agree hb hx, preorder_of_fault agree hb hy]
          exact .error he

theorem reachable_alike (like : g.Like view h) : Alike Fault.Like Eq g.reachable h.reachable := by
  have hcount : g.exitCount = h.exitCount := by
    rw [← exitCount_seen view g, ← exitCount_seen view h, like]
  unfold reachable
  rw [hcount, like.entry]
  exact preorder_alike like _ _ .empty

/-- The same block is created, with an id that looks alike. -/
theorem createBlock_lockstep (kind : BlockKind) :
    Lockstep Fault.Like Eq
      (fun s t : FlowGraph × IdCounter => s.1.Like view t.1 ∧ view.counter s.2 = view.counter t.2)
      (createBlock kind) (createBlock kind) := by
  rintro ⟨g, c⟩ ⟨h, d⟩ ⟨like, hcd⟩
  obtain ⟨hid, hcounter⟩ := view.issue c d hcd
  have pushed := like.push (x := { id := c.issue.1, kind }) (y := { id := d.issue.1, kind })
    (congrArg (fun id : BlockId => ({ id, kind } : BlockData)) hid)
  by_cases room : g.blocks.size ≤ 0xFFFFFFFF
  · have hg : createBlock kind (g, c) = .ok ⟨g.blocks.size, room⟩ (_, _) :=
      createBlock_ok.mpr ⟨rfl, rfl, rfl⟩
    have hh : createBlock kind (h, d) = .ok ⟨g.blocks.size, room⟩ (_, _) :=
      createBlock_ok.mpr ⟨like.size, rfl, rfl⟩
    rw [hg, hh]
    exact .ok rfl ⟨pushed, hcounter⟩
  · have hg : createBlock kind (g, c) = .error .indexTooWide (_, _) :=
      createBlock_error.mpr ⟨Nat.lt_of_not_le room, rfl, rfl, rfl⟩
    have hh : createBlock kind (h, d) = .error .indexTooWide (_, _) :=
      createBlock_error.mpr ⟨like.size ▸ Nat.lt_of_not_le room, rfl, rfl, rfl⟩
    rw [hg, hh]
    exact .error ⟨rfl, fun _ => Fault.noConfusion⟩ ⟨pushed, hcounter⟩

end FlowGraph

end Superstep
