import Mathlib.Data.List.Nodup
import Superstep.Builder
import Superstep.Proofs.BlockIds
import Superstep.Proofs.Edits

namespace Superstep

theorem FlowGraph.addExit_sameOutline {g g' : FlowGraph} {a b : Block} (h : g.addExit a b = .ok g') :
    g.SameOutline g' := by
  by_cases hab : a = b
  · have hself : g.updateBlock a (fun x => (x.addExit b).addEntry a) = .ok g' :=
      (if_pos hab).symm.trans h
    exact updateBlock_outline hself
  · exact addExit_outline hab h

theorem FlowGraph.addExit_of_allocated {g : FlowGraph} {a b : Block} (ha : g.Allocated a)
    (hb : g.Allocated b) : ∃ g', g.addExit a b = .ok g' := by
  by_cases hab : a = b
  · obtain ⟨g', hg'⟩ := updateBlock_total (allocated_iff.mp ha) fun x => (x.addExit b).addEntry a
    exact ⟨g', (if_pos hab).trans hg'⟩
  · exact addExit_total hab (allocated_iff.mp ha) (allocated_iff.mp hb)

namespace Builder

/-- A call of a builder. -/
inductive Call where
  | symbol (name : String) (kind : SymbolKind)
  | sentBlock (stmts : List Stmt)
  | foreach (iterator source : Symbol) (iter : IterKind) (body : Stmt)
  | assignField (driver property : Symbol) (rhs : String)
  | assignScalar (target : Symbol) (rhs : String)
  | markRandomWrite (s host : Stmt)
  | ifStmt (cond : String) (positive : Stmt) (negative : Option Stmt)
  | whileStmt (cond : String) (body : Stmt)
  | verbatim (text : String)
  | setBody (s : Stmt)
  | createBlock (kind : BlockKind)
  | addSent (block : Block) (s : Stmt)
  | link (source target : Block)
  | setEntry (block : Block)
  /-- Someone else takes the next id of the shared counter. -/
  | issueId
deriving DecidableEq

namespace Call

/-- A call, whose answer is not looked at. -/
def act : Call → Act Unit
  | symbol name kind => discard <| Builder.symbol name kind
  | sentBlock stmts => discard <| Builder.sentBlock stmts
  | foreach iterator source iter body => discard <| Builder.foreach iterator source iter body
  | assignField driver property rhs => discard <| Builder.assignField driver property rhs
  | assignScalar target rhs => discard <| Builder.assignScalar target rhs
  | markRandomWrite s host => Builder.markRandomWrite s host
  | ifStmt cond positive negative => discard <| Builder.ifStmt cond positive negative
  | whileStmt cond body => discard <| Builder.whileStmt cond body
  | verbatim text => discard <| Builder.verbatim text
  | setBody s => Builder.setBody s
  | createBlock kind => discard <| Builder.createBlock kind
  | addSent block s => Builder.addSent block s
  | link source target => Builder.link source target
  | setEntry block => Builder.setEntry block
  | issueId => modify fun b => { b with context.ids := b.context.ids.issue.2 }

/-- Makes statements and symbols only. -/
def onTree : Call → Bool
  | createBlock _ | addSent .. | link .. | setEntry _ | issueId => false
  | _ => true

/-- Takes an id from the counter. -/
def takesId : Call → Bool
  | createBlock _ | issueId => true
  | _ => false

end Call

section Tree

variable {α : Type}

/-- However the action ends, the blocks and the counter are as they were. -/
abbrev KeepsBlocks (act : Act α) : Prop := Keeps (fun b => (b.body.graph, b.context.ids)) Eq act

theorem insertString_blocks (s : String) : KeepsBlocks (insertString s) := fun _ => rfl

theorem onAst_blocks (act : EStateM Fault Ast α) : KeepsBlocks (onAst act) := by
  have anything : Keeps id (fun _ _ => True) act := fun _ => trivial
  exact anything.onPart fun _ _ _ => rfl

theorem updateAst_blocks (f : Ast → Except Fault Ast) : KeepsBlocks (updateAst f) :=
  .updatePart fun _ _ _ => rfl

theorem discard_blocks {act : Act α} (h : KeepsBlocks act) : KeepsBlocks (discard act) :=
  .bind h fun _ => .pure _

/-- Keeps a text in the pool, and makes a part of the tree that names it. -/
theorem withText_blocks (text : String) (make : Str → EStateM Fault Ast α) :
    KeepsBlocks (discard (insertString text >>= fun handle => onAst (make handle))) :=
  discard_blocks (.bind (insertString_blocks text) fun _ => onAst_blocks _)

theorem Call.act_blocks {call : Call} (tree : call.onTree = true) : KeepsBlocks call.act := by
  cases call with
  | symbol name kind => exact withText_blocks name _
  | sentBlock stmts => exact discard_blocks (onAst_blocks _)
  | foreach iterator source iter body => exact discard_blocks (onAst_blocks _)
  | assignField driver property rhs => exact withText_blocks rhs _
  | assignScalar target rhs => exact withText_blocks rhs _
  | markRandomWrite s host =>
    rw [act, Builder.markRandomWrite]
    exact updateAst_blocks _
  | ifStmt cond positive negative =>
    refine discard_blocks (.bind (insertString_blocks cond) fun _ => ?_)
    exact .bind (.settle _) fun _ => onAst_blocks _
  | whileStmt cond body => exact withText_blocks cond _
  | verbatim text => exact withText_blocks text _
  | setBody s =>
    rw [act, Builder.setBody]
    exact updateAst_blocks _
  | createBlock kind => cases tree
  | addSent block s => cases tree
  | link source target => cases tree
  | setEntry block => cases tree
  | issueId => cases tree

end Tree

section Blocks

variable {g g' : FlowGraph} {ids ids' : IdCounter} {call : Call}

/-- What a call that returns does to the blocks and the counter. -/
inductive Step (g : FlowGraph) (ids : IdCounter) : Call → FlowGraph → IdCounter → Prop
  | tree {call : Call} : call.onTree = true → Step g ids call g ids
  | createBlock (kind : BlockKind) {b : Block} : b.index = g.blocks.size →
      Step g ids (.createBlock kind)
        { g with
          blocks := g.blocks.push { id := ids.issue.1, kind }
          layout := g.layout ++ [b] } ids.issue.2
  | addSent {b : Block} {s : Stmt} {g' : FlowGraph} : g.updateBlock b (·.addSent s) = .ok g' →
      Step g ids (.addSent b s) g' ids
  | link {a b : Block} {g' : FlowGraph} : g.addExit a b = .ok g' → Step g ids (.link a b) g' ids
  | setEntry {b : Block} {entry : Packed "Block" 0xFFFFFFFF} : Packed.some b = .ok entry →
      Step g ids (.setEntry b) { g with entry } ids
  | issueId : Step g ids .issueId g ids.issue.2

theorem updateGraph_ok {f : FlowGraph → Except Fault FlowGraph} {u t : Builder} {r : Unit} :
    updateGraph f u = .ok r t ↔ ∃ g, f u.body.graph = .ok g ∧ t = { u with body.graph := g } :=
  updatePart_ok

theorem addSent_ok {b : Block} {s : Stmt} {u t : Builder} {r : Unit} :
    Builder.addSent b s u = .ok r t ↔
      ∃ g, u.body.graph.updateBlock b (·.addSent s) = .ok g ∧ t = { u with body.graph := g } :=
  updateGraph_ok (f := (·.updateBlock b (·.addSent s)))

theorem link_ok {a b : Block} {u t : Builder} {r : Unit} :
    Builder.link a b u = .ok r t ↔
      ∃ g, u.body.graph.addExit a b = .ok g ∧ t = { u with body.graph := g } :=
  updateGraph_ok (f := (·.addExit a b))

theorem setEntry_ok {b : Block} {u t : Builder} {r : Unit} :
    Builder.setEntry b u = .ok r t ↔
      ∃ g, u.body.graph.setEntry b = .ok g ∧ t = { u with body.graph := g } :=
  updateGraph_ok (f := (·.setEntry b))

theorem createBlock_ok {kind : BlockKind} {u t : Builder} {b : Block}
    (h : Builder.createBlock kind u = .ok b t) :
    b.index = u.body.graph.blocks.size ∧
      t = { u with
        context.ids := u.context.ids.issue.2
        body.graph :=
          { u.body.graph with
            blocks := u.body.graph.blocks.push { id := u.context.ids.issue.1, kind }
            layout := u.body.graph.layout ++ [b] } } := by
  obtain ⟨c, v, hcreate, h⟩ := bind_ok.mp h
  obtain ⟨_, w, hlist, h⟩ := bind_ok.mp h
  obtain ⟨rfl, rfl⟩ := pure_ok.mp h
  obtain ⟨⟨g, ids⟩, hnew, rfl⟩ := onPart_ok.mp hcreate
  obtain ⟨hb, rfl, rfl⟩ := FlowGraph.createBlock_ok.mp hnew
  obtain ⟨g', hg', rfl⟩ := updateGraph_ok.mp hlist
  obtain ⟨-, rfl⟩ := FlowGraph.appendBlock_ok.mp hg'
  exact ⟨hb, rfl⟩

theorem Call.step_of_ok {u t : Builder} {r : Unit} (h : call.act u = .ok r t) :
    Step u.body.graph u.context.ids call t.body.graph t.context.ids := by
  by_cases tree : call.onTree = true
  · have same := call.act_blocks tree u
    rw [finalState_of_ok h] at same
    obtain ⟨hgraph, hids⟩ := Prod.mk.inj same
    rw [← hgraph, ← hids]
    exact .tree tree
  · cases call with
    | createBlock kind =>
      obtain ⟨b, v, hb, h⟩ := bind_ok.mp h
      obtain ⟨-, rfl⟩ := pure_ok.mp h
      obtain ⟨hindex, rfl⟩ := createBlock_ok hb
      exact .createBlock kind hindex
    | addSent b s =>
      obtain ⟨g, hg, rfl⟩ := addSent_ok.mp h
      exact .addSent hg
    | link a b =>
      obtain ⟨g, hg, rfl⟩ := link_ok.mp h
      exact .link hg
    | setEntry b =>
      obtain ⟨g, hg, rfl⟩ := setEntry_ok.mp h
      obtain ⟨entry, hentry, hg⟩ := except_bind_ok.mp hg
      cases hg
      exact .setEntry hentry
    | issueId =>
      cases modify_ok.mp h
      exact .issueId
    | symbol | sentBlock | foreach | assignField | assignScalar | markRandomWrite | ifStmt
    | whileStmt | verbatim | setBody => exact absurd rfl tree

/-- Calls that return, one after the other. -/
inductive Steps : FlowGraph → IdCounter → List Call → FlowGraph → IdCounter → Prop
  | nil (g : FlowGraph) (ids : IdCounter) : Steps g ids [] g ids
  | cons {g g₁ g' : FlowGraph} {ids ids₁ ids' : IdCounter} {call : Call} {calls : List Call} :
      Step g ids call g₁ ids₁ → Steps g₁ ids₁ calls g' ids' → Steps g ids (call :: calls) g' ids'

theorem steps_of_ok {calls : List Call} {u t : Builder} {r : Unit}
    (h : calls.forM Call.act u = .ok r t) :
    Steps u.body.graph u.context.ids calls t.body.graph t.context.ids := by
  induction calls generalizing u with
  | nil =>
    obtain ⟨-, rfl⟩ := pure_ok.mp h
    exact .nil _ _
  | cons call calls ih =>
    obtain ⟨_, v, hcall, hrest⟩ := bind_ok.mp h
    exact .cons (call.step_of_ok hcall) (ih hrest)

/-- A graph that lists its blocks in the order of their creation and holds nothing but what calls of
a builder put there. -/
structure Assembled (g : FlowGraph) : Prop where
  mirrored : g.EdgesMirrored
  layout : g.layout.map Key.index = List.range g.blocks.size
  plain : ∀ b x, g.blocks.get? b = some x → x.afterVertex = false ∧ x.receivers = []

theorem Assembled.mem_layout (a : Assembled g) {b : Block} : b ∈ g.layout ↔ g.Allocated b := by
  rw [FlowGraph.allocated_iff, ← List.mem_range, ← a.layout, List.mem_map]
  constructor
  · intro hb
    exact ⟨b, hb, rfl⟩
  · rintro ⟨c, hc, hindex⟩
    exact Key.ext hindex ▸ hc

theorem Step.assembled (h : Step g ids call g' ids') (a : Assembled g) : Assembled g' := by
  cases h with
  | tree => exact a
  | createBlock kind hb =>
    refine ⟨a.mirrored.push rfl rfl rfl, ?_, fun b x hx => ?_⟩
    · simp only [Table.size_push, List.range_succ, List.map_append, a.layout, List.map_cons, hb,
        List.map_nil]
    · rw [Table.get?_push] at hx
      split at hx
      · cases hx
        exact ⟨rfl, rfl⟩
      · exact a.plain b x hx
  | addSent hg =>
    have outline := FlowGraph.updateBlock_outline hg
    refine ⟨a.mirrored.updateBlock hg (fun _ => rfl) fun _ => rfl, ?_, fun b x hx => ?_⟩
    · rw [outline.layout, outline.size, a.layout]
    · rw [FlowGraph.updateBlock_lookup hg] at hx
      split at hx
      · obtain ⟨y, hy, rfl⟩ := Option.map_eq_some_iff.mp hx
        exact a.plain b y hy
      · exact a.plain b x hx
  | link hg =>
    have outline := FlowGraph.addExit_sameOutline hg
    obtain ⟨-, -, lookup⟩ := FlowGraph.addExit_edges hg
    refine ⟨a.mirrored.addExit hg, ?_, fun b x hx => ?_⟩
    · rw [outline.layout, outline.size, a.layout]
    · rw [lookup] at hx
      obtain ⟨y, hy, rfl⟩ := Option.map_eq_some_iff.mp hx
      exact a.plain b y hy
  | setEntry hentry => exact ⟨a.mirrored.congr rfl, a.layout, a.plain⟩
  | issueId => exact a

theorem Steps.assembled {calls : List Call} (h : Steps g ids calls g' ids') (a : Assembled g) :
    Assembled g' := by
  induction h with
  | nil => exact a
  | cons step _ ih => exact ih (step.assembled a)

theorem Step.entry (h : Step g ids call g' ids') :
    g'.entry = g.entry ∨ ∃ b, call = .setEntry b ∧ g'.entry.expand = some b := by
  cases h with
  | setEntry hentry => exact Or.inr ⟨_, rfl, Packed.expand_of_some hentry⟩
  | addSent hg => exact Or.inl (FlowGraph.updateBlock_outline hg).entry
  | link hg => exact Or.inl (FlowGraph.addExit_sameOutline hg).entry
  | tree | createBlock | issueId => exact Or.inl rfl

theorem Steps.entry {calls : List Call} (h : Steps g ids calls g' ids') :
    g'.entry = g.entry ∨ ∃ b, .setEntry b ∈ calls ∧ g'.entry.expand = some b := by
  induction h with
  | nil => exact Or.inl rfl
  | cons step _ ih =>
    rcases ih with same | ⟨b, hb, hentry⟩
    · rw [same]
      refine step.entry.imp_right ?_
      rintro ⟨b, rfl, hentry⟩
      exact ⟨b, List.mem_cons_self, hentry⟩
    · exact Or.inr ⟨b, List.mem_cons_of_mem _ hb, hentry⟩

theorem Step.charged (h : Step g ids call g' ids') :
    ∃ takers : List (Option Nat), takers.length = (if call.takesId then 1 else 0) ∧
      Charged ids takers g.idAt g'.idAt ∧ ids' = ids.after takers.length := by
  have idle : ∀ {g' : FlowGraph}, g'.blockIds = g.blockIds → ∀ n,
      Charged ids (List.replicate n none) g.idAt g'.idAt := by
    intro g' same n
    have hidAt : g'.idAt = g.idAt := funext fun i => congrArg (·[i]?) same
    rw [hidAt]
    exact .none ids n _
  cases h with
  | tree htree =>
    refine ⟨[], ?_, idle rfl 0, rfl⟩
    cases call <;> first | rfl | cases htree
  | createBlock kind hb =>
    have grown : Ledger.Grown ⟨g.blockIds, ids⟩ ⟨g.blockIds ++ [ids.issue.1], ids.issue.2⟩ :=
      ⟨1, rfl, rfl⟩
    obtain ⟨charged, hids⟩ := grown.charged
    rw [← FlowGraph.blockIds_push g { id := ids.issue.1, kind }] at charged hids
    refine ⟨_, ?_, charged, hids⟩
    simp only [FlowGraph.blockIds_push, newSlots, List.length_append, Nat.add_sub_cancel_left,
      List.length_map, List.length_range']
    rfl
  | addSent hg => exact ⟨[], rfl, idle (FlowGraph.updateBlock_blockIds hg fun _ => rfl) 0, rfl⟩
  | link hg => exact ⟨[], rfl, idle (FlowGraph.addExit_blockIds hg) 0, rfl⟩
  | setEntry hentry => exact ⟨[], rfl, idle rfl 0, rfl⟩
  | issueId => exact ⟨[none], rfl, idle rfl 1, rfl⟩

theorem Steps.charged {calls : List Call} (h : Steps g ids calls g' ids') :
    ∃ takers : List (Option Nat), takers.length = calls.countP Call.takesId ∧
      Charged ids takers g.idAt g'.idAt := by
  induction h with
  | nil g ids => exact ⟨[], rfl, .none ids 0 _⟩
  | cons step _ ih =>
    obtain ⟨first, hlength, charged, rfl⟩ := step.charged
    obtain ⟨rest, hlength', charged'⟩ := ih
    refine ⟨first ++ rest, ?_, charged.trans charged'⟩
    rw [List.length_append, List.countP_cons, hlength, hlength', Nat.add_comm]

theorem Assembled.empty : Assembled {} :=
  ⟨.empty, rfl, fun _ _ h => nomatch h⟩

theorem Assembled.valid (a : Assembled g) (entry : ∀ b, g.entry.expand = some b → g.Allocated b)
    (distinct : ∀ i j id, g.idAt i = some id → g.idAt j = some id → i = j) : g.Valid where
  allocated := fun b hb => a.mem_layout.mp hb
  layout_nodup := by
    have hnodup : (g.layout.map Key.index).Nodup := a.layout ▸ List.nodup_range
    exact hnodup.of_map
  id_inj := by
    intro b c x y hb hc he
    have hx := FlowGraph.idAt_of_get? hb.2
    have hy := FlowGraph.idAt_of_get? hc.2
    exact Key.ext (distinct b.index c.index y.id (he ▸ hx) hy)
  entry_listed := fun b hb => a.mem_layout.mpr (entry b hb)
  exit_listed := fun b x hb c hc =>
    a.mem_layout.mpr (a.mirrored.exit_mem b x ⟨x, hb.2⟩ hb.2 c hc)
  pred_listed := fun b x hb c hc =>
    a.mem_layout.mpr (a.mirrored.entry_mem b x ⟨x, hb.2⟩ hb.2 c hc)
  mirrored := fun b c x y hb hc => a.mirrored.count_eq b c x y ⟨x, hb.2⟩ ⟨y, hc.2⟩ hb.2 hc.2
  after_vertex := fun b x hb h => by simp [(a.plain b x hb.2).1] at h
  receiver_kind := fun b x hb h => absurd (a.plain b x hb.2).2 h
  registered := fun b x hb u hu => by simp [(a.plain b x hb.2).2] at hu
  receivers_nodup := fun b x hb => by simp [(a.plain b x hb.2).2]

theorem link_error {a b : Block} {u t : Builder} {e : Fault} :
    Builder.link a b u = .error e t ↔ u.body.graph.addExit a b = .error e ∧ t = u := by
  have refused : updateGraph (·.addExit a b) u = .error e t ↔
      ∃ d, u.body.graph.addExit a b = .error d ∧ e = d ∧ t = u := updatePart_error
  refine refused.trans ?_
  constructor
  · rintro ⟨_, hd, rfl, rfl⟩
    exact ⟨hd, rfl⟩
  · rintro ⟨hd, rfl⟩
    exact ⟨e, hd, rfl, rfl⟩

/-- An edge between two blocks can always be made, and no other can. -/
theorem link_refused_iff {a b : Block} {u : Builder} :
    (∃ e t, Builder.link a b u = .error e t) ↔
      ¬(u.body.graph.Allocated a ∧ u.body.graph.Allocated b) := by
  constructor
  · rintro ⟨e, t, h⟩ ⟨ha, hb⟩
    obtain ⟨g, hg⟩ := FlowGraph.addExit_of_allocated ha hb
    cases (link_error.mp h).1.symm.trans hg
  · intro absent
    cases hg : u.body.graph.addExit a b with
    | ok g =>
      obtain ⟨ha, hb, -⟩ := FlowGraph.addExit_edges hg
      exact absurd ⟨ha, hb⟩ absent
    | error e => exact ⟨e, u, link_error.mpr ⟨hg, rfl⟩⟩

end Blocks

end Builder

namespace Program

theorem declare_ok {name : String} {p p₁ : Program} {key : Proc} (h : declare name p = .ok key p₁) :
    key.index = p.procedures.size ∧
      p₁ = { p with
        procedures := p.procedures.push { name, key }, names := (name, key) :: p.names } := by
  unfold declare at h
  split at h
  · cases h
  · split at h
    next => cases h
    next k hk =>
      obtain ⟨rfl, rfl⟩ := h
      exact ⟨Key.ofNat_eq_ok_iff.mp hk, rfl⟩

theorem declare_error {name : String} {p p₁ : Program} {e : Fault}
    (h : declare name p = .error e p₁) : p₁ = p := by
  unfold declare at h
  split at h
  · cases h
    rfl
  · split at h
    next => cases h; rfl
    next => cases h

/-- A procedure that was declared can be given a body. -/
theorem define_of_declared {name : String} {p p₁ : Program} {key : Proc}
    (h : declare name p = .ok key p₁) (body : Body) :
    p₁.define key body =
      .ok { p₁ with procedures := p₁.procedures.set key { toBody := body, name, key } } ∧
    (p₁.procedures.set key { toBody := body, name, key }).get? key =
      some { toBody := body, name, key } := by
  obtain ⟨hkey, rfl⟩ := declare_ok h
  have hget : (p.procedures.push { name, key }).get? key = some { name, key } := by
    rw [Table.get?_push, if_pos hkey]
  refine ⟨except_bind_ok.mpr ⟨_, Table.update_ok.mpr ⟨_, hget, rfl⟩, rfl⟩, ?_⟩
  simp [Table.get?_set, hget]

/-- Whatever is built for a procedure by calls that return, it has no defect and lists its blocks in
the order of their creation, as long as its entry is one of them and the counter did not come round.
A call for an edge that is refused changes nothing. -/
theorem built_valid {p p₁ : Program} {name : String} {key : Proc} {context : Context}
    {calls : List Builder.Call} {built : Builder} (declared : declare name p = .ok key p₁)
    (returned : calls.forM Builder.Call.act { context } = .ok () built)
    (entries : ∀ b, .setEntry b ∈ calls → built.body.graph.Allocated b)
    (unwrapped : calls.countP Builder.Call.takesId ≤ 0x100000000) :
    (∃ p₂ procedure, p₁.define key built.body = .ok p₂ ∧ p₂.procedure key = .ok procedure ∧
      procedure = { toBody := built.body, name, key } ∧ procedure.graph.defects = .ok [] ∧
      procedure.graph.layout.map Key.index = List.range procedure.graph.blocks.size) ∧
    ∀ a b (u : Builder),
      ((∃ e t, Builder.link a b u = .error e t) ↔
        ¬(u.body.graph.Allocated a ∧ u.body.graph.Allocated b)) ∧
      ∀ e t, Builder.link a b u = .error e t → t = u := by
  have steps := Builder.steps_of_ok returned
  have assembled := steps.assembled .empty
  obtain ⟨takers, hlength, charged⟩ := steps.charged
  have distinct : ∀ i j id, built.body.graph.idAt i = some id → built.body.graph.idAt j = some id →
      i = j := by
    intro i j id hi hj
    exact charged.injective (by omega) hi hj
  have entry : ∀ b, built.body.graph.entry.expand = some b → built.body.graph.Allocated b := by
    intro b hb
    rcases steps.entry with same | ⟨c, hc, hentry⟩
    · rw [same] at hb
      cases hb
    · cases hentry.symm.trans hb
      exact entries b hc
  obtain ⟨hdefine, hget⟩ := define_of_declared declared built.body
  refine ⟨⟨_, _, hdefine, Table.get_ok.mpr hget, rfl, ?_, assembled.layout⟩, fun a b u => ?_⟩
  · exact (assembled.valid entry distinct).defects_eq
  · exact ⟨Builder.link_refused_iff, fun e t h => (Builder.link_error.mp h).2⟩

/-- A loop around a superstep, with an edge from a block to itself and two parallel edges. Someone
else takes an id in between. -/
def loopCalls : List Builder.Call :=
  [.symbol "G" .graph, .symbol "n" .node, .createBlock .whileCond, .setEntry (Key.wrap 0),
    .link (Key.wrap 0) (Key.wrap 0), .verbatim "skip", .issueId, .createBlock .beginVertex,
    .foreach (Key.wrap 1) (Key.wrap 0) .allNodes (Key.wrap 0), .addSent (Key.wrap 1) (Key.wrap 1),
    .setBody (Key.wrap 1), .link (Key.wrap 0) (Key.wrap 1), .link (Key.wrap 1) (Key.wrap 0),
    .link (Key.wrap 1) (Key.wrap 0)]

theorem built_valid_of_loopCalls :
    ∃ key p₁ p₂ procedure built, declare "main" (create "P").1 = .ok key p₁ ∧
      loopCalls.forM Builder.Call.act { context := (create "P").2 } = .ok () built ∧
      p₁.define key built.body = .ok p₂ ∧ p₂.procedure key = .ok procedure ∧
      procedure.graph.blocks.size = 2 ∧ procedure.graph.defects = .ok [] := by
  have run : ((match loopCalls.forM Builder.Call.act { context := (create "P").2 } with
      | .ok _ built => some built.body.graph.blocks.size
      | .error _ _ => none) : Option Nat) = some 2 := by decide +kernel
  cases returned : loopCalls.forM Builder.Call.act { context := (create "P").2 } with
  | error e t => simp [returned] at run
  | ok r built =>
    simp only [returned, Option.some.injEq] at run
    have entries : ∀ b, .setEntry b ∈ loopCalls → built.body.graph.Allocated b := by
      intro b hb
      have hzero : b = Key.wrap 0 := by simpa [loopCalls] using hb
      rw [FlowGraph.allocated_iff, run, hzero]
      decide
    have declared : declare "main" (create "P").1 = .ok _ _ := rfl
    obtain ⟨⟨p₂, procedure, hdefine, hprocedure, rfl, hvalid, -⟩, -⟩ :=
      built_valid declared returned entries (by decide)
    exact ⟨_, _, p₂, _, built, declared, rfl, hdefine, hprocedure, run, hvalid⟩

end Program

end Superstep
