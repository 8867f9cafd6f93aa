import Superstep.Communication.Detect
import Superstep.Proofs.Lookup

namespace Superstep

namespace Statement

/-- A statement without the role that a loop has been given. -/
def plain : Statement → Statement
  | .foreach f => .foreach { f with role := .unclassified }
  | statement => statement

/-- The unit that a statement sends: an inner loop its own, a random write to a property the one
of its host and of the vertex that it writes to. -/
def unit? (statement : Statement) (s : Stmt) : Option CommUnit :=
  match statement with
  | .foreach f => if f.iter.isAllGraph then none else some (.nested s)
  | .assign a => a.randomWrite.expand.bind fun host =>
      a.target.field?.map fun access => .randomWrite host access.driver
  | _ => none

/-- The innermost outer loop around what a statement contains. -/
def innermost (statement : Statement) (s : Stmt) (outer : Option Stmt) : Option Stmt :=
  if statement.site = .outerLoop then some s else outer

theorem children_eq_of_plain {a b : Statement} (h : a.plain = b.plain) : a.children = b.children := by
  cases a <;> cases b <;> simp_all [plain, children]

theorem site_eq_of_plain {a b : Statement} (h : a.plain = b.plain) : a.site = b.site := by
  cases a <;> cases b <;> simp_all [plain, site]

theorem unit?_eq_of_plain {a b : Statement} (h : a.plain = b.plain) (s : Stmt) :
    a.unit? s = b.unit? s := by
  cases a <;> cases b <;> simp_all [plain, unit?]

theorem innermost_eq_of_plain {a b : Statement} (h : a.plain = b.plain) (s : Stmt)
    (outer : Option Stmt) : a.innermost s outer = b.innermost s outer := by
  simp [innermost, site_eq_of_plain h]

end Statement

namespace Ast

/-- Only the roles of loops differ. -/
structure SameTrees (a b : Ast) : Prop where
  stmts : ∀ s, (b.stmts.get? s).map Statement.plain = (a.stmts.get? s).map Statement.plain
  symbols : b.symbols = a.symbols
  body : b.body = a.body

theorem SameTrees.refl (a : Ast) : a.SameTrees a := ⟨fun _ => rfl, rfl, rfl⟩

theorem SameTrees.symm {a b : Ast} (h : a.SameTrees b) : b.SameTrees a :=
  ⟨fun s => (h.stmts s).symm, h.symbols.symm, h.body.symm⟩

theorem SameTrees.trans {a b c : Ast} (h : a.SameTrees b) (h' : b.SameTrees c) : a.SameTrees c :=
  ⟨fun s => (h'.stmts s).trans (h.stmts s), h'.symbols.trans h.symbols, h'.body.trans h.body⟩

theorem SameTrees.lookup {a b : Ast} (h : a.SameTrees b) {s : Stmt} {x : Statement}
    (hx : a.stmts.get? s = some x) : ∃ y, b.stmts.get? s = some y ∧ y.plain = x.plain := by
  have hs := h.stmts s
  rw [hx, Option.map_some] at hs
  exact Option.map_eq_some_iff.mp hs

theorem SameTrees.setRole {a : Ast} {s : Stmt} {f : Foreach}
    (h : a.stmts.get? s = some (.foreach f)) (role : LoopRole) :
    a.SameTrees (a.setRole s f role) := by
  refine ⟨?_, rfl, rfl⟩
  intro t
  by_cases ht : s = t
  · subst t
    simp [Ast.setRole, Table.get?_set, h, Statement.plain]
  · simp [Ast.setRole, Table.get?_set, ht]

/-- The unit that the statement of a key sends. -/
def unit? (ast : Ast) (s : Stmt) : Option CommUnit :=
  (ast.stmts.get? s).bind (·.unit? s)

theorem SameTrees.unit? {a b : Ast} (h : a.SameTrees b) (s : Stmt) : b.unit? s = a.unit? s := by
  unfold Ast.unit?
  cases hx : a.stmts.get? s with
  | none =>
    have hn := h.stmts s
    simp only [hx, Option.map_none, Option.map_eq_none_iff] at hn
    simp [hn]
  | some x =>
    obtain ⟨y, hy, hp⟩ := h.lookup hx
    simp [hy, Statement.unit?_eq_of_plain hp]

/-- A statement is part of the tree of another one. -/
inductive Within (ast : Ast) : Stmt → Stmt → Prop
  | self (s : Stmt) : Within ast s s
  | child {s c t : Stmt} {statement : Statement} : ast.stmts.get? s = some statement →
      c ∈ statement.children → Within ast c t → Within ast s t

theorem Within.congr {a b : Ast} (same : a.SameTrees b) {s t : Stmt} (h : a.Within s t) :
    b.Within s t := by
  induction h with
  | self s => exact .self s
  | child hs hc _ ih =>
    obtain ⟨y, hy, hp⟩ := same.lookup hs
    exact .child hy (Statement.children_eq_of_plain hp ▸ hc) ih

/-- The statements of a list of trees in program order, a statement before what it contains, each
with the innermost outer loop around it. -/
inductive Preorder (ast : Ast) : Option Stmt → List Stmt → List (Stmt × Option Stmt) → Prop
  | nil {outer : Option Stmt} : Preorder ast outer [] []
  | cons {outer : Option Stmt} {s : Stmt} {rest : List Stmt} {statement : Statement}
      {inner after : List (Stmt × Option Stmt)} : ast.stmts.get? s = some statement →
      Preorder ast (statement.innermost s outer) statement.children inner →
      Preorder ast outer rest after →
      Preorder ast outer (s :: rest) ((s, outer) :: (inner ++ after))

theorem Preorder.unique {ast : Ast} {outer : Option Stmt} {ss : List Stmt}
    {order order' : List (Stmt × Option Stmt)} (h : ast.Preorder outer ss order)
    (h' : ast.Preorder outer ss order') : order = order' := by
  induction h generalizing order' with
  | nil => cases h'; rfl
  | cons hs _ _ ihInner ihAfter =>
    cases h' with
    | cons hs' hInner hAfter =>
      cases hs.symm.trans hs'
      rw [ihInner hInner, ihAfter hAfter]

theorem Preorder.congr {a b : Ast} (same : a.SameTrees b) {outer : Option Stmt} {ss : List Stmt}
    {order : List (Stmt × Option Stmt)} (h : a.Preorder outer ss order) :
    b.Preorder outer ss order := by
  induction h with
  | nil => exact .nil
  | @cons outer s rest statement inner after hs _ _ ihInner ihAfter =>
    obtain ⟨y, hy, hp⟩ := same.lookup hs
    refine .cons hy ?_ ihAfter
    rw [Statement.innermost_eq_of_plain hp, Statement.children_eq_of_plain hp]
    exact ihInner

theorem Preorder.mem_of_within {ast : Ast} {outer : Option Stmt} {ss : List Stmt}
    {order : List (Stmt × Option Stmt)} (h : ast.Preorder outer ss order) {s t : Stmt}
    (hs : s ∈ ss) (ht : ast.Within s t) : t ∈ order.map Prod.fst := by
  induction h generalizing s with
  | nil => simp at hs
  | @cons outer r rest statement inner after hr _ _ ihInner ihAfter =>
    simp only [List.map_cons, List.map_append]
    rcases List.mem_cons.mp hs with rfl | hs
    · cases ht with
      | self => simp
      | child hx hc hw =>
        cases hr.symm.trans hx
        exact List.mem_cons_of_mem _ (List.mem_append_left _ (ihInner hc hw))
    · exact List.mem_cons_of_mem _ (List.mem_append_right _ (ihAfter hs ht))

end Ast

end Superstep
