import Superstep.Proofs.Lockstep
import Superstep.Proofs.Offence

namespace Superstep

/-- A call of a visitor that was answered. -/
structure Visit where
  stmt : Stmt
  scope : Scope
  /-- The scope for what the statement contains. -/
  inner : Scope

namespace Visit

def call (c : Visit) : Stmt × Scope := (c.stmt, c.scope)

end Visit

namespace Ast

/-- What statements contain is there, and no statement contains itself. -/
structure Whole (ast : Ast) : Prop where
  acyclic : ast.Acyclic
  children : ∀ s statement, ast.stmts.get? s = some statement →
    ∀ c ∈ statement.children, ∃ child, ast.stmts.get? c = some child

/-- The visits of trees in program order, a statement before what it contains. What a statement
contains is visited in the scope that the visit of the statement answered. -/
inductive Tour (ast : Ast) : Scope → List Stmt → List Visit → Prop
  | nil {scope : Scope} : Tour ast scope [] []
  | cons {scope inner : Scope} {s : Stmt} {rest : List Stmt} {statement : Statement}
      {below after : List Visit} : ast.stmts.get? s = some statement →
      Tour ast inner statement.children below → Tour ast scope rest after →
      Tour ast scope (s :: rest) (⟨s, scope, inner⟩ :: (below ++ after))

/-- Every statement is still there and contains what it did. -/
def Retained (a b : Ast) : Prop :=
  ∀ s x, a.stmts.get? s = some x → ∃ y, b.stmts.get? s = some y ∧ y.children = x.children

/-- The statement that is walked for a unit which is received: the body of an inner loop. -/
def received (ast : Ast) : CommUnit → Option Stmt
  | .nested s => ((ast.stmts.get? s).bind Statement.foreach?).map Foreach.body
  | .randomWrite _ _ => none

theorem foreach?_of_some (ast : Ast) {s : Stmt} {statement : Statement}
    (h : ast.stmts.get? s = some statement) : ast.foreach? s = .ok statement.foreach? := by
  rw [foreach?, Detection.stmt_ok.mpr h]
  rfl

theorem foreach?_of_none (ast : Ast) {s : Stmt} (h : ast.stmts.get? s = none) :
    ast.foreach? s = .error .missingSlot := by
  rw [foreach?, stmt, Table.get, h]
  rfl

variable {ast a b c : Ast}

theorem Retained.refl (a : Ast) : a.Retained a := fun _ x hx => ⟨x, hx, rfl⟩

theorem Retained.trans (h : a.Retained b) (h' : b.Retained c) : a.Retained c := by
  intro s x hx
  obtain ⟨y, hy, hxy⟩ := h s x hx
  obtain ⟨z, hz, hyz⟩ := h' s y hy
  exact ⟨z, hz, hyz.trans hxy⟩

theorem Whole.within (whole : ast.Whole) {root s : Stmt} (h : ast.Within root s)
    (there : ∃ statement, ast.stmts.get? root = some statement) :
    ∃ statement, ast.stmts.get? s = some statement := by
  induction h with
  | self => exact there
  | child hs hc _ ih => exact ih (whole.children _ _ hs _ hc)

theorem Whole.shallow (whole : ast.Whole) {ss : List Stmt}
    (there : ∀ s ∈ ss, ∃ statement, ast.stmts.get? s = some statement) :
    ast.Shallow Visitor.deepest ss :=
  whole.acyclic.shallow fun root hroot _ hs => whole.within hs (there root hroot)

theorem Shallow.exists_tour {n : Nat} {ss : List Stmt} (h : ast.Shallow n ss) (scope : Scope) :
    ∃ visits, ast.Tour scope ss visits := by
  induction h with
  | nil => exact ⟨[], .nil⟩
  | cons hs _ _ ihInner ihRest =>
    obtain ⟨below, hbelow⟩ := ihInner
    obtain ⟨after, hafter⟩ := ihRest
    exact ⟨_, .cons hs hbelow hafter⟩

/-- What holds of the first scope and is passed on by the visits before one, holds of its scope. -/
theorem Tour.scope_at {P : Scope → Prop} {scope : Scope} {ss : List Stmt} {visits : List Visit}
    (h : ast.Tour scope ss visits) (top : P scope) {before after : List Visit} {c : Visit}
    (split : visits = before ++ c :: after) (passed : ∀ d ∈ before, P d.scope → P d.inner) :
    P c.scope := by
  induction h generalizing before after with
  | nil => simp at split
  | @cons scope inner s rest statement below later _ _ _ ihBelow ihLater =>
    cases before with
    | nil =>
      cases (List.cons.inj split).1
      exact top
    | cons d before =>
      obtain ⟨rfl, behind⟩ := List.cons.inj split
      obtain ⟨first, passed⟩ := List.forall_mem_cons.mp passed
      rcases List.append_eq_append_iff.mp behind with ⟨more, rfl, hlater⟩ | ⟨more, hbelow, hlater⟩
      · exact ihLater top hlater fun d hd => passed d (List.mem_append_right _ hd)
      · cases more with
        | nil =>
          have first : later = [] ++ c :: after := hlater.symm
          exact ihLater top first (by simp)
        | cons c' more =>
          obtain ⟨rfl, rfl⟩ := List.cons.inj hlater
          exact ihBelow (first top) hbelow passed

theorem whole_of_values
    (earlier : (ast.stmts.values.zipIdx.all fun p => p.1.children.all (·.index < p.2)) = true) :
    ast.Whole := by
  have children := earlier_of_values earlier
  refine ⟨acyclic_of_earlier children, ?_⟩
  intro s x hx c hc
  have hlt := children s x hx c hc
  have hsize := Table.index_lt_of_get? hx
  exact Table.get?_isSome_iff.mpr (by omega)

theorem SameTrees.whole (same : a.SameTrees b) (whole : a.Whole) : b.Whole := by
  constructor
  · rintro s ⟨x, c, hx, hc, hw⟩
    obtain ⟨y, hy, hp⟩ := same.symm.lookup hx
    exact whole.acyclic s ⟨y, c, hy, Statement.children_eq_of_plain hp ▸ hc, hw.congr same.symm⟩
  · intro s x hx c hc
    obtain ⟨y, hy, hp⟩ := same.symm.lookup hx
    obtain ⟨z, hz⟩ := whole.children s y hy c (Statement.children_eq_of_plain hp ▸ hc)
    obtain ⟨w, hw, -⟩ := same.lookup hz
    exact ⟨w, hw⟩

/-- What a received loop has inside it is there. -/
theorem Whole.received_there (whole : ast.Whole) {units : List CommUnit} :
    ∀ s ∈ units.filterMap ast.received, ∃ statement, ast.stmts.get? s = some statement := by
  intro s hs
  obtain ⟨unit, -, hunit⟩ := List.mem_filterMap.mp hs
  cases unit with
  | randomWrite host symbol => cases hunit
  | nested l =>
    obtain ⟨f, hf, rfl⟩ := Option.map_eq_some_iff.mp hunit
    obtain ⟨x, hx, hf⟩ := Option.bind_eq_some_iff.mp hf
    cases x with
    | foreach g =>
      cases hf
      exact whole.children l _ hx _ (by simp [Statement.children])
    | _ => cases hf

end Ast

namespace Body

/-- Statements contain what they did, and blocks list the statements that they did. There may be new
statements, as long as what they contain is there and none contains itself. -/
structure Retained (a b : Body) : Prop where
  children : a.ast.Retained b.ast
  whole : a.ast.Whole → b.ast.Whole
  sents : ∀ k x, a.graph.blocks.get? k = some x →
    ∃ y, b.graph.blocks.get? k = some y ∧ y.sents = x.sents

theorem Retained.refl (a : Body) : a.Retained a := ⟨.refl _, id, fun _ x hx => ⟨x, hx, rfl⟩⟩

theorem Retained.trans {a b c : Body} (h : a.Retained b) (h' : b.Retained c) : a.Retained c := by
  refine ⟨h.children.trans h'.children, h'.whole ∘ h.whole, ?_⟩
  intro k x hx
  obtain ⟨y, hy, hxy⟩ := h.sents k x hx
  obtain ⟨z, hz, hyz⟩ := h'.sents k y hy
  exact ⟨z, hz, hyz.trans hxy⟩

end Body

section Noted

variable {ε σ α β γ : Type}

/-- A result whose state holds a list of notes beside it. -/
def noted (notes : List γ) : EStateM.Result ε σ α → EStateM.Result ε (σ × List γ) α
  | .ok a st => .ok a (st, notes)
  | .error e st => .error e (st, notes)

theorem notes_of_noted {act : EStateM ε (σ × List γ) α} {s : σ × List γ} {notes : List γ}
    {r : EStateM.Result ε σ α} (h : act s = noted notes r) : (finalState act s).2 = notes := by
  cases r with
  | ok a t => rw [finalState_of_ok h]
  | error e t => rw [finalState_of_error h]

/-- How an action ends, and what it notes on the way if it is made to take notes. -/
structure Runs (noting : EStateM ε (σ × List γ) α) (act : EStateM ε σ α) (st : σ) (notes : List γ)
    (r : EStateM.Result ε σ α) : Prop where
  ends : act st = r
  notes : ∀ before, noting (st, before) = noted (before ++ notes) r

namespace Runs

variable {x : EStateM ε (σ × List γ) α} {y : EStateM ε σ α} {f : α → EStateM ε (σ × List γ) β}
  {g : α → EStateM ε σ β} {st st₁ : σ} {notes notes' : List γ}

theorem pure (a : α) (st : σ) :
    Runs (γ := γ) (Pure.pure a : EStateM ε (σ × List γ) α) (Pure.pure a) st [] (.ok a st) := by
  refine ⟨rfl, fun before => ?_⟩
  rw [List.append_nil]
  rfl

theorem bind {a : α} {r : EStateM.Result ε σ β} (h : Runs x y st notes (.ok a st₁))
    (h' : Runs (f a) (g a) st₁ notes' r) : Runs (x >>= f) (y >>= g) st (notes ++ notes') r := by
  refine ⟨(bind_of_ok h.ends).trans h'.ends, fun before => ?_⟩
  rw [bind_of_ok (h.notes before), h'.notes, List.append_assoc]

theorem bind_error {e : ε} (h : Runs x y st notes (.error e st₁)) :
    Runs (x >>= f) (y >>= g) st notes (.error e st₁) :=
  ⟨bind_of_error h.ends, fun before => bind_of_error (h.notes before)⟩

/-- An action that is run beside the notes adds none. -/
theorem beside (act : EStateM ε σ α) (st : σ) :
    Runs (γ := γ) (onPart Prod.fst (fun s st => (st, s.2)) (·) act) act st [] (act st) := by
  refine ⟨rfl, fun before => ?_⟩
  rw [List.append_nil, onPart]
  cases act st <;> rfl

end Runs

end Noted

namespace Visitor

variable {σ ε α : Type} {v : Visitor σ ε}

/-- The same visitor, which also notes the statement and the scope of every visit. -/
def recorded (v : Visitor σ ε) : Visitor (σ × List (Stmt × Scope)) ε where
  body s := v.body s.1
  accepts b := onPart Prod.fst (fun s st => (st, s.2)) (·) (v.accepts b)
  visit s scope := do
    modify fun t => (t.1, t.2 ++ [(s, scope)])
    onPart Prod.fst (fun s st => (st, s.2)) (·) (v.visit s scope)

theorem runs_accepts (b : Block) (st : σ) :
    Runs (v.recorded.accepts b) (v.accepts b) st [] (v.accepts b st) :=
  .beside _ st

theorem runs_visit (s : Stmt) (scope : Scope) (st : σ) :
    Runs (v.recorded.visit s scope) (v.visit s scope) st [(s, scope)] (v.visit s scope st) := by
  refine ⟨rfl, fun before => ?_⟩
  have rest := (Runs.beside (v.visit s scope) st).notes (before ++ [(s, scope)])
  rw [List.append_nil] at rest
  exact (bind_of_ok (a := ⟨⟩) (modify_ok.mpr rfl)).trans rest

theorem runs_look_of_ok {f : Body → Except Fault α} {a : α} {st : σ} (h : f (v.body st) = .ok a) :
    Runs (v.recorded.look f) (v.look f) st [] (.ok a st) := by
  have hf : ∀ before, f (v.recorded.body (st, before)) = .ok a := fun _ => h
  refine ⟨by rw [look, h], fun before => ?_⟩
  rw [look, hf, List.append_nil]
  rfl

theorem runs_look_of_error {f : Body → Except Fault α} {e : Fault} {st : σ}
    (h : f (v.body st) = .error e) :
    Runs (v.recorded.look f) (v.look f) st [] (.error (.fault e) st) := by
  have hf : ∀ before, f (v.recorded.body (st, before)) = .error e := fun _ => h
  refine ⟨by rw [look, h], fun before => ?_⟩
  rw [look, hf, List.append_nil]
  rfl

/-- What the visitor answers to leaves the trees and the statement lists of blocks as they are. -/
structure Steady (v : Visitor σ ε) : Prop where
  accepts : ∀ b st a st', v.accepts b st = .ok a st' → (v.body st).Retained (v.body st')
  visit : ∀ s scope st inner st', v.visit s scope st = .ok inner st' →
    (v.body st).Retained (v.body st')

/-- Visits that were made one after the other. -/
inductive Trail (v : Visitor σ ε) : σ → List Visit → σ → Prop
  | nil (st : σ) : Trail v st [] st
  | cons {st st₁ st' : σ} {c : Visit} {rest : List Visit} :
      v.visit c.stmt c.scope st = .ok c.inner st₁ → Trail v st₁ rest st' → Trail v st (c :: rest) st'

theorem Trail.append {st st₁ st' : σ} {visits rest : List Visit} (h : v.Trail st visits st₁)
    (h' : v.Trail st₁ rest st') : v.Trail st (visits ++ rest) st' := by
  induction h with
  | nil => exact h'
  | cons hv _ ih => exact .cons hv (ih h')

theorem Trail.retained (steady : v.Steady) {st st' : σ} {visits : List Visit}
    (h : v.Trail st visits st') : (v.body st).Retained (v.body st') := by
  induction h with
  | nil => exact .refl _
  | cons hv _ ih => exact (steady.visit _ _ _ _ _ hv).trans ih

/-- The visits of some trees and how they end: all are answered, or the last that is made fails. -/
inductive Toured (v : Visitor σ ε) (ast : Ast) (scope : Scope) (roots : List Stmt) (st : σ) :
    List (Stmt × Scope) → EStateM.Result (Halt ε) σ PUnit → Prop
  | answered {visits : List Visit} {st' : σ} : ast.Tour scope roots visits →
      v.Trail st visits st' → Toured v ast scope roots st (visits.map Visit.call) (.ok ⟨⟩ st')
  | failed {before after : List Visit} {last : Visit} {e : Halt ε} {st₁ st' : σ} :
      ast.Tour scope roots (before ++ last :: after) → v.Trail st before st₁ →
      v.visit last.stmt last.scope st₁ = .error e st' →
      Toured v ast scope roots st (before.map Visit.call ++ [last.call]) (.error e st')

/-- Walking statements visits their trees in program order. -/
theorem walkStmts_toured (steady : v.Steady) {ast : Ast} {n : Nat} {ss : List Stmt}
    (shallow : ast.Shallow n ss) (scope : Scope) {st : σ} (kept : ast.Retained (v.body st).ast) :
    ∃ calls r, v.Toured ast scope ss st calls r ∧
      Runs (forM ss (v.recorded.walkStmt n scope)) (forM ss (v.walkStmt n scope)) st calls r := by
  induction shallow generalizing scope st with
  | nil => exact ⟨_, _, .answered .nil (.nil st), .pure PUnit.unit st⟩
  | @cons n s rest statement hs inner after ihInner ihRest =>
    rw [List.forM_cons, List.forM_cons]
    have visited := runs_visit (v := v) s scope st
    cases hv : v.visit s scope st with
    | error e t =>
      rw [hv] at visited
      obtain ⟨below, hbelow⟩ := inner.exists_tour scope
      obtain ⟨later, hlater⟩ := after.exists_tour scope
      have fails : v.Toured ast scope (s :: rest) st
          ([].map Visit.call ++ [Visit.call ⟨s, scope, scope⟩]) (.error e t) :=
        .failed (.cons hs hbelow hlater) (.nil st) hv
      have stops : Runs (v.recorded.walkStmt (n + 1) scope s) (v.walkStmt (n + 1) scope s) st
        [(s, scope)] (.error e t) := visited.bind_error
      exact ⟨_, _, fails, stops.bind_error⟩
    | ok within st₁ =>
      rw [hv] at visited
      have kept₁ := kept.trans (steady.visit _ _ _ _ _ hv).children
      obtain ⟨y, hy, hchildren⟩ := kept₁ s statement hs
      have looked : Runs (v.recorded.look (·.ast.children s)) (v.look (·.ast.children s)) st₁ []
          (.ok statement.children st₁) :=
        runs_look_of_ok (Detection.children_ok.mpr ⟨y, hy, hchildren⟩)
      obtain ⟨calls, r, toured, walked⟩ := ihInner within kept₁
      have walks : Runs (v.recorded.walkStmt (n + 1) scope s) (v.walkStmt (n + 1) scope s) st
        ((s, scope) :: calls) r := visited.bind (looked.bind walked)
      cases toured with
      | @failed before skipped last e st₂ st' tour trail fails =>
        obtain ⟨later, hlater⟩ := after.exists_tour scope
        have whole : ast.Tour scope (s :: rest)
            ((⟨s, scope, within⟩ :: before) ++ last :: (skipped ++ later)) := by
          simpa using Ast.Tour.cons hs tour hlater
        exact ⟨_, _, .failed whole (.cons hv trail) fails, walks.bind_error⟩
      | @answered visits st₂ tour trail =>
        have kept₂ := kept₁.trans (trail.retained steady).children
        obtain ⟨calls', r', toured', walked'⟩ := ihRest scope kept₂
        refine ⟨_, _, ?_, walks.bind walked'⟩
        have first : v.Trail st (⟨s, scope, within⟩ :: visits) st₂ := .cons hv trail
        cases toured' with
        | answered tour' trail' =>
          have all := Toured.answered (.cons hs tour tour') (first.append trail')
          simpa [Visit.call] using all
        | @failed before skipped last _ _ _ tour' trail' fails =>
          have whole : ast.Tour scope (s :: rest)
              ((⟨s, scope, within⟩ :: visits ++ before) ++ last :: skipped) := by
            simpa using Ast.Tour.cons hs tour tour'
          have all := Toured.failed whole (first.append trail') fails
          simpa [Visit.call] using all

theorem Trail.answered {st st' : σ} {visits : List Visit} (h : v.Trail st visits st') {c : Visit}
    (hc : c ∈ visits) : ∃ st st', v.visit c.stmt c.scope st = .ok c.inner st' := by
  induction h with
  | nil => cases hc
  | cons hv _ ih =>
    rcases List.mem_cons.mp hc with rfl | hc
    · exact ⟨_, _, hv⟩
    · exact ih hc

/-- What holds of the first scope and is passed on by every visit, holds wherever a call is made. -/
theorem Toured.scopes {P : Scope → Prop}
    (passed : ∀ s scope st inner st', v.visit s scope st = .ok inner st' → P scope → P inner)
    {ast : Ast} {scope : Scope} {roots : List Stmt} {st : σ} {calls : List (Stmt × Scope)}
    {r : EStateM.Result (Halt ε) σ PUnit} (h : v.Toured ast scope roots st calls r) (top : P scope) :
    ∀ c ∈ calls, P c.2 := by
  have passedOn : ∀ {st st' visits}, v.Trail st visits st' → ∀ d ∈ visits, P d.scope → P d.inner := by
    intro st st' visits trail d hd
    obtain ⟨_, _, hv⟩ := trail.answered hd
    exact passed _ _ _ _ _ hv
  have inside : ∀ {visits before after} {d : Visit}, ast.Tour scope roots visits →
      visits = before ++ d :: after → (∀ e ∈ before, P e.scope → P e.inner) → P d.scope :=
    fun tour split kept => tour.scope_at top split kept
  intro c hc
  cases h with
  | answered tour trail =>
    obtain ⟨d, hd, rfl⟩ := List.mem_map.mp hc
    obtain ⟨before, after, rfl⟩ := List.append_of_mem hd
    exact inside tour rfl fun e he => passedOn trail e (List.mem_append_left _ he)
  | failed tour trail fails =>
    rcases List.mem_append.mp hc with hc | hc
    · obtain ⟨d, hd, rfl⟩ := List.mem_map.mp hc
      obtain ⟨early, late, rfl⟩ := List.append_of_mem hd
      rw [List.append_assoc] at tour
      exact inside tour rfl fun e he => passedOn trail e (List.mem_append_left _ he)
    · cases List.mem_singleton.mp hc
      exact inside tour rfl (passedOn trail)

section Blocks

variable {b : Block}

/-- The first part of a walk over a block. -/
def walkSents (v : Visitor σ ε) (options : WalkOptions) (b : Block) : EStateM (Halt ε) σ Unit := do
  if options.sents then
    let data ← v.look (·.graph.block b)
    data.sents.forM (v.walkStmt deepest { block := b })

/-- The second part of a walk over a block. -/
def walkReceived (v : Visitor σ ε) (options : WalkOptions) (b : Block) : EStateM (Halt ε) σ Unit := do
  if options.receivers then
    let bodies ← v.look fun body => do
      let data ← body.graph.block b
      receivedBodies body.ast data.receivers
    bodies.forM (v.walkStmt deepest { block := b, underReceiver := true })

theorem walkBlock_eq (v : Visitor σ ε) (options : WalkOptions) (b : Block) :
    v.walkBlock options b = v.accepts b >>= fun accepted =>
      if accepted then v.walkSents options b >>= fun _ => v.walkReceived options b
      else pure ⟨⟩ := by
  obtain ⟨sents, receivers⟩ := options
  unfold walkBlock walkSents walkReceived
  cases sents with
  | false => rfl
  | true => simp

theorem receivedBodies_of_there {ast : Ast} {units : List CommUnit}
    (there : ∀ s, .nested s ∈ units → ∃ statement, ast.stmts.get? s = some statement) :
    receivedBodies ast units = .ok (units.filterMap ast.received) := by
  induction units with
  | nil => rfl
  | cons unit units ih =>
    have rest := ih fun s hs => there s (List.mem_cons_of_mem unit hs)
    cases unit with
    | randomWrite host symbol =>
      rw [List.filterMap_cons_none rfl]
      exact rest
    | nested s =>
      obtain ⟨x, hx⟩ := there s (by simp)
      have hbody : ast.received (.nested s) = x.foreach?.map Foreach.body := by
        simp [Ast.received, hx]
      refine except_bind_ok.mpr ⟨_, ast.foreach?_of_some hx, except_bind_ok.mpr ⟨_, rest, ?_⟩⟩
      cases hf : x.foreach? with
      | none =>
        rw [List.filterMap_cons_none (by rw [hbody, hf]; rfl)]
        rfl
      | some f =>
        rw [List.filterMap_cons_some (by rw [hbody, hf]; rfl)]
        rfl

theorem receivedBodies_of_missing {ast : Ast} {units : List CommUnit} {s : Stmt}
    (hs : .nested s ∈ units) (missing : ast.stmts.get? s = none) :
    receivedBodies ast units = .error .missingSlot := by
  induction units with
  | nil => cases hs
  | cons unit units ih =>
    cases unit with
    | randomWrite host symbol =>
      rcases List.mem_cons.mp hs with hs | hs
      · cases hs
      · exact ih hs
    | nested l =>
      rw [receivedBodies]
      cases hl : ast.stmts.get? l with
      | none =>
        rw [ast.foreach?_of_none hl]
        rfl
      | some x =>
        rcases List.mem_cons.mp hs with hs | hs
        · cases hs
          cases missing.symm.trans hl
        · rw [ast.foreach?_of_some hl, ih hs]
          rfl

/-- The statements of a block at which a walk begins. -/
def sentRoots (options : WalkOptions) (x : BlockData) : List Stmt :=
  if options.sents then x.sents else []

/-- The bodies of received loops at which a walk begins. -/
def receivedRoots (options : WalkOptions) (ast : Ast) (x : BlockData) : List Stmt :=
  if options.receivers then x.receivers.filterMap ast.received else []

/-- The received loops that are looked for are there. -/
def ReceivedThere (options : WalkOptions) (ast : Ast) (x : BlockData) : Prop :=
  options.receivers = true → ∀ s, .nested s ∈ x.receivers →
    ∃ statement, ast.stmts.get? s = some statement

/-- The calls that a walk over a block makes, each with whether it is for a received loop, and how
the walk ends. The trees of the block's statements are those of the start. The receivers are those
that the block has, and the loops those that there are, once the statements have been visited. -/
inductive BlockWalked (v : Visitor σ ε) (options : WalkOptions) (start : Body) (b : Block) (st : σ) :
    List (Bool × Stmt × Scope) → EStateM.Result (Halt ε) σ PUnit → Prop
  | sentFails {x : BlockData} {calls : List (Stmt × Scope)} {e : Halt ε} {st' : σ} :
      start.graph.blocks.get? b = some x →
      v.Toured start.ast { block := b } (sentRoots options x) st calls (.error e st') →
      BlockWalked v options start b st (calls.map (false, ·)) (.error e st')
  | receivedMissing {x y : BlockData} {calls : List (Stmt × Scope)} {st₁ : σ} :
      start.graph.blocks.get? b = some x →
      v.Toured start.ast { block := b } (sentRoots options x) st calls (.ok ⟨⟩ st₁) →
      (v.body st₁).graph.blocks.get? b = some y → ¬ReceivedThere options (v.body st₁).ast y →
      BlockWalked v options start b st (calls.map (false, ·)) (.error (.fault .missingSlot) st₁)
  | both {x y : BlockData} {calls calls' : List (Stmt × Scope)} {st₁ : σ}
      {r : EStateM.Result (Halt ε) σ PUnit} :
      start.graph.blocks.get? b = some x →
      v.Toured start.ast { block := b } (sentRoots options x) st calls (.ok ⟨⟩ st₁) →
      (v.body st₁).graph.blocks.get? b = some y → ReceivedThere options (v.body st₁).ast y →
      v.Toured (v.body st₁).ast { block := b, underReceiver := true }
        (receivedRoots options (v.body st₁).ast y) st₁ calls' r →
      BlockWalked v options start b st (calls.map (false, ·) ++ calls'.map (true, ·)) r

/-- The calls that a walk over blocks makes, and how it ends. Whether a block is walked is asked
when its turn comes. -/
inductive Walked (v : Visitor σ ε) (options : WalkOptions) (start : Body) :
    List Block → σ → List (Bool × Stmt × Scope) → EStateM.Result (Halt ε) σ PUnit → Prop
  | nil (st : σ) : Walked v options start [] st [] (.ok ⟨⟩ st)
  | broken {b : Block} {bs : List Block} {st st' : σ} {e : Halt ε} :
      v.accepts b st = .error e st' → Walked v options start (b :: bs) st [] (.error e st')
  | refused {b : Block} {bs : List Block} {st st₁ : σ} {calls : List (Bool × Stmt × Scope)}
      {r : EStateM.Result (Halt ε) σ PUnit} : v.accepts b st = .ok false st₁ →
      Walked v options start bs st₁ calls r → Walked v options start (b :: bs) st calls r
  | stopped {b : Block} {bs : List Block} {st st₁ st' : σ} {calls : List (Bool × Stmt × Scope)}
      {e : Halt ε} : v.accepts b st = .ok true st₁ →
      v.BlockWalked options start b st₁ calls (.error e st') →
      Walked v options start (b :: bs) st calls (.error e st')
  | accepted {b : Block} {bs : List Block} {st st₁ st₂ : σ} {calls calls' : List (Bool × Stmt × Scope)}
      {r : EStateM.Result (Halt ε) σ PUnit} : v.accepts b st = .ok true st₁ →
      v.BlockWalked options start b st₁ calls (.ok ⟨⟩ st₂) →
      Walked v options start bs st₂ calls' r →
      Walked v options start (b :: bs) st (calls ++ calls') r

theorem Toured.retained (steady : v.Steady) {ast : Ast} {scope : Scope} {roots : List Stmt}
    {st st' : σ} {calls : List (Stmt × Scope)} (h : v.Toured ast scope roots st calls (.ok ⟨⟩ st')) :
    (v.body st).Retained (v.body st') := by
  cases h with
  | answered _ trail => exact trail.retained steady

theorem BlockWalked.retained (steady : v.Steady) {options : WalkOptions} {start : Body} {st st' : σ}
    {calls : List (Bool × Stmt × Scope)}
    (h : v.BlockWalked options start b st calls (.ok ⟨⟩ st')) :
    (v.body st).Retained (v.body st') := by
  cases h with
  | both _ sents _ _ received => exact (sents.retained steady).trans (received.retained steady)

theorem walkSents_toured (steady : v.Steady) (options : WalkOptions) {start : Body} {st : σ} {x : BlockData}
    (kept : start.Retained (v.body st)) (hx : start.graph.blocks.get? b = some x)
    (shallow : start.ast.Shallow deepest x.sents) :
    ∃ calls r, v.Toured start.ast { block := b } (sentRoots options x) st calls r ∧
      Runs (v.recorded.walkSents options b) (v.walkSents options b) st calls r := by
  unfold sentRoots walkSents
  cases options.sents with
  | false => exact ⟨_, _, .answered .nil (.nil st), .pure PUnit.unit st⟩
  | true =>
    obtain ⟨y, hy, hsents⟩ := kept.sents b x hx
    have looked : Runs (v.recorded.look (·.graph.block b)) (v.look (·.graph.block b)) st []
      (.ok y st) := runs_look_of_ok (FlowGraph.block_ok.mpr hy)
    obtain ⟨calls, r, toured, walked⟩ := walkStmts_toured steady shallow { block := b } kept.children
    rw [← hsents] at walked
    exact ⟨calls, r, toured, looked.bind walked⟩

theorem walkReceived_toured (steady : v.Steady) {options : WalkOptions} {st : σ} {y : BlockData}
    (whole : (v.body st).ast.Whole) (hy : (v.body st).graph.blocks.get? b = some y)
    (there : ReceivedThere options (v.body st).ast y) :
    ∃ calls r, v.Toured (v.body st).ast { block := b, underReceiver := true }
        (receivedRoots options (v.body st).ast y) st calls r ∧
      Runs (v.recorded.walkReceived options b) (v.walkReceived options b) st calls r := by
  unfold ReceivedThere at there
  unfold receivedRoots walkReceived
  cases hr : options.receivers with
  | false => exact ⟨_, _, .answered .nil (.nil st), .pure PUnit.unit st⟩
  | true =>
    have bodies := receivedBodies_of_there (there hr)
    obtain ⟨calls, r, toured, walked⟩ := walkStmts_toured steady (whole.shallow whole.received_there)
      { block := b, underReceiver := true } (.refl _)
    refine ⟨calls, r, toured, (runs_look_of_ok ?_).bind walked⟩
    exact except_bind_ok.mpr ⟨y, FlowGraph.block_ok.mpr hy, bodies⟩

theorem walkReceived_of_missing {options : WalkOptions} {st : σ} {y : BlockData}
    (hy : (v.body st).graph.blocks.get? b = some y)
    (missing : ¬ReceivedThere options (v.body st).ast y) :
    Runs (v.recorded.walkReceived options b) (v.walkReceived options b) st []
      (.error (.fault .missingSlot) st) := by
  unfold ReceivedThere at missing
  simp only [not_forall] at missing
  obtain ⟨hr, s, hs, none⟩ := missing
  have gone : (v.body st).ast.stmts.get? s = .none := by
    cases hx : (v.body st).ast.stmts.get? s with
    | none => rfl
    | some x => exact absurd ⟨x, hx⟩ none
  unfold walkReceived
  rw [if_pos hr, if_pos hr]
  refine (runs_look_of_error ?_).bind_error
  rw [FlowGraph.block_ok.mpr hy]
  exact receivedBodies_of_missing hs gone

theorem walkParts_walked (steady : v.Steady) (options : WalkOptions) {start : Body} {st : σ} {x : BlockData}
    (kept : start.Retained (v.body st)) (whole : start.ast.Whole)
    (hx : start.graph.blocks.get? b = some x) (shallow : start.ast.Shallow deepest x.sents) :
    ∃ calls r, v.BlockWalked options start b st calls r ∧
      Runs (v.recorded.walkSents options b >>= fun _ => v.recorded.walkReceived options b)
        (v.walkSents options b >>= fun _ => v.walkReceived options b) st (calls.map Prod.snd) r := by
  have untagged : ∀ (flag : Bool) (calls : List (Stmt × Scope)),
      (calls.map (flag, ·)).map Prod.snd = calls := by
    intro flag calls
    simp [Function.comp_def]
  obtain ⟨calls, r, toured, walked⟩ := walkSents_toured steady options kept hx shallow
  cases r with
  | error e st' =>
    refine ⟨_, _, .sentFails hx toured, ?_⟩
    rw [untagged]
    exact walked.bind_error
  | ok u st₁ =>
    have kept₁ := kept.trans (toured.retained steady)
    obtain ⟨y, hy, -⟩ := kept₁.sents b x hx
    by_cases there : ReceivedThere options (v.body st₁).ast y
    · obtain ⟨calls', r, toured', walked'⟩ := walkReceived_toured steady (kept₁.whole whole) hy there
      refine ⟨_, _, .both hx toured hy there toured', ?_⟩
      rw [List.map_append, untagged, untagged]
      exact walked.bind walked'
    · refine ⟨_, _, .receivedMissing hx toured hy there, ?_⟩
      rw [untagged, ← List.append_nil calls]
      exact walked.bind (walkReceived_of_missing hy there)

theorem walkBlocks_walked (steady : v.Steady) (options : WalkOptions) {start : Body} (whole : start.ast.Whole)
    {bs : List Block} (ready : ∀ b ∈ bs, ∃ x, start.graph.blocks.get? b = some x ∧
      start.ast.Shallow deepest x.sents) {st : σ} (kept : start.Retained (v.body st)) :
    ∃ calls r, v.Walked options start bs st calls r ∧
      Runs (forM bs (v.recorded.walkBlock options)) (forM bs (v.walkBlock options)) st
        (calls.map Prod.snd) r := by
  induction bs generalizing st with
  | nil => exact ⟨_, _, .nil st, .pure PUnit.unit st⟩
  | cons b bs ih =>
    obtain ⟨⟨x, hx, shallow⟩, ready⟩ := List.forall_mem_cons.mp ready
    rw [List.forM_cons, List.forM_cons]
    have asked := runs_accepts (v := v) b st
    cases ha : v.accepts b st with
    | error e st' =>
      rw [ha] at asked
      have breaks : Runs (v.recorded.walkBlock options b) (v.walkBlock options b) st [] (.error e st') := by
        rw [walkBlock_eq, walkBlock_eq]
        exact asked.bind_error
      exact ⟨_, _, .broken ha, breaks.bind_error⟩
    | ok accepted st₁ =>
      rw [ha] at asked
      have kept₁ := kept.trans (steady.accepts _ _ _ _ ha)
      cases accepted with
      | false =>
        have skips : Runs (v.recorded.walkBlock options b) (v.walkBlock options b) st []
            (.ok ⟨⟩ st₁) := by
          rw [walkBlock_eq, walkBlock_eq]
          exact asked.bind (.pure PUnit.unit st₁)
        obtain ⟨calls, r, walked, runs⟩ := ih ready kept₁
        exact ⟨calls, r, .refused ha walked, skips.bind runs⟩
      | true =>
        obtain ⟨calls, r, walked, runs⟩ := walkParts_walked steady options kept₁ whole hx shallow
        have walks : Runs (v.recorded.walkBlock options b) (v.walkBlock options b) st
            (calls.map Prod.snd) r := by
          rw [walkBlock_eq, walkBlock_eq]
          exact asked.bind runs
        cases r with
        | error e st' => exact ⟨_, _, .stopped ha walked, walks.bind_error⟩
        | ok u st₂ =>
          obtain ⟨calls', r', walked', runs'⟩ := ih ready (kept₁.trans (walked.retained steady))
          refine ⟨_, _, .accepted ha walked walked', ?_⟩
          rw [List.map_append]
          exact walks.bind runs'

theorem BlockWalked.flags {options : WalkOptions} {start : Body} {st : σ} {calls : List (Bool × Stmt × Scope)}
    {r : EStateM.Result (Halt ε) σ PUnit} (h : v.BlockWalked options start b st calls r)
    (passed : ∀ s scope st inner st', v.visit s scope st = .ok inner st' →
      inner.underReceiver = scope.underReceiver) : ∀ c ∈ calls, c.2.2.underReceiver = c.1 := by
  have tagged : ∀ {ast scope roots st calls} {r : EStateM.Result (Halt ε) σ PUnit},
      v.Toured ast scope roots st calls r →
      ∀ c ∈ calls.map (scope.underReceiver, ·), c.2.2.underReceiver = c.1 := by
    intro ast scope roots st calls r toured c hc
    obtain ⟨d, hd, rfl⟩ := List.mem_map.mp hc
    exact toured.scopes (P := (·.underReceiver = scope.underReceiver))
      (fun _ _ _ _ _ hv => (passed _ _ _ _ _ hv).trans) rfl d hd
  cases h with
  | sentFails _ toured => exact tagged toured
  | receivedMissing _ toured => exact tagged toured
  | both _ toured _ _ toured' =>
    intro c hc
    exact (List.mem_append.mp hc).elim (tagged toured c) (tagged toured' c)

theorem Walked.flags {options : WalkOptions} {start : Body} {bs : List Block} {st : σ} {calls : List (Bool × Stmt × Scope)}
    {r : EStateM.Result (Halt ε) σ PUnit} (h : v.Walked options start bs st calls r)
    (passed : ∀ s scope st inner st', v.visit s scope st = .ok inner st' →
      inner.underReceiver = scope.underReceiver) : ∀ c ∈ calls, c.2.2.underReceiver = c.1 := by
  induction h with
  | nil | broken => simp
  | refused _ _ ih => exact ih
  | stopped _ walked => exact walked.flags passed
  | accepted _ walked _ ih =>
    intro c hc
    exact (List.mem_append.mp hc).elim (walked.flags passed c) (ih c)

/-- A walk calls its visitor for the statements of each block that it reaches and accepts, and then
for the bodies of the loops that the block receives, in program order and up to the first call that
fails. -/
theorem walk_calls (steady : v.Steady) (options : WalkOptions) {st : σ}
    (whole : (v.body st).ast.Whole) (listed : ∀ b x, (v.body st).graph.blocks.get? b = some x →
      ∀ s ∈ x.sents, ∃ statement, (v.body st).ast.stmts.get? s = some statement) :
    (∀ fault, (v.body st).graph.reachable = .error fault →
      v.walk options st = .error (.fault fault) st ∧
      v.recorded.walk options (st, []) = .error (.fault fault) (st, [])) ∧
    ∀ bs, (v.body st).graph.reachable = .ok bs → ∃ calls r,
      v.Walked options (v.body st) bs st calls r ∧ v.walk options st = r ∧
      v.recorded.walk options (st, []) = noted (calls.map Prod.snd) r ∧
      ((∀ s scope st inner st', v.visit s scope st = .ok inner st' →
        inner.underReceiver = scope.underReceiver) → ∀ c ∈ calls, c.2.2.underReceiver = c.1) := by
  constructor
  · intro fault h
    have looked : Runs (v.recorded.look (·.graph.reachable)) (v.look (·.graph.reachable)) st []
      (.error (.fault fault) st) := runs_look_of_error h
    have walks : Runs (v.recorded.walk options) (v.walk options) st [] (.error (.fault fault) st) :=
      looked.bind_error
    exact ⟨walks.ends, walks.notes []⟩
  · intro bs reached
    have ready : ∀ b ∈ bs, ∃ x, (v.body st).graph.blocks.get? b = some x ∧
        (v.body st).ast.Shallow deepest x.sents := by
      intro b hb
      obtain ⟨x, hx⟩ := FlowGraph.reachable_allocated reached b hb
      exact ⟨x, hx, whole.shallow (listed b x hx)⟩
    have looked : Runs (v.recorded.look (·.graph.reachable)) (v.look (·.graph.reachable)) st []
      (.ok bs st) := runs_look_of_ok reached
    obtain ⟨calls, r, walked, runs⟩ := walkBlocks_walked steady options whole ready (.refl _)
    have walks : Runs (v.recorded.walk options) (v.walk options) st (calls.map Prod.snd) r :=
      looked.bind runs
    exact ⟨calls, r, walked, walks.ends, walks.notes [], walked.flags⟩

end Blocks

end Visitor

/-- Looking for communication changes no tree and no statement list. -/
theorem Detection.visitor_steady : visitor.Steady := by
  have retained : ∀ {d d' : Detection}, d.body.Continues d'.body → d.body.Retained d'.body := by
    intro d d' continues
    refine ⟨?_, continues.roles.trees.whole, ?_⟩
    · intro s x hx
      obtain ⟨y, hy, hp⟩ := continues.roles.trees.lookup hx
      exact ⟨y, hy, Statement.children_eq_of_plain hp⟩
    · intro k x hx
      obtain ⟨y, hy, -, hsents⟩ := continues.blocks k x hx
      exact ⟨y, hy, hsents⟩
  constructor
  · intro b d a d' h
    obtain ⟨-, rfl⟩ := isVertex_ok.mp h
    exact .refl _
  · intro s scope d inner d' h
    exact retained (visit_continues h)

namespace Procedure

/-- The statements of the first superstep are visited, one of them twice, and then the body of the
loop that it receives since, where the search for communication stops. -/
theorem walk_calls_of_twoSupersteps :
    ∃ bs calls r, (twoSupersteps 1).subject.graph.reachable = .ok bs ∧
      Detection.visitor.Walked ⟨true, true⟩ (twoSupersteps 1).subject.toBody bs
        { body := (twoSupersteps 1).subject.toBody } calls r ∧
      calls.map (fun c => (c.1, c.2.1.index)) =
        [(false, 4), (false, 3), (false, 2), (false, 1), (false, 0), (false, 2), (false, 1), (true, 1)] := by
  let d : Detection := { body := (twoSupersteps 1).subject.toBody }
  have reached : (twoSupersteps 1).subject.graph.reachable =
      .ok [Key.wrap 0, Key.wrap 1, Key.wrap 2, Key.wrap 3, Key.wrap 4] := by decide +kernel
  have whole : (Detection.visitor.body d).ast.Whole := Ast.whole_of_values (by decide +kernel)
  obtain ⟨-, walks⟩ := Visitor.walk_calls Detection.visitor_steady ⟨true, true⟩ whole
    (Body.sents_of_values (by decide +kernel))
  obtain ⟨calls, r, walked, -, log, flags⟩ := walks _ reached
  refine ⟨_, calls, r, reached, walked, ?_⟩
  have noted : ((finalState (Detection.visitor.recorded.walk ⟨true, true⟩) (d, [])).2.map
      fun c => (c.2.underReceiver, c.1.index)) =
        [(false, 4), (false, 3), (false, 2), (false, 1), (false, 0), (false, 2), (false, 1), (true, 1)] := by
    decide +kernel
  rw [notes_of_noted log, List.map_map] at noted
  rw [← noted]
  refine List.map_congr_left fun c hc => ?_
  have same := flags (fun _ _ _ _ _ h => by obtain ⟨_, _, rfl, _⟩ := Detection.visit_ok h; rfl) c hc
  exact Prod.ext same.symm rfl

end Procedure

/-- A superstep with one statement inside another, which receives nothing. -/
def Body.nestedPair : Body where
  ast := { stmts := Table.ofList [.verbatim (Key.wrap 0), .block [Key.wrap 0]] }
  graph := {
    blocks := Table.ofList [{ id := Key.wrap 0, kind := .beginVertex, sents := [Key.wrap 1] }]
    layout := [Key.wrap 0]
    entry := ⟨Key.wrap 0⟩ }

namespace Visitor

/-- Takes what a statement contains for the body of a received loop. -/
def flagging : Visitor Body CommError where
  body := id
  accepts _ := pure true
  visit _ scope := pure { scope with underReceiver := true }

/-- Has the block of a statement receive a loop. -/
def queueing (loop : Stmt) : Visitor Body CommError where
  body := id
  accepts _ := pure true
  visit _ scope := do
    updatePart (·.graph) (fun body graph => { body with graph }) .fault
      (·.updateBlock scope.block (·.addReceiver (.nested loop)))
    return scope

theorem flagging_steady : flagging.Steady := by
  constructor
  · intro b st a st' h
    obtain ⟨-, rfl⟩ := pure_ok.mp h
    exact .refl _
  · intro s scope st inner st' h
    obtain ⟨-, rfl⟩ := pure_ok.mp h
    exact .refl _

theorem queueing_steady (loop : Stmt) : (queueing loop).Steady := by
  constructor
  · intro b st a st' h
    obtain ⟨-, rfl⟩ := pure_ok.mp h
    exact .refl _
  · intro s scope st inner st' h
    obtain ⟨_, _, queued, h⟩ := bind_ok.mp h
    obtain ⟨g, hg, rfl⟩ := updatePart_ok.mp queued
    obtain ⟨-, rfl⟩ := pure_ok.mp h
    refine ⟨.refl _, id, fun k x hx => ?_⟩
    have lookup := FlowGraph.updateBlock_lookup hg k
    have hk : st.graph.blocks.get? k = some x := hx
    rw [hk] at lookup
    split at lookup
    · exact ⟨_, lookup, rfl⟩
    · exact ⟨x, lookup, rfl⟩

/-- The flag is up to the visitor: a statement of a block that receives nothing is visited with it.
And a loop that the block receives, but that is not there, ends the walk with a fault. -/
theorem walk_beside_listing :
    Body.nestedPair.ast.Whole ∧
      (∀ b x, Body.nestedPair.graph.blocks.get? b = some x →
        ∀ s ∈ x.sents, ∃ statement, Body.nestedPair.ast.stmts.get? s = some statement) ∧
      (flagging.Steady ∧
        (finalState (flagging.recorded.walk ⟨true, true⟩) (Body.nestedPair, [])).2 =
          [(Key.wrap 1, { block := Key.wrap 0 }),
            (Key.wrap 0, { block := Key.wrap 0, underReceiver := true })]) ∧
      (queueing (Key.wrap 7)).Steady ∧
        outcome ((queueing (Key.wrap 7)).walk ⟨true, true⟩) Body.nestedPair =
          .error (.fault .missingSlot) :=
  ⟨Ast.whole_of_values (by decide +kernel), Body.sents_of_values (by decide +kernel),
    ⟨flagging_steady, by decide +kernel⟩, queueing_steady _, by decide +kernel⟩

end Visitor

end Superstep
