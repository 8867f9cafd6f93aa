import Superstep.Proofs.Itinerary

namespace Superstep

namespace CommFlags

theorem union_empty (a : CommFlags) : a.union {} = a := by
  simp [union]

theorem union_assoc (a b c : CommFlags) : (a.union b).union c = a.union (b.union c) := by
  simp [union, UInt8.or_assoc]

/-- The flags of a loop, by whether it sends to neighbours and whether it sends to other vertices. -/
def sent (neighbours others : Bool) : CommFlags :=
  (if neighbours then nested else {}).union (if others then randomWrite else {})

theorem sent_union (a b c d : Bool) : (sent a b).union (sent c d) = sent (a || c) (b || d) := by
  decide +revert

end CommFlags

theorem LoopRole.eq_of_markOuter {old new : LoopRole} (h : old.markOuter = .ok new) :
    new = .outer old.flags := by
  cases old <;> cases h <;> rfl

namespace Site

def isInnerLoop : Site → Bool
  | .innerLoop => true
  | _ => false

def isRandomWrite : Site → Bool
  | .randomWrite _ => true
  | _ => false

theorem isInnerLoop_iff {site : Site} : site.isInnerLoop = true ↔ site = .innerLoop := by
  cases site <;> simp [isInnerLoop]

theorem isRandomWrite_iff {site : Site} :
    site.isRandomWrite = true ↔ ∃ host, site = .randomWrite host := by
  cases site <;> simp [isRandomWrite]

/-- What the outer loop around a site is found to send. -/
def flags (site : Site) : CommFlags := .sent site.isInnerLoop site.isRandomWrite

theorem flags_outerLoop : outerLoop.flags = {} := rfl

theorem flags_innerLoop : innerLoop.flags = .nested := rfl

theorem flags_randomWrite (host : Stmt) : (randomWrite host).flags = .randomWrite :=
  show CommFlags.sent false true = .randomWrite by decide

theorem flags_nothing : nothing.flags = {} := rfl

end Site

/-- Gives a loop the role that `cast` makes of it. -/
def Statement.recast (cast : Foreach → LoopRole) : Statement → Statement
  | .foreach f => .foreach { f with role := cast f }
  | statement => statement

theorem Statement.recast_role (statement : Statement) : statement.recast (·.role) = statement := by
  cases statement <;> rfl

theorem Statement.recast_congr {cast cast' : Foreach → LoopRole} {statement : Statement}
    (same : ∀ f, statement = .foreach f → cast f = cast' f) :
    statement.recast cast = statement.recast cast' := by
  cases statement with
  | «foreach» f => simp only [recast, same f rfl]
  | _ => rfl

theorem Statement.site_recast (cast : Foreach → LoopRole) (statement : Statement) :
    (statement.recast cast).site = statement.site := by
  cases statement <;> rfl

namespace Ast

/-- Only the roles of loops differ, and `cast` gives the new ones. -/
structure Recast (cast : Stmt → Foreach → LoopRole) (a b : Ast) : Prop where
  size : b.stmts.size = a.stmts.size
  lookup : ∀ s, b.stmts.get? s = (a.stmts.get? s).map (·.recast (cast s))
  symbols : b.symbols = a.symbols
  body : b.body = a.body

namespace Recast

variable {cast cast' : Stmt → Foreach → LoopRole} {a b : Ast} {s : Stmt}

theorem stmt (h : a.Recast cast b) {statement : Statement} (hb : b.stmts.get? s = some statement) :
    ∃ old, a.stmts.get? s = some old ∧ statement = old.recast (cast s) := by
  rw [h.lookup, Option.map_eq_some_iff] at hb
  obtain ⟨old, ha, rfl⟩ := hb
  exact ⟨old, ha, rfl⟩

theorem loop (h : a.Recast cast b) {g : Foreach} (hb : b.stmts.get? s = some (.foreach g)) :
    ∃ f, a.stmts.get? s = some (.foreach f) ∧ g = { f with role := cast s f } := by
  obtain ⟨old, ha, hold⟩ := h.stmt hb
  cases old with
  | «foreach» f =>
    cases hold
    exact ⟨f, ha, rfl⟩
  | _ => cases hold

theorem lookup_loop (h : a.Recast cast b) {f : Foreach} (ha : a.stmts.get? s = some (.foreach f)) :
    b.stmts.get? s = some (.foreach { f with role := cast s f }) := by
  rw [h.lookup, ha]
  rfl

theorem lookup_of_role (h : a.Recast cast b)
    (same : ∀ f, a.stmts.get? s = some (.foreach f) → cast s f = f.role) :
    b.stmts.get? s = a.stmts.get? s := by
  rw [h.lookup]
  cases ha : a.stmts.get? s with
  | none => rfl
  | some statement =>
    have unchanged := Statement.recast_congr fun f hf => same f (hf ▸ ha)
    rw [Option.map_some, unchanged, Statement.recast_role]

theorem refl (a : Ast) : a.Recast (fun _ f => f.role) a := by
  refine ⟨rfl, fun s => ?_, rfl, rfl⟩
  simp only [Statement.recast_role, Option.map_id']

theorem congr (h : a.Recast cast b)
    (same : ∀ s f, a.stmts.get? s = some (.foreach f) → cast s f = cast' s f) : a.Recast cast' b := by
  refine ⟨h.size, fun s => ?_, h.symbols, h.body⟩
  rw [h.lookup]
  cases ha : a.stmts.get? s with
  | none => rfl
  | some statement =>
    rw [Option.map_some, Option.map_some, Statement.recast_congr fun f hf => same s f (hf ▸ ha)]

theorem setRole (h : a.Recast cast b) {g : Foreach} (hb : b.stmts.get? s = some (.foreach g))
    (role : LoopRole) :
    a.Recast (fun t f => if t = s then role else cast t f) (b.setRole s g role) := by
  refine ⟨(Table.size_set ..).trans h.size, fun t => ?_, h.symbols, h.body⟩
  by_cases ht : s = t
  · subst t
    obtain ⟨f, ha, rfl⟩ := h.loop hb
    simp [get?_setRole hb, ha, Statement.recast]
  · rw [get?_setRole_of_ne ht, h.lookup]
    simp only [if_neg (Ne.symm ht)]

end Recast

/-- Whether a loop is the innermost outer loop around a visited statement of some kind. -/
def holds (ast : Ast) (visits : List (Stmt × Scope)) (o : Stmt) (kind : Site → Bool) : Bool :=
  visits.any fun v => v.2.outer = some o && (ast.stmts.get? v.1).any (kind ·.site)

/-- What a loop sends: to neighbours if it is the innermost outer loop around a loop over a
neighbourhood, to other vertices if it is the one around a random write. -/
def flagsUnder (ast : Ast) (visits : List (Stmt × Scope)) (o : Stmt) : CommFlags :=
  .sent (ast.holds visits o Site.isInnerLoop) (ast.holds visits o Site.isRandomWrite)

/-- The role of a loop after some visits. -/
def roleAfter (ast : Ast) (visits : List (Stmt × Scope)) (s : Stmt) (f : Foreach) : LoopRole :=
  if s ∈ visits.map Prod.fst then
    if f.iter.isAllGraph then .outer (f.role.flags.union (ast.flagsUnder visits s)) else .inner
  else f.role

variable {ast : Ast} {visits : List (Stmt × Scope)} {v : Stmt × Scope} {statement : Statement}
  {s o : Stmt} {f : Foreach}

theorem holds_append {rest : List (Stmt × Scope)} {kind : Site → Bool} :
    ast.holds (visits ++ rest) o kind = (ast.holds visits o kind || ast.holds rest o kind) :=
  List.any_append

theorem holds_singleton {kind : Site → Bool} (hv : ast.stmts.get? v.1 = some statement)
    (ho : v.2.outer = some o) : ast.holds [v] o kind = kind statement.site := by
  simp [holds, hv, ho]

theorem holds_iff {kind : Site → Bool} : ast.holds visits o kind = true ↔
    ∃ v ∈ visits, v.2.outer = some o ∧ ∃ st, ast.stmts.get? v.1 = some st ∧ kind st.site = true := by
  simp [holds, Option.any_eq_true]

theorem holds_innerLoop_iff : ast.holds visits o Site.isInnerLoop = true ↔
    ∃ v ∈ visits, v.2.outer = some o ∧
      ∃ f, ast.stmts.get? v.1 = some (.foreach f) ∧ f.iter.isAllGraph = false := by
  simp only [holds_iff, Site.isInnerLoop_iff, Statement.site_eq_innerLoop_iff]
  refine exists_congr fun v => and_congr_right fun _ => and_congr_right fun _ => ?_
  exact ⟨fun ⟨_, hv, f, hf, hnbr⟩ => ⟨f, hf ▸ hv, hnbr⟩, fun ⟨f, hv, hnbr⟩ => ⟨_, hv, f, rfl, hnbr⟩⟩

theorem holds_randomWrite_iff : ast.holds visits o Site.isRandomWrite = true ↔
    ∃ v ∈ visits, v.2.outer = some o ∧
      ∃ w host, ast.stmts.get? v.1 = some (.assign w) ∧ w.randomWrite.expand = some host := by
  simp only [holds_iff, Site.isRandomWrite_iff, Statement.site_eq_randomWrite_iff]
  refine exists_congr fun v => and_congr_right fun _ => and_congr_right fun _ => ?_
  exact ⟨fun ⟨_, hv, host, w, hw, hhost⟩ => ⟨w, host, hw ▸ hv, hhost⟩,
    fun ⟨w, host, hv, hhost⟩ => ⟨_, hv, host, w, rfl, hhost⟩⟩

theorem holds_of_outer_ne {kind : Site → Bool} (ho : ∀ v ∈ visits, v.2.outer ≠ some o) :
    ast.holds visits o kind = false := by
  simp only [holds, List.any_eq_false]
  intro v hv
  simp [ho v hv]

theorem flagsUnder_of_outer_ne (ho : ∀ v ∈ visits, v.2.outer ≠ some o) :
    ast.flagsUnder visits o = {} := by
  rw [flagsUnder, holds_of_outer_ne ho, holds_of_outer_ne ho]
  rfl

theorem flagsUnder_snoc_of_outer (hv : ast.stmts.get? v.1 = some statement)
    (ho : v.2.outer = some o) :
    ast.flagsUnder (visits ++ [v]) o = (ast.flagsUnder visits o).union statement.site.flags := by
  simp only [flagsUnder, Site.flags, CommFlags.sent_union, holds_append, holds_singleton hv ho]

theorem flagsUnder_snoc_of_outer_ne (ho : v.2.outer ≠ some o) :
    ast.flagsUnder (visits ++ [v]) o = ast.flagsUnder visits o := by
  have nothing : ∀ kind, ast.holds [v] o kind = false := fun kind =>
    holds_of_outer_ne (by simpa using ho)
  simp only [flagsUnder, holds_append, nothing, Bool.or_false]

theorem flagsUnder_snoc_of_silent (hv : ast.stmts.get? v.1 = some statement)
    (silent : v.2.outer = some o → statement.site.flags = {}) :
    ast.flagsUnder (visits ++ [v]) o = ast.flagsUnder visits o := by
  by_cases ho : v.2.outer = some o
  · rw [flagsUnder_snoc_of_outer hv ho, silent ho, CommFlags.union_empty]
  · exact flagsUnder_snoc_of_outer_ne ho

theorem roleAfter_of_mem (hs : s ∈ visits.map Prod.fst) : ast.roleAfter visits s f =
    if f.iter.isAllGraph then .outer (f.role.flags.union (ast.flagsUnder visits s)) else .inner :=
  if_pos hs

theorem roleAfter_of_not_mem (hs : s ∉ visits.map Prod.fst) : ast.roleAfter visits s f = f.role :=
  if_neg hs

theorem mem_snoc_iff : s ∈ (visits ++ [v]).map Prod.fst ↔ s ∈ visits.map Prod.fst ∨ s = v.1 := by
  simp

/-- A visit changes nothing for the loops that are not visited and do not send by it. -/
theorem roleAfter_snoc_of_ne (hs : s ≠ v.1) (hv : ast.stmts.get? v.1 = some statement)
    (silent : v.2.outer = some s → statement.site.flags = {}) :
    ast.roleAfter (visits ++ [v]) s f = ast.roleAfter visits s f := by
  by_cases hm : s ∈ visits.map Prod.fst
  · rw [roleAfter_of_mem hm, roleAfter_of_mem (mem_snoc_iff.mpr (.inl hm)),
      flagsUnder_snoc_of_silent hv silent]
  · rw [roleAfter_of_not_mem hm, roleAfter_of_not_mem (by simpa [hs] using hm)]

theorem roleAfter_snoc_of_outer (hs : s ∈ visits.map Prod.fst) (hall : f.iter.isAllGraph = true)
    (hv : ast.stmts.get? v.1 = some statement) (ho : v.2.outer = some s) {flags : CommFlags}
    (before : ast.roleAfter visits s f = .outer flags) :
    ast.roleAfter (visits ++ [v]) s f = .outer (flags.union statement.site.flags) := by
  rw [roleAfter_of_mem hs, if_pos hall, LoopRole.outer.injEq] at before
  rw [roleAfter_of_mem (mem_snoc_iff.mpr (.inl hs)), if_pos hall, flagsUnder_snoc_of_outer hv ho,
    ← before, CommFlags.union_assoc]

/-- A loop over the whole graph is an outer loop once it is visited. -/
theorem roleAfter_snoc_of_outerLoop (known : ast.Scoped [] visits)
    (hv : ast.stmts.get? v.1 = some (.foreach f)) (hall : f.iter.isAllGraph = true) {role : LoopRole}
    (marked : (ast.roleAfter visits v.1 f).markOuter = .ok role) :
    ast.roleAfter (visits ++ [v]) v.1 f = role := by
  have hsite : (Statement.foreach f).site.flags = {} := by
    rw [Statement.site_eq_outerLoop_iff.mpr ⟨f, rfl, hall⟩, Site.flags_outerLoop]
  rw [roleAfter_of_mem (mem_snoc_iff.mpr (.inr rfl)), if_pos hall,
    flagsUnder_snoc_of_silent hv fun _ => hsite, LoopRole.eq_of_markOuter marked]
  by_cases hm : v.1 ∈ visits.map Prod.fst
  · rw [roleAfter_of_mem hm, if_pos hall]
    rfl
  · have unsent : ast.flagsUnder visits v.1 = {} :=
      flagsUnder_of_outer_ne fun w hw ho => hm (by simpa using known.outer_mem hw ho)
    rw [roleAfter_of_not_mem hm, unsent, CommFlags.union_empty]

/-- The loop around a visit was an outer loop before, and sends what the visited statement asks for. -/
theorem Recast.sends {a b : Ast} {old : Statement} {g : Foreach} {flags : CommFlags}
    (h : a.Recast (a.roleAfter visits) b) (hv : a.stmts.get? v.1 = some old)
    (ho : v.2.outer = some o) (known : o ∈ visits.map Prod.fst ∧ a.AllGraph o)
    (hg : b.stmts.get? o = some (.foreach g)) (hflags : g.role = .outer flags)
    (hf : a.stmts.get? o = some (.foreach f)) :
    a.roleAfter (visits ++ [v]) o f = .outer (flags.union old.site.flags) := by
  obtain ⟨hmem, f', hf', hall⟩ := known
  cases hf.symm.trans hf'
  obtain ⟨f', hf', rfl⟩ := h.loop hg
  cases hf.symm.trans hf'
  exact roleAfter_snoc_of_outer hmem hall hv ho hflags

end Ast

namespace Detection

variable {d d' : Detection} {before visits : List (Stmt × Scope)} {a : Ast}

section Step

-- The loop around a visit has been visited before it, and is an outer loop since then.
variable {v : Stmt × Scope} {old : Statement} {inner : Scope} {u : Unit}
  (known : a.Scoped [] (before ++ [v])) (h : a.Recast (a.roleAfter before) d.body.ast)
  (hold : a.stmts.get? v.1 = some old)

include known h hold

theorem outerLoop_recast (hsite : old.site = .outerLoop)
    (run : outerLoop v.1 v.2 d = .ok inner d') :
    a.Recast (a.roleAfter (before ++ [v])) d'.body.ast := by
  obtain ⟨x, g, role, -, hg, hm, -, rfl⟩ := outerLoop_iff.mp run
  obtain ⟨f, hf, rfl⟩ := h.loop hg
  cases hold.symm.trans hf
  obtain ⟨_, ⟨⟩, hall⟩ := Statement.site_eq_outerLoop_iff.mp hsite
  refine (h.setRole hg role).congr fun t ft ht => ?_
  by_cases hts : t = v.1
  · subst t
    cases hf.symm.trans ht
    rw [if_pos rfl, Ast.roleAfter_snoc_of_outerLoop (Ast.scoped_append.mp known).1 hf hall hm]
  · rw [if_neg hts, Ast.roleAfter_snoc_of_ne hts hf fun _ => by rw [hsite, Site.flags_outerLoop]]

theorem innerLoop_recast (hsite : old.site = .innerLoop) (run : innerLoop v.1 v.2 d = .ok u d') :
    a.Recast (a.roleAfter (before ++ [v])) d'.body.ast := by
  obtain ⟨-, hscope, -⟩ := Ast.scoped_append.mp known
  obtain ⟨outer, x, go, flags, g, id, r, ho, -, hgo, hflags, hg, hin, -, rfl⟩ := innerLoop_iff.mp run
  have hout : go.role.isOuter = true := LoopRole.isOuter_iff.mpr ⟨flags, hflags⟩
  have hsame := get?_setRole_inner hg hin hgo hout
  refine ((h.setRole hg .inner).setRole hsame _).congr fun t f hf => ?_
  by_cases hto : t = outer
  · subst t
    rw [if_pos rfl, h.sends hold ho (hscope outer ho) hgo hflags hf, hsite, Site.flags_innerLoop]
  · rw [if_neg hto]
    by_cases hts : t = v.1
    · subst t
      cases hold.symm.trans hf
      obtain ⟨_, ⟨⟩, hnbr⟩ := Statement.site_eq_innerLoop_iff.mp hsite
      rw [if_pos rfl, Ast.roleAfter_of_mem (Ast.mem_snoc_iff.mpr (.inr rfl)), hnbr]
      rfl
    · rw [if_neg hts, Ast.roleAfter_snoc_of_ne hts hold fun hs =>
        absurd (Option.some.inj (hs.symm.trans ho)) hto]

theorem randomWrite_recast {host : Stmt} (hsite : old.site = .randomWrite host)
    (run : randomWrite v.1 host v.2 d = .ok u d') :
    a.Recast (a.roleAfter (before ++ [v])) d'.body.ast := by
  obtain ⟨-, hscope, -⟩ := Ast.scoped_append.mp known
  obtain ⟨outer, x, go, flags, w, access, id, r, ho, -, hgo, hflags, -, -, -, rfl⟩ :=
    randomWrite_iff.mp run
  obtain ⟨w, rfl, -⟩ := Statement.site_eq_randomWrite_iff.mp hsite
  refine (h.setRole hgo _).congr fun t f hf => ?_
  by_cases hto : t = outer
  · subst t
    rw [if_pos rfl, h.sends hold ho (hscope outer ho) hgo hflags hf, hsite, Site.flags_randomWrite]
  · have hts : t ≠ v.1 := by
      rintro rfl
      cases hold.symm.trans hf
    rw [if_neg hto, Ast.roleAfter_snoc_of_ne hts hold fun hs =>
      absurd (Option.some.inj (hs.symm.trans ho)) hto]

end Step

/-- A visit takes the roles after the visits before to those after one more. -/
theorem visit_recast {v : Stmt × Scope} {inner : Scope} (known : a.Scoped [] (before ++ [v]))
    (h : a.Recast (a.roleAfter before) d.body.ast) (hv : visit v.1 v.2 d = .ok inner d') :
    a.Recast (a.roleAfter (before ++ [v])) d'.body.ast := by
  obtain ⟨-, statement, hs, hcases⟩ := visit_iff.mp hv
  obtain ⟨old, hold, rfl⟩ := h.stmt hs
  rw [Statement.site_recast] at hcases
  rcases hcases with ⟨hsite, run⟩ | ⟨hsite, -, run⟩ | ⟨host, hsite, -, run⟩ | ⟨hsite, -, rfl⟩
  · exact outerLoop_recast known h hold hsite run
  · exact innerLoop_recast known h hold hsite run
  · exact randomWrite_recast known h hold hsite run
  · refine h.congr fun t f hf => ?_
    have hts : t ≠ v.1 := by
      rintro rfl
      cases hold.symm.trans hf
      cases hall : f.iter.isAllGraph with
      | true => cases hsite.symm.trans (Statement.site_eq_outerLoop_iff.mpr ⟨f, rfl, hall⟩)
      | false => cases hsite.symm.trans (Statement.site_eq_innerLoop_iff.mpr ⟨f, rfl, hall⟩)
    rw [Ast.roleAfter_snoc_of_ne hts hold fun _ => by rw [hsite, Site.flags_nothing]]

/-- The roles after visits are those that the visits ask for. -/
theorem Trail.recast (h : Trail d visits d') (known : d.body.ast.Scoped [] visits) :
    d.body.ast.Recast (d.body.ast.roleAfter visits) d'.body.ast := by
  have start : d.body.ast.Recast (d.body.ast.roleAfter []) d.body.ast :=
    (Ast.Recast.refl _).congr fun _ _ _ => (Ast.roleAfter_of_not_mem (by simp)).symm
  refine h.run (P := fun before d₁ => d.body.ast.Recast (d.body.ast.roleAfter before) d₁.body.ast)
    start fun before v after d₁ d₂ inner split hbefore hv => ?_
  rw [split, List.append_cons, Ast.scoped_append] at known
  exact visit_recast known.1 hbefore hv

end Detection

namespace Procedure

/-- The loops over the whole graph that the walk meets are outer loops, which send what the
statements ask for that they are the innermost such loop around. The other loops that it meets are
inner loops, and nothing else of the statements changes. -/
theorem findCommunication_roles {s t : Stage Procedure} {targets : TargetBlocks}
    (find : findCommunication s = .ok targets t) :
    ∃ bs visits, s.subject.graph.reachable = .ok bs ∧ s.subject.toBody.Visits bs visits ∧
      (∀ k f, s.subject.ast.stmts.get? k = some (.foreach f) → s.subject.toBody.Walked k →
        f.iter.isAllGraph = true → ∃ neighbours others,
          t.subject.ast.stmts.get? k = some (.foreach { f with
            role := .outer (f.role.flags.union (.sent neighbours others)) }) ∧
          (neighbours = true ↔ ∃ v ∈ visits, v.2.outer = some k ∧
            ∃ g, s.subject.ast.stmts.get? v.1 = some (.foreach g) ∧ g.iter.isAllGraph = false) ∧
          (others = true ↔ ∃ v ∈ visits, v.2.outer = some k ∧ ∃ w host,
            s.subject.ast.stmts.get? v.1 = some (.assign w) ∧ w.randomWrite.expand = some host)) ∧
      (∀ k f, s.subject.ast.stmts.get? k = some (.foreach f) → s.subject.toBody.Walked k →
        f.iter.isAllGraph = false →
          t.subject.ast.stmts.get? k = some (.foreach { f with role := .inner })) ∧
      (∀ k, (s.subject.toBody.Walked k → ∀ f, s.subject.ast.stmts.get? k ≠ some (.foreach f)) →
        t.subject.ast.stmts.get? k = s.subject.ast.stmts.get? k) ∧
      t.subject.ast.stmts.size = s.subject.ast.stmts.size ∧
      t.subject.ast.symbols = s.subject.ast.symbols ∧ t.subject.ast.body = s.subject.ast.body := by
  obtain ⟨d', hd, rfl⟩ := onPart_ok.mp find
  obtain ⟨bs, visits, hr, hvisits, htrail, rfl⟩ := Detection.findCommunication_trail hd
  have hcast := htrail.recast (hvisits.scoped [])
  have hmem : ∀ {k}, k ∈ visits.map Prod.fst ↔ s.subject.toBody.Walked k :=
    hvisits.mem_iff_walked hr
  refine ⟨bs, visits, hr, hvisits, ?_, ?_, ?_, hcast.size, hcast.symbols, hcast.body⟩
  · intro k f hf walked hall
    refine ⟨s.subject.ast.holds visits k Site.isInnerLoop,
      s.subject.ast.holds visits k Site.isRandomWrite, ?_, Ast.holds_innerLoop_iff,
      Ast.holds_randomWrite_iff⟩
    rw [hcast.lookup_loop hf, Ast.roleAfter_of_mem (hmem.mpr walked), if_pos hall]
    rfl
  · intro k f hf walked hnbr
    rw [hcast.lookup_loop hf, Ast.roleAfter_of_mem (hmem.mpr walked), hnbr]
    rfl
  · intro k untouched
    refine hcast.lookup_of_role fun f hf => Ast.roleAfter_of_not_mem fun hk => ?_
    exact untouched (hmem.mp hk) f hf

/-- Both supersteps have the same loop, which sends to neighbours and to other vertices. -/
theorem findCommunication_roles_of_twoSupersteps :
    ∃ targets t, findCommunication (twoSupersteps 1) = .ok targets t ∧
      (∃ neighbours others, t.subject.ast.stmts.get? (Key.wrap 4) = some (.foreach
        ⟨Key.wrap 0, Key.wrap 0, .allNodes, Key.wrap 3,
          .outer (CommFlags.union {} (.sent neighbours others))⟩)) ∧
      t.subject.ast.stmts.get? (Key.wrap 2) = some (.foreach
        ⟨Key.wrap 1, Key.wrap 0, .outNbrs, Key.wrap 1, .inner⟩) ∧
      t.subject.ast.stmts.get? (Key.wrap 0) =
        (twoSupersteps 1).subject.ast.stmts.get? (Key.wrap 0) := by
  have run : (match findCommunication (twoSupersteps 1) with
      | .ok _ _ => true
      | .error _ _ => false) = true := by decide +kernel
  cases h : findCommunication (twoSupersteps 1) with
  | error e t => simp [h] at run
  | ok targets t =>
    have reached : (twoSupersteps 1).subject.graph.Reached (Key.wrap 1) :=
      .exit (.entry rfl) rfl (.head _)
    have around : (twoSupersteps 1).subject.toBody.Walked (Key.wrap 4) :=
      ⟨Key.wrap 1, _, Key.wrap 4, reached, rfl, rfl, .head _, .self _⟩
    have within : (twoSupersteps 1).subject.toBody.Walked (Key.wrap 2) :=
      ⟨Key.wrap 1, _, Key.wrap 4, reached, rfl, rfl, .head _,
        .child (c := Key.wrap 3) rfl (.head _) (.child rfl (.head _) (.self _))⟩
    obtain ⟨bs, visits, -, -, outer, inner, other, -⟩ := findCommunication_roles h
    obtain ⟨neighbours, others, hloop, -⟩ := outer _ _ rfl around rfl
    exact ⟨targets, t, rfl, ⟨neighbours, others, hloop⟩, inner _ _ rfl within rfl,
      other _ fun _ _ hf => by cases hf⟩

end Procedure

end Superstep
