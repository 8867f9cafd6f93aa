import Superstep.Proofs.Marks
import Superstep.Proofs.Senders
import Superstep.Proofs.Transparent

namespace Superstep

/-- Two ways in which work can leave a state behind: the same as before, or grown. What is the same
has not grown, and does not undo growth. -/
structure Gauge (σ : Type) where
  Same : σ → σ → Prop
  Grown : σ → σ → Prop
  same_refl : ∀ s, Same s s
  same_trans : ∀ {s t u}, Same s t → Same t u → Same s u
  grown_after : ∀ {s t u}, Same s t → Grown t u → Grown s u
  grown_before : ∀ {s t u}, Grown s t → Same t u → Grown s u
  grown_trans : ∀ {s t u}, Grown s t → Grown t u → Grown s u

namespace Gauge

variable {σ α : Type}

/-- An effect tells in which of the two ways a state was left behind. -/
def Reads (gauge : Gauge σ) (effect : PassEffect) (s t : σ) : Prop :=
  (effect = .unchanged ∧ gauge.Same s t) ∨ (effect = .modified ∧ gauge.Grown s t)

/-- Work that reports its effect truthfully. -/
def Exact (gauge : Gauge σ) (act : EStateM Fault σ PassEffect) : Prop :=
  ∀ s effect t, act s = .ok effect t → gauge.Reads effect s t

variable {gauge : Gauge σ}

theorem Reads.merge {e e' : PassEffect} {s t u : σ} (h : gauge.Reads e s t)
    (h' : gauge.Reads e' t u) : gauge.Reads (e.merge e') s u := by
  rcases h with ⟨rfl, same⟩ | ⟨rfl, grown⟩
  · rcases h' with ⟨rfl, same'⟩ | ⟨rfl, grown'⟩
    · exact Or.inl ⟨rfl, gauge.same_trans same same'⟩
    · exact Or.inr ⟨rfl, gauge.grown_after same grown'⟩
  · refine Or.inr ⟨rfl, ?_⟩
    rcases h' with ⟨rfl, same'⟩ | ⟨rfl, grown'⟩
    · exact gauge.grown_before grown same'
    · exact gauge.grown_trans grown grown'

theorem Reads.runAfter {gauge : Gauge (Stage α)} {passes : List (EStateM Fault (Stage α) PassEffect)}
    (truthful : ∀ pass ∈ passes, gauge.Exact pass) {before effect : PassEffect} {s t u : Stage α}
    (first : gauge.Reads before s t) (run : runAfter before passes t = .ok effect u) :
    gauge.Reads effect s u := by
  induction passes generalizing before t with
  | nil =>
    obtain ⟨rfl, rfl⟩ := pure_ok.mp run
    exact first
  | cons pass passes ih =>
    cases hpass : pass t with
    | error f t₁ =>
      rw [runAfter_cons_of_error hpass] at run
      cases run
    | ok made t₁ =>
      rw [runAfter_cons_of_ok hpass] at run
      have step := first.merge (truthful pass (by simp) t made t₁ hpass)
      exact ih (fun later hl => truthful later (by simp [hl])) step run

theorem Exact.runAfter {gauge : Gauge (Stage α)}
    {passes : List (EStateM Fault (Stage α) PassEffect)}
    (truthful : ∀ pass ∈ passes, gauge.Exact pass) : gauge.Exact (runAfter .unchanged passes) :=
  fun s _ _ run => Reads.runAfter truthful (Or.inl ⟨rfl, gauge.same_refl s⟩) run

end Gauge

namespace Body

/-- A statement in a tree of a vertex block that the entry leads to. -/
def Walked (body : Body) (s : Stmt) : Prop :=
  ∃ b x root, body.graph.Reached b ∧ body.graph.blocks.get? b = some x ∧ x.isVertex = true ∧
    root ∈ x.sents ∧ body.ast.Within root s

/-- All that differs is that loops over the whole graph in such trees are known to be outer loops, of
which nothing else is known. -/
structure Announced (a b : Body) : Prop where
  graph : b.graph = a.graph
  ast : Ast.Marked (fun s f role => a.Walked s ∧ f.iter.isAllGraph = true ∧ f.role = .unclassified ∧
    role = .outer {}) a.ast b.ast

theorem Announced.refl (body : Body) : body.Announced body := ⟨rfl, .refl _⟩

theorem Announced.walked {a b : Body} (h : a.Announced b) {s : Stmt} (hs : b.Walked s) :
    a.Walked s := by
  obtain ⟨c, x, root, hc, hx, hv, hroot, hw⟩ := hs
  rw [h.graph] at hc hx
  exact ⟨c, x, root, hc, hx, hv, hroot, hw.congr h.ast.trees.symm⟩

theorem Announced.trans {a b c : Body} (h : a.Announced b) (h' : b.Announced c) : a.Announced c := by
  refine ⟨h'.graph.trans h.graph, h.ast.trans (h'.ast.mono ?_) ?_⟩
  · rintro s f role ⟨hs, rest⟩
    exact ⟨h.walked hs, rest⟩
  · rintro s f role role' ⟨_, _, _, rfl⟩ ⟨_, _, hrole, _⟩
    cases hrole

theorem Visits.walked {body : Body} {bs : List Block} {visits : List (Stmt × Scope)}
    (h : body.Visits bs visits) (reached : ∀ b ∈ bs, body.graph.Reached b) :
    ∀ v ∈ visits, body.Walked v.1 := by
  induction h with
  | nil => simp
  | other _ _ _ ih => exact ih fun b hb => reached b (List.mem_cons_of_mem _ hb)
  | @vertex b x rest visits order hx hv ho _ ih =>
    intro v hm
    rcases List.mem_append.mp hm with hm | hm
    · obtain ⟨w, hw, rfl⟩ := List.mem_map.mp hm
      obtain ⟨root, hr, hwithin⟩ := ho.within_of_mem hw
      exact ⟨b, x, root, reached b (by simp), hx, hv, hr, hwithin⟩
    · exact ih (fun b hb => reached b (List.mem_cons_of_mem _ hb)) v hm

end Body

theorem Ast.setRole_self {ast : Ast} {s : Stmt} {f : Foreach}
    (h : ast.stmts.get? s = some (.foreach f)) : ast.setRole s f f.role = ast := by
  have same : ast.stmts.set s (.foreach f) = ast.stmts := Table.set_of_get? h
  unfold Ast.setRole
  rw [same]

namespace Detection

/-- Visiting a statement that sends no unit at most announces an outer loop. -/
theorem visit_of_silent {s : Stmt} {scope inner : Scope} {d d' : Detection}
    (h : visit s scope d = .ok inner d') (silent : d.body.ast.unit? s = none) :
    d'.body.graph = d.body.graph ∧ d.body.ast.Marked (fun t f role => t = s ∧
      f.iter.isAllGraph = true ∧ f.role = .unclassified ∧ role = .outer {}) d'.body.ast := by
  obtain ⟨-, statement, hs, cases⟩ := visit_iff.mp h
  have hunit : statement.unit? s = none := by simpa [Ast.unit?, hs] using silent
  rcases cases with ⟨hsite, h⟩ | ⟨hsite, -, -⟩ | ⟨host, hsite, -, h⟩ | ⟨-, -, rfl⟩
  · obtain ⟨_, f, role, -, hf, hm, -, rfl⟩ := outerLoop_iff.mp h
    cases hs.symm.trans hf
    obtain ⟨_, ⟨⟩, hall⟩ := Statement.site_eq_outerLoop_iff.mp hsite
    refine ⟨rfl, ?_⟩
    rcases LoopRole.markOuter_ok.mp hm with ⟨hrole, rfl⟩ | ⟨-, rfl⟩
    · exact .setRole hf ⟨rfl, hall, hrole, rfl⟩
    · rw [Ast.setRole_self hf]
      exact .refl _
  · obtain ⟨f, rfl, hall⟩ := Statement.site_eq_innerLoop_iff.mp hsite
    simp [Statement.unit?, hall] at hunit
  · obtain ⟨a, rfl, hhost⟩ := Statement.site_eq_randomWrite_iff.mp hsite
    obtain ⟨_, _, _, _, a', access, _, _, -, -, -, -, ha', haccess, -⟩ := randomWrite_iff.mp h
    cases hs.symm.trans ha'
    simp [Statement.unit?, hhost, haccess] at hunit
  · exact ⟨rfl, .refl _⟩

theorem Trail.of_silent {d d' : Detection} {visits : List (Stmt × Scope)} (h : Trail d visits d')
    (silent : ∀ v ∈ visits, d.body.ast.unit? v.1 = none) :
    d'.body.graph = d.body.graph ∧ d.body.ast.Marked (fun s f role => s ∈ visits.map Prod.fst ∧
      f.iter.isAllGraph = true ∧ f.role = .unclassified ∧ role = .outer {}) d'.body.ast := by
  induction h with
  | nil d => exact ⟨rfl, .refl _⟩
  | @cons d d₁ d' s scope inner rest hv _ ih =>
    obtain ⟨graph, marked⟩ := visit_of_silent hv (silent (s, scope) (by simp))
    obtain ⟨graph', marked'⟩ := ih fun v hm => ((visit_trees hv).unit? v.1).trans
      (silent v (List.mem_cons_of_mem _ hm))
    refine ⟨graph'.trans graph, (marked.mono ?_).trans (marked'.mono ?_) ?_⟩
    · rintro t f role ⟨rfl, rest⟩
      exact ⟨by simp, rest⟩
    · rintro t f role ⟨ht, rest⟩
      exact ⟨List.mem_cons_of_mem _ ht, rest⟩
    · rintro t f role role' ⟨_, _, _, rfl⟩ ⟨_, _, hrole, _⟩
      cases hrole

end Detection

namespace Procedure

/-- Where nothing communicates, outer loops are announced and that is all. -/
theorem findCommunication_of_silent {s t : Stage Procedure} {targets : TargetBlocks}
    (h : findCommunication s = .ok targets t) (silent : targets.order = []) :
    s.subject.toBody.Announced t.subject.toBody ∧ t.context = s.context := by
  obtain ⟨d', hd, rfl⟩ := onPart_ok.mp h
  obtain ⟨bs, visits, hr, hvisits, htrail, rfl⟩ := Detection.findCommunication_trail hd
  have hnone : ∀ v ∈ visits, s.subject.ast.unit? v.1 = none := by
    intro v hv
    by_contra hsome
    obtain ⟨u, hu⟩ := Option.ne_none_iff_exists'.mp hsome
    have hfound : (v.2.block, u) ∈ s.subject.ast.found visits :=
      List.mem_filterMap.mpr ⟨v, hv, by rw [hu]; rfl⟩
    have hmem := List.mem_eraseDups.mpr (List.mem_map_of_mem (f := Prod.fst) hfound)
    rw [← htrail.targets_order rfl, silent] at hmem
    cases hmem
  obtain ⟨graph, marked⟩ := htrail.of_silent hnone
  refine ⟨⟨graph, marked.mono ?_⟩, rfl⟩
  rintro r f role ⟨hm, rest⟩
  obtain ⟨v, hv, rfl⟩ := List.mem_map.mp hm
  exact ⟨hvisits.walked (fun b hb => (FlowGraph.mem_reachable_iff hr).mp hb) v hv, rest⟩

/-- The block graph of a procedure grows by whole blocks, or stays as it is. -/
def gauge : Gauge (Stage Procedure) where
  Same s t := s.subject.toBody.Announced t.subject.toBody ∧ t.context.ids = s.context.ids
  Grown s t := s.subject.graph.blocks.size < t.subject.graph.blocks.size
  same_refl _ := ⟨.refl _, rfl⟩
  same_trans h h' := ⟨h.1.trans h'.1, h'.2.trans h.2⟩
  grown_after h h' := by rwa [h.1.graph] at h'
  grown_before h h' := by rwa [h'.1.graph]
  grown_trans := Nat.lt_trans

theorem gauge_exact_of_same {pass : ProcedurePass}
    (same : Keeps (fun s => (s.subject, s.context)) Eq pass)
    (unchanged : ∀ s effect t, pass s = .ok effect t → effect = .unchanged) : gauge.Exact pass := by
  intro s effect t run
  have kept := same s
  rw [finalState_of_ok run] at kept
  obtain ⟨hsubject, hcontext⟩ := Prod.mk.inj kept
  refine Or.inl ⟨unchanged s effect t run, ?_, congrArg (·.ids) hcontext.symm⟩
  rw [← hsubject]
  exact .refl _

end Procedure

namespace ProcedurePass

open Procedure

theorem verify_exact : gauge.Exact verify := by
  refine gauge_exact_of_same verify_keeps ?_
  intro s effect t run
  obtain ⟨_, _, _, hpure⟩ := bind_ok.mp run
  exact (pure_ok.mp hpure).1.symm

theorem write_exact (stream : Stream) : gauge.Exact (write stream) := by
  refine gauge_exact_of_same (write_keeps stream) ?_
  intro s effect t run
  obtain ⟨_, _, _, run⟩ := bind_ok.mp run
  obtain ⟨_, _, _, run⟩ := bind_ok.mp run
  obtain ⟨_, _, _, hpure⟩ := bind_ok.mp run
  exact (pure_ok.mp hpure).1.symm

theorem splitComm_effect {s t : Stage Procedure} {effect : PassEffect}
    (h : splitComm s = .ok effect t) : ∃ splits, splitCommunication s = .ok splits t ∧
      ((effect = .unchanged ∧ splits = []) ∨ (effect = .modified ∧ splits ≠ [])) := by
  unfold splitComm at h
  split at h <;> cases h
  next run => exact ⟨_, run, Or.inl ⟨rfl, rfl⟩⟩
  next notNil run => exact ⟨_, run, Or.inr ⟨rfl, notNil⟩⟩

/-- A split adds blocks, and without one nothing is recorded. -/
theorem splitComm_exact : gauge.Exact splitComm := by
  intro s effect t run
  obtain ⟨splits, split, cases⟩ := splitComm_effect run
  obtain ⟨targets, s₁, hf, hsend, hast, spliced⟩ := splitCommunication_ok split
  rcases cases with ⟨rfl, rfl⟩ | ⟨rfl, hne⟩
  · obtain ⟨hgraph, hids⟩ := spliced.of_nil
    obtain ⟨announced, hcontext⟩ := findCommunication_of_silent hf hsend.symm
    have hbody : t.subject.toBody = s₁.subject.toBody := congrArg₂ Body.mk hast hgraph
    exact Or.inl ⟨rfl, hbody ▸ announced, hids.trans (congrArg (·.ids) hcontext)⟩
  · obtain ⟨-, found, -, surveyed, -⟩ := findCommunication_ok hf
    have hpos : 0 < splits.length := List.length_pos_iff.mpr hne
    have hsize := spliced.size
    rw [surveyed.size] at hsize
    exact Or.inr ⟨rfl, show s.subject.graph.blocks.size < t.subject.graph.blocks.size by omega⟩

end ProcedurePass

theorem PassName.pass_exact (name : PassName) : Procedure.gauge.Exact name.pass := by
  cases name with
  | splitComm => exact ProcedurePass.splitComm_exact
  | verify => exact ProcedurePass.verify_exact
  | printStdout => exact ProcedurePass.write_exact .stdout
  | printStderr => exact ProcedurePass.write_exact .stderr

theorem pipeline_exact {options : PassOptions} {names : List PassName} {pass : ProcedurePass}
    (h : pass ∈ pipeline options names) : Procedure.gauge.Exact pass := by
  have check : ∀ p, p ∈ (if options.verify then [ProcedurePass.verify] else []) →
      Procedure.gauge.Exact p := by
    intro p hp
    split at hp
    · rw [List.mem_singleton.mp hp]
      exact ProcedurePass.verify_exact
    · cases hp
  have print : ∀ p, p ∈ (if options.printAfter then [ProcedurePass.write .stderr] else []) →
      Procedure.gauge.Exact p := by
    intro p hp
    split at hp
    · rw [List.mem_singleton.mp hp]
      exact ProcedurePass.write_exact .stderr
    · cases hp
  rcases List.mem_append.mp h with h | h
  · exact check pass h
  obtain ⟨name, -, h⟩ := List.mem_flatMap.mp h
  rcases List.mem_append.mp h with h | h
  · rcases List.mem_cons.mp h with rfl | h
    · exact name.pass_exact
    · exact print pass h
  · exact check pass h

namespace Program

/-- The programs have the same keys, and the procedures of each key are related. -/
structure Matched (R : Procedure → Procedure → Prop) (s t : Program) : Prop where
  size : t.procedures.size = s.procedures.size
  related : ∀ key p, s.procedures.get? key = some p →
    ∃ q, t.procedures.get? key = some q ∧ R p q

theorem Matched.trans {R : Procedure → Procedure → Prop} {s t u : Program}
    (step : ∀ {p q r}, R p q → R q r → R p r) (h : s.Matched R t) (h' : t.Matched R u) :
    s.Matched R u := by
  refine ⟨h'.size.trans h.size, ?_⟩
  intro key p hp
  obtain ⟨q, hq, hpq⟩ := h.related key p hp
  obtain ⟨r, hr, hqr⟩ := h'.related key q hq
  exact ⟨r, hr, step hpq hqr⟩

theorem Matched.mono {R R' : Procedure → Procedure → Prop} {s t : Program} (h : s.Matched R t)
    (weaker : ∀ p q, R p q → R' p q) : s.Matched R' t := by
  refine ⟨h.size, ?_⟩
  intro key p hp
  obtain ⟨q, hq, hpq⟩ := h.related key p hp
  exact ⟨q, hq, weaker p q hpq⟩

/-- No procedure loses blocks, and one has more of them. -/
structure Larger (s t : Program) : Prop where
  matched : s.Matched (fun p q => p.graph.blocks.size ≤ q.graph.blocks.size) t
  grown : ∃ key p q, s.procedures.get? key = some p ∧ t.procedures.get? key = some q ∧
    p.graph.blocks.size < q.graph.blocks.size

theorem Larger.trans {s t u : Program} (h : s.Larger t)
    (h' : t.Matched (fun p q => p.graph.blocks.size ≤ q.graph.blocks.size) u) : s.Larger u := by
  obtain ⟨key, p, q, hp, hq, hlt⟩ := h.grown
  obtain ⟨r, hr, hle⟩ := h'.related key q hq
  exact ⟨h.matched.trans Nat.le_trans h', key, p, r, hp, hr, Nat.lt_of_lt_of_le hlt hle⟩

theorem Larger.after {s t u : Program}
    (h : s.Matched (fun p q => p.graph.blocks.size ≤ q.graph.blocks.size) t) (h' : t.Larger u) :
    s.Larger u := by
  obtain ⟨key, q, r, hq, hr, hlt⟩ := h'.grown
  have hkey : key.index < s.procedures.size := by
    rw [← h.size]
    exact Table.index_lt_of_get? hq
  obtain ⟨p, hp⟩ := Table.get?_isSome_iff.mpr hkey
  obtain ⟨_, hq', hle⟩ := h.related key p hp
  cases hq.symm.trans hq'
  exact ⟨h.trans Nat.le_trans h'.matched, key, p, r, hp, hr, Nat.lt_of_le_of_lt hle hlt⟩

theorem Matched.of_announced {s t : Program}
    (h : s.Matched (fun p q => p.toBody.Announced q.toBody) t) :
    s.Matched (fun p q => p.graph.blocks.size ≤ q.graph.blocks.size) t :=
  h.mono fun _ _ announced => Nat.le_of_eq (congrArg (·.blocks.size) announced.graph.symm)

/-- The block graphs of a program grow by whole blocks, or stay as they are. -/
def gauge : Gauge (Stage Program) where
  Same s t := s.subject.Matched (fun p q => p.toBody.Announced q.toBody) t.subject ∧
    t.context.ids = s.context.ids
  Grown s t := s.subject.Larger t.subject
  same_refl _ := ⟨⟨rfl, fun _ p hp => ⟨p, hp, .refl _⟩⟩, rfl⟩
  same_trans h h' := ⟨h.1.trans Body.Announced.trans h'.1, h'.2.trans h.2⟩
  grown_after h h' := .after h.1.of_announced h'
  grown_before h h' := h.trans h'.1.of_announced
  grown_trans h h' := h.trans h'.matched

end Program

/-- What is true of the work on one procedure is true of the program. -/
theorem Stage.onProcedure_exact {pass : ProcedurePass} (truthful : Procedure.gauge.Exact pass)
    (key : Proc) : Program.gauge.Exact (onProcedure key (·) pass) := by
  intro s effect t run
  obtain ⟨procedure, u, hp, hu, rfl⟩ := onProcedure_ok.mp run
  have size : (s.withProcedure key u).subject.procedures.size = s.subject.procedures.size :=
    Table.size_set ..
  have here : (s.withProcedure key u).subject.procedures.get? key = some u.subject := by
    rw [get?_withProcedure hp, if_pos rfl]
  have matched : ∀ {R : Procedure → Procedure → Prop}, (∀ p, R p p) → R procedure u.subject →
      s.subject.Matched R (s.withProcedure key u).subject := by
    intro R same changed
    refine ⟨size, ?_⟩
    intro q p hq
    by_cases same_key : q = key
    · subst q
      cases hp.symm.trans hq
      exact ⟨u.subject, here, changed⟩
    · exact ⟨p, by rw [get?_withProcedure hp, if_neg same_key, hq], same p⟩
  rcases truthful (s.focus procedure) effect u hu with ⟨rfl, announced, ids⟩ | ⟨rfl, grown⟩
  · exact Or.inl ⟨rfl, matched (fun p => .refl p.toBody) announced, ids⟩
  · exact Or.inr ⟨rfl, matched (fun _ => Nat.le_refl _) (Nat.le_of_lt grown),
      key, procedure, u.subject, hp, here, grown⟩

theorem ProgramPass.eachProcedure_exact {pass : ProcedurePass} (truthful : Procedure.gauge.Exact pass) :
    Program.gauge.Exact (eachProcedure pass) := by
  intro s effect t run
  obtain ⟨_, _, hget, run⟩ := bind_ok.mp run
  cases hget
  cases hkeys : s.subject.procedures.keys with
  | error f =>
    rw [bind_of_error (settle_of_error hkeys s)] at run
    cases run
  | ok keys =>
    rw [bind_of_ok (settle_of_ok hkeys s)] at run
    refine Gauge.Exact.runAfter ?_ s effect t run
    intro work hwork
    obtain ⟨key, -, rfl⟩ := List.mem_map.mp hwork
    exact Stage.onProcedure_exact truthful key

theorem runPasses_exact (options : PassOptions) (names : List String) :
    Program.gauge.Exact (runPasses options names) := by
  intro s effect t run
  cases resolved : passNames names with
  | error f =>
    rw [runPasses, bind_of_error (settle_of_error resolved s)] at run
    cases run
  | ok passes =>
    cases titled : s.context.strings.get s.subject.name with
    | error f =>
      rw [runPasses_of_untitled resolved titled] at run
      cases run
    | ok title =>
      obtain ⟨line, hrun⟩ := runPasses_of_titled resolved titled options
      rw [hrun] at run
      have truthful : ∀ work ∈ (pipeline options passes).map ProgramPass.eachProcedure,
          Program.gauge.Exact work := by
        intro work hwork
        obtain ⟨pass, hpass, rfl⟩ := List.mem_map.mp hwork
        exact ProgramPass.eachProcedure_exact (pipeline_exact hpass)
      exact Gauge.Exact.runAfter truthful (s.logged line) effect t run

/-- The effect of a run tells whether some block graph has changed. If none has, then no id has been
issued, and at most loops over the whole graph have become outer loops. -/
theorem runPasses_effect_exact {options : PassOptions} {names : List String} {s t : Stage Program}
    {effect : PassEffect} (run : runPasses options names s = .ok effect t) :
    (effect = .modified ↔ ∃ key p q, s.subject.procedures.get? key = some p ∧
      t.subject.procedures.get? key = some q ∧ q.graph ≠ p.graph) ∧
    t.subject.procedures.size = s.subject.procedures.size ∧
    (effect = .unchanged → t.context.ids = s.context.ids ∧
      ∀ key p, s.subject.procedures.get? key = some p →
        ∃ q, t.subject.procedures.get? key = some q ∧ q.graph = p.graph ∧
          p.ast.Marked (fun r f role => p.toBody.Walked r ∧ f.iter.isAllGraph = true ∧
            f.role = .unclassified ∧ role = .outer {}) q.ast) := by
  rcases runPasses_exact options names s effect t run with ⟨rfl, matched, ids⟩ | ⟨rfl, larger⟩
  · refine ⟨⟨PassEffect.noConfusion, ?_⟩, matched.size, fun _ => ⟨ids, ?_⟩⟩
    · rintro ⟨key, p, q, hp, hq, hne⟩
      obtain ⟨_, hq', announced⟩ := matched.related key p hp
      cases hq.symm.trans hq'
      exact absurd announced.graph hne
    · intro key p hp
      obtain ⟨q, hq, announced⟩ := matched.related key p hp
      exact ⟨q, hq, announced.graph, announced.ast⟩
  · refine ⟨⟨fun _ => ?_, fun _ => rfl⟩, larger.matched.size, PassEffect.noConfusion⟩
    obtain ⟨key, p, q, hp, hq, hlt⟩ := larger.grown
    refine ⟨key, p, q, hp, hq, ?_⟩
    intro same
    rw [same] at hlt
    exact Nat.lt_irrefl _ hlt

/-- A superstep whose loop over the whole graph sends nothing. -/
def silentSuperstep : Stage Program :=
  Action.run [.procedure "main" [.symbol "G" .graph, .symbol "n" .node, .verbatim "skip",
    .foreach (Key.wrap 1) (Key.wrap 0) .allNodes (Key.wrap 0), .createBlock .beginVertex,
    .addSent (Key.wrap 0) (Key.wrap 1), .setEntry (Key.wrap 0)] true] (Action.start "P")

/-- Supersteps that send are split, and one that sends nothing has its loop announced. -/
theorem runPasses_effect_exact_of_supersteps :
    (∃ t key p q, runPasses {} ["split-comm"] twoSenders = .ok .modified t ∧
      twoSenders.subject.procedures.get? key = some p ∧
      t.subject.procedures.get? key = some q ∧ q.graph ≠ p.graph) ∧
    ∃ t p q, runPasses {} ["verify", "split-comm"] silentSuperstep = .ok .unchanged t ∧
      silentSuperstep.subject.procedures.get? (Key.wrap 0) = some p ∧
      t.subject.procedures.get? (Key.wrap 0) = some q ∧ q.graph = p.graph ∧ q.ast ≠ p.ast := by
  constructor
  · have ends : (match runPasses {} ["split-comm"] twoSenders with
        | .ok effect _ => some effect
        | .error _ _ => none) = some PassEffect.modified := by decide +kernel
    cases run : runPasses {} ["split-comm"] twoSenders with
    | error f t => simp [run] at ends
    | ok effect t =>
      simp only [run, Option.some.injEq] at ends
      obtain ⟨key, p, q, differ⟩ := (runPasses_effect_exact run).1.mp ends
      exact ⟨t, key, p, q, by rw [ends], differ⟩
  · have ends : (match runPasses {} ["verify", "split-comm"] silentSuperstep with
        | .ok effect t => some (effect, (t.subject.procedures.get? (Key.wrap 0)).map (·.ast))
        | .error _ _ => none) = some (PassEffect.unchanged,
          (silentSuperstep.subject.procedures.get? (Key.wrap 0)).map fun p =>
            p.ast.setRole (Key.wrap 1) ⟨Key.wrap 1, Key.wrap 0, .allNodes, Key.wrap 0, .unclassified⟩
              (.outer {})) := by decide +kernel
    have differ : (silentSuperstep.subject.procedures.get? (Key.wrap 0)).map (fun p =>
        decide (p.ast.setRole (Key.wrap 1)
          ⟨Key.wrap 1, Key.wrap 0, .allNodes, Key.wrap 0, .unclassified⟩ (.outer {}) ≠ p.ast)) =
        some true := by decide +kernel
    cases run : runPasses {} ["verify", "split-comm"] silentSuperstep with
    | error f t => simp [run] at ends
    | ok effect t =>
      simp only [run, Option.some.injEq, Prod.mk.injEq] at ends
      obtain ⟨rfl, marked⟩ := ends
      obtain ⟨p, hp, hne⟩ := Option.map_eq_some_iff.mp differ
      obtain ⟨-, -, silent⟩ := runPasses_effect_exact run
      obtain ⟨q, hq, graph, -⟩ := (silent rfl).2 (Key.wrap 0) p hp
      rw [hp, hq, Option.map_some, Option.map_some, Option.some.injEq] at marked
      exact ⟨t, p, q, rfl, hp, hq, graph, marked ▸ of_decide_eq_true hne⟩

end Superstep
