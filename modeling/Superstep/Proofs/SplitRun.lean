import Superstep.Proofs.Rewire

namespace Superstep

namespace Splitting

variable {g : FlowGraph} {ids : IdCounter} {done : List SplitBlocks} {s t : Splitting}

theorem splitVertexBlock_splices {b : Block} {p : SplitBlocks}
    (run : g.Splices ids done s.graph s.ids) (h : splitVertexBlock b s = .ok p t) :
    p.send = b ∧ g.Splices ids (done ++ [p]) t.graph t.ids := by
  obtain ⟨rfl, hids, next, data, hs, sp⟩ := splitVertexBlock_ok h
  refine ⟨rfl, ?_⟩
  rw [hids]
  exact .snoc run hs sp

theorem splitBlocks_ok {bs : List Block} {splits : List SplitBlocks}
    (run : g.Splices ids done s.graph s.ids) (h : bs.mapM splitVertexBlock s = .ok splits t) :
    splits.map SplitBlocks.send = bs ∧ g.Splices ids (done ++ splits) t.graph t.ids := by
  induction bs generalizing s done splits with
  | nil =>
    obtain ⟨rfl, rfl⟩ := pure_ok.mp h
    exact ⟨rfl, by simpa using run⟩
  | cons b bs ih =>
    rw [List.mapM_cons] at h
    obtain ⟨p, s₁, hb, h⟩ := bind_ok.mp h
    obtain ⟨rest, s₂, hrest, h⟩ := bind_ok.mp h
    obtain ⟨rfl, rfl⟩ := pure_ok.mp h
    obtain ⟨rfl, run₁⟩ := splitVertexBlock_splices run hb
    obtain ⟨rfl, run₂⟩ := ih run₁ hrest
    refine ⟨rfl, ?_⟩
    rwa [List.append_assoc, List.singleton_append] at run₂

/-- Splits that end with an error have split the blocks up to the one that failed. -/
theorem splitBlocks_error {bs : List Block} {e : CommError}
    (run : g.Splices ids done s.graph s.ids)
    (h : bs.mapM splitVertexBlock s = .error (.error e) t) :
    ∃ splits, (∀ p ∈ splits, p.send ∈ bs) ∧ g.Splices ids (done ++ splits) t.graph t.ids := by
  induction bs generalizing s done with
  | nil => exact absurd h pure_error
  | cons b bs ih =>
    rw [List.mapM_cons] at h
    rcases bind_error.mp h with hb | ⟨p, s₁, hb, htail⟩
    · cases splitVertexBlock_error hb
      exact ⟨[], by simp, by simpa using run⟩
    · obtain ⟨rfl, run₁⟩ := splitVertexBlock_splices run hb
      rcases bind_error.mp htail with hrest | ⟨_, _, _, hdone⟩
      · obtain ⟨splits, hmem, run₂⟩ := ih run₁ hrest
        refine ⟨p :: splits, ?_, by simpa using run₂⟩
        intro q hq
        rcases List.mem_cons.mp hq with rfl | hq
        · exact List.mem_cons_self
        · exact List.mem_cons_of_mem _ (hmem q hq)
      · exact absurd hdone pure_error

theorem splitVertexBlock_unlisted {b : Block} {p : SplitBlocks}
    (h : splitVertexBlock b s = .ok p t) : ∀ k ∈ p.created, k ∉ s.graph.layout := by
  obtain ⟨rfl, _, next, data, hs, sp⟩ := splitVertexBlock_ok h
  have free : ¬(p.seq ∈ s.graph.layout ∨ p.receive ∈ s.graph.layout) := by
    intro listed
    obtain ⟨_, _, stops, _⟩ := splitVertexBlock_of_listed hs sp.seq_index sp.receive_index listed
    cases h.symm.trans stops
  obtain ⟨seqFree, recFree⟩ := not_or.mp free
  intro k hk
  rcases List.mem_cons.mp hk with rfl | hk
  · exact seqFree
  · rwa [List.mem_singleton.mp hk]

theorem splitBlocks_unlisted {bs : List Block} {splits : List SplitBlocks}
    (h : bs.mapM splitVertexBlock s = .ok splits t) :
    ∀ k ∈ splits.flatMap SplitBlocks.created, k ∉ s.graph.layout := by
  induction bs generalizing s splits with
  | nil =>
    obtain ⟨rfl, _⟩ := pure_ok.mp h
    simp
  | cons b bs ih =>
    rw [List.mapM_cons] at h
    obtain ⟨p, s₁, hb, h⟩ := bind_ok.mp h
    obtain ⟨rest, s₂, hrest, h⟩ := bind_ok.mp h
    obtain ⟨rfl, rfl⟩ := pure_ok.mp h
    obtain ⟨_, _, _, _, _, sp⟩ := splitVertexBlock_ok hb
    intro k hk
    rw [List.flatMap_cons, List.mem_append] at hk
    rcases hk with hk | hk
    · exact splitVertexBlock_unlisted hb k hk
    · intro hm
      exact ih hrest k hk (sp.layout ▸ List.mem_append_left _ hm)

section Progress

variable {among : Block → Prop} (m : g.Mirrored among) (run : g.Splices ids done s.graph s.ids)
  (sends : ∀ p ∈ done, among p.send)

include m run sends in
/-- A block that could be split at first can be split after splits of other blocks, as long as
there are keys for the new blocks. -/
theorem splitVertexBlock_total {b next : Block} {data : BlockData} (hb : among b)
    (hs : g.Splittable b next data) (unsplit : ∀ p ∈ done, b ≠ p.send)
    (free : ∀ k ∈ g.layout, k.index < g.blocks.size ∨
      g.blocks.size + 2 * done.length + 2 ≤ k.index) :
    (∃ p t, splitVertexBlock b s = .ok p t) ∨
      (0x100000000 < g.blocks.size + 2 * done.length + 2 ∧
        ∃ t, splitVertexBlock b s = .error (.fault .indexTooWide) t) := by
  have r := run.rerouted m sends
  have hs' := (r.splittable_iff m hb unsplit).mpr hs
  by_cases room : s.graph.blocks.size + 2 ≤ 0x100000000
  · obtain ⟨p, rfl, hseq, hrec⟩ := exists_splitBlocks b room
    have unlisted : ∀ k : Block, s.graph.blocks.size ≤ k.index →
        k.index < s.graph.blocks.size + 2 → k ∉ s.graph.layout := by
      intro k hlow hhigh hk
      rw [r.size] at hlow hhigh
      rw [r.layout] at hk
      rcases List.mem_append.mp hk with hk | hk
      · have := free k hk
        omega
      · obtain ⟨q, hq, hk⟩ := List.mem_flatMap.mp hk
        have hlt := (r.created_index hq hk).2
        rw [r.size] at hlt
        omega
    obtain ⟨t, runs, _⟩ := splitVertexBlock_of_unlisted hs' hseq hrec
      (unlisted _ (by omega) (by omega)) (unlisted _ (by omega) (by omega))
    exact Or.inl ⟨p, t, runs⟩
  · obtain ⟨t, stops, _⟩ := splitVertexBlock_of_full hs' (by omega)
    exact Or.inr ⟨by rw [← r.size]; omega, t, stops⟩

include m run sends in
/-- Blocks that could each be split at first can be split one after the other. -/
theorem splitBlocks_total {bs : List Block} (nodup : bs.Nodup)
    (splittable : ∀ b ∈ bs, among b ∧ ∃ next data, g.Splittable b next data)
    (unsplit : ∀ b ∈ bs, ∀ p ∈ done, b ≠ p.send)
    (free : ∀ k ∈ g.layout, k.index < g.blocks.size ∨
      g.blocks.size + 2 * (done.length + bs.length) ≤ k.index) :
    (∃ splits t, bs.mapM splitVertexBlock s = .ok splits t) ∨
      (0x100000000 < g.blocks.size + 2 * (done.length + bs.length) ∧
        ∃ t, bs.mapM splitVertexBlock s = .error (.fault .indexTooWide) t) := by
  induction bs generalizing s done with
  | nil => exact Or.inl ⟨[], s, rfl⟩
  | cons b bs ih =>
    obtain ⟨hfirst, hrest⟩ := List.nodup_cons.mp nodup
    obtain ⟨hb, next, data, hs⟩ := splittable b (by simp)
    rw [List.mapM_cons]
    simp only [List.length_cons] at free ⊢
    rcases splitVertexBlock_total m run sends hb hs (unsplit b (by simp)) (fun k hk => by
      have := free k hk; omega) with ⟨p, s₁, first⟩ | ⟨full, t, first⟩
    · obtain ⟨rfl, run₁⟩ := splitVertexBlock_splices run first
      rw [bind_of_ok first]
      have later := ih run₁ ?_ hrest (fun c hc => splittable c (by simp [hc])) ?_ ?_
      · rcases later with ⟨splits, t, rest⟩ | ⟨full, t, rest⟩
        · exact Or.inl ⟨p :: splits, t, bind_of_ok rest⟩
        · refine Or.inr ⟨?_, t, bind_of_error rest⟩
          simp only [List.length_append, List.length_singleton] at full
          omega
      · intro q hq
        rcases List.mem_append.mp hq with hq | hq
        · exact sends q hq
        · exact List.mem_singleton.mp hq ▸ hb
      · intro c hc q hq
        rcases List.mem_append.mp hq with hq | hq
        · exact unsplit c (by simp [hc]) q hq
        · rintro rfl
          exact hfirst (List.mem_singleton.mp hq ▸ hc)
      · intro k hk
        have := free k hk
        simp only [List.length_append, List.length_singleton]
        omega
    · exact Or.inr ⟨by omega, t, bind_of_error first⟩

end Progress

end Splitting

end Superstep
