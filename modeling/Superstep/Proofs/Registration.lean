import Superstep.Registry
import Superstep.Proofs.Lookup

namespace Superstep

namespace Registry

variable {r r' : Registry} {u : CommUnit}

theorem commId?_eq_some_iff {id : CommId} : r.commId? u = some id ↔ r.units.get? id = some u :=
  r.named u id

/-- A unit is registered if some identity names it. -/
theorem isSome_commId? : (r.commId? u).isSome ↔ ∃ id, r.units.get? id = some u := by
  rw [Option.isSome_iff_exists]
  exact exists_congr fun id => commId?_eq_some_iff

/-- A unit that had no identity has got the next one. -/
structure Added (u : CommUnit) (id : CommId) (r r' : Registry) : Prop where
  fresh : r.commId? u = none
  next : id.index = r.units.size
  units : r'.units = r.units.push u
  ids : r'.ids = r.ids.insert u id
  targets : r'.targets = r.targets
  writes : r'.writes = r.writes

/-- A unit is registered if it has an identity, and else gets the next one if there is one left. -/
theorem register_iff {id : CommId} :
    register u r = .ok id r' ↔ (r.commId? u = some id ∧ r' = r) ∨ Added u id r r' := by
  unfold register
  split
  next known hc =>
    rw [EStateM.Result.ok.injEq]
    constructor
    · rintro ⟨rfl, rfl⟩
      exact .inl ⟨hc, rfl⟩
    · rintro (⟨hid, rfl⟩ | added)
      · exact ⟨Option.some.inj (hc.symm.trans hid), rfl⟩
      · cases hc.symm.trans added.fresh
  next hc =>
    have fresh : r.commId? u = none := hc
    split
    next k units added =>
      obtain ⟨next, rfl⟩ := Table.insert_ok.mp added
      rw [EStateM.Result.ok.injEq]
      constructor
      · rintro ⟨rfl, rfl⟩
        exact .inr ⟨fresh, next, rfl, rfl, rfl, rfl⟩
      · rintro (⟨known, -⟩ | added)
        · cases fresh.symm.trans known
        · have same : k = id := Key.ext (next.trans added.next.symm)
          subst same
          exact ⟨rfl, Registry.ext added.units.symm added.ids.symm added.targets.symm added.writes.symm⟩
    next e units full =>
      obtain ⟨past, -, -⟩ := Table.insert_error.mp full
      constructor
      · rintro ⟨⟩
      · rintro (⟨known, -⟩ | added)
        · cases fresh.symm.trans known
        · have within := id.index_le
          have next := added.next
          omega

theorem register_of_fresh (fresh : r.commId? u = none) (room : r.units.size ≤ 0xFFFFFFFF) :
    ∃ r', register u r = .ok ⟨r.units.size, room⟩ r' := by
  let units := r.units.push u
  let ids := r.ids.insert u ⟨r.units.size, room⟩
  have named : Named units ids := r.named.insert fresh (Table.insert_ok.mpr ⟨rfl, rfl⟩)
  exact ⟨{ r with units, ids, named }, register_iff.mpr (.inr ⟨fresh, rfl, rfl, rfl, rfl, rfl⟩)⟩

/-- Only a unit for which no identity is left is refused. -/
theorem register_error {e : Fault} (h : register u r = .error e r') :
    r.commId? u = none ∧ 0xFFFFFFFF < r.units.size ∧ e = .indexTooWide := by
  unfold register at h
  split at h
  next => cases h
  next fresh =>
    split at h
    next => cases h
    next full =>
      obtain ⟨past, rfl, -⟩ := Table.insert_error.mp full
      cases h
      exact ⟨fresh, past, rfl⟩

theorem register_of_full (fresh : r.commId? u = none) (full : 0xFFFFFFFF < r.units.size) :
    ∃ r', register u r = .error .indexTooWide r' := by
  cases registered : register u r with
  | ok id r' =>
    rcases register_iff.mp registered with ⟨known, -⟩ | added
    · cases fresh.symm.trans known
    · have within := id.index_le
      have next := added.next
      omega
  | error e r' =>
    obtain ⟨-, -, rfl⟩ := register_error registered
    exact ⟨r', rfl⟩

/-- Every unit that is registered before is registered after. -/
def Extends (r r' : Registry) : Prop :=
  ∀ u, (r.commId? u).isSome → (r'.commId? u).isSome

theorem Extends.refl (r : Registry) : r.Extends r := fun _ h => h

theorem Extends.trans {r'' : Registry} (h : r.Extends r') (h' : r'.Extends r'') :
    r.Extends r'' := fun u hu => h' u (h u hu)

theorem Added.get?_units {id k : CommId} (h : Added u id r r') :
    r'.units.get? k = if k = id then some u else r.units.get? k := by
  rw [h.units, Table.get?_push]
  simp only [Key.ext_iff, h.next]

theorem Added.extends {id : CommId} (h : Added u id r r') : r.Extends r' := by
  intro v hv
  obtain ⟨k, hk⟩ := isSome_commId?.mp hv
  have other : k ≠ id := by
    rintro rfl
    have below := Table.index_lt_of_get? hk
    have next := h.next
    omega
  exact isSome_commId?.mpr ⟨k, h.get?_units.trans ((if_neg other).trans hk)⟩

theorem commId?_of_register {id : CommId} (h : register u r = .ok id r') : r'.commId? u = some id := by
  rcases register_iff.mp h with ⟨known, rfl⟩ | added
  · exact known
  · exact commId?_eq_some_iff.mpr (added.get?_units.trans (if_pos rfl))

theorem register_ok {id : CommId} (h : register u r = .ok id r') :
    r.Extends r' ∧ (r'.commId? u).isSome := by
  refine ⟨?_, Option.isSome_iff_exists.mpr ⟨id, commId?_of_register h⟩⟩
  rcases register_iff.mp h with ⟨-, rfl⟩ | added
  · exact .refl r'
  · exact added.extends

theorem registerRandomWrite_ok {host : Stmt} {symbol : Symbol} {id : CommId}
    (h : registerRandomWrite host symbol r = .ok id r') :
    r.Extends r' ∧ (r'.commId? (.randomWrite host symbol)).isSome := by
  obtain ⟨_, r₁, hr, h⟩ := bind_ok.mp h
  obtain ⟨_, _, hm, h⟩ := bind_ok.mp h
  cases modify_ok.mp hm
  obtain ⟨-, rfl⟩ := pure_ok.mp h
  obtain ⟨hext, hu⟩ := register_ok hr
  exact ⟨hext, hu⟩

theorem extends_addWrite (r : Registry) (host : Stmt) (symbol : Symbol) (assign : Stmt) :
    r.Extends (r.addWrite host symbol assign) := fun _ h => h

end Registry

end Superstep
