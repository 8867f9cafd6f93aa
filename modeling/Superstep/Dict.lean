namespace Superstep

/-- Values under keys. A key that is put in again has the new value. -/
structure Dict (K V : Type) where
  entries : List (K × V) := []
deriving DecidableEq

namespace Dict

variable {K V : Type} [DecidableEq K]

def get? (d : Dict K V) (k : K) : Option V := d.entries.lookup k

def insert (d : Dict K V) (k : K) (v : V) : Dict K V := ⟨(k, v) :: d.entries⟩

@[simp] theorem get?_empty (k : K) : ({} : Dict K V).get? k = none := rfl

theorem get?_insert (d : Dict K V) (k j : K) (v : V) :
    (d.insert k v).get? j = if j = k then some v else d.get? j := by
  unfold get? insert
  rw [List.lookup_cons]
  by_cases same : j = k
  · rw [if_pos same, beq_iff_eq.mpr same]
  · rw [if_neg same, beq_eq_false_iff_ne.mpr same]

end Dict

end Superstep
