import Superstep.Fault

namespace Superstep

/-- The number of a thing in a table. The label says what is numbered, and `last` is the greatest
number that there is room for. -/
structure Key (label : String) (last : Nat) where
  index : Nat
  index_le : index ≤ last
deriving DecidableEq

namespace Key

variable {label : String} {last : Nat}

@[ext] theorem ext {a b : Key label last} (h : a.index = b.index) : a = b := by
  cases a; cases b; cases h; rfl

/-- The key with a given index, if there is room for it. -/
def ofNat? (n : Nat) : Option (Key label last) :=
  if h : n ≤ last then some ⟨n, h⟩ else none

/-- The key with a given index, or a fault if there is no room for it. -/
def ofNat (n : Nat) : Except Fault (Key label last) :=
  if h : n ≤ last then .ok ⟨n, h⟩ else .error .indexTooWide

/-- The key whose index is `n` modulo the number of keys. -/
def wrap (n : Nat) : Key label last :=
  ⟨n % (last + 1), Nat.le_of_lt_succ (Nat.mod_lt n (Nat.succ_pos last))⟩

/-- The greatest key, which stands for "none" where a key is optional. -/
def reserved : Key label last := ⟨last, Nat.le_refl last⟩

theorem ofNat?_eq_some_iff {n : Nat} {k : Key label last} : ofNat? n = some k ↔ k.index = n := by
  unfold ofNat?
  split
  next room => simp [Key.ext_iff, eq_comm]
  next full =>
    constructor
    · simp
    · intro same
      exact absurd (same ▸ k.index_le) full

@[simp] theorem ofNat?_index (k : Key label last) : ofNat? k.index = some k :=
  ofNat?_eq_some_iff.mpr rfl

theorem ofNat_eq_ok_iff {n : Nat} {k : Key label last} : ofNat n = .ok k ↔ k.index = n := by
  unfold ofNat
  split
  next room => simp [Key.ext_iff, eq_comm]
  next full =>
    constructor
    · simp
    · intro same
      exact absurd (same ▸ k.index_le) full

@[simp] theorem ofNat_index (k : Key label last) : ofNat k.index = .ok k :=
  ofNat_eq_ok_iff.mpr rfl

theorem index_wrap_of_le {n : Nat} (h : n ≤ last) : (wrap n : Key label last).index = n :=
  Nat.mod_eq_of_lt (Nat.lt_succ_of_le h)

end Key

/-- Names a statement of a procedure. -/
abbrev Stmt := Key "Stmt" 0xFFFFFFFF

/-- Names a symbol of a procedure. -/
abbrev Symbol := Key "Symbol" 0xFFFFFFFF

/-- Names a block of a procedure. -/
abbrev Block := Key "Block" 0xFFFFFFFF

/-- Names a procedure of a program. -/
abbrev Proc := Key "Proc" 0xFFFFFFFF

/-- Names a registered communication unit. -/
abbrev CommId := Key "CommId" 0xFFFFFFFF

/-- Names a string of the pool. -/
abbrev Str := Key "Str" 0xFFFFFFFF

/-- The number that a block keeps for life, different from that of every other block of the
program until the counter wraps. -/
abbrev BlockId := Key "BlockId" 0xFFFFFFFF

end Superstep
