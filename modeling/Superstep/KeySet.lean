import Superstep.Table

namespace Superstep

/-- Whether an index has a bit that is set. -/
def bitAt (bits : Array Bool) (i : Nat) : Bool := bits[i]?.getD false

/-- Adds bits that are not set until an index has one. -/
def growBits (bits : Array Bool) (i : Nat) : Array Bool :=
  if i < bits.size then bits else bits ++ Array.replicate (i + 1 - bits.size) false

section Bits

variable {bits : Array Bool} {i : Nat}

theorem bitAt_eq_false (past : bits.size ≤ i) : bitAt bits i = false := by
  simp [bitAt, past]

theorem le_of_bitAt_empty {last : Nat} (set : bitAt #[] i = true) : i ≤ last := by
  cases set

theorem lt_size_of_bitAt (set : bitAt bits i = true) : i < bits.size := by
  refine Nat.lt_of_not_le fun past => ?_
  rw [bitAt_eq_false past] at set
  cases set

@[simp] theorem bitAt_replicate (n i : Nat) : bitAt (Array.replicate n false) i = false := by
  unfold bitAt
  rw [Array.getElem?_replicate]
  split <;> rfl

@[simp] theorem bitAt_growBits (bits : Array Bool) (i j : Nat) :
    bitAt (growBits bits i) j = bitAt bits j := by
  unfold growBits
  split
  next => rfl
  next =>
    by_cases inside : j < bits.size
    · simp [bitAt, Array.getElem?_append_left inside]
    · have past := Nat.le_of_not_lt inside
      rw [bitAt_eq_false past]
      unfold bitAt
      rw [Array.getElem?_append_right past]
      exact bitAt_replicate ..

theorem size_growBits (bits : Array Bool) (i : Nat) :
    (growBits bits i).size = max bits.size (i + 1) := by
  unfold growBits
  split
  next => omega
  next =>
    rw [Array.size_append, Array.size_replicate]
    omega

theorem lt_size_growBits (bits : Array Bool) (i : Nat) : i < (growBits bits i).size := by
  rw [size_growBits]
  exact Nat.le_max_right ..

theorem bitAt_setIfInBounds (inside : i < bits.size) (value : Bool) (j : Nat) :
    bitAt (bits.setIfInBounds i value) j = if i = j then value else bitAt bits j := by
  unfold bitAt
  rw [Array.getElem?_setIfInBounds, if_pos inside]
  split <;> rfl

end Bits

/-- A set of keys with one bit for each index, and the number of bits that are set. An index past
the last bit is not in the set. -/
structure KeySet (label : String) (last : Nat) where
  bits : Array Bool := #[]
  size : Nat := 0
  /-- Only the index of a key has a bit that is set. -/
  le_last_of_bitAt : ∀ i, bitAt bits i = true → i ≤ last := by exact fun _ => le_of_bitAt_empty
deriving DecidableEq

namespace KeySet

variable {label : String} {last : Nat}

def empty : KeySet label last := {}

/-- An empty set with a bit for every value of a table. -/
def ofTable {V : Type} (t : Table (Key label last) V) : KeySet label last where
  bits := Array.replicate t.size false
  le_last_of_bitAt i set := by
    rw [bitAt_replicate] at set
    cases set

def isEmpty (s : KeySet label last) : Bool := s.size == 0

def contains (s : KeySet label last) (k : Key label last) : Bool := bitAt s.bits k.index

/-- Adds a key, and answers whether it was there before. -/
def insert (s : KeySet label last) (k : Key label last) : Bool × KeySet label last :=
  let grown := growBits s.bits k.index
  let was := bitAt grown k.index
  (was, {
    bits := grown.setIfInBounds k.index true
    size := s.size + (!was).toNat
    le_last_of_bitAt i set := by
      rw [bitAt_setIfInBounds (lt_size_growBits ..)] at set
      split at set
      next same => exact same ▸ k.index_le
      next => exact s.le_last_of_bitAt i ((bitAt_growBits ..).symm.trans set) })

/-- Whether an index has a bit, or there can be as many bits as it takes to have one for it. They
are counted with 64 bits. -/
def hasRoom (s : KeySet label last) (i : Nat) : Bool :=
  i < s.bits.size || i + 1 ≤ 0xFFFFFFFFFFFFFFFF

/-- Adds a key for which there is room. No more than `longest` bits can be stored, as a rule those
whose number can be rounded up to words of 64 bits. -/
def insertWithin (s : KeySet label last) (k : Key label last) (longest : Nat := 0xFFFFFFFFFFFFFFBF) :
    Except Fault (Bool × KeySet label last) :=
  if s.hasRoom k.index then
    if k.index < s.bits.size ∨ k.index + 1 ≤ longest then .ok (s.insert k) else .error .noRoom
  else .error .noRoom

/-- Removes a key, and answers whether it was there before. -/
def remove (s : KeySet label last) (k : Key label last) : Bool × KeySet label last :=
  if inside : k.index < s.bits.size then
    let was := bitAt s.bits k.index
    (was, {
      bits := s.bits.setIfInBounds k.index false
      size := s.size - was.toNat
      le_last_of_bitAt i set := by
        rw [bitAt_setIfInBounds inside] at set
        split at set
        next => cases set
        next => exact s.le_last_of_bitAt i set })
  else (false, s)

/-- The indices whose bits are set, in increasing order. -/
def indices (s : KeySet label last) : List Nat := (List.range s.bits.size).filter (bitAt s.bits)

theorem mem_indices {s : KeySet label last} {i : Nat} : i ∈ s.indices ↔ bitAt s.bits i = true := by
  unfold indices
  rw [List.mem_filter, List.mem_range]
  exact ⟨And.right, fun set => ⟨lt_size_of_bitAt set, set⟩⟩

/-- Every key in increasing order. -/
def keys (s : KeySet label last) : List (Key label last) :=
  s.indices.attach.map fun i => ⟨i.1, s.le_last_of_bitAt i.1 (mem_indices.mp i.2)⟩

@[simp] theorem insert_fst (s : KeySet label last) (k : Key label last) :
    (s.insert k).1 = s.contains k :=
  bitAt_growBits ..

theorem bitAt_insert (s : KeySet label last) (k : Key label last) (i : Nat) :
    bitAt (s.insert k).2.bits i = (decide (i = k.index) || bitAt s.bits i) := by
  refine (bitAt_setIfInBounds (lt_size_growBits s.bits k.index) true i).trans ?_
  rw [bitAt_growBits]
  by_cases same : k.index = i
  · simp [same]
  · simp [same, Ne.symm same]

@[simp] theorem contains_insert (s : KeySet label last) (k m : Key label last) :
    (s.insert k).2.contains m = (decide (m = k) || s.contains m) := by
  simp [contains, bitAt_insert, Key.ext_iff]

@[simp] theorem remove_fst (s : KeySet label last) (k : Key label last) :
    (s.remove k).1 = s.contains k := by
  unfold remove
  split
  next => rfl
  next outside => exact (bitAt_eq_false (Nat.le_of_not_lt outside)).symm

theorem bitAt_remove (s : KeySet label last) (k : Key label last) (i : Nat) :
    bitAt (s.remove k).2.bits i = (decide (i ≠ k.index) && bitAt s.bits i) := by
  unfold remove
  split
  next inside =>
    refine (bitAt_setIfInBounds inside false i).trans ?_
    by_cases same : k.index = i
    · simp [same]
    · simp [same, Ne.symm same]
  next outside =>
    by_cases same : i = k.index
    · simp [same, bitAt_eq_false (Nat.le_of_not_lt outside)]
    · simp [same]

@[simp] theorem contains_remove (s : KeySet label last) (k m : Key label last) :
    (s.remove k).2.contains m = (decide (m ≠ k) && s.contains m) := by
  simp [contains, bitAt_remove, Key.ext_iff]

/-- A set holds the keys of a list, and no others. -/
def Lists (s : KeySet label last) (ks : List (Key label last)) : Prop :=
  ∀ k, s.contains k = true ↔ k ∈ ks

namespace Lists

variable {s : KeySet label last} {ks : List (Key label last)} {k : Key label last}

theorem empty : (KeySet.empty : KeySet label last).Lists [] := by
  intro k
  simp [contains, bitAt, KeySet.empty]

theorem insert_fst (h : s.Lists ks) : (s.insert k).1 = true ↔ k ∈ ks := by
  rw [KeySet.insert_fst, h k]

theorem insert (h : s.Lists ks) (k : Key label last) : (s.insert k).2.Lists (ks ++ [k]) := by
  intro j
  rw [contains_insert, Bool.or_eq_true, decide_eq_true_iff, h j, List.mem_append, List.mem_singleton,
    or_comm]

theorem insert_of_mem (h : s.Lists ks) (known : k ∈ ks) : (s.insert k).2.Lists ks := by
  intro j
  rw [h.insert k j, List.mem_append, List.mem_singleton]
  exact or_iff_left_of_imp fun same => same ▸ known

end Lists

end KeySet

abbrev BlockSet := KeySet "Block" 0xFFFFFFFF

end Superstep
