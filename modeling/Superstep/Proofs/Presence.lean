import Mathlib.Data.List.Induction
import Mathlib.Data.Set.Card
import Superstep.Proofs.Senders

namespace Superstep

namespace KeySet

variable {label : String} {last : Nat} {s : KeySet label last} {k : Key label last}

section Indices

theorem indices_sorted (s : KeySet label last) : s.indices.Pairwise (· < ·) :=
  List.pairwise_lt_range.filter _

theorem indices_nodup (s : KeySet label last) : s.indices.Nodup :=
  s.indices_sorted.imp Nat.ne_of_lt

theorem index_mem_indices : k.index ∈ s.indices ↔ s.contains k = true := mem_indices

theorem map_index_keys (s : KeySet label last) : s.keys.map Key.index = s.indices := by
  simp [keys]

theorem length_keys (s : KeySet label last) : s.keys.length = s.indices.length := by
  simp [keys]

theorem mem_keys : k ∈ s.keys ↔ s.contains k = true := by
  rw [← index_mem_indices, ← map_index_keys, List.mem_map]
  exact ⟨fun h => ⟨k, h, rfl⟩, fun ⟨m, hm, same⟩ => Key.ext same ▸ hm⟩

theorem keys_sorted (s : KeySet label last) :
    s.keys.Pairwise fun a b => a.index < b.index := by
  rw [← List.pairwise_map (f := Key.index), map_index_keys]
  exact s.indices_sorted

theorem keys_nodup (s : KeySet label last) : s.keys.Nodup := by
  refine s.keys_sorted.imp fun {a b} less same => ?_
  rw [same] at less
  exact Nat.lt_irrefl _ less

end Indices

section Size

/-- The number that is kept is the number of bits that are set. -/
def Counted (s : KeySet label last) : Prop := s.size = s.indices.length

theorem length_indices_congr {s t : KeySet label last} (h : ∀ i, bitAt t.bits i = bitAt s.bits i) :
    t.indices.length = s.indices.length := by
  have same : t.indices.Perm s.indices := by
    refine (List.perm_ext_iff_of_nodup t.indices_nodup s.indices_nodup).mpr fun i => ?_
    rw [mem_indices, mem_indices, h]
  exact same.length_eq

theorem length_indices_add {s t : KeySet label last} {i : Nat} (fresh : bitAt s.bits i = false)
    (h : ∀ j, bitAt t.bits j = (decide (j = i) || bitAt s.bits j)) :
    t.indices.length = s.indices.length + 1 := by
  have absent : i ∉ s.indices := by
    rw [mem_indices, fresh]
    exact Bool.false_ne_true
  have more : t.indices.Perm (i :: s.indices) := by
    refine (List.perm_ext_iff_of_nodup t.indices_nodup
      (List.nodup_cons.mpr ⟨absent, s.indices_nodup⟩)).mpr fun j => ?_
    rw [mem_indices, h, Bool.or_eq_true, decide_eq_true_iff, List.mem_cons, mem_indices]
  exact more.length_eq

theorem length_indices_insert (s : KeySet label last) (k : Key label last) :
    (s.insert k).2.indices.length = s.indices.length + (!s.contains k).toNat := by
  cases known : s.contains k with
  | true =>
    refine length_indices_congr fun i => ?_
    rw [bitAt_insert]
    by_cases same : i = k.index
    · subst same
      exact (Bool.or_eq_true_iff.mpr (.inr known)).trans known.symm
    · rw [decide_eq_false same, Bool.false_or]
  | false => exact length_indices_add known (s.bitAt_insert k)

/-- A set with a key is the set without it and the key added, so that the key is counted. -/
theorem length_indices_remove (s : KeySet label last) (k : Key label last) :
    (s.remove k).2.indices.length + (s.contains k).toNat = s.indices.length := by
  have gone : bitAt (s.remove k).2.bits k.index = false := by
    rw [bitAt_remove, decide_eq_false (not_not_intro rfl), Bool.false_and]
  have others : ∀ i, i ≠ k.index → bitAt (s.remove k).2.bits i = bitAt s.bits i := by
    intro i other
    rw [bitAt_remove, decide_eq_true other, Bool.true_and]
  cases known : s.contains k with
  | true =>
    refine (length_indices_add gone fun i => ?_).symm
    by_cases same : i = k.index
    · subst same
      rw [decide_eq_true rfl, Bool.true_or]
      exact known
    · rw [decide_eq_false same, Bool.false_or, others i same]
  | false =>
    refine length_indices_congr fun i => ?_
    by_cases same : i = k.index
    · subst same
      exact gone.trans known.symm
    · exact others i same

theorem Counted.contains_le (h : s.Counted) (k : Key label last) :
    (s.contains k).toNat ≤ s.size := by
  have := length_indices_remove s k
  have count : s.size = s.indices.length := h
  omega

theorem Counted.insert (h : s.Counted) (k : Key label last) : (s.insert k).2.Counted := by
  have count : s.size = s.indices.length := h
  have size : (s.insert k).2.size = s.size + (!(s.insert k).1).toNat := rfl
  unfold Counted
  rw [size, insert_fst, length_indices_insert, count]

theorem size_remove (s : KeySet label last) (k : Key label last) :
    (s.remove k).2.size = s.size - (s.contains k).toNat := by
  unfold remove
  split
  next => rfl
  next outside =>
    have absent : s.contains k = false := bitAt_eq_false (Nat.le_of_not_lt outside)
    rw [absent]
    rfl

theorem Counted.remove (h : s.Counted) (k : Key label last) : (s.remove k).2.Counted := by
  have count : s.size = s.indices.length := h
  have left := length_indices_remove s k
  unfold Counted
  rw [size_remove]
  omega

end Size

/-- A call that changes a set. -/
inductive Call (label : String) (last : Nat) where
  | insert (k : Key label last)
  | remove (k : Key label last)
deriving DecidableEq

/-- Makes a call on a set with a store for `longest` bits. It answers whether the key was there, and
a call that stops changes nothing. -/
def Call.run (longest : Nat) : Call label last → EStateM Fault (KeySet label last) Bool
  | .insert k => fun s =>
    match s.insertWithin k longest with
    | .ok (was, t) => .ok was t
    | .error e => .error e s
  | .remove k => fun s => .ok (s.remove k).1 (s.remove k).2

/-- The set without keys that a history starts with: a new one, or one for a table. -/
def start {V : Type} : Option (Table (Key label last) V) → KeySet label last
  | none => {}
  | some t => ofTable t

/-- The set that a history of calls leaves. -/
def reached {V : Type} (longest : Nat) (primary : Option (Table (Key label last) V))
    (calls : List (Call label last)) : KeySet label last :=
  calls.foldl (fun s call => finalState (call.run longest) s) (start primary)

/-- A key was added and not removed since. -/
def Kept (calls : List (Call label last)) (k : Key label last) : Prop :=
  ∃ before after, calls = before ++ .insert k :: after ∧ .remove k ∉ after

/-- A key was added in a history where there is room for it, and not removed since. -/
def Present {V : Type} (primary : Option (Table (Key label last) V))
    (calls : List (Call label last)) (k : Key label last) : Prop :=
  (start primary).hasRoom k.index = true ∧ Kept calls k

theorem hasRoom_iff {i : Nat} :
    s.hasRoom i = true ↔ i < s.bits.size ∨ i + 1 ≤ 0xFFFFFFFFFFFFFFFF := by
  simp [hasRoom]

/-- A store that holds as many bits as can be counted refuses none. -/
theorem insertWithin_of_growable {longest : Nat} (growable : 0xFFFFFFFFFFFFFFFF ≤ longest)
    (s : KeySet label last) (k : Key label last) :
    s.insertWithin k longest = if s.hasRoom k.index then .ok (s.insert k) else .error .noRoom := by
  unfold insertWithin
  by_cases room : s.hasRoom k.index = true
  · have stored : k.index < s.bits.size ∨ k.index + 1 ≤ longest :=
      (hasRoom_iff.mp room).imp_right fun counted => Nat.le_trans counted growable
    rw [if_pos room, if_pos room, if_pos stored]
  · rw [if_neg room, if_neg room]

section Step

variable {longest : Nat} (growable : 0xFFFFFFFFFFFFFFFF ≤ longest)

theorem run_remove (s : KeySet label last) (k : Key label last) :
    (Call.remove k).run longest s = .ok (s.contains k) (s.remove k).2 :=
  congrArg (EStateM.Result.ok · _) (s.remove_fst k)

theorem finalState_remove (s : KeySet label last) (k : Key label last) :
    finalState ((Call.remove k).run longest) s = (s.remove k).2 :=
  finalState_of_ok (run_remove s k)

include growable

theorem run_insert (s : KeySet label last) (k : Key label last) :
    (Call.insert k).run longest s =
      if s.hasRoom k.index then .ok (s.contains k) (s.insert k).2 else .error .noRoom s := by
  have inserted := insertWithin_of_growable growable s k
  rw [← s.insert_fst k]
  by_cases room : s.hasRoom k.index = true
  · rw [if_pos room] at inserted
    simp only [Call.run, inserted, if_pos room]
  · rw [if_neg room] at inserted
    simp only [Call.run, inserted, if_neg room]

theorem finalState_insert_of_room (room : s.hasRoom k.index = true) :
    finalState ((Call.insert k).run longest) s = (s.insert k).2 :=
  finalState_of_ok ((run_insert growable s k).trans (if_pos room))

theorem finalState_insert_of_full (full : ¬s.hasRoom k.index = true) :
    finalState ((Call.insert k).run longest) s = s :=
  finalState_of_error ((run_insert growable s k).trans (if_neg full))

/-- A set grows only where there is room, so that no call makes any. -/
theorem hasRoom_finalState (s : KeySet label last) (call : Call label last) (i : Nat) :
    (finalState (call.run longest) s).hasRoom i = true ↔ s.hasRoom i = true := by
  cases call with
  | insert k =>
    by_cases room : s.hasRoom k.index = true
    · have size : (s.insert k).2.bits.size = max s.bits.size (k.index + 1) :=
        Array.size_setIfInBounds.trans (size_growBits ..)
      rw [finalState_insert_of_room growable room, hasRoom_iff, hasRoom_iff, size]
      rw [hasRoom_iff] at room
      omega
    · rw [finalState_insert_of_full growable room]
  | remove k =>
    have size : (s.remove k).2.bits.size = s.bits.size := by
      unfold remove
      split
      next => exact Array.size_setIfInBounds
      next => rfl
    rw [finalState_remove, hasRoom_iff, hasRoom_iff, size]

theorem Counted.finalState (h : s.Counted) (call : Call label last) :
    (finalState (call.run longest) s).Counted := by
  cases call with
  | insert k =>
    by_cases room : s.hasRoom k.index = true
    · rw [finalState_insert_of_room growable room]
      exact h.insert k
    · rwa [finalState_insert_of_full growable room]
  | remove k =>
    rw [finalState_remove]
    exact h.remove k

theorem contains_finalState (s : KeySet label last) (call : Call label last) (k : Key label last) :
    (Superstep.finalState (call.run longest) s).contains k = true ↔
      (s.hasRoom k.index = true ∧ call = .insert k) ∨ (s.contains k = true ∧ call ≠ .remove k) := by
  cases call with
  | insert m =>
    by_cases room : s.hasRoom m.index = true
    · rw [finalState_insert_of_room growable room, contains_insert, Bool.or_eq_true, decide_eq_true_iff]
      constructor
      · rintro (rfl | known)
        · exact .inl ⟨room, rfl⟩
        · exact .inr ⟨known, nofun⟩
      · rintro (⟨-, same⟩ | ⟨known, -⟩)
        · cases same
          exact .inl rfl
        · exact .inr known
    · rw [finalState_insert_of_full growable room]
      constructor
      · exact fun known => .inr ⟨known, nofun⟩
      · rintro (⟨free, same⟩ | ⟨known, -⟩)
        · cases same
          exact absurd free room
        · exact known
  | remove m =>
    rw [finalState_remove, contains_remove, Bool.and_eq_true, decide_eq_true_iff]
    constructor
    · rintro ⟨other, known⟩
      exact .inr ⟨known, fun same => other (Call.remove.inj same).symm⟩
    · rintro (⟨-, same⟩ | ⟨known, other⟩)
      · cases same
      · exact ⟨fun same => other (same ▸ rfl), known⟩

end Step

section History

variable {V : Type} {longest : Nat} (primary : Option (Table (Key label last) V))
  (calls : List (Call label last))

theorem kept_snoc {calls : List (Call label last)} {call : Call label last} :
    Kept (calls ++ [call]) k ↔ call = .insert k ∨ (Kept calls k ∧ call ≠ .remove k) := by
  constructor
  · rintro ⟨before, after, split, kept⟩
    rcases List.eq_nil_or_concat' after with rfl | ⟨init, final, rfl⟩
    · obtain ⟨-, same⟩ := List.append_inj' split rfl
      exact .inl (List.singleton_inj.mp same)
    · rw [← List.cons_append, ← List.append_assoc] at split
      obtain ⟨rfl, same⟩ := List.append_inj' split rfl
      cases List.singleton_inj.mp same
      rw [List.mem_append, not_or, List.mem_singleton] at kept
      exact .inr ⟨⟨before, init, rfl, kept.1⟩, Ne.symm kept.2⟩
  · rintro (rfl | ⟨⟨before, after, rfl, kept⟩, other⟩)
    · exact ⟨calls, [], rfl, List.not_mem_nil⟩
    · refine ⟨before, after ++ [call], by simp, ?_⟩
      rw [List.mem_append, not_or, List.mem_singleton]
      exact ⟨kept, Ne.symm other⟩

theorem reached_snoc (call : Call label last) :
    reached longest primary (calls ++ [call]) =
      finalState (call.run longest) (reached longest primary calls) := by
  unfold reached
  rw [List.foldl_append]
  rfl

theorem contains_start (k : Key label last) : (start primary).contains k = false := by
  cases primary with
  | none => rfl
  | some t => exact bitAt_replicate ..

theorem counted_start : (start primary).Counted := by
  have none_set : (start primary).indices = [] := by
    refine List.eq_nil_iff_forall_not_mem.mpr fun i set => ?_
    rw [mem_indices] at set
    cases primary with
    | none => cases set
    | some t => cases (bitAt_replicate ..).symm.trans set
  have size : (start primary).size = 0 := by
    cases primary <;> rfl
  unfold Counted
  rw [none_set, size, List.length_nil]

variable (growable : 0xFFFFFFFFFFFFFFFF ≤ longest)

include growable

theorem hasRoom_reached (i : Nat) :
    (reached longest primary calls).hasRoom i = true ↔ (start primary).hasRoom i = true := by
  induction calls using List.reverseRecOn with
  | nil => exact Iff.rfl
  | append_singleton calls call ih => rw [reached_snoc, hasRoom_finalState growable, ih]

theorem counted_reached : (reached longest primary calls).Counted := by
  induction calls using List.reverseRecOn with
  | nil => exact counted_start primary
  | append_singleton calls call ih =>
    rw [reached_snoc]
    exact ih.finalState growable call

theorem contains_reached (k : Key label last) :
    (reached longest primary calls).contains k = true ↔ Present primary calls k := by
  unfold Present
  induction calls using List.reverseRecOn with
  | nil =>
    have absent : (reached longest primary []).contains k = false := contains_start primary k
    rw [absent]
    simp [Kept]
  | append_singleton calls call ih =>
    rw [reached_snoc, contains_finalState growable, kept_snoc, hasRoom_reached primary calls growable, ih,
      and_assoc, ← and_or_left]

end History

/-- A set answers like the finite set of the keys for which a property holds. -/
structure Refines (s : KeySet label last) (present : Key label last → Prop) : Prop where
  contains_iff : ∀ k, s.contains k = true ↔ present k
  mem_keys_iff : ∀ k, k ∈ s.keys ↔ present k
  keys_increase : s.keys.Pairwise fun a b => a.index < b.index
  size_eq : s.size = {k | present k}.ncard
  /-- What the next removal takes off the size is there to be taken. -/
  size_suffices : ∀ k, (s.contains k).toNat ≤ s.size
  isEmpty_iff : s.isEmpty = true ↔ s.size = 0

theorem Counted.refines (h : s.Counted) {present : Key label last → Prop}
    (held : ∀ k, s.contains k = true ↔ present k) : s.Refines present := by
  have listed : ∀ k, k ∈ s.keys ↔ present k := fun k => mem_keys.trans (held k)
  have members : {k | present k} = (s.keys.toFinset : Set (Key label last)) := by
    refine Set.ext fun k => ?_
    rw [Finset.mem_coe, List.mem_toFinset]
    exact (listed k).symm
  refine ⟨held, listed, s.keys_sorted, ?_, h.contains_le, beq_iff_eq⟩
  calc s.size = s.keys.length := h.trans s.length_keys.symm
    _ = s.keys.toFinset.card := (List.toFinset_card_of_nodup s.keys_nodup).symm
    _ = {k | present k}.ncard := by rw [members, Set.ncard_coe_finset]

end KeySet

namespace TargetBlocks

/-- Adds blocks one after the other. -/
def insertAll (t : TargetBlocks) (blocks : List Block) : TargetBlocks :=
  blocks.foldl (fun t b => (t.insert b).2) t

theorem order_insertAll (blocks : List Block) :
    (({} : TargetBlocks).insertAll blocks).order = blocks.eraseDups :=
  (Agrees.empty.foldl blocks).1.trans (foldl_appendNew List.nodup_nil blocks)

theorem contains_insertAll (blocks : List Block) (b : Block) :
    (({} : TargetBlocks).insertAll blocks).contains b = true ↔
      b ∈ (({} : TargetBlocks).insertAll blocks).order :=
  (Agrees.empty.foldl blocks).2 b

theorem insert_fst (t : TargetBlocks) (b : Block) : (t.insert b).1 = !t.contains b := by
  cases known : t.contains b with
  | true => rw [insert_of_contains known, Bool.not_true]
  | false => rw [insert_of_not_contains known, Bool.not_false]

end TargetBlocks

namespace KeySet

/-- Whatever has been added and removed, a set whose store holds as many bits as can be counted holds
the keys that were added and not removed since, and answers each call with what it held before. Only a
key whose bit cannot be counted is refused, and that leaves the set as it is. Blocks always have room,
so that target blocks are the blocks added with each in its first place. -/
theorem reached_refines {V : Type} {longest : Nat} (growable : 0xFFFFFFFFFFFFFFFF ≤ longest)
    (primary : Option (Table (Key label last) V)) (calls : List (Call label last)) :
    (reached longest primary calls).Refines (Present primary calls) ∧
      (∀ k, (Call.remove k).run longest (reached longest primary calls) =
        .ok ((reached longest primary calls).contains k)
          (reached longest primary (calls ++ [.remove k]))) ∧
      (∀ k, (Call.insert k).run longest (reached longest primary calls) =
        if (start primary).hasRoom k.index then
          .ok ((reached longest primary calls).contains k)
            (reached longest primary (calls ++ [.insert k]))
        else .error .noRoom (reached longest primary calls)) ∧
      ∀ blocks : List Block,
        (({} : TargetBlocks).insertAll blocks).order = blocks.eraseDups ∧
        (∀ b, (({} : TargetBlocks).insertAll blocks).contains b = true ↔
          b ∈ (({} : TargetBlocks).insertAll blocks).order) ∧
        (∀ b, ((({} : TargetBlocks).insertAll blocks).insert b).1 = true ↔ b ∉ blocks) ∧
        ∀ b, (({} : TargetBlocks).insertAll blocks).seen.insertWithin b longest =
          .ok ((({} : TargetBlocks).insertAll blocks).seen.insert b) := by
  refine ⟨(counted_reached primary calls growable).refines (contains_reached primary calls growable),
    ?_, ?_, ?_⟩
  · intro k
    rw [reached_snoc, finalState_remove, run_remove]
  · intro k
    rw [reached_snoc, run_insert growable]
    by_cases room : (start primary).hasRoom k.index = true
    · have here := (hasRoom_reached primary calls growable k.index).mpr room
      rw [if_pos here, if_pos room, finalState_insert_of_room growable here]
    · have here := mt (hasRoom_reached primary calls growable k.index).mp room
      rw [if_neg here, if_neg room]
  · intro blocks
    have order := TargetBlocks.order_insertAll blocks
    have held := TargetBlocks.contains_insertAll blocks
    refine ⟨order, held, fun b => ?_, fun b => ?_⟩
    · have known := held b
      rw [order, List.mem_eraseDups] at known
      rw [TargetBlocks.insert_fst, Bool.not_eq_true', ← Bool.not_eq_true, known]
    · have narrow := b.index_le
      rw [insertWithin_of_growable growable]
      exact if_pos (hasRoom_iff.mpr (.inr (by omega)))

/-- A key far past the bits that are there is added and removed, and so is one that was never
added. -/
def Call.farKeys : List (Call "Slot" 0xFFFF) :=
  [.insert (Key.wrap 70), .insert (Key.wrap 3), .remove (Key.wrap 70), .remove (Key.wrap 9)]

theorem reached_refines_of_farKeys :
    (reached 0xFFFFFFFFFFFFFFFF (none : Option (Table _ Unit)) Call.farKeys).keys = [Key.wrap 3] ∧
      (reached 0xFFFFFFFFFFFFFFFF (none : Option (Table _ Unit)) Call.farKeys).Refines
        (Present (none : Option (Table _ Unit)) Call.farKeys) :=
  ⟨by decide +kernel, (reached_refines (Nat.le_refl _) _ _).1⟩

/-- The greatest index of 64 bits can be given no bit: it is refused by a new set, which does not
hold it afterwards. -/
theorem greatest_key_refused :
    (Call.insert (Key.reserved : Key "Wide" 0xFFFFFFFFFFFFFFFF)).run 0xFFFFFFFFFFFFFFFF {} =
        .error .noRoom {} ∧
      ¬∀ (calls : List (Call "Wide" 0xFFFFFFFFFFFFFFFF)) (k : Key "Wide" 0xFFFFFFFFFFFFFFFF),
        (reached 0xFFFFFFFFFFFFFFFF (none : Option (Table _ Unit)) calls).contains k = true ↔
          Kept calls k := by
  have refused : (Call.insert (Key.reserved : Key "Wide" 0xFFFFFFFFFFFFFFFF)).run 0xFFFFFFFFFFFFFFFF {} =
      .error .noRoom {} := (run_insert (Nat.le_refl _) ..).trans (if_neg (by decide))
  refine ⟨refused, fun held => ?_⟩
  have added : Kept [.insert (Key.reserved : Key "Wide" 0xFFFFFFFFFFFFFFFF)] Key.reserved :=
    ⟨[], [], rfl, List.not_mem_nil⟩
  have present := (held _ _).mpr added
  rw [contains_reached _ _ (Nat.le_refl _)] at present
  exact absurd present.1 (by decide)

end KeySet

end Superstep
