import Superstep.Table.Cursor
import Superstep.Proofs.Lookup
import Superstep.Proofs.TwoEnded

namespace Superstep

variable {label : String} {last : Nat} {V : Type}

namespace KeyCursor

/-- The walk over the keys of a table. -/
def walk : TwoEnded (KeyCursor label last) (Key label last) := ⟨next, nextBack, remaining⟩

theorem next_of_lt {c : KeyCursor label last} (h : c.front < c.back) :
    outcome next c = (Key.ofNat c.front).map some ∧
      finalState next c = { c with front := c.front + 1 } := by
  unfold outcome finalState next
  rw [if_pos h]
  cases (Key.ofNat c.front : Except Fault (Key label last)) <;> exact ⟨rfl, rfl⟩

theorem nextBack_of_lt {c : KeyCursor label last} (h : c.front < c.back) :
    outcome nextBack c = (Key.ofNat (c.back - 1)).map some ∧
      finalState nextBack c = { c with back := c.back - 1 } := by
  unfold outcome finalState nextBack
  rw [if_pos h]
  cases (Key.ofNat (c.back - 1) : Except Fault (Key label last)) <;> exact ⟨rfl, rfl⟩

theorem next_of_ended {c : KeyCursor label last} (h : ¬c.front < c.back) : next c = .ok none c :=
  if_neg h

theorem nextBack_of_ended {c : KeyCursor label last} (h : ¬c.front < c.back) :
    nextBack c = .ok none c :=
  if_neg h

/-- Where a walk over `n` keys stands. -/
structure Stands (n : Nat) (t : Taken) (c : KeyCursor label last) : Prop where
  front : c.front = t.front
  back : c.back = n - t.back

theorem Stands.lt_iff {n : Nat} {t : Taken} {c : KeyCursor label last} (h : Stands n t c) :
    c.front < c.back ↔ t.all < n := by
  rw [h.front, h.back]
  exact Nat.lt_sub_iff_add_lt

theorem follows (n : Nat) :
    Follows n Key.ofNat walk (Stands n : Taken → KeyCursor label last → Prop) where
  remaining := by
    intro t c stands
    show c.back - c.front = n - (t.front + t.back)
    rw [stands.front, stands.back]
    omega
  next := by
    intro t c stands within
    by_cases room : t.all < n
    · obtain ⟨answer, moved⟩ := next_of_lt (stands.lt_iff.mpr room)
      rw [stands.front] at answer
      rw [Taken.got_of_room room, Taken.step_next room]
      exact ⟨answer, moved ▸ ⟨congrArg (· + 1) stands.front, stands.back⟩⟩
    · have done := next_of_ended (mt stands.lt_iff.mp room)
      rw [Taken.got_of_ended room, Taken.step_of_ended room]
      exact ⟨outcome_of_ok done, (finalState_of_ok done).symm ▸ stands⟩
  nextBack := by
    intro t c stands within
    by_cases room : t.all < n
    · obtain ⟨answer, moved⟩ := nextBack_of_lt (stands.lt_iff.mpr room)
      have place : c.back - 1 = n - 1 - t.back := by rw [stands.back]; omega
      rw [Taken.got_of_room room, Taken.step_nextBack room, ← place]
      refine ⟨answer, moved ▸ ⟨stands.front, ?_⟩⟩
      show c.back - 1 = n - (t.back + 1)
      omega
    · have done := nextBack_of_ended (mt stands.lt_iff.mp room)
      rw [Taken.got_of_ended room, Taken.step_of_ended room]
      exact ⟨outcome_of_ok done, (finalState_of_ok done).symm ▸ stands⟩

end KeyCursor

section Window

/-- The values that are left when so many are taken from both ends. -/
def window (values : List V) (t : Taken) : List V :=
  (values.drop t.front).take (values.length - t.all)

variable {values : List V} {t : Taken}

theorem length_window (values : List V) (t : Taken) :
    (window values t).length = values.length - t.all := by
  unfold window Taken.all
  rw [List.length_take, List.length_drop]
  omega

theorem window_of_ended (full : ¬t.all < values.length) : window values t = [] := by
  rw [← List.length_eq_zero_iff, length_window]
  omega

theorem window_cons (room : t.all < values.length) :
    ∃ v, values[t.front]? = some v ∧
      window values t = v :: window values { t with front := t.front + 1 } := by
  have inside : t.front < values.length := Nat.lt_of_le_of_lt (Nat.le_add_right ..) room
  have more : values.length - t.all = values.length - (t.front + 1 + t.back) + 1 := by
    unfold Taken.all at room ⊢
    omega
  refine ⟨values[t.front], List.getElem?_eq_getElem inside, ?_⟩
  unfold window
  rw [List.drop_eq_getElem_cons inside, more, List.take_succ_cons]
  rfl

theorem window_concat (room : t.all < values.length) :
    ∃ v, values[values.length - 1 - t.back]? = some v ∧
      window values t = window values { t with back := t.back + 1 } ++ [v] := by
  have sum : t.all = t.front + t.back := rfl
  have inside : values.length - 1 - t.back < values.length := by omega
  have more : values.length - t.all = values.length - (t.front + (t.back + 1)) + 1 := by omega
  refine ⟨values[values.length - 1 - t.back], List.getElem?_eq_getElem inside, ?_⟩
  unfold window
  rw [more, List.take_add_one, List.getElem?_drop]
  have place : t.front + (values.length - (t.front + (t.back + 1))) = values.length - 1 - t.back := by
    omega
  rw [place, List.getElem?_eq_getElem inside]
  rfl

end Window

namespace Table

/-- The key and the value of the slot numbered `i`. -/
def entryAt (t : Table (Key label last) V) (i : Nat) : Except Fault (Key label last × V) := do
  let k ← Key.ofNat i
  return (k, ← t.get k)

theorem entryAt_eq {t : Table (Key label last) V} {i : Nat} {v : V} (h : t.values[i]? = some v) :
    t.entryAt i = (Key.ofNat i).map fun k => (k, v) := by
  unfold entryAt
  cases hk : (Key.ofNat i : Except Fault (Key label last)) with
  | error e => rfl
  | ok k =>
    have found : t.get k = .ok v := by
      rw [get_ok, get?_eq_values, Key.ofNat_eq_ok_iff.mp hk, h]
    exact except_bind_ok.mpr ⟨k, rfl, except_bind_ok.mpr ⟨v, found, rfl⟩⟩

/-- The slot numbered `i` with the value that is put there. -/
def changedAt (t : Table (Key label last) V) (change : Key label last → V → V) (i : Nat) :
    Except Fault (Key label last × V) :=
  (t.entryAt i).map fun e => (e.1, change e.1 e.2)

end Table

namespace EntryCursor

/-- The walk over the entries of a table. -/
def walk : TwoEnded (EntryCursor label last V) (Key label last × V) := ⟨next, nextBack, remaining⟩

theorem next_of_cons (i : Nat) (v : V) (rest : List V) :
    outcome next (⟨i, v :: rest⟩ : EntryCursor label last V) =
        ((Key.ofNat i).map fun k => (k, v)).map some ∧
      finalState next (⟨i, v :: rest⟩ : EntryCursor label last V) = ⟨i + 1, rest⟩ := by
  unfold outcome finalState next
  dsimp only
  cases (Key.ofNat i : Except Fault (Key label last)) <;> exact ⟨rfl, rfl⟩

theorem nextBack_of_concat (i : Nat) (v : V) (rest : List V) :
    outcome nextBack (⟨i, rest ++ [v]⟩ : EntryCursor label last V) =
        ((Key.ofNat (i + rest.length)).map fun k => (k, v)).map some ∧
      finalState nextBack (⟨i, rest ++ [v]⟩ : EntryCursor label last V) = ⟨i, rest⟩ := by
  unfold outcome finalState nextBack
  simp only [List.getLast?_concat, List.dropLast_concat]
  cases (Key.ofNat (i + rest.length) : Except Fault (Key label last)) <;> exact ⟨rfl, rfl⟩

/-- Where a walk over some values stands. -/
def Stands (values : List V) (t : Taken) (c : EntryCursor label last V) : Prop :=
  c = ⟨t.front, window values t⟩

theorem follows (t : Table (Key label last) V) :
    Follows t.size t.entryAt walk (Stands t.values) where
  remaining := by
    rintro n _ rfl
    show (window t.values n).length = _
    rw [length_window, t.length_values]
  next := by
    rintro n _ rfl -
    by_cases room : n.all < t.size
    · obtain ⟨v, value, left⟩ := window_cons (t.length_values.symm ▸ room)
      rw [Taken.got_of_room room, Taken.step_next room, Table.entryAt_eq value, left]
      exact next_of_cons ..
    · have left := window_of_ended (t.length_values.symm ▸ room)
      rw [Taken.got_of_ended room, Taken.step_of_ended room, left]
      exact ⟨rfl, congrArg (EntryCursor.mk _) left.symm⟩
  nextBack := by
    rintro n _ rfl -
    by_cases room : n.all < t.size
    · obtain ⟨v, value, left⟩ := window_concat (t.length_values.symm ▸ room)
      have index : n.front + (window t.values { n with back := n.back + 1 }).length =
          t.size - 1 - n.back := by
        have all : n.front + n.back < t.size := room
        rw [length_window, t.length_values]
        show n.front + (t.size - (n.front + (n.back + 1))) = _
        omega
      rw [t.length_values] at value
      rw [Taken.got_of_room room, Taken.step_nextBack room, Table.entryAt_eq value, left, ← index]
      exact nextBack_of_concat ..
    · have left := window_of_ended (t.length_values.symm ▸ room)
      rw [Taken.got_of_ended room, Taken.step_of_ended room, left]
      exact ⟨rfl, congrArg (EntryCursor.mk _) left.symm⟩

end EntryCursor

namespace EditCursor

/-- The walk over the entries of a table that changes each value it comes to. -/
def walk (change : Key label last → V → V) :
    TwoEnded (EditCursor label last V) (Key label last × V) :=
  ⟨next change, nextBack change, remaining⟩

section Edit

variable {change : Key label last → V → V} {c : EditCursor label last V} {k : Key label last} {v : V}
  {take : EStateM Fault (EntryCursor label last V) (Option (Key label last × V))}

theorem edit_of_none (h : outcome take c.entries = .ok none) :
    edit change take c = .ok none ⟨finalState take c.entries, c.table⟩ := by
  unfold edit
  rw [run_of_outcome_ok h]

theorem edit_of_some (h : outcome take c.entries = .ok (some (k, v))) :
    edit change take c =
      .ok (some (k, change k v)) ⟨finalState take c.entries, c.table.set k (change k v)⟩ := by
  unfold edit
  rw [run_of_outcome_ok h]

theorem edit_of_error {e : Fault} (h : outcome take c.entries = .error e) :
    edit change take c = .error e ⟨finalState take c.entries, c.table⟩ := by
  unfold edit
  rw [run_of_outcome_error h]

end Edit

section Passed

variable {change : Key label last → V → V} {t : Table (Key label last) V}

/-- Whether the slot numbered `i` of `n` has been taken. -/
def Passed (n : Nat) (m : Taken) (i : Nat) : Prop := i < m.front ∨ n - m.back ≤ i

instance (n : Nat) (m : Taken) (i : Nat) : Decidable (Passed n m i) :=
  inferInstanceAs (Decidable (_ ∨ _))

/-- The slots that have been taken hold what `change` makes of their values in `t`. -/
def Changed (change : Key label last → V → V) (t : Table (Key label last) V) (m : Taken)
    (t' : Table (Key label last) V) : Prop :=
  ∀ k, t'.get? k = if Passed t.size m k.index then (t.get? k).map (change k) else t.get? k

/-- Taking one more slot changes that slot, unless there is no key for it. -/
theorem edit_changes {take : EStateM Fault (EntryCursor label last V) (Option (Key label last × V))}
    {c : EditCursor label last V} {m m' : Taken} {i : Nat}
    (taken : outcome take c.entries = (t.entryAt i).map some) (inside : i < t.size)
    (before : Changed change t m c.table) (fresh : ¬Passed t.size m i)
    (grown : ∀ j, Passed t.size m' j ↔ Passed t.size m j ∨ j = i) :
    outcome (edit change take) c = (t.changedAt change i).map some ∧
      (finalState (edit change take) c).entries = finalState take c.entries ∧
      Changed change t m' (finalState (edit change take) c).table := by
  obtain ⟨v, value⟩ : ∃ v, t.values[i]? = some v :=
    ⟨_, List.getElem?_eq_getElem (t.length_values.symm ▸ inside)⟩
  unfold Table.changedAt
  rw [Table.entryAt_eq value] at taken ⊢
  cases hk : (Key.ofNat i : Except Fault (Key label last)) with
  | error e =>
    rw [hk] at taken
    have stopped : edit change take c = .error e ⟨finalState take c.entries, c.table⟩ :=
      edit_of_error taken
    rw [outcome_of_error stopped, finalState_of_error stopped]
    refine ⟨rfl, rfl, fun k => ?_⟩
    have other : k.index ≠ i := by
      rintro rfl
      rw [Key.ofNat_index] at hk
      cases hk
    have same : Passed t.size m' k.index ↔ Passed t.size m k.index :=
      (grown k.index).trans (or_iff_left other)
    rw [before k]
    simp only [same]
  | ok k =>
    rw [hk] at taken
    have edited : edit change take c =
        .ok (some (k, change k v)) ⟨finalState take c.entries, c.table.set k (change k v)⟩ :=
      edit_of_some taken
    rw [outcome_of_ok edited, finalState_of_ok edited]
    refine ⟨rfl, rfl, fun l => ?_⟩
    have index : k.index = i := Key.ofNat_eq_ok_iff.mp hk
    by_cases same : k = l
    · subst same
      have old : t.get? k = some v := by rw [Table.get?_eq_values, index, value]
      have now : c.table.get? k = some v := (before k).trans ((if_neg (index ▸ fresh)).trans old)
      rw [Table.get?_set, if_pos rfl, now, if_pos ((grown _).mpr (.inr index)), old]
      rfl
    · have other : l.index ≠ i := fun he => same (Key.ext (index.trans he.symm))
      have kept : Passed t.size m' l.index ↔ Passed t.size m l.index :=
        (grown l.index).trans (or_iff_left other)
      show (c.table.set k (change k v)).get? l = _
      rw [Table.get?_set_of_ne same, before l]
      simp only [kept]

/-- Where a walk that changes the values of a table stands. -/
structure Stands (change : Key label last → V → V) (t : Table (Key label last) V) (m : Taken)
    (c : EditCursor label last V) : Prop where
  entries : EntryCursor.Stands t.values m c.entries
  changed : Changed change t m c.table

theorem edit_ended {take : EStateM Fault (EntryCursor label last V) (Option (Key label last × V))}
    {c : EditCursor label last V} {m : Taken} (stands : Stands change t m c)
    (taken : outcome take c.entries = .ok none)
    (moved : EntryCursor.Stands t.values m (finalState take c.entries)) :
    outcome (edit change take) c = .ok none ∧
      Stands change t m (finalState (edit change take) c) := by
  have done : edit change take c = .ok none ⟨finalState take c.entries, c.table⟩ := edit_of_none taken
  rw [outcome_of_ok done, finalState_of_ok done]
  exact ⟨rfl, moved, stands.changed⟩

theorem follows (change : Key label last → V → V) (t : Table (Key label last) V) :
    Follows t.size (t.changedAt change) (walk change) (Stands change t) where
  remaining stands := (EntryCursor.follows t).remaining stands.entries
  next := by
    intro m c stands within
    obtain ⟨taken, moved⟩ := (EntryCursor.follows t).next stands.entries within
    by_cases room : m.all < t.size
    · have less : m.front + m.back < t.size := room
      rw [Taken.got_of_room room] at taken ⊢
      rw [Taken.step_next room] at moved ⊢
      have fresh : ¬Passed t.size m m.front := by
        unfold Passed
        omega
      have grown : ∀ j, Passed t.size { m with front := m.front + 1 } j ↔
          Passed t.size m j ∨ j = m.front := by
        intro j
        show j < m.front + 1 ∨ t.size - m.back ≤ j ↔ (j < m.front ∨ t.size - m.back ≤ j) ∨ j = m.front
        omega
      obtain ⟨answer, rest, changed⟩ := edit_changes taken (by omega) stands.changed fresh grown
      exact ⟨answer, rest.symm ▸ moved, changed⟩
    · rw [Taken.got_of_ended room] at taken ⊢
      rw [Taken.step_of_ended room] at moved ⊢
      exact edit_ended stands taken moved
  nextBack := by
    intro m c stands within
    obtain ⟨taken, moved⟩ := (EntryCursor.follows t).nextBack stands.entries within
    by_cases room : m.all < t.size
    · have less : m.front + m.back < t.size := room
      rw [Taken.got_of_room room] at taken ⊢
      rw [Taken.step_nextBack room] at moved ⊢
      have fresh : ¬Passed t.size m (t.size - 1 - m.back) := by
        unfold Passed
        omega
      have grown : ∀ j, Passed t.size { m with back := m.back + 1 } j ↔
          Passed t.size m j ∨ j = t.size - 1 - m.back := by
        intro j
        show j < m.front ∨ t.size - (m.back + 1) ≤ j ↔
          (j < m.front ∨ t.size - m.back ≤ j) ∨ j = t.size - 1 - m.back
        omega
      obtain ⟨answer, rest, changed⟩ := edit_changes taken (by omega) stands.changed fresh grown
      exact ⟨answer, rest.symm ▸ moved, changed⟩
    · rw [Taken.got_of_ended room] at taken ⊢
      rw [Taken.step_of_ended room] at moved ⊢
      exact edit_ended stands taken moved

end Passed

end EditCursor

theorem Key.ofNat_eq_error_iff {i : Nat} {e : Fault} :
    (ofNat i : Except Fault (Key label last)) = .error e ↔ e = .indexTooWide ∧ last < i := by
  unfold ofNat
  split
  next room =>
    constructor
    · intro stopped
      cases stopped
    · rintro ⟨-, wide⟩
      exact absurd room (Nat.not_le_of_lt wide)
  next full =>
    rw [Except.error.injEq, eq_comm]
    exact (and_iff_left (Nat.lt_of_not_le full)).symm

namespace Table

variable (t : Table (Key label last) V) (change : Key label last → V → V)

theorem map_fst_entryAt {i : Nat} (inside : i < t.size) : (t.entryAt i).map Prod.fst = Key.ofNat i := by
  rw [entryAt_eq (List.getElem?_eq_getElem (t.length_values.symm ▸ inside))]
  cases (Key.ofNat i : Except Fault (Key label last)) <;> rfl

theorem map_fst_changedAt {i : Nat} (inside : i < t.size) :
    (t.changedAt change i).map Prod.fst = Key.ofNat i := by
  rw [← t.map_fst_entryAt inside]
  unfold changedAt
  cases t.entryAt i <;> rfl

theorem entryAt_stops {i : Nat} (inside : i < t.size) (e : Fault) :
    t.entryAt i = .error e ↔ e = .indexTooWide ∧ last < i := by
  rw [← except_map_error, t.map_fst_entryAt inside, Key.ofNat_eq_error_iff]

theorem changedAt_stops {i : Nat} (inside : i < t.size) (e : Fault) :
    t.changedAt change i = .error e ↔ e = .indexTooWide ∧ last < i :=
  except_map_error.trans (t.entryAt_stops inside e)

theorem entryCursor_stands : EntryCursor.Stands t.values {} t.entryCursor :=
  congrArg (EntryCursor.mk 0) (List.take_length (l := t.values)).symm

theorem editCursor_stands : EditCursor.Stands change t {} t.editCursor := by
  refine ⟨t.entryCursor_stands, fun k => ?_⟩
  have untouched : EditCursor.Passed t.size {} k.index → t.get? k = none := by
    intro passed
    rw [get?_eq_none_iff]
    exact passed.elim (fun less => absurd less (Nat.not_lt_zero _)) id
  show t.get? k = _
  split
  next passed =>
    rw [untouched passed]
    rfl
  next => rfl

/-- Whatever calls are made on them, and in whatever order, the walks over the keys, the entries and
the changed entries of a table give the same keys and sizes, end together and stop on the same calls.
The `f` things taken from the front are the first ones in order, the `b` taken from the back the last
ones in reverse order, and no slot is taken twice. -/
theorem cursors_cover (t : Table (Key label last) V) (change : Key label last → V → V)
    (calls : List EndCall) :
    ∃ f b,
      KeyCursor.walk.Covers t.keyCursor t.size last Key.ofNat calls f b ∧
      EntryCursor.walk.Covers t.entryCursor t.size last t.entryAt calls f b ∧
      (EditCursor.walk change).Covers t.editCursor t.size last (t.changedAt change) calls f b ∧
      (EntryCursor.walk.answers calls t.entryCursor).map (Except.map (EndAnswer.map Prod.fst)) =
        KeyCursor.walk.answers calls t.keyCursor ∧
      ((EditCursor.walk change).answers calls t.editCursor).map (Except.map (EndAnswer.map Prod.fst)) =
        KeyCursor.walk.answers calls t.keyCursor ∧
      (KeyCursor.walk.after calls t.keyCursor).front ≤ (KeyCursor.walk.after calls t.keyCursor).back ∧
      ∀ k, ((EditCursor.walk change).after calls t.editCursor).table.get? k =
        if k.index < f ∨ t.size - b ≤ k.index then (t.get? k).map (change k) else t.get? k := by
  have keys : KeyCursor.Stands t.size {} t.keyCursor := ⟨rfl, rfl⟩
  have entries := t.entryCursor_stands
  have edits := t.editCursor_stands change
  have keyWalk : Follows t.size Key.ofNat KeyCursor.walk
      (KeyCursor.Stands t.size : Taken → KeyCursor label last → Prop) := KeyCursor.follows t.size
  have entryWalk := EntryCursor.follows t
  have editWalk := EditCursor.follows change t
  refine ⟨_, _, keyWalk.covers keys (fun i _ e => Key.ofNat_eq_error_iff) calls,
    entryWalk.covers entries (fun i inside => t.entryAt_stops inside) calls,
    editWalk.covers edits (fun i inside => t.changedAt_stops change inside) calls,
    entryWalk.map_answers entries keyWalk keys (fun i => t.map_fst_entryAt) calls,
    editWalk.map_answers edits keyWalk keys (fun i => t.map_fst_changedAt change) calls, ?_,
    (editWalk.after edits calls).changed⟩
  have within : (Taken.after t.size calls).front + (Taken.after t.size calls).back ≤ t.size :=
    Taken.after_all_le t.size calls
  have here := keyWalk.after keys calls
  rw [here.front, here.back]
  omega

-- the last of three slots has no key, and the walk goes on behind it
example : KeyCursor.walk.answers [.nextBack, .next, .len, .next, .next]
      (Table.ofList ["a", "b", "c"] : Table (Key "Slot" 1) String).keyCursor =
    [.error .indexTooWide, .ok (.item (some ⟨0, by decide⟩)), .ok (.count 1),
      .ok (.item (some ⟨1, by decide⟩)), .ok (.item none)] := rfl

end Table

end Superstep
