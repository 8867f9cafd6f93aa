import Superstep.StringPool
import Superstep.Proofs.Enrolled
import Superstep.Proofs.RoundTrip

namespace Superstep

theorem Key.wrap_inj_of_le {label : String} {last m n : Nat} (hm : m ≤ last) (hn : n ≤ last) :
    (wrap m : Key label last) = wrap n ↔ m = n := by
  rw [Key.ext_iff, index_wrap_of_le hm, index_wrap_of_le hn]

instance : LawfulJsonForm String := ⟨fun _ => rfl⟩

namespace StringPool

/-- What changes a pool: a string is stored, or a list of strings is read in its place. -/
inductive Change where
  | insert (s : String)
  | load (strings : List String)

def Change.apply (pool : StringPool) : Change → StringPool
  | .insert s => (pool.insert s).2
  | .load strings => ofList strings

/-- The pool that a history of changes leaves. -/
def reached (changes : List Change) : StringPool := changes.foldl Change.apply {}

/-- Stores strings one after the other and answers their handles. -/
def insertAll (pool : StringPool) : List String → List Str × StringPool
  | [] => ([], pool)
  | s :: rest =>
    let later := (pool.insert s).2.insertAll rest
    ((pool.insert s).1 :: later.1, later.2)

/-- The handle that the place of a string stands for. -/
def handleOf (pool : StringPool) (s : String) : Str := Key.wrap (pool.toList.idxOf s)

variable {pool : StringPool}

theorem get?_eq_toList (pool : StringPool) (handle : Str) :
    pool.get? handle = pool.toList[handle.index]? := by
  unfold get? toList
  rw [Array.getElem?_toList]

theorem size_eq_length (pool : StringPool) : pool.size = pool.toList.length :=
  Array.length_toList.symm

/-- The vector and the reverse map belong together: no string is stored twice, and the map has the
handle of each string that is stored, and no other. -/
structure Indexed (pool : StringPool) : Prop where
  distinct : pool.toList.Nodup
  known : ∀ s ∈ pool.toList, pool.refs.get? s = some (pool.handleOf s)
  unknown : ∀ s, s ∉ pool.toList → pool.refs.get? s = none

namespace Indexed

theorem empty : ({} : StringPool).Indexed := ⟨List.nodup_nil, by simp [toList], fun _ _ => rfl⟩

theorem insert_of_mem (h : pool.Indexed) {s : String} (hs : s ∈ pool.toList) :
    pool.insert s = (pool.handleOf s, pool) := by
  unfold StringPool.insert
  rw [h.known s hs]

theorem insert_of_not_mem (h : pool.Indexed) {s : String} (hs : s ∉ pool.toList) :
    pool.insert s = (Key.wrap pool.size,
      ⟨pool.strings.push s, pool.refs.insert s (Key.wrap pool.size)⟩) := by
  unfold StringPool.insert
  rw [h.unknown s hs]

theorem toList_insert (h : pool.Indexed) (s : String) :
    (pool.insert s).2.toList = appendNew pool.toList s := by
  by_cases hs : s ∈ pool.toList
  · rw [h.insert_of_mem hs, appendNew_of_mem hs]
  · rw [h.insert_of_not_mem hs, appendNew_of_not_mem hs]
    exact Array.toList_push

theorem mem_insert (h : pool.Indexed) (s : String) : s ∈ (pool.insert s).2.toList := by
  rw [h.toList_insert]
  exact mem_appendNew.mpr (Or.inr rfl)

theorem handle_insert (h : pool.Indexed) (s : String) :
    (pool.insert s).1 = (pool.insert s).2.handleOf s := by
  by_cases hs : s ∈ pool.toList
  · rw [h.insert_of_mem hs]
  · unfold handleOf
    rw [h.toList_insert, appendNew_of_not_mem hs, List.idxOf_append_of_notMem hs, List.idxOf_cons_self,
      h.insert_of_not_mem hs, size_eq_length, Nat.add_zero]

/-- A new string gets the handle for its place in both, and no other string changes its place. -/
theorem insert (h : pool.Indexed) (s : String) : (pool.insert s).2.Indexed := by
  by_cases hs : s ∈ pool.toList
  · rw [h.insert_of_mem hs]
    exact h
  · have handle := h.handle_insert s
    have grown := h.toList_insert s
    have refs : ∀ t, (pool.insert s).2.refs.get? t =
        if t = s then some (pool.insert s).1 else pool.refs.get? t := by
      rw [h.insert_of_not_mem hs]
      exact fun t => Dict.get?_insert ..
    refine ⟨?_, fun t ht => ?_, fun t ht => ?_⟩
    · rw [grown]
      exact nodup_appendNew h.distinct s
    · rw [refs]
      by_cases same : t = s
      · rw [if_pos same, same, handle]
      · rw [grown, mem_appendNew] at ht
        have old := ht.resolve_right same
        rw [if_neg same, h.known t old]
        unfold handleOf
        rw [grown, appendNew_of_not_mem hs, List.idxOf_append_of_mem old]
    · rw [grown, mem_appendNew, not_or] at ht
      rw [refs, if_neg ht.2, h.unknown t ht.1]

end Indexed

section Batch

variable (h : pool.Indexed)

include h

theorem toList_insertAll (batch : List String) :
    (pool.insertAll batch).2.toList = batch.foldl appendNew pool.toList := by
  induction batch generalizing pool with
  | nil => rfl
  | cons s rest ih =>
    have step := ih (h.insert s)
    rwa [h.toList_insert] at step

/-- What is stored stays where it is, and the rest comes behind it. -/
theorem toList_insertAll_append (batch : List String) :
    ∃ more, (pool.insertAll batch).2.toList = pool.toList ++ more :=
  ⟨_, (toList_insertAll h batch).trans (foldl_appendNew_eq ..)⟩

theorem handleOf_insertAll {s : String} (hs : s ∈ pool.toList) (batch : List String) :
    (pool.insertAll batch).2.handleOf s = pool.handleOf s := by
  obtain ⟨more, grown⟩ := toList_insertAll_append h batch
  unfold handleOf
  rw [grown, List.idxOf_append_of_mem hs]

/-- Every handle of a batch can be read off the pool that the batch leaves. -/
theorem handles_insertAll (batch : List String) :
    (pool.insertAll batch).1 = batch.map (pool.insertAll batch).2.handleOf := by
  induction batch generalizing pool with
  | nil => rfl
  | cons s rest ih =>
    -- the string is there before the rest is stored, so that its place does not change
    have first : (pool.insert s).1 = ((pool.insert s).2.insertAll rest).2.handleOf s := by
      rw [handleOf_insertAll (h.insert s) (h.mem_insert s), h.handle_insert]
    exact congrArg₂ List.cons first (ih (h.insert s))

theorem get?_insertAll {handle : Str} {s : String} (hs : pool.get? handle = some s)
    (batch : List String) : (pool.insertAll batch).2.get? handle = some s := by
  obtain ⟨more, grown⟩ := toList_insertAll_append h batch
  rw [get?_eq_toList] at hs ⊢
  obtain ⟨hlt, -⟩ := List.getElem?_eq_some_iff.mp hs
  rw [grown, List.getElem?_append_left hlt, hs]

theorem mem_insertAll {s : String} {batch : List String} (hs : s ∈ batch) :
    s ∈ (pool.insertAll batch).2.toList := by
  rw [toList_insertAll h]
  exact mem_foldl_appendNew.mpr (Or.inr hs)

/-- Two pools with the same strings answer alike. -/
theorem Indexed.alike {other : StringPool} (h' : other.Indexed) (same : other.toList = pool.toList) :
    (∀ handle, other.get? handle = pool.get? handle) ∧ (∀ s, other.refs.get? s = pool.refs.get? s) ∧
      ∀ batch, (other.insertAll batch).1 = (pool.insertAll batch).1 := by
  refine ⟨fun handle => ?_, fun s => ?_, fun batch => ?_⟩
  · rw [get?_eq_toList, get?_eq_toList, same]
  · by_cases hs : s ∈ pool.toList
    · rw [h.known s hs, h'.known s (same ▸ hs), handleOf, handleOf, same]
    · rw [h.unknown s hs, h'.unknown s (same ▸ hs)]
  · rw [handles_insertAll h, handles_insertAll h']
    unfold handleOf
    rw [toList_insertAll h, toList_insertAll h', same]

end Batch

section Handles

variable (room : pool.size ≤ 0x100000000)

include room

theorem idxOf_le_last {s : String} (h : s ∈ pool.toList) : pool.toList.idxOf s ≤ 0xFFFFFFFF := by
  have hlt : pool.toList.idxOf s < pool.toList.length := List.idxOf_lt_length_iff.mpr h
  rw [size_eq_length] at room
  omega

theorem get?_handleOf {s : String} (h : s ∈ pool.toList) : pool.get? (pool.handleOf s) = some s := by
  have place : (pool.handleOf s).index = pool.toList.idxOf s :=
    Key.index_wrap_of_le (idxOf_le_last room h)
  rw [get?_eq_toList, place]
  exact List.getElem?_idxOf h

theorem handleOf_inj {s t : String} (hs : s ∈ pool.toList) (ht : t ∈ pool.toList) :
    pool.handleOf s = pool.handleOf t ↔ s = t := by
  unfold handleOf
  rw [Key.wrap_inj_of_le (idxOf_le_last room hs) (idxOf_le_last room ht)]
  exact List.idxOf_inj hs

end Handles

/-- As long as there are no more strings than handles, the map is the inverse of the vector. -/
theorem Indexed.refs_inverse (h : pool.Indexed) (room : pool.size ≤ 0x100000000) (s : String)
    (handle : Str) : pool.refs.get? s = some handle ↔ pool.get? handle = some s := by
  constructor
  · intro found
    have hs : s ∈ pool.toList := by
      refine Decidable.by_contra fun missing => ?_
      cases (h.unknown s missing).symm.trans found
    cases (h.known s hs).symm.trans found
    exact get?_handleOf room hs
  · intro found
    rw [get?_eq_toList] at found
    obtain ⟨hlt, place⟩ := List.getElem?_eq_some_iff.mp found
    have hs : s ∈ pool.toList := place ▸ List.getElem_mem hlt
    have index : pool.toList.idxOf s = handle.index := place ▸ h.distinct.idxOf_getElem _ hlt
    rw [h.known s hs, Option.some.injEq, Key.ext_iff, ← index]
    exact Key.index_wrap_of_le (idxOf_le_last room hs)

section Reload

theorem indexed_ofList (strings : List String) : (ofList strings).Indexed := by
  have kept : ∀ pool : StringPool, pool.Indexed →
      (strings.foldl (fun pool s => (pool.insert s).2) pool).Indexed := by
    induction strings with
    | nil => exact fun _ h => h
    | cons s rest ih => exact fun _ h => ih _ (h.insert s)
  exact kept {} .empty

theorem insertAll_eq_foldl (pool : StringPool) (strings : List String) :
    (pool.insertAll strings).2 = strings.foldl (fun pool s => (pool.insert s).2) pool := by
  induction strings generalizing pool with
  | nil => rfl
  | cons s rest ih => exact ih (pool.insert s).2

theorem toList_ofList (strings : List String) : (ofList strings).toList = strings.eraseDups :=
  calc (ofList strings).toList
    _ = (({} : StringPool).insertAll strings).2.toList :=
      congrArg toList (insertAll_eq_foldl {} strings).symm
    _ = strings.foldl appendNew [] := toList_insertAll .empty strings
    _ = strings.eraseDups := foldl_appendNew List.nodup_nil strings

end Reload

theorem Change.apply_indexed (h : pool.Indexed) (change : Change) : (change.apply pool).Indexed := by
  cases change with
  | insert s => exact h.insert s
  | load strings => exact indexed_ofList strings

theorem reached_indexed (changes : List Change) : (reached changes).Indexed := by
  have kept : ∀ pool : StringPool, pool.Indexed → (changes.foldl Change.apply pool).Indexed := by
    induction changes with
    | nil => exact fun _ h => h
    | cons change rest ih => exact fun _ h => ih _ (Change.apply_indexed h change)
  exact kept {} .empty

/-- The pool that is read back from the JSON form of the stored strings. -/
def reloaded? (pool : StringPool) : Option StringPool := (ofJson? (toJson pool.toList)).map ofList

/-- What a pool promises about a batch of strings that are stored next, in order and with
repetitions. -/
structure Interns (pool : StringPool) (batch : List String) : Prop where
  distinct : pool.toList.Nodup
  inverse : ∀ s handle, pool.refs.get? s = some handle ↔ pool.get? handle = some s
  known : ∀ s ∈ pool.toList, (pool.insert s).2 = pool
  stable : ∀ handle s, pool.get? handle = some s → (pool.insertAll batch).2.get? handle = some s
  answered : (pool.insertAll batch).1.length = batch.length
  resolved : ∀ x ∈ batch.zip (pool.insertAll batch).1, (pool.insertAll batch).2.get? x.2 = some x.1
  injective : ∀ x ∈ batch.zip (pool.insertAll batch).1, ∀ y ∈ batch.zip (pool.insertAll batch).1,
    x.2 = y.2 ↔ x.1 = y.1

theorem Indexed.interns {batch : List String} (h : pool.Indexed)
    (room : (pool.insertAll batch).2.size ≤ 0x100000000) : pool.Interns batch := by
  have pairs : ∀ x ∈ batch.zip (pool.insertAll batch).1,
      x.1 ∈ (pool.insertAll batch).2.toList ∧ x.2 = (pool.insertAll batch).2.handleOf x.1 := by
    intro x hx
    rw [handles_insertAll h, ← List.map_prod_left_eq_zip] at hx
    obtain ⟨s, hs, rfl⟩ := List.mem_map.mp hx
    exact ⟨mem_insertAll h hs, rfl⟩
  have before : pool.size ≤ 0x100000000 := by
    obtain ⟨more, grown⟩ := toList_insertAll_append h batch
    rw [size_eq_length, grown, List.length_append, ← size_eq_length] at room
    omega
  refine ⟨h.distinct, h.refs_inverse before, fun s hs => ?_, fun handle s hs => get?_insertAll h hs batch,
    ?_, ?_, ?_⟩
  · rw [h.insert_of_mem hs]
  · rw [handles_insertAll h, List.length_map]
  · intro x hx
    obtain ⟨stored, handle⟩ := pairs x hx
    rw [handle]
    exact get?_handleOf room stored
  · intro x hx y hy
    obtain ⟨xStored, xHandle⟩ := pairs x hx
    obtain ⟨yStored, yHandle⟩ := pairs y hy
    rw [xHandle, yHandle]
    exact handleOf_inj room xStored yStored

/-- Whatever has been done to a pool, it holds each string once, a handle stands for one string for
good, and the reverse map is the inverse of the stored strings. The pool that is read back from the
stored strings has a map that answers alike, resolves the same handles and gives out the same ones. -/
theorem reached_interns (changes : List Change) (batch : List String)
    (room : ((reached changes).insertAll batch).2.size ≤ 0x100000000) :
    (reached changes).Interns batch ∧
      (∃ again, (reached changes).reloaded? = some again ∧
        (∀ handle, again.get? handle = (reached changes).get? handle) ∧
        (∀ s, again.refs.get? s = (reached changes).refs.get? s) ∧
        ∀ next, (again.insertAll next).1 = ((reached changes).insertAll next).1) ∧
      ∀ strings : List String, ∃ loaded, (ofJson? (toJson strings)).map ofList = some loaded ∧
        toJson loaded.toList = toJson strings.eraseDups := by
  have indexed := reached_indexed changes
  have again : (reached changes).reloaded? = some (ofList (reached changes).toList) := by
    unfold reloaded?
    rw [read_written, Option.map_some]
  have same : (ofList (reached changes).toList).toList = (reached changes).toList := by
    rw [toList_ofList, eraseDups_of_nodup indexed.distinct]
  refine ⟨indexed.interns room, ⟨_, again, indexed.alike (indexed_ofList _) same⟩, fun strings => ?_⟩
  refine ⟨ofList strings, ?_, ?_⟩
  · rw [read_written, Option.map_some]
  · rw [toList_ofList]

/-- A string is stored twice, the strings are replaced, and of the batch one is new. -/
theorem reached_interns_of_reload :
    (reached [.insert "nbr", .insert "nbr", .load ["val", "nbr", "val"], .insert ""]).toList =
        ["val", "nbr", ""] ∧
      (reached [.insert "nbr", .insert "nbr", .load ["val", "nbr", "val"], .insert ""]).Interns
        ["nbr", "msg", "nbr"] :=
  ⟨by decide +kernel, (reached_interns _ _ (by decide +kernel)).1⟩

end StringPool

end Superstep
