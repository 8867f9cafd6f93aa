import Superstep.Registry

namespace Superstep

variable {α β : Type} [DecidableEq α] [DecidableEq β] {xs ys zs : List α} {x y : α}

theorem filter_ne_of_not_mem (fresh : x ∉ xs) : xs.filter (fun y => !y == x) = xs := by
  rw [List.filter_eq_self]
  intro y hy
  simpa using fun he : y = x => fresh (he ▸ hy)

theorem eraseDups_of_nodup (h : xs.Nodup) : xs.eraseDups = xs := by
  induction xs with
  | nil => rfl
  | cons x xs ih =>
    obtain ⟨hx, hn⟩ := List.nodup_cons.mp h
    rw [List.eraseDups_cons, filter_ne_of_not_mem hx, ih hn]

/-- A value that is repeated in front of others counts once. -/
theorem eraseDups_sublist_cons (repeated : ∀ y ∈ xs, y = x) (fresh : x ∉ ys)
    (h : ys.eraseDups.Sublist zs) : (xs ++ ys).eraseDups.Sublist (x :: zs) := by
  cases xs with
  | nil => exact h.cons x
  | cons y xs =>
    obtain ⟨rfl, hxs⟩ := List.forall_mem_cons.mp repeated
    have hnone : xs.filter (fun z => !z == y) = [] := by simpa using hxs
    rw [List.cons_append, List.eraseDups_cons, List.filter_append, hnone, List.nil_append,
      filter_ne_of_not_mem fresh]
    exact h.cons_cons y

theorem appendNew_of_mem (h : x ∈ xs) : appendNew xs x = xs := if_pos h

theorem appendNew_of_not_mem (h : x ∉ xs) : appendNew xs x = xs ++ [x] := if_neg h

theorem mem_appendNew : y ∈ appendNew xs x ↔ y ∈ xs ∨ y = x := by
  by_cases hx : x ∈ xs
  · rw [appendNew_of_mem hx, or_iff_left_of_imp fun he : y = x => he ▸ hx]
  · rw [appendNew_of_not_mem hx, List.mem_append, List.mem_singleton]

theorem nodup_appendNew (h : xs.Nodup) (x : α) : (appendNew xs x).Nodup := by
  by_cases hx : x ∈ xs
  · rwa [appendNew_of_mem hx]
  · rw [appendNew_of_not_mem hx]
    refine List.nodup_append.mpr ⟨h, by simp, ?_⟩
    intro y hy z hz he
    cases List.mem_singleton.mp hz
    exact hx (he ▸ hy)

theorem mem_foldl_appendNew : y ∈ ys.foldl appendNew xs ↔ y ∈ xs ∨ y ∈ ys := by
  induction ys generalizing xs with
  | nil => simp
  | cons x ys ih => rw [List.foldl_cons, ih, mem_appendNew, List.mem_cons, or_assoc]

theorem foldl_appendNew_ne_nil (h : ys ≠ []) : ys.foldl appendNew xs ≠ [] := by
  obtain ⟨y, hy⟩ := List.exists_mem_of_ne_nil ys h
  exact List.ne_nil_of_mem (mem_foldl_appendNew.mpr (Or.inr hy))

theorem nodup_foldl_appendNew (h : xs.Nodup) (ys : List α) : (ys.foldl appendNew xs).Nodup := by
  induction ys generalizing xs with
  | nil => exact h
  | cons x ys ih => exact ih (nodup_appendNew h x)

theorem foldl_appendNew_of_mem (h : ∀ y ∈ ys, y ∈ xs) : ys.foldl appendNew xs = xs := by
  induction ys with
  | nil => rfl
  | cons y ys ih =>
    rw [List.foldl_cons, appendNew_of_mem (h y (by simp))]
    exact ih fun z hz => h z (List.mem_cons_of_mem y hz)

/-- Adding values one by one leaves what was there and adds the first of each that is new. -/
theorem foldl_appendNew_eq (xs ys : List α) :
    ys.foldl appendNew xs = xs ++ (ys.filter (· ∉ xs)).eraseDups := by
  induction ys generalizing xs with
  | nil => simp
  | cons y ys ih =>
    rw [List.foldl_cons, ih]
    by_cases hy : y ∈ xs
    · rw [appendNew_of_mem hy, List.filter_cons_of_neg (by simpa using hy)]
    · have hkept : ys.filter (· ∉ xs ++ [y]) = (ys.filter (· ∉ xs)).filter (fun z => !z == y) := by
        rw [List.filter_filter]
        congr 1
        funext z
        rw [Bool.eq_iff_iff]
        simp [and_comm]
      rw [appendNew_of_not_mem hy, List.filter_cons_of_pos (by simpa using hy),
        List.eraseDups_cons, ← hkept, List.append_assoc, List.singleton_append]

theorem foldl_appendNew (h : xs.Nodup) (ys : List α) :
    ys.foldl appendNew xs = (xs ++ ys).eraseDups := by
  rw [foldl_appendNew_eq, List.eraseDups_append, eraseDups_of_nodup h]
  simp [List.removeAll]

theorem nodup_eraseDups (xs : List α) : xs.eraseDups.Nodup := by
  rw [← List.nil_append xs, ← foldl_appendNew List.nodup_nil]
  exact nodup_foldl_appendNew List.nodup_nil xs

/-- Pairs that share their first part are told apart by the second. -/
theorem apart_of_fst {γ : Type} {a : α} (x y : α × γ) (hx : decide (x.1 = a) = true)
    (hy : decide (y.1 = a) = true) (same : x.2 = y.2) : x = y :=
  Prod.ext ((of_decide_eq_true hx).trans (of_decide_eq_true hy).symm) same

/-- Picking out values commutes with adding them one by one, if what is picked tells them apart. -/
theorem picked_foldl_appendNew {p : α → Bool} {g : α → β}
    (apart : ∀ x y, p x = true → p y = true → g x = g y → x = y) (xs ys : List α) :
    ((ys.foldl appendNew xs).filter p).map g =
      ((ys.filter p).map g).foldl appendNew ((xs.filter p).map g) := by
  induction ys generalizing xs with
  | nil => rfl
  | cons y ys ih =>
    rw [List.foldl_cons, ih]
    by_cases hy : p y = true
    · rw [List.filter_cons_of_pos hy, List.map_cons, List.foldl_cons]
      congr 1
      by_cases hm : y ∈ xs
      · have hpicked : g y ∈ (xs.filter p).map g :=
          List.mem_map_of_mem (List.mem_filter.mpr ⟨hm, hy⟩)
        rw [appendNew_of_mem hm, appendNew_of_mem hpicked]
      · have hfresh : g y ∉ (xs.filter p).map g := by
          intro hpicked
          obtain ⟨x, hx, he⟩ := List.mem_map.mp hpicked
          obtain ⟨hx, hp⟩ := List.mem_filter.mp hx
          exact hm (apart x y hp hy he ▸ hx)
        rw [appendNew_of_not_mem hm, appendNew_of_not_mem hfresh]
        simp [hy]
    · rw [List.filter_cons_of_neg hy]
      congr 1
      by_cases hm : y ∈ xs
      · rw [appendNew_of_mem hm]
      · rw [appendNew_of_not_mem hm]
        simp [hy]

end Superstep
