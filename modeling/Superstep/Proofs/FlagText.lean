import Mathlib.Data.FinEnum
import Mathlib.Data.List.TakeWhile
import Superstep.CommFlags.Text

namespace Superstep

/-- Where every element is read back, so is the whole list. -/
theorem mapM_map_some {α β γ : Type} {write : α → β} {read : β → Option γ} {value : α → γ} {as : List α}
    (h : ∀ a ∈ as, read (write a) = some (value a)) :
    (as.map write).mapM read = some (as.map value) := by
  induction as with
  | nil => rfl
  | cons a as ih =>
    have rest := ih fun b hb => h b (by simp [hb])
    rw [List.map_cons, List.mapM_cons, h a (by simp), rest]
    rfl

section Blanks

variable {cs : List Char} {c : Char}

theorem trimBlanks_cons (h : isBlank c = true) : trimBlanks (c :: cs) = trimBlanks cs := by
  simp [trimBlanks, h]

theorem trimBlanks_of_solid (h : ∀ x ∈ cs, isBlank x = false) : trimBlanks cs = cs := by
  have same : ∀ xs : List Char, (∀ x ∈ xs, isBlank x = false) → xs.dropWhile isBlank = xs := by
    intro xs hx
    cases xs with
    | nil => rfl
    | cons x xs => simp [hx x (by simp)]
  rw [trimBlanks, same cs h, same cs.reverse (by simpa using h), List.reverse_reverse]

theorem trimBlanks_append (h : ∀ x ∈ cs, isBlank x = false) (hc : isBlank c = true) :
    trimBlanks (cs ++ [c]) = cs := by
  cases cs with
  | nil => simp [trimBlanks, hc]
  | cons x xs =>
    have front : (x :: xs ++ [c]).dropWhile isBlank = x :: xs ++ [c] := by simp [h x (by simp)]
    have back := trimBlanks_of_solid h
    simp only [trimBlanks, List.cons_append] at front back ⊢
    rw [front]
    simpa [hc, h x (by simp)] using back

theorem trimBlanks_ne_nil (h : isBlank c = false) : trimBlanks (c :: cs) ≠ [] := by
  intro empty
  simp only [trimBlanks, List.dropWhile_cons, h, Bool.false_eq_true, if_false,
    List.reverse_eq_nil_iff, List.dropWhile_eq_nil_iff, List.mem_reverse] at empty
  cases h.symm.trans (empty c (by simp))

end Blanks

namespace CommFlags

/-- The characters of a part: no blank and no bar is among them. -/
def Solid (cs : List Char) : Prop := ∀ c ∈ cs, isBlank c = false ∧ c ≠ '|'

theorem solid_iff_all {cs : List Char} :
    Solid cs ↔ cs.all (fun c => !isBlank c && c != '|') = true := by
  simp [Solid]

theorem splitBars_of_solid {cs : List Char} (h : Solid cs) : splitBars cs = [cs] := by
  induction cs with
  | nil => rfl
  | cons c cs ih =>
    have rest := ih fun x hx => h x (by simp [hx])
    simp [splitBars, (h c (by simp)).2, rest]

theorem splitBars_append {cs rest : List Char} (h : Solid cs) :
    splitBars (cs ++ ' ' :: '|' :: rest) = (cs ++ [' ']) :: splitBars rest := by
  induction cs with
  | nil => simp [splitBars]
  | cons c cs ih =>
    have later := ih fun x hx => h x (by simp [hx])
    simp [splitBars, (h c (by simp)).2, later]

theorem splitBars_ne_nil (cs : List Char) : splitBars cs ≠ [] := by
  cases cs with
  | nil => simp [splitBars]
  | cons c cs =>
    unfold splitBars
    split
    · simp
    · split <;> simp

theorem map_trimBlanks_splitBars_cons (cs : List Char) :
    (splitBars (' ' :: cs)).map trimBlanks = (splitBars cs).map trimBlanks := by
  cases h : splitBars cs with
  | nil => exact absurd h (splitBars_ne_nil cs)
  | cons first others => simp [splitBars, h, trimBlanks_cons (show isBlank ' ' = true by decide)]

/-- Parts that are joined with bars between blanks are found again. -/
theorem map_trimBlanks_splitBars_intercalate {parts : List (List Char)} (ne : parts ≠ [])
    (h : ∀ part ∈ parts, Solid part) :
    (splitBars ([' ', '|', ' '].intercalate parts)).map trimBlanks = parts := by
  induction parts with
  | nil => exact absurd rfl ne
  | cons part parts ih =>
    have solid := h part (by simp)
    have blanks : ∀ c ∈ part, isBlank c = false := fun c hc => (solid c hc).1
    cases parts with
    | nil => simp [splitBars_of_solid solid, trimBlanks_of_solid blanks]
    | cons next parts =>
      have rest := ih (by simp) fun p hp => h p (by simp [hp])
      have first : trimBlanks (part ++ [' ']) = part := trimBlanks_append blanks (by decide)
      rw [List.intercalate_cons_cons]
      simp only [List.append_assoc, List.cons_append, List.nil_append]
      rw [splitBars_append solid, List.map_cons, map_trimBlanks_splitBars_cons, rest, first]

theorem hexDigit?_digitChar {d : Nat} (h : d < 16) : hexDigit? d.digitChar = some d := by
  decide +revert

theorem digitChar_solid {d : Nat} (h : d < 16) :
    isBlank d.digitChar = false ∧ d.digitChar ≠ '|' ∧ d.digitChar ≠ '+' := by
  decide +revert

/-- A byte is written with one digit or two. -/
theorem toDigits_byte {n : Nat} (h : n < 256) :
    Nat.toDigits 16 n = [n.digitChar] ∧ n < 16 ∨
      Nat.toDigits 16 n = [(n / 16).digitChar, (n % 16).digitChar] ∧ n / 16 < 16 := by
  by_cases small : n < 16
  · exact Or.inl ⟨Nat.toDigits_of_lt_base small, small⟩
  · have high : n / 16 < 16 := by omega
    refine Or.inr ⟨?_, high⟩
    rw [Nat.toDigits_of_base_le (by omega) (by omega), Nat.toDigits_of_lt_base high]
    rfl

theorem hexByte?_toDigits {n : Nat} (h : n < 256) :
    hexByte? (Nat.toDigits 16 n) = some n.toUInt8 := by
  rcases toDigits_byte h with ⟨digits, small⟩ | ⟨digits, high⟩
  · rw [digits]
    simp [hexByte?, hexDigit?_digitChar small, h]
  · have low : n % 16 < 16 := Nat.mod_lt _ (by omega)
    have sum : 16 * (n / 16) + n % 16 = n := Nat.div_add_mod n 16
    have first : n / 16 < 256 := by omega
    rw [digits]
    simp [hexByte?, hexDigit?_digitChar high, hexDigit?_digitChar low, sum, h, first]

/-- The parts of the written form, each with the bits that it stands for. -/
def written (f : CommFlags) : List (String × CommFlags) :=
  (named.filter fun flag => f.contains flag.2) ++
    if f.unnamed = 0 then []
    else [("0x" ++ String.ofList (Nat.toDigits 16 f.unnamed.toNat), ⟨f.unnamed⟩)]

theorem parts_eq_written (f : CommFlags) : f.parts = f.written.map Prod.fst := by
  unfold parts written
  split <;> simp

/-- Every bit is in one of the parts, and no part has another bit. -/
theorem foldl_union_written (f : CommFlags) : (f.written.map Prod.snd).foldl union {} = f := by
  obtain ⟨bits⟩ := f
  revert bits
  decide +kernel

/-- A part that is not empty and has neither blanks nor bars, and that is read as some bits. -/
structure Readable (part : List Char) (flags : CommFlags) : Prop where
  solid : Solid part
  ne_nil : part ≠ []
  read : ofPart? part = some flags

theorem named_readable : ∀ flag ∈ named, Readable flag.1.toList flag.2 := by
  intro flag hflag
  simp only [named, List.mem_cons, List.not_mem_nil, or_false] at hflag
  rcases hflag with rfl | rfl
  · exact ⟨solid_iff_all.mpr (by decide), by decide, by decide⟩
  · exact ⟨solid_iff_all.mpr (by decide), by decide, by decide⟩

theorem hex_readable {n : Nat} (h : n < 256) :
    Readable ("0x" ++ String.ofList (Nat.toDigits 16 n)).toList ⟨n.toUInt8⟩ := by
  have chars : ("0x" ++ String.ofList (Nat.toDigits 16 n)).toList = '0' :: 'x' :: Nat.toDigits 16 n := by
    simp
  rw [chars]
  have digits : ∀ c ∈ Nat.toDigits 16 n, ∃ d < 16, c = d.digitChar := by
    rcases toDigits_byte h with ⟨digits, small⟩ | ⟨digits, high⟩
    · rw [digits]
      simpa using ⟨n, small, rfl⟩
    · rw [digits]
      have low : n % 16 < 16 := Nat.mod_lt _ (by omega)
      simpa using ⟨⟨n / 16, high, rfl⟩, n % 16, low, rfl⟩
  refine ⟨?_, by simp, ?_⟩
  · intro c hc
    simp only [List.mem_cons] at hc
    rcases hc with rfl | rfl | hc
    · decide
    · decide
    · obtain ⟨d, hd, rfl⟩ := digits c hc
      exact ⟨(digitChar_solid hd).1, (digitChar_solid hd).2.1⟩
  · have byte := hexByte?_toDigits h
    cases hn : Nat.toDigits 16 n with
    | nil => exact absurd hn Nat.toDigits_ne_nil
    | cons c rest =>
      obtain ⟨d, hd, rfl⟩ := digits c (by simp [hn])
      rw [hn] at byte
      -- A digit is no plus sign, so the reader takes all of them.
      have noSign := (digitChar_solid hd).2.2
      unfold ofPart?
      split
      next same => exact absurd (List.cons.inj (List.cons.inj (List.cons.inj same).2).2).1 noSign
      next same =>
        cases (List.cons.inj (List.cons.inj same).2).2
        rw [byte]
        rfl
      next other => exact absurd rfl (other _)

theorem written_readable (f : CommFlags) : ∀ part ∈ f.written, Readable part.1.toList part.2 := by
  intro part hpart
  rcases List.mem_append.mp hpart with hpart | hpart
  · exact named_readable part (List.mem_filter.mp hpart).1
  · split at hpart
    · cases hpart
    · cases List.mem_singleton.mp hpart
      have readable := hex_readable f.unnamed.toNat_lt
      simpa using readable

theorem toList_text (f : CommFlags) :
    f.text.toList = [' ', '|', ' '].intercalate (f.written.map fun part => part.1.toList) := by
  rw [text, String.toList_intercalate, parts_eq_written, List.map_map]
  rfl

/-- Flags are read back from their written form, also those that have no name. -/
theorem ofText?_text (f : CommFlags) : ofText? f.text = some f := by
  have readable := f.written_readable
  have union := f.foldl_union_written
  unfold ofText?
  rw [toList_text]
  cases hw : f.written with
  | nil =>
    rw [hw] at union
    simpa [trimBlanks] using union
  | cons part parts =>
    rw [hw] at readable union
    have solid : ∀ p ∈ (part :: parts).map fun part => part.1.toList, Solid p := by
      intro p hp
      obtain ⟨q, hq, rfl⟩ := List.mem_map.mp hp
      exact (readable q hq).solid
    have found := map_trimBlanks_splitBars_intercalate (by simp) solid
    have first := readable part (by simp)
    obtain ⟨c, rest, hpart⟩ := List.exists_cons_of_ne_nil first.ne_nil
    have present : trimBlanks ([' ', '|', ' '].intercalate
        ((part :: parts).map fun part => part.1.toList)) ≠ [] := by
      have hc := (first.solid c (by simp [hpart])).1
      cases parts <;> simp [hpart, trimBlanks_ne_nil hc]
    have read : (splitBars ([' ', '|', ' '].intercalate
        ((part :: parts).map fun part => part.1.toList))).mapM (fun part => ofPart? (trimBlanks part)) =
        some ((part :: parts).map Prod.snd) := by
      have trimmed : ((splitBars _).map trimBlanks).mapM ofPart? = _ :=
        found ▸ mapM_map_some fun p hp => (readable p hp).read
      rwa [List.mapM_map] at trimmed
    rw [if_neg (by simpa using present), read]
    exact congrArg some union

end CommFlags

end Superstep
