import Mathlib.Data.List.Basic
import Superstep.Listing

namespace Superstep

section Cuts

variable {α : Type} {c : α} {xs ys r s : List α}

/-- Two lists that begin with a stretch of one sort of element begin with the same stretch. -/
theorem append_inj_of_stretch {P : α → Prop} (hx : ∀ x ∈ xs, P x) (hy : ∀ y ∈ ys, P y)
    (hr : ∀ x ∈ r.head?, ¬P x) (hs : ∀ y ∈ s.head?, ¬P y) (same : xs ++ r = ys ++ s) :
    xs = ys ∧ r = s := by
  induction xs generalizing ys with
  | nil =>
    cases ys with
    | nil => exact ⟨rfl, same⟩
    | cons y ys =>
      have first : r.head? = some y := congrArg List.head? same
      exact absurd (hy y (by simp)) (hr y first)
  | cons x xs ih =>
    cases ys with
    | nil =>
      have first : s.head? = some x := congrArg List.head? same.symm
      exact absurd (hx x (by simp)) (hs x first)
    | cons y ys =>
      obtain ⟨rfl, later⟩ := List.cons.inj same
      obtain ⟨rfl, rest⟩ :=
        ih (fun x h => hx x (by simp [h])) (fun y h => hy y (by simp [h])) later
      exact ⟨rfl, rest⟩

theorem cut_first (hx : c ∉ xs) (hy : c ∉ ys) (same : xs ++ c :: r = ys ++ c :: s) :
    xs = ys ∧ r = s := by
  have stretch : xs = ys ∧ c :: r = c :: s := by
    apply append_inj_of_stretch (P := (· ≠ c)) _ _ _ _ same
    · exact fun x h same => hx (same ▸ h)
    · exact fun y h same => hy (same ▸ h)
    · simp
    · simp
  exact ⟨stretch.1, (List.cons.inj stretch.2).2⟩

theorem cut_last (hr : c ∉ r) (hs : c ∉ s) (same : xs ++ c :: r = ys ++ c :: s) :
    xs = ys ∧ r = s := by
  have backwards : r.reverse ++ c :: xs.reverse = s.reverse ++ c :: ys.reverse := by
    simpa using congrArg List.reverse same
  obtain ⟨right, left⟩ := cut_first (by simpa using hr) (by simpa using hs) backwards
  exact ⟨List.reverse_injective left, List.reverse_injective right⟩

/-- The characters of a word: no blank and no line break is among them. -/
def IsWord (w : List Char) : Prop := ' ' ∉ w ∧ '\n' ∉ w

/-- A line ends at the first line break. Whatever its front is, the last word stands behind the last
blank that the back does not account for. -/
theorem cut_line {front front' word word' r s : List Char} (back : List Char) (hf : '\n' ∉ front)
    (hf' : '\n' ∉ front') (hw : IsWord word) (hw' : IsWord word') (hb : '\n' ∉ back)
    (same : front ++ ' ' :: (word ++ (back ++ '\n' :: r)) =
      front' ++ ' ' :: (word' ++ (back ++ '\n' :: s))) :
    front = front' ∧ word = word' ∧ r = s := by
  have whole : ∀ {front word : List Char}, '\n' ∉ front → IsWord word →
      '\n' ∉ front ++ ' ' :: (word ++ back) := by
    intro front word hf hw
    simp [hf, hw.2, hb]
  have line : (front ++ ' ' :: (word ++ back)) ++ '\n' :: r =
      (front' ++ ' ' :: (word' ++ back)) ++ '\n' :: s := by
    simpa using same
  obtain ⟨words, rest⟩ := cut_first (whole hf hw) (whole hf' hw') line
  have ahead : (front ++ ' ' :: word) ++ back = (front' ++ ' ' :: word') ++ back := by
    simpa using words
  obtain ⟨fronts, last⟩ := cut_last hw.1 hw'.1 (List.append_cancel_right ahead)
  exact ⟨fronts, last, rest⟩

/-- Two marks of which none begins the other do not begin the same text. -/
theorem not_prefix_of_apart (apart : ¬xs <+: ys ∧ ¬ys <+: xs) (h : xs <+: r) : ¬ys <+: r := by
  intro h'
  rcases List.prefix_or_prefix_of_prefix h h' with shorter | shorter
  · exact apart.1 shorter
  · exact apart.2 shorter

end Cuts

/-- Printed items one behind the other. -/
def joinedText {α : Type} (print : α → String) (as : List α) : String := String.join (as.map print)

theorem joinedText_cons_append {α : Type} (print : α → String) (a : α) (as : List α) (r : List Char) :
    (joinedText print (a :: as)).toList ++ r =
      (print a).toList ++ ((joinedText print as).toList ++ r) := by
  simp [joinedText]

/-- What holds of every text that begins with an item, and of the rest, holds of the items with the
rest. -/
theorem joinedText_follows {α : Type} {print : α → String} {Q : List Char → Prop} {r : List Char}
    (rest : Q r) (item : ∀ a t, Q ((print a).toList ++ t)) (as : List α) :
    Q ((joinedText print as).toList ++ r) := by
  cases as with
  | nil => exact rest
  | cons a as =>
    rw [joinedText_cons_append]
    exact item a _

/-- From a text that begins with a printed value, the value and the rest can be read off. The rest
is one that may follow, and the value is one that can be printed. -/
def Legible {α : Type} (good : α → Prop) (ends : List Char → Prop) (print : α → String) : Prop :=
  ∀ ⦃a b : α⦄ ⦃r s : List Char⦄, good a → good b → ends r → ends s →
    (print a).toList ++ r = (print b).toList ++ s → a = b ∧ r = s

namespace Legible

variable {α : Type} {good : α → Prop} {ends ends' : List Char → Prop} {print : α → String}

theorem after (h : Legible good ends print) (lit : String) :
    Legible good ends fun a => lit ++ print a := by
  intro a b r s ha hb hr hs same
  simp only [String.toList_append, List.append_assoc, List.append_cancel_left_eq] at same
  exact h ha hb hr hs same

/-- A word that is there or not. -/
theorem flag (lit : String) :
    Legible (fun _ : Bool => True) (fun r => ¬lit.toList <+: r) fun b => if b then lit else "" := by
  intro a b r s _ _ hr hs same
  cases a <;> cases b
  · exact ⟨rfl, by simpa using same⟩
  · exact absurd ⟨s, by simpa using same.symm⟩ hr
  · exact absurd ⟨r, by simpa using same⟩ hs
  · exact ⟨rfl, by simpa using same⟩

/-- Items one behind the other can be told apart where each begins with a mark, and what follows
the last of them does not. -/
theorem joined (mark : String) (h : Legible good ends print)
    (begins : ∀ a, mark.toList <+: (print a).toList)
    (between : ∀ r, mark.toList <+: r → ends r)
    (stops : ∀ r, ends' r → ends r ∧ ¬mark.toList <+: r) :
    Legible (fun as : List α => ∀ a ∈ as, good a) ends' (joinedText print) := by
  have marked : ∀ a t, mark.toList <+: (print a).toList ++ t := by
    intro a t
    exact (begins a).trans (List.prefix_append ..)
  have follows : ∀ as t, ends' t → ends ((joinedText print as).toList ++ t) := by
    intro as t ht
    exact joinedText_follows (stops t ht).1 (fun a t => between _ (marked a t)) as
  intro as bs r s has hbs hr hs same
  -- the mark tells whether another item follows, so both lists end together
  induction as generalizing bs with
  | nil =>
    cases bs with
    | nil => exact ⟨rfl, List.append_cancel_left same⟩
    | cons b bs =>
      rw [joinedText_cons_append] at same
      have begun : mark.toList <+: r := (show r = _ from same) ▸ marked b _
      exact absurd begun (stops r hr).2
  | cons a as ih =>
    cases bs with
    | nil =>
      rw [joinedText_cons_append] at same
      have begun : mark.toList <+: s := (show s = _ from same.symm) ▸ marked a _
      exact absurd begun (stops s hs).2
    | cons b bs =>
      rw [joinedText_cons_append, joinedText_cons_append] at same
      obtain ⟨rfl, later⟩ :=
        h (has a (by simp)) (hbs b (by simp)) (follows as r hr) (follows bs s hs) same
      obtain ⟨rfl, rest⟩ :=
        ih (fun a h => has a (by simp [h])) (fun b h => hbs b (by simp [h])) later
      exact ⟨rfl, rest⟩

end Legible

/-- No number goes on here. -/
def NoDigit (r : List Char) : Prop := ∀ c ∈ r.head?, c.isDigit = false

/-- No list of names goes on here. -/
def NoName (r : List Char) : Prop := ∀ c ∈ r.head?, c.isDigit = false ∧ c ≠ ','

theorem NoName.noDigit {r : List Char} (h : NoName r) : NoDigit r := fun c hc => (h c hc).1

theorem isDigit_of_mem_number {n : Nat} {c : Char} (h : c ∈ (toString n).toList) :
    c.isDigit = true := by
  have written : c ∈ Nat.toDigits 10 n := by rwa [← Nat.toList_repr]
  exact Nat.isDigit_of_mem_toDigits (by omega) (by omega) written

theorem number_legible {label : String} {last : Nat} :
    Legible (fun _ : Key label last => True) NoDigit fun k => toString k.index := by
  intro a b r s _ _ hr hs same
  obtain ⟨number, rest⟩ := append_inj_of_stretch (fun c => isDigit_of_mem_number)
    (fun c => isDigit_of_mem_number) (fun c hc => by simp [hr c hc]) (fun c hc => by simp [hs c hc]) same
  have written : Nat.toDigits 10 a.index = Nat.toDigits 10 b.index := by
    rwa [← Nat.toList_repr, ← Nat.toList_repr]
  have index : a.index = b.index := by
    simpa using congrArg (Nat.ofDigitChars 10 · 0) written
  exact ⟨Key.ext index, rest⟩

theorem blockName_legible : Legible (fun _ => True) NoDigit blockName := number_legible.after "bb"

theorem stmtName_legible : Legible (fun _ => True) NoDigit Procedure.stmtName := number_legible.after "s"

/-- An optional key: its number behind a sign, or a word if there is none. -/
def keyText {label : String} {last : Nat} (sign word : String) : Option (Key label last) → String
  | some k => sign ++ toString k.index
  | none => word

section KeyText

variable {label : String} {last : Nat} {sign word : String}

theorem keyText_legible (apart : ∀ r s, sign.toList ++ r ≠ word.toList ++ s) :
    Legible (fun _ : Option (Key label last) => True) NoDigit (keyText sign word) := by
  have behind : ∀ (k : Key label last) (t : List Char), (keyText sign word (some k)).toList ++ t =
      sign.toList ++ ((toString k.index).toList ++ t) := by
    simp [keyText]
  intro a b r s _ _ hr hs same
  cases a with
  | none =>
    cases b with
    | none => exact ⟨rfl, List.append_cancel_left same⟩
    | some k => exact absurd ((behind k s).symm.trans same.symm) (apart _ _)
  | some k =>
    cases b with
    | none => exact absurd ((behind k r).symm.trans same) (apart _ _)
    | some l =>
      obtain ⟨rfl, rest⟩ := number_legible.after sign trivial trivial hr hs same
      exact ⟨rfl, rest⟩

theorem keyText_isWord (hs : IsWord sign.toList) (hw : IsWord word.toList)
    (k : Option (Key label last)) : IsWord (keyText sign word k).toList := by
  have clear : ∀ {c : Char} {n : Nat}, c.isDigit = false → c ∉ sign.toList →
      c ∉ (sign ++ toString n).toList := by
    intro c n hc hs mem
    rcases List.mem_append.mp (String.toList_append ▸ mem) with mem | mem
    · exact hs mem
    · cases hc.symm.trans (isDigit_of_mem_number mem)
  cases k with
  | none => exact hw
  | some k => exact ⟨clear (by decide) hs.1, clear (by decide) hs.2⟩

theorem keyText_inj (apart : ∀ r s, sign.toList ++ r ≠ word.toList ++ s)
    {k l : Option (Key label last)} (same : (keyText sign word k).toList = (keyText sign word l).toList) :
    k = l := by
  have closed : (keyText sign word k).toList ++ [] = (keyText sign word l).toList ++ [] := by
    rw [same]
  have ends : NoDigit [] := by simp [NoDigit]
  exact (keyText_legible apart trivial trivial ends ends closed).1

end KeyText

/-- The names of blocks, as they stand behind an arrow. -/
def namesText (ids : List BlockId) : String := ", ".intercalate (ids.map blockName)

theorem namesText_singleton (id : BlockId) : namesText [id] = blockName id := by
  simp [namesText]

theorem namesText_cons_append (id next : BlockId) (ids : List BlockId) (r : List Char) :
    (namesText (id :: next :: ids)).toList ++ r =
      (blockName id).toList ++ ',' :: ' ' :: ((namesText (next :: ids)).toList ++ r) := by
  simp [namesText]

theorem namesText_legible : Legible (· ≠ []) NoName namesText := by
  have comma : ∀ t : List Char, NoDigit (',' :: t) := by simp [NoDigit]
  intro as bs r s has hbs hr hs same
  induction as generalizing bs with
  | nil => exact absurd rfl has
  | cons a as ih =>
    obtain ⟨b, bs, rfl⟩ := List.exists_cons_of_ne_nil hbs
    cases as with
    | nil =>
      cases bs with
      | nil =>
        rw [namesText_singleton, namesText_singleton] at same
        obtain ⟨rfl, rest⟩ := blockName_legible trivial trivial hr.noDigit hs.noDigit same
        exact ⟨rfl, rest⟩
      | cons next bs =>
        rw [namesText_singleton, namesText_cons_append] at same
        obtain ⟨rfl, rest⟩ := blockName_legible trivial trivial hr.noDigit (comma _) same
        exact absurd rfl (hr ',' (by simp [rest])).2
    | cons next as =>
      cases bs with
      | nil =>
        rw [namesText_singleton, namesText_cons_append] at same
        obtain ⟨rfl, rest⟩ := blockName_legible trivial trivial (comma _) hs.noDigit same
        exact absurd rfl (hs ',' (by simp [← rest])).2
      | cons next' bs =>
        rw [namesText_cons_append, namesText_cons_append] at same
        obtain ⟨rfl, rest⟩ := blockName_legible trivial trivial (comma _) (comma _) same
        have later : (namesText (next :: as)).toList ++ r = (namesText (next' :: bs)).toList ++ s := by
          simpa using rest
        obtain ⟨ids, behind⟩ := ih (List.cons_ne_nil _ _) (List.cons_ne_nil _ _) later
        exact ⟨congrArg _ ids, behind⟩

/-- An arrow and the blocks that it leads to, if there are any. -/
def edgesText (arrow : String) (ids : List BlockId) : String :=
  if ids.isEmpty then "" else arrow ++ namesText ids

theorem edgesText_cons_append (arrow : String) (id : BlockId) (ids : List BlockId) (r : List Char) :
    (edgesText arrow (id :: ids)).toList ++ r =
      arrow.toList ++ ((namesText (id :: ids)).toList ++ r) := by
  simp [edgesText]

theorem edgesText_follows {Q : List Char → Prop} {arrow : String} {r : List Char} (rest : Q r)
    (arrows : ∀ t, Q (arrow.toList ++ t)) (ids : List BlockId) :
    Q ((edgesText arrow ids).toList ++ r) := by
  cases ids with
  | nil => exact rest
  | cons id ids =>
    rw [edgesText_cons_append]
    exact arrows _

theorem edgesText_legible (arrow : String) :
    Legible (fun _ => True) (fun r => NoName r ∧ ¬arrow.toList <+: r) (edgesText arrow) := by
  intro as bs r s _ _ hr hs same
  cases as with
  | nil =>
    cases bs with
    | nil => exact ⟨rfl, List.append_cancel_left same⟩
    | cons b bs =>
      rw [edgesText_cons_append] at same
      exact absurd ⟨_, same.symm⟩ hr.2
  | cons a as =>
    cases bs with
    | nil =>
      rw [edgesText_cons_append] at same
      exact absurd ⟨_, same⟩ hs.2
    | cons b bs =>
      exact namesText_legible.after arrow (by simp) (by simp) hr.1 hs.1 same

end Superstep
