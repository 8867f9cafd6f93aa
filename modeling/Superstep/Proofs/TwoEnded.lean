import Mathlib.Data.List.Induction
import Superstep.Proofs.Lockstep

namespace Superstep

variable {σ τ α β : Type}

section Outcome

variable {ε : Type} {act : EStateM ε σ α} {s : σ}

theorem run_of_outcome_ok {a : α} (h : outcome act s = .ok a) : act s = .ok a (finalState act s) := by
  unfold outcome at h
  unfold finalState
  cases hr : act s with
  | ok b t => rw [hr] at h; cases h; rfl
  | error e t => rw [hr] at h; cases h

theorem run_of_outcome_error {e : ε} (h : outcome act s = .error e) :
    act s = .error e (finalState act s) := by
  unfold outcome at h
  unfold finalState
  cases hr : act s with
  | ok a t => rw [hr] at h; cases h
  | error d t => rw [hr] at h; cases h; rfl

theorem outcome_of_ok {a : α} {t : σ} (h : act s = .ok a t) : outcome act s = .ok a := by
  unfold outcome
  rw [h]

theorem outcome_of_error {e : ε} {t : σ} (h : act s = .error e t) : outcome act s = .error e := by
  unfold outcome
  rw [h]

theorem outcome_map (act : EStateM ε σ α) (f : α → β) (s : σ) :
    outcome (f <$> act) s = (outcome act s).map f := by
  change outcome (EStateM.map f act) s = _
  unfold outcome EStateM.map
  cases act s <;> rfl

theorem finalState_map (act : EStateM ε σ α) (f : α → β) (s : σ) :
    finalState (f <$> act) s = finalState act s := by
  change finalState (EStateM.map f act) s = _
  unfold finalState EStateM.map
  cases act s <;> rfl

theorem except_map_error {x : Except ε α} {f : α → β} {e : ε} : x.map f = .error e ↔ x = .error e := by
  cases x <;> simp [Except.map]

end Outcome

/-- A call on a walk from both ends. -/
inductive EndCall where
  | next
  | nextBack
  | sizeHint
  | len
deriving DecidableEq

/-- What a call answers: the thing that came next, if one was left, or how many are left. -/
inductive EndAnswer (α : Type) where
  | item (a : Option α)
  | bounds (lower : Nat) (upper : Option Nat)
  | count (n : Nat)

namespace EndAnswer

def map (f : α → β) : EndAnswer α → EndAnswer β
  | item a => item (a.map f)
  | bounds lower upper => bounds lower upper
  | count n => count n

/-- What a call has taken from the things that were left, be it a thing or the fault in its
place. -/
def given? : Except Fault (EndAnswer α) → Option (Except Fault α)
  | .ok (item (some a)) => some (.ok a)
  | .error e => some (.error e)
  | _ => none

end EndAnswer

/-- A walk from both ends that knows how many things are left. -/
structure TwoEnded (σ α : Type) where
  next : EStateM Fault σ (Option α)
  nextBack : EStateM Fault σ (Option α)
  remaining : σ → Nat

namespace TwoEnded

def call (w : TwoEnded σ α) : EndCall → EStateM Fault σ (EndAnswer α)
  | .next => EndAnswer.item <$> w.next
  | .nextBack => EndAnswer.item <$> w.nextBack
  | .sizeHint => (fun s => .bounds (w.remaining s) (some (w.remaining s))) <$> get
  | .len => (fun s => .count (w.remaining s)) <$> get

/-- The answers to calls that are made one after the other, also after a call that stopped. -/
def answers (w : TwoEnded σ α) : List EndCall → σ → List (Except Fault (EndAnswer α))
  | [], _ => []
  | c :: calls, s => outcome (w.call c) s :: w.answers calls (finalState (w.call c) s)

/-- Where calls leave a walk. -/
def after (w : TwoEnded σ α) (calls : List EndCall) (s : σ) : σ :=
  calls.foldl (fun s c => finalState (w.call c) s) s

/-- What the calls of one kind have taken, in their order. -/
def taken (w : TwoEnded σ α) (kind : EndCall) (calls : List EndCall) (s : σ) :
    List (Except Fault α) :=
  (calls.zip (w.answers calls s)).filterMap fun p => if p.1 = kind then EndAnswer.given? p.2 else none

section Snoc

variable (w : TwoEnded σ α) (calls : List EndCall) (c : EndCall) (s : σ)

theorem after_snoc : w.after (calls ++ [c]) s = finalState (w.call c) (w.after calls s) := by
  unfold after
  rw [List.foldl_append]
  rfl

theorem answers_snoc :
    w.answers (calls ++ [c]) s = w.answers calls s ++ [outcome (w.call c) (w.after calls s)] := by
  induction calls generalizing s with
  | nil => rfl
  | cons d calls ih => exact congrArg (List.cons _) (ih _)

theorem length_answers : (w.answers calls s).length = calls.length := by
  induction calls generalizing s with
  | nil => rfl
  | cons d calls ih => exact congrArg (· + 1) (ih _)

theorem taken_snoc (kind : EndCall) :
    w.taken kind (calls ++ [c]) s = w.taken kind calls s ++
      (if c = kind then EndAnswer.given? (outcome (w.call c) (w.after calls s)) else none).toList := by
  unfold taken
  rw [answers_snoc, List.zip_append (w.length_answers calls s).symm, List.filterMap_append]
  refine congrArg (w.taken kind calls s ++ ·) ?_
  rw [List.zip_cons_cons, List.zip_nil_left, List.filterMap_cons]
  cases (if c = kind then EndAnswer.given? (outcome (w.call c) (w.after calls s)) else none) <;> rfl

end Snoc

end TwoEnded

/-- How many things a walk has taken from the front and from the back. -/
structure Taken where
  front : Nat := 0
  back : Nat := 0

namespace Taken

def all (t : Taken) : Nat := t.front + t.back

/-- The counts after a call on a walk over `n` things. -/
def step (n : Nat) (t : Taken) : EndCall → Taken
  | .next => if t.all < n then { t with front := t.front + 1 } else t
  | .nextBack => if t.all < n then { t with back := t.back + 1 } else t
  | .sizeHint | .len => t

/-- The thing numbered `i`, if anything of `n` things is left. -/
def got (n : Nat) (item : Nat → Except Fault α) (t : Taken) (i : Nat) : Except Fault (Option α) :=
  if t.all < n then (item i).map some else .ok none

/-- The answer to a call on a walk over `n` things. -/
def reply (n : Nat) (item : Nat → Except Fault α) (t : Taken) :
    EndCall → Except Fault (EndAnswer α)
  | .next => (t.got n item t.front).map .item
  | .nextBack => (t.got n item (n - 1 - t.back)).map .item
  | .sizeHint => .ok (.bounds (n - t.all) (some (n - t.all)))
  | .len => .ok (.count (n - t.all))

/-- The counts after calls on a walk over `n` things. -/
def after (n : Nat) (calls : List EndCall) : Taken := calls.foldl (step n) {}

theorem after_snoc (n : Nat) (calls : List EndCall) (c : EndCall) :
    after n (calls ++ [c]) = (after n calls).step n c := by
  unfold after
  rw [List.foldl_append]
  rfl

section Step

variable {n : Nat} {t : Taken}

theorem step_next (room : t.all < n) : t.step n .next = { t with front := t.front + 1 } := if_pos room

theorem step_nextBack (room : t.all < n) : t.step n .nextBack = { t with back := t.back + 1 } :=
  if_pos room

theorem step_of_ended (full : ¬t.all < n) (c : EndCall) : t.step n c = t := by
  cases c with
  | next | nextBack => exact if_neg full
  | sizeHint | len => rfl

theorem step_all_le (h : t.all ≤ n) (c : EndCall) : (t.step n c).all ≤ n := by
  by_cases room : t.all < n
  · cases c with
    | next =>
      have less : t.front + t.back < n := room
      rw [step_next room]
      show t.front + 1 + t.back ≤ n
      omega
    | nextBack =>
      rw [step_nextBack room]
      exact room
    | sizeHint | len => exact h
  · rwa [step_of_ended room]

end Step

theorem after_all_le (n : Nat) (calls : List EndCall) : (after n calls).all ≤ n := by
  induction calls using List.reverseRecOn with
  | nil => exact Nat.zero_le n
  | append_singleton calls c ih =>
    rw [after_snoc]
    exact step_all_le ih c

theorem step_front {n : Nat} {t : Taken} {c : EndCall} (h : c ≠ .next) :
    (t.step n c).front = t.front := by
  cases c with
  | next => exact absurd rfl h
  | nextBack =>
    unfold step
    dsimp only
    split <;> rfl
  | sizeHint | len => rfl

theorem step_back {n : Nat} {t : Taken} {c : EndCall} (h : c ≠ .nextBack) :
    (t.step n c).back = t.back := by
  cases c with
  | nextBack => exact absurd rfl h
  | next =>
    unfold step
    dsimp only
    split <;> rfl
  | sizeHint | len => rfl

theorem given_got (n : Nat) (item : Nat → Except Fault α) (t : Taken) (i : Nat) :
    EndAnswer.given? ((t.got n item i).map .item) = if t.all < n then some (item i) else none := by
  unfold got
  split
  next => cases item i <;> rfl
  next => rfl

theorem map_got {n i : Nat} {item : Nat → Except Fault α} {image : Nat → Except Fault β} {f : α → β}
    {t : Taken} (h : t.all < n → (item i).map f = image i) :
    ((t.got n item i).map EndAnswer.item).map (EndAnswer.map f) =
      (t.got n image i).map EndAnswer.item := by
  unfold got
  by_cases room : t.all < n
  · rw [if_pos room, if_pos room, ← h room]
    cases item i <;> rfl
  · rw [if_neg room, if_neg room]
    rfl

theorem map_reply {n : Nat} {item : Nat → Except Fault α} {image : Nat → Except Fault β} {f : α → β}
    (h : ∀ i < n, (item i).map f = image i) (t : Taken) (c : EndCall) :
    (t.reply n item c).map (EndAnswer.map f) = t.reply n image c := by
  cases c with
  | sizeHint | len => rfl
  | next => exact map_got fun room => h _ (Nat.lt_of_le_of_lt (Nat.le_add_right ..) room)
  | nextBack => exact map_got fun room => h _ (by omega)

end Taken

/-- A walk takes the things numbered from `0` up to `n` from both ends: `stands` says in which states
it can be when so many are taken. -/
structure Follows (n : Nat) (item : Nat → Except Fault α) (w : TwoEnded σ α)
    (stands : Taken → σ → Prop) : Prop where
  remaining : ∀ {t s}, stands t s → w.remaining s = n - t.all
  next : ∀ {t s}, stands t s → t.all ≤ n →
    outcome w.next s = t.got n item t.front ∧ stands (t.step n .next) (finalState w.next s)
  nextBack : ∀ {t s}, stands t s → t.all ≤ n →
    outcome w.nextBack s = t.got n item (n - 1 - t.back) ∧
      stands (t.step n .nextBack) (finalState w.nextBack s)

namespace Follows

variable {n : Nat} {item : Nat → Except Fault α} {w : TwoEnded σ α} {stands : Taken → σ → Prop}
  {t : Taken} {s : σ}

theorem call (h : Follows n item w stands) (hs : stands t s) (within : t.all ≤ n) (c : EndCall) :
    outcome (w.call c) s = t.reply n item c ∧ stands (t.step n c) (finalState (w.call c) s) := by
  cases c with
  | next =>
    obtain ⟨answer, moved⟩ := h.next hs within
    exact ⟨(outcome_map ..).trans (congrArg _ answer), (finalState_map w.next _ s).symm ▸ moved⟩
  | nextBack =>
    obtain ⟨answer, moved⟩ := h.nextBack hs within
    exact ⟨(outcome_map ..).trans (congrArg _ answer), (finalState_map w.nextBack _ s).symm ▸ moved⟩
  | sizeHint =>
    refine ⟨?_, hs⟩
    unfold Taken.reply
    rw [← h.remaining hs]
    rfl
  | len =>
    refine ⟨?_, hs⟩
    unfold Taken.reply
    rw [← h.remaining hs]
    rfl

theorem after (h : Follows n item w stands) (start : stands {} s) (calls : List EndCall) :
    stands (Taken.after n calls) (w.after calls s) := by
  induction calls using List.reverseRecOn with
  | nil => exact start
  | append_singleton calls c ih =>
    rw [Taken.after_snoc, TwoEnded.after_snoc]
    exact (h.call ih (Taken.after_all_le n calls) c).2

theorem answer (h : Follows n item w stands) (start : stands {} s) (calls : List EndCall)
    (c : EndCall) :
    outcome (w.call c) (w.after calls s) = (Taken.after n calls).reply n item c :=
  (h.call (h.after start calls) (Taken.after_all_le n calls) c).1

/-- Walks over as many things give the same answers, where one names the things that the other
gives. -/
theorem map_answers (h : Follows n item w stands) (start : stands {} s) {v : TwoEnded τ β}
    {image : Nat → Except Fault β} {stands' : Taken → τ → Prop} {u : τ}
    (h' : Follows n image v stands') (start' : stands' {} u) {f : α → β}
    (same : ∀ i < n, (item i).map f = image i) (calls : List EndCall) :
    (w.answers calls s).map (Except.map (EndAnswer.map f)) = v.answers calls u := by
  induction calls using List.reverseRecOn with
  | nil => rfl
  | append_singleton calls c ih =>
    rw [TwoEnded.answers_snoc, TwoEnded.answers_snoc, List.map_append, ih, h.answer start, h'.answer start',
      List.map_singleton, Taken.map_reply same]

/-- Calls of one kind take the things in the order of their `place`, where `count` says how many
they have taken. -/
theorem taken_eq (h : Follows n item w stands) (start : stands {} s) {kind : EndCall}
    (count : Taken → Nat) (place : Nat → Nat)
    (replies : ∀ t : Taken, t.reply n item kind = (t.got n item (place (count t))).map .item)
    (counts : ∀ t : Taken, t.all < n → count (t.step n kind) = count t + 1)
    (others : ∀ (t : Taken) (c : EndCall), c ≠ kind → count (t.step n c) = count t)
    (zero : count {} = 0) (calls : List EndCall) :
    w.taken kind calls s = (List.range (count (Taken.after n calls))).map fun i => item (place i) := by
  induction calls using List.reverseRecOn with
  | nil =>
    have none_taken : count (Taken.after n []) = 0 := zero
    rw [none_taken]
    rfl
  | append_singleton calls c ih =>
    rw [TwoEnded.taken_snoc, Taken.after_snoc, h.answer start, ih]
    by_cases same : c = kind
    · subst same
      rw [if_pos rfl, replies, Taken.given_got]
      by_cases room : (Taken.after n calls).all < n
      · rw [if_pos room, counts _ room, List.range_succ, List.map_append]
        rfl
      · rw [if_neg room, Taken.step_of_ended room, Option.toList_none, List.append_nil]
    · rw [if_neg same, others _ c same, Option.toList_none, List.append_nil]

theorem fronts (h : Follows n item w stands) (start : stands {} s) (calls : List EndCall) :
    w.taken .next calls s = (List.range (Taken.after n calls).front).map item :=
  h.taken_eq start Taken.front id (fun _ => rfl)
    (fun _ room => congrArg Taken.front (Taken.step_next room)) (fun _ _ => Taken.step_front) rfl calls

theorem backs (h : Follows n item w stands) (start : stands {} s) (calls : List EndCall) :
    w.taken .nextBack calls s =
      (List.range (Taken.after n calls).back).map fun i => item (n - 1 - i) :=
  h.taken_eq start Taken.back (fun i => n - 1 - i) (fun _ => rfl)
    (fun _ room => congrArg Taken.back (Taken.step_nextBack room)) (fun _ _ => Taken.step_back) rfl calls

end Follows

/-- What a walk over `n` things has done when `f` were taken from the front and `b` from the back. A
thing whose number is greater than `last` is taken by a call that stops. -/
structure TwoEnded.Covers (w : TwoEnded σ α) (start : σ) (n last : Nat) (item : Nat → Except Fault α)
    (calls : List EndCall) (f b : Nat) : Prop where
  within : f + b ≤ n
  fronts : w.taken .next calls start = (List.range f).map item
  backs : w.taken .nextBack calls start = (List.range b).map fun i => item (n - 1 - i)
  left : w.remaining (w.after calls start) = n - f - b
  next_stops : ∀ e, outcome w.next (w.after calls start) = .error e ↔
    e = .indexTooWide ∧ f + b < n ∧ last < f
  nextBack_stops : ∀ e, outcome w.nextBack (w.after calls start) = .error e ↔
    e = .indexTooWide ∧ f + b < n ∧ last < n - 1 - b
  ended : f + b = n → ∀ more, outcome w.next (w.after (calls ++ more) start) = .ok none ∧
    outcome w.nextBack (w.after (calls ++ more) start) = .ok none

namespace Taken

variable {n : Nat} {item : Nat → Except Fault α} {t : Taken}

theorem got_of_room (room : t.all < n) (i : Nat) : t.got n item i = (item i).map some := if_pos room

theorem got_of_ended (full : ¬t.all < n) (i : Nat) : t.got n item i = .ok none := if_neg full

theorem got_stops {last i : Nat} (inside : t.all < n → i < n)
    (stops : ∀ i < n, ∀ e, item i = .error e ↔ e = .indexTooWide ∧ last < i) (e : Fault) :
    t.got n item i = .error e ↔ e = .indexTooWide ∧ t.all < n ∧ last < i := by
  unfold got
  split
  next room =>
    rw [except_map_error, stops i (inside room) e]
    exact and_congr_right fun _ => (and_iff_right room).symm
  next full =>
    constructor
    · exact nofun
    · rintro ⟨-, room, -⟩
      exact absurd room full

/-- Where nothing is left, further calls take nothing. -/
theorem after_append {calls : List EndCall} (h : (after n calls).all = n) (more : List EndCall) :
    after n (calls ++ more) = after n calls := by
  induction more using List.reverseRecOn with
  | nil => rw [List.append_nil]
  | append_singleton more c ih =>
    rw [← List.append_assoc, after_snoc, ih, step_of_ended (by omega)]

end Taken

theorem Follows.covers {n last : Nat} {item : Nat → Except Fault α} {w : TwoEnded σ α}
    {stands : Taken → σ → Prop} {s : σ} (h : Follows n item w stands) (start : stands {} s)
    (stops : ∀ i < n, ∀ e, item i = .error e ↔ e = .indexTooWide ∧ last < i)
    (calls : List EndCall) :
    w.Covers s n last item calls (Taken.after n calls).front (Taken.after n calls).back := by
  have within := Taken.after_all_le n calls
  have here := h.after start calls
  refine ⟨within, h.fronts start calls, h.backs start calls, ?_, ?_, ?_, ?_⟩
  · rw [h.remaining here, Nat.sub_sub]
    rfl
  · rw [(h.next here within).1]
    exact Taken.got_stops (fun room => Nat.lt_of_le_of_lt (Nat.le_add_right ..) room) stops
  · rw [(h.nextBack here within).1]
    exact Taken.got_stops (fun room => by omega) stops
  · intro full more
    have there := h.after start (calls ++ more)
    have none_left : (Taken.after n (calls ++ more)).all = n := by
      rw [Taken.after_append full]
      exact full
    rw [(h.next there (Nat.le_of_eq none_left)).1, (h.nextBack there (Nat.le_of_eq none_left)).1]
    exact ⟨Taken.got_of_ended (by omega) _, Taken.got_of_ended (by omega) _⟩

end Superstep
