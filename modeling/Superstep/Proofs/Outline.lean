import Superstep.Proofs.Legible
import Superstep.Proofs.Lookup

namespace Superstep

inductive StatementKind where
  | block
  | foreach
  | assign
  | branch
  | loop
  | verbatim
deriving DecidableEq

def StatementKind.word : StatementKind → String
  | block => "block"
  | foreach => "foreach"
  | assign => "assign"
  | branch => "if"
  | loop => "while"
  | verbatim => "opaque"

def Statement.kind : Statement → StatementKind
  | block _ => .block
  | foreach _ => .foreach
  | assign _ => .assign
  | branch _ => .branch
  | loop _ => .loop
  | verbatim _ => .verbatim

theorem Statement.word_eq (s : Statement) : s.word = s.kind.word := by
  cases s <;> rfl

/-- What is shown of a receiver: the name of the symbol in place of its key, and the registered
identity, if there is one. -/
inductive ReceiverOutline where
  | nested (loop : Stmt) (comm : Option CommId)
  | randomWrite (host : Stmt) (symbol : String) (comm : Option CommId)
deriving DecidableEq

@[ext] structure BlockOutline where
  id : BlockId
  kind : BlockKind
  afterVertex : Bool
  entries : List BlockId
  exits : List BlockId
  sents : List (Stmt × StatementKind)
  receivers : List ReceiverOutline
deriving DecidableEq

@[ext] structure Outline where
  name : String
  entry : Option BlockId
  blocks : List BlockOutline
deriving DecidableEq

namespace Procedure

def blockId (p : Procedure) (b : Block) : Except Fault BlockId := do
  let data ← p.graph.block b
  return data.id

def sentOutline (p : Procedure) (s : Stmt) : Except Fault (Stmt × StatementKind) := do
  let statement ← p.ast.stmt s
  return (s, statement.kind)

def receiverOutline (p : Procedure) (strings : StringPool) (unit : CommUnit) :
    Except Fault ReceiverOutline :=
  match unit with
  | .nested loop => return .nested loop (p.graph.registry.commId? unit)
  | .randomWrite host symbol => do
    let declaration ← p.ast.symbol symbol
    let name ← strings.get declaration.name
    return .randomWrite host name (p.graph.registry.commId? unit)

def blockOutline (p : Procedure) (strings : StringPool) (b : Block) : Except Fault BlockOutline := do
  let data ← p.graph.block b
  let entries ← data.entries.mapM p.blockId
  let exits ← data.exits.mapM p.blockId
  let sents ← data.sents.mapM p.sentOutline
  let receivers ← data.receivers.mapM (p.receiverOutline strings)
  return { data with entries, exits, sents, receivers }

/-- What the listing of a procedure shows, block by block in the order of the layout. -/
def outline (p : Procedure) (strings : StringPool) : Except Fault Outline := do
  let entry ← p.graph.entry.expand.mapM p.blockId
  let blocks ← p.graph.layout.mapM (p.blockOutline strings)
  return { name := p.name, entry, blocks }

end Procedure

section Text

def commText : Option CommId → String := keyText "comm#" "unregistered"

def entryText : Option BlockId → String := keyText "bb" "none"

def sentText (sent : Stmt × StatementKind) : String :=
  "    sent " ++ Procedure.stmtName sent.1 ++ " " ++ sent.2.word ++ "\n"

def ReceiverOutline.text : ReceiverOutline → String
  | nested loop comm => "    recv nested " ++ Procedure.stmtName loop ++ " " ++ commText comm ++ "\n"
  | randomWrite host symbol comm =>
    "    recv random-write " ++ Procedure.stmtName host ++ " to " ++ symbol ++ " " ++ commText comm ++ "\n"

theorem ReceiverOutline.text_nested (loop : Stmt) (comm : Option CommId) : (nested loop comm).text =
    "    recv nested " ++ Procedure.stmtName loop ++ " " ++ commText comm ++ "\n" := rfl

theorem ReceiverOutline.text_randomWrite (host : Stmt) (symbol : String) (comm : Option CommId) :
    (randomWrite host symbol comm).text =
      "    recv random-write " ++ Procedure.stmtName host ++ " to " ++ symbol ++ " " ++ commText comm ++
        "\n" := rfl

def BlockOutline.text (b : BlockOutline) : String :=
  "  " ++ blockName b.id ++ " " ++ b.kind.word ++ (if b.afterVertex then " after-vertex" else "") ++
    edgesText " <- " b.entries ++ edgesText " -> " b.exits ++ "\n" ++
    joinedText sentText b.sents ++ joinedText ReceiverOutline.text b.receivers

def Outline.text (o : Outline) : String :=
  "procedure " ++ o.name ++ " (entry " ++ entryText o.entry ++ ") \x7b\n" ++
    joinedText BlockOutline.text o.blocks ++ "\x7d\n"

end Text

section MapM

variable {α β γ ε : Type} {f : α → Except ε β} {as : List α} {bs : List β}

theorem except_map_bind (x : Except ε α) (g : α → β) (k : β → Except ε γ) :
    x.map g >>= k = x >>= fun a => k (g a) := by
  cases x <;> rfl

theorem except_bind_map (x : Except ε α) (k : α → Except ε β) (g : β → γ) :
    (x >>= k).map g = x >>= fun a => (k a).map g := by
  cases x <;> rfl

theorem except_bind_congr {x : Except ε α} {k l : α → Except ε β}
    (h : ∀ a, x = .ok a → k a = l a) : x >>= k = x >>= l := by
  cases x with
  | error e => rfl
  | ok a => exact h a rfl

theorem except_mapM_of_map {k : α → Except ε γ} {g : β → γ} (h : ∀ a, k a = (f a).map g)
    (as : List α) : as.mapM k = (as.mapM f).map (List.map g) := by
  induction as with
  | nil => rfl
  | cons a as ih =>
    rw [List.mapM_cons, List.mapM_cons, h, ih]
    cases f a with
    | error e => rfl
    | ok b => cases as.mapM f <;> rfl

theorem except_mapM_isEmpty (h : as.mapM f = .ok bs) : bs.isEmpty = as.isEmpty := by
  cases as with
  | nil =>
    cases h
    rfl
  | cons a as =>
    rw [List.mapM_cons] at h
    obtain ⟨b, -, h⟩ := except_bind_ok.mp h
    obtain ⟨rest, -, h⟩ := except_bind_ok.mp h
    cases h
    rfl

theorem except_mapM_mem (h : as.mapM f = .ok bs) : ∀ b ∈ bs, ∃ a ∈ as, f a = .ok b := by
  induction as generalizing bs with
  | nil =>
    cases h
    simp
  | cons a as ih =>
    rw [List.mapM_cons] at h
    obtain ⟨b, hb, h⟩ := except_bind_ok.mp h
    obtain ⟨rest, hrest, h⟩ := except_bind_ok.mp h
    cases h
    intro c hc
    rcases List.mem_cons.mp hc with rfl | hc
    · exact ⟨a, by simp, hb⟩
    · obtain ⟨x, hx, hf⟩ := ih hrest c hc
      exact ⟨x, by simp [hx], hf⟩

end MapM

namespace Procedure

variable (p : Procedure) (strings : StringPool)

theorem blockNames_eq (blocks : List Block) :
    p.blockNames blocks = (blocks.mapM p.blockId).map namesText := by
  have name : ∀ b, (do let data ← p.graph.block b; return blockName data.id) =
      (p.blockId b).map blockName := by
    intro b
    unfold blockId
    rw [except_bind_map]
    rfl
  unfold blockNames
  rw [except_mapM_of_map name, except_map_bind]
  cases blocks.mapM p.blockId <;> rfl

theorem sentLine_eq (s : Stmt) : p.sentLine s = (p.sentOutline s).map sentText := by
  unfold sentLine sentOutline
  rw [except_bind_map]
  refine except_bind_congr fun statement _ => ?_
  rw [statement.word_eq]
  rfl

theorem receiverLine_eq (unit : CommUnit) :
    p.receiverLine strings unit = (p.receiverOutline strings unit).map ReceiverOutline.text := by
  cases unit with
  | nested loop =>
    unfold receiverLine receiverOutline
    cases p.graph.registry.commId? (.nested loop) <;> rfl
  | randomWrite host symbol =>
    dsimp only [receiverLine, receiverOutline]
    simp only [except_bind_map]
    cases p.graph.registry.commId? (.randomWrite host symbol) <;> rfl

theorem blockLines_eq (b : Block) :
    p.blockLines strings b = (p.blockOutline strings b).map BlockOutline.text := by
  unfold blockLines blockOutline
  simp only [except_bind_map, blockNames_eq, except_mapM_of_map p.sentLine_eq,
    except_mapM_of_map (p.receiverLine_eq strings), except_map_bind]
  refine except_bind_congr fun data _ => ?_
  refine except_bind_congr fun entries hentries => ?_
  refine except_bind_congr fun exits hexits => ?_
  refine except_bind_congr fun sents _ => ?_
  refine except_bind_congr fun receivers _ => ?_
  rw [← except_mapM_isEmpty hentries, ← except_mapM_isEmpty hexits]
  rfl

theorem entryName_eq (b : Block) :
    p.blockNames [b] = ((some b).mapM p.blockId).map entryText := by
  rw [blockNames_eq, List.mapM_cons, List.mapM_nil]
  show _ = Except.map entryText (some <$> p.blockId b)
  cases p.blockId b with
  | error e => rfl
  | ok id => exact congrArg Except.ok (namesText_singleton id)

/-- The listing says what the outline says, and fails where it does. -/
theorem listing_eq : p.listing strings = (p.outline strings).map Outline.text := by
  unfold listing outline
  simp only [except_mapM_of_map (p.blockLines_eq strings), except_bind_map]
  cases p.graph.entry.expand with
  | none =>
    cases p.graph.layout.mapM (p.blockOutline strings) <;> rfl
  | some b =>
    simp only [entryName_eq, except_map_bind]
    rfl

end Procedure

section Reading

theorem BlockKind.word_legible : Legible (fun _ => True) (fun _ => True) BlockKind.word := by
  intro a b r s _ _ _ _ same
  cases a <;> cases b <;> simp [BlockKind.word] at same ⊢ <;> exact same

theorem StatementKind.word_legible : Legible (fun _ => True) (fun _ => True) StatementKind.word := by
  intro a b r s _ _ _ _ same
  cases a <;> cases b <;> simp [StatementKind.word] at same ⊢ <;> exact same

theorem commText_legible : Legible (fun _ => True) NoDigit commText := keyText_legible (by simp)

theorem sentText_legible : Legible (fun _ => True) (fun _ => True) sentText := by
  intro a b r s _ _ _ _ same
  unfold sentText at same
  simp only [String.toList_append, List.append_assoc, List.append_cancel_left_eq] at same
  obtain ⟨key, behind⟩ :=
    stmtName_legible trivial trivial (by simp [NoDigit]) (by simp [NoDigit]) same
  have words := List.append_cancel_left behind
  obtain ⟨kind, rest⟩ := StatementKind.word_legible trivial trivial trivial trivial words
  exact ⟨Prod.ext key kind, List.append_cancel_left rest⟩

/-- The free part of a line is on one line. -/
def ReceiverOutline.OneLine : ReceiverOutline → Prop
  | nested _ _ => True
  | randomWrite _ symbol _ => '\n' ∉ symbol.toList

theorem commText_isWord (comm : Option CommId) : IsWord (commText comm).toList :=
  keyText_isWord (by simp [IsWord]) (by simp [IsWord]) comm

theorem entryText_isWord (entry : Option BlockId) : IsWord (entryText entry).toList :=
  keyText_isWord (by simp [IsWord]) (by simp [IsWord]) entry

theorem ReceiverOutline.text_legible :
    Legible ReceiverOutline.OneLine (fun _ => True) ReceiverOutline.text := by
  have apart : ∀ x y, "    recv nested ".toList ++ x ≠ "    recv random-write ".toList ++ y := by simp
  intro a b r s ha hb _ _ same
  cases a with
  | nested loop comm =>
    cases b with
    | nested loop' comm' =>
      simp only [text_nested, String.toList_append, List.append_assoc,
        List.append_cancel_left_eq] at same
      obtain ⟨rfl, behind⟩ :=
        stmtName_legible trivial trivial (by simp [NoDigit]) (by simp [NoDigit]) same
      have words := List.append_cancel_left behind
      obtain ⟨rfl, rest⟩ :=
        commText_legible trivial trivial (by simp [NoDigit]) (by simp [NoDigit]) words
      exact ⟨rfl, List.append_cancel_left rest⟩
    | randomWrite host symbol comm' =>
      simp only [text_nested, text_randomWrite, String.toList_append, List.append_assoc] at same
      exact absurd same (apart _ _)
  | randomWrite host symbol comm =>
    cases b with
    | nested loop comm' =>
      simp only [text_nested, text_randomWrite, String.toList_append, List.append_assoc] at same
      exact absurd same.symm (apart _ _)
    | randomWrite host' symbol' comm' =>
      simp only [text_randomWrite, String.toList_append, List.append_assoc,
        List.append_cancel_left_eq] at same
      obtain ⟨rfl, behind⟩ :=
        stmtName_legible trivial trivial (by simp [NoDigit]) (by simp [NoDigit]) same
      have words := List.append_cancel_left behind
      obtain ⟨name, last, rest⟩ := cut_line [] ha hb (commText_isWord comm)
        (commText_isWord comm') List.not_mem_nil (by simpa using words)
      obtain rfl : comm = comm' := keyText_inj (by simp) last
      obtain rfl : symbol = symbol' := String.toList_inj.mp name
      exact ⟨rfl, rest⟩

/-- No statement and no receiver is listed here. -/
def NoDetail (r : List Char) : Prop := ¬"    sent".toList <+: r ∧ ¬"    recv".toList <+: r

def BlockOutline.OneLine (b : BlockOutline) : Prop := ∀ x ∈ b.receivers, x.OneLine

theorem sents_legible : Legible (fun sents : List (Stmt × StatementKind) => ∀ x ∈ sents, True)
    (fun r => ¬"    sent".toList <+: r) (joinedText sentText) := by
  apply sentText_legible.joined "    sent"
  · intro sent
    unfold sentText
    simp
  · exact fun _ _ => trivial
  · exact fun r hr => ⟨trivial, hr⟩

theorem ReceiverOutline.text_begins (x : ReceiverOutline) : "    recv".toList <+: x.text.toList := by
  cases x with
  | nested loop comm => simp [text_nested]
  | randomWrite host symbol comm => simp [text_randomWrite]

theorem receivers_legible : Legible (fun receivers : List ReceiverOutline => ∀ x ∈ receivers, x.OneLine)
    (fun r => ¬"    recv".toList <+: r) (joinedText ReceiverOutline.text) := by
  apply ReceiverOutline.text_legible.joined "    recv"
  · exact ReceiverOutline.text_begins
  · exact fun _ _ => trivial
  · exact fun r hr => ⟨trivial, hr⟩

section BlockLine

variable (entries exits : List BlockId) (t : List Char)

theorem line_end : NoName ("\n".toList ++ t) ∧ ¬" -> ".toList <+: "\n".toList ++ t := by
  simp [NoName]

theorem exits_end : NoName ((edgesText " -> " exits).toList ++ ("\n".toList ++ t)) ∧
    ¬" <- ".toList <+: (edgesText " -> " exits).toList ++ ("\n".toList ++ t) :=
  edgesText_follows (Q := fun r => NoName r ∧ ¬" <- ".toList <+: r) (by simp [NoName])
    (by simp [NoName]) exits

theorem entries_end : ¬" after-vertex".toList <+:
    (edgesText " <- " entries).toList ++ ((edgesText " -> " exits).toList ++ ("\n".toList ++ t)) := by
  refine edgesText_follows (Q := fun r => ¬" after-vertex".toList <+: r) ?_ (by simp) entries
  exact edgesText_follows (Q := fun r => ¬" after-vertex".toList <+: r) (by simp) (by simp) exits

end BlockLine

theorem BlockOutline.text_legible : Legible BlockOutline.OneLine NoDetail BlockOutline.text := by
  have details : ∀ (receivers : List ReceiverOutline) {t : List Char}, NoDetail t →
      ¬"    sent".toList <+: (joinedText ReceiverOutline.text receivers).toList ++ t := by
    intro receivers t ht
    refine joinedText_follows (Q := fun r => ¬"    sent".toList <+: r) ht.1 (fun x t => ?_) receivers
    exact not_prefix_of_apart (by simp) (x.text_begins.trans (List.prefix_append ..))
  intro a b r s ha hb hr hs same
  unfold text at same
  simp only [String.toList_append, List.append_assoc, List.append_cancel_left_eq] at same
  -- the parts of the line are taken off from the left, each up to where it cannot go on
  obtain ⟨id, behind⟩ := blockName_legible trivial trivial (by simp [NoDigit]) (by simp [NoDigit]) same
  have words := List.append_cancel_left behind
  obtain ⟨kind, behind⟩ := BlockKind.word_legible trivial trivial trivial trivial words
  obtain ⟨afterVertex, behind⟩ := Legible.flag " after-vertex" trivial trivial
    (entries_end _ _ _) (entries_end _ _ _) behind
  obtain ⟨entries, behind⟩ := edgesText_legible " <- " trivial trivial
    (exits_end _ _) (exits_end _ _) behind
  obtain ⟨exits, behind⟩ := edgesText_legible " -> " trivial trivial
    (line_end _) (line_end _) behind
  have lines := List.append_cancel_left behind
  obtain ⟨sents, behind⟩ := sents_legible (fun _ _ => trivial) (fun _ _ => trivial)
    (details _ hr) (details _ hs) lines
  obtain ⟨receivers, rest⟩ := receivers_legible ha hb hr.2 hs.2 behind
  exact ⟨BlockOutline.ext id kind afterVertex entries exits sents receivers, rest⟩

theorem blocks_legible : Legible (fun blocks : List BlockOutline => ∀ b ∈ blocks, b.OneLine)
    (· = "\x7d\n".toList) (joinedText BlockOutline.text) := by
  apply BlockOutline.text_legible.joined "  bb"
  · intro b
    unfold BlockOutline.text blockName
    simp
  · intro r begun
    exact ⟨not_prefix_of_apart (by simp) begun, not_prefix_of_apart (by simp) begun⟩
  · rintro r rfl
    exact ⟨by simp [NoDetail], by simp⟩

def Outline.OneLine (o : Outline) : Prop := '\n' ∉ o.name.toList ∧ ∀ b ∈ o.blocks, b.OneLine

/-- A text is that of one outline only, if no name in it breaks a line. -/
theorem Outline.text_inj {o o' : Outline} (h : o.OneLine) (h' : o'.OneLine) (same : o.text = o'.text) :
    o = o' := by
  have header : ∀ {name : String}, '\n' ∉ name.toList → '\n' ∉ name.toList ++ " (entry".toList := by
    intro name hn
    simp [hn]
  have texts := congrArg String.toList same
  unfold text at texts
  simp only [String.toList_append, List.append_assoc, List.append_cancel_left_eq] at texts
  -- the name may hold the words that follow it, so the first line is cut from its end
  obtain ⟨front, last, behind⟩ := cut_line ") \x7b".toList (header h.1) (header h'.1)
    (entryText_isWord o.entry) (entryText_isWord o'.entry) (by simp) (by simpa using texts)
  have name : o.name = o'.name := String.toList_inj.mp (List.append_cancel_right front)
  have entry : o.entry = o'.entry := keyText_inj (by simp) last
  obtain ⟨blocks, -⟩ := blocks_legible h.2 h'.2 rfl rfl behind
  exact Outline.ext name entry blocks

end Reading

namespace Procedure

variable {p q : Procedure} {strings strings' : StringPool}

/-- No name that a listing shows breaks a line. -/
def OneLine (p : Procedure) (strings : StringPool) : Prop :=
  '\n' ∉ p.name.toList ∧ ∀ symbol declaration name, p.ast.symbol symbol = .ok declaration →
    strings.get declaration.name = .ok name → '\n' ∉ name.toList

theorem receiverOutline_oneLine (h : p.OneLine strings) {unit : CommUnit} {x : ReceiverOutline}
    (hx : p.receiverOutline strings unit = .ok x) : x.OneLine := by
  cases unit with
  | nested loop =>
    cases hx
    trivial
  | randomWrite host symbol =>
    obtain ⟨declaration, found, hx⟩ := except_bind_ok.mp hx
    obtain ⟨name, stored, hx⟩ := except_bind_ok.mp hx
    cases hx
    exact h.2 symbol declaration name found stored

theorem blockOutline_oneLine (h : p.OneLine strings) {b : Block} {x : BlockOutline}
    (hx : p.blockOutline strings b = .ok x) : x.OneLine := by
  obtain ⟨data, -, hx⟩ := except_bind_ok.mp hx
  obtain ⟨entries, -, hx⟩ := except_bind_ok.mp hx
  obtain ⟨exits, -, hx⟩ := except_bind_ok.mp hx
  obtain ⟨sents, -, hx⟩ := except_bind_ok.mp hx
  obtain ⟨receivers, read, hx⟩ := except_bind_ok.mp hx
  cases hx
  intro y hy
  obtain ⟨unit, -, shown⟩ := except_mapM_mem read y hy
  exact receiverOutline_oneLine h shown

theorem outline_oneLine (h : p.OneLine strings) {o : Outline} (ho : p.outline strings = .ok o) :
    o.OneLine := by
  obtain ⟨entry, -, ho⟩ := except_bind_ok.mp ho
  obtain ⟨blocks, read, ho⟩ := except_bind_ok.mp ho
  cases ho
  refine ⟨h.1, fun y hy => ?_⟩
  obtain ⟨b, -, shown⟩ := except_mapM_mem read y hy
  exact blockOutline_oneLine h shown

theorem outline_of_listing {t : String} (h : p.listing strings = .ok t) :
    ∃ o, p.outline strings = .ok o ∧ o.text = t := by
  rw [listing_eq] at h
  cases ho : p.outline strings with
  | error e =>
    rw [ho] at h
    cases h
  | ok o =>
    rw [ho] at h
    cases h
    exact ⟨o, rfl, rfl⟩

/-- Procedures with the same listing show the same: their names, their entries and, block by block,
all that a line says. The names may hold anything but a line break. -/
theorem same_outline_of_same_listing {t : String} (hp : p.listing strings = .ok t)
    (hq : q.listing strings' = .ok t) (namesP : p.OneLine strings) (namesQ : q.OneLine strings') :
    ∃ o, p.outline strings = .ok o ∧ q.outline strings' = .ok o := by
  obtain ⟨o, ho, text⟩ := outline_of_listing hp
  obtain ⟨o', ho', text'⟩ := outline_of_listing hq
  have same : o = o' := Outline.text_inj (outline_oneLine namesP ho) (outline_oneLine namesQ ho')
    (text.trans text'.symm)
  exact ⟨o, ho, same ▸ ho'⟩

/-- One superstep that receives a write. The string pool has the name of its symbol under the given
handle, and all names look like other parts of a line. -/
def receiving (handle : Str) : Procedure where
  name := "sum (entry none) \x7b"
  key := Key.wrap 0
  ast :=
    { stmts := Table.ofList [.block []]
      symbols := Table.ofList [⟨handle, .scalar⟩] }
  graph :=
    { blocks := Table.ofList
        [{ id := Key.wrap 12, kind := .beginVertex, entries := [Key.wrap 0, Key.wrap 0],
           exits := [Key.wrap 0], sents := [Key.wrap 0],
           receivers := [.randomWrite (Key.wrap 4) (Key.wrap 0)] }]
      layout := [Key.wrap 0]
      entry := ⟨Key.wrap 0⟩ }

def receivingText : String :=
  "procedure sum (entry none) \x7b (entry bb12) \x7b\n" ++
    "  bb12 begin-vertex <- bb12, bb12 -> bb12\n" ++
    "    sent s0 block\n" ++
    "    recv random-write s4 to x to y comm#0 unregistered\n\x7d\n"

theorem receiving_oneLine {handle : Str} (stored : strings.get handle = .ok "x to y comm#0") :
    (receiving handle).OneLine strings := by
  refine ⟨by simp [receiving], fun symbol declaration name found read => ?_⟩
  have lookup := Table.get_ok.mp found
  rw [Table.get?_eq_values] at lookup
  have declared : declaration = ⟨handle, .scalar⟩ := List.mem_singleton.mp (List.mem_of_getElem? lookup)
  rw [declared, stored] at read
  cases read
  simp

/-- The symbol has another handle in the second pool, which the listing does not show. -/
theorem same_outline_of_receiving :
    (receiving (Key.wrap 0)).listing (.ofList ["x to y comm#0"]) = .ok receivingText ∧
      (receiving (Key.wrap 1)).listing (.ofList ["", "x to y comm#0"]) = .ok receivingText ∧
      ∃ o, (receiving (Key.wrap 0)).outline (.ofList ["x to y comm#0"]) = .ok o ∧
        (receiving (Key.wrap 1)).outline (.ofList ["", "x to y comm#0"]) = .ok o := by
  have first : (receiving (Key.wrap 0)).listing (.ofList ["x to y comm#0"]) = .ok receivingText := by
    decide +kernel
  have second : (receiving (Key.wrap 1)).listing (.ofList ["", "x to y comm#0"]) = .ok receivingText := by
    decide +kernel
  exact ⟨first, second, same_outline_of_same_listing first second
    (receiving_oneLine (by decide +kernel)) (receiving_oneLine (by decide +kernel))⟩

end Procedure

end Superstep
