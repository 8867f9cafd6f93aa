import Superstep.Block.Json
import Superstep.Statement.Json
import Superstep.Proofs.FlagText

namespace Superstep

/-- Values are read back from their JSON form. -/
class LawfulJsonForm (α : Type) [JsonForm α] : Prop where
  read_written : ∀ a : α, ofJson? (toJson a) = some a

export LawfulJsonForm (read_written)

attribute [simp] read_written

instance : LawfulJsonForm Bool := ⟨fun _ => rfl⟩

instance {label : String} {last : Nat} : LawfulJsonForm (Key label last) := ⟨Key.ofNat?_index⟩

/-- An optional key is written as the number that it holds, whether that means a key or none. -/
instance {label : String} {last : Nat} : LawfulJsonForm (Packed label last) where
  read_written p := by
    show (ofJson? (toJson p.raw)).map Packed.mk = some p
    simp

instance {α : Type} [JsonForm α] [LawfulJsonForm α] : LawfulJsonForm (List α) where
  read_written as := by
    have read : (as.map toJson).mapM ofJson? = some (as.map fun a => a) :=
      mapM_map_some fun a _ => read_written a
    rwa [List.map_id'] at read

instance {K V : Type} [JsonForm V] [LawfulJsonForm V] : LawfulJsonForm (Table K V) where
  read_written t := by
    show (ofJson? (toJson t.values)).map Table.ofList = some t
    simp [Table.ofList, Table.values]

section Statements

instance : LawfulJsonForm IterKind where
  read_written k := by cases k <;> decide

instance : LawfulJsonForm SymbolKind where
  read_written k := by cases k <;> decide

instance : LawfulJsonForm CommFlags := ⟨CommFlags.ofText?_text⟩

instance : LawfulJsonForm LoopRole where
  read_written role := by
    cases role with
    | unclassified => rfl
    | inner => rfl
    | outer flags =>
      show (ofJson? (toJson flags)).map LoopRole.outer = some (.outer flags)
      simp

instance : LawfulJsonForm Declaration where
  read_written d := by
    show (do return { name := ← ofJson? (toJson d.name), kind := ← ofJson? (toJson d.kind) }) = some d
    simp

instance : LawfulJsonForm FieldAccess where
  read_written a := by
    show (do return {
      driver := ← ofJson? (toJson a.driver)
      property := ← ofJson? (toJson a.property) }) = some a
    simp

instance : LawfulJsonForm AssignTarget where
  read_written target := by
    cases target with
    | scalar symbol =>
      show (ofJson? (toJson symbol)).map AssignTarget.scalar = some (.scalar symbol)
      simp
    | field access =>
      show (ofJson? (toJson access)).map AssignTarget.field = some (.field access)
      simp

instance : LawfulJsonForm Foreach where
  read_written f := by
    show (do return {
      iterator := ← ofJson? (toJson f.iterator)
      source := ← ofJson? (toJson f.source)
      iter := ← ofJson? (toJson f.iter)
      body := ← ofJson? (toJson f.body)
      role := ← ofJson? (toJson f.role) }) = some f
    simp

instance : LawfulJsonForm Assign where
  read_written a := by
    show (do return {
      target := ← ofJson? (toJson a.target)
      rhs := ← ofJson? (toJson a.rhs)
      randomWrite := ← ofJson? (toJson a.randomWrite) }) = some a
    simp

instance : LawfulJsonForm Branch where
  read_written b := by
    show (do return {
      cond := ← ofJson? (toJson b.cond)
      positive := ← ofJson? (toJson b.positive)
      negative := ← ofJson? (toJson b.negative) }) = some b
    simp

instance : LawfulJsonForm Loop where
  read_written l := by
    show (do return { cond := ← ofJson? (toJson l.cond), body := ← ofJson? (toJson l.body) }) = some l
    simp

instance : LawfulJsonForm Statement where
  read_written statement := by
    cases statement with
    | block stmts =>
      show (ofJson? (toJson stmts)).map Statement.block = some (.block stmts)
      simp
    | «foreach» f =>
      show (ofJson? (toJson f)).map Statement.foreach = some (.foreach f)
      simp
    | assign a =>
      show (ofJson? (toJson a)).map Statement.assign = some (.assign a)
      simp
    | branch b =>
      show (ofJson? (toJson b)).map Statement.branch = some (.branch b)
      simp
    | loop l =>
      show (ofJson? (toJson l)).map Statement.loop = some (.loop l)
      simp
    | verbatim text =>
      show (ofJson? (toJson text)).map Statement.verbatim = some (.verbatim text)
      simp

instance : LawfulJsonForm Ast where
  read_written ast := by
    show (do return {
      stmts := ← ofJson? (toJson ast.stmts)
      symbols := ← ofJson? (toJson ast.symbols)
      body := ← ofJson? (toJson ast.body) }) = some ast
    simp

end Statements

section Blocks

instance : LawfulJsonForm BlockKind where
  read_written k := by cases k <;> decide

instance : LawfulJsonForm CommUnit where
  read_written unit := by
    cases unit with
    | nested loop =>
      show (ofJson? (toJson loop)).map CommUnit.nested = some (.nested loop)
      simp
    | randomWrite host symbol =>
      show (do return CommUnit.randomWrite (← ofJson? (toJson host)) (← ofJson? (toJson symbol))) =
        some (.randomWrite host symbol)
      simp

instance : LawfulJsonForm BlockData where
  read_written b := by
    show (do return {
      id := ← ofJson? (toJson b.id)
      kind := ← ofJson? (toJson b.kind)
      afterVertex := ← ofJson? (toJson b.afterVertex)
      entries := ← ofJson? (toJson b.entries)
      exits := ← ofJson? (toJson b.exits)
      sents := ← ofJson? (toJson b.sents)
      receivers := ← ofJson? (toJson b.receivers) }) = some b
    simp

end Blocks

/-- Every syntax tree and every block is read back from its JSON form as it was written, so that
whatever is asked of the value that was read has the answer it had before. -/
theorem ast_block_read_written :
    (∀ ast : Ast, ofJson? (toJson ast) = some ast) ∧
      ∀ block : BlockData, ofJson? (toJson block) = some block :=
  ⟨read_written, read_written⟩

end Superstep
