namespace Superstep

/-- Why an operation stops before its end. A fault is a broken promise of the caller or of an
earlier stage, and what the operation changed before it stays changed. -/
inductive Fault where
  /-- An index is too large for the width of its keys. -/
  | indexTooWide
  /-- More room was asked for than memory can address. -/
  | noRoom
  /-- A key names no slot of its table. -/
  | missingSlot
  /-- Two slots were asked for together, and they are one slot. -/
  | sameSlotTwice
  /-- Two slots were asked for together, and one of them does not exist. -/
  | missingPair
  /-- The key that stands for "none" was to be stored as a present key. -/
  | reservedKey
  /-- A handle names no string of the pool. -/
  | missingString
  /-- A block was to be listed a second time. -/
  | listedTwice
  /-- A statement that is no assignment was to be flagged as a random write. -/
  | notAnAssignment
  /-- A statement that is no loop was to be treated as one. -/
  | notALoop
  /-- A program already has a procedure of this name. -/
  | nameTaken
  /-- The stream of a procedure writer takes no text. -/
  | procedureUnwritten
  /-- The stream of a program writer takes no text. -/
  | programUnwritten
  /-- A statement tree is deeper than the number of statements that keys can tell apart. -/
  | endlessTree
  | unknownPass (name : String)
  | brokenProcedure (procedure reason : String)
  | failedVerification (procedure : String)
deriving DecidableEq, Inhabited

/-- The text of a fault, for those that have one. -/
def Fault.text? : Fault → Option String
  | indexTooWide => some "index is not representable with key type"
  | missingSlot => some "tried to access invalid key on `ArenaMap`"
  | sameSlotTwice => some "tried to mutably borrow the same `ArenaMap` slot twice"
  | reservedKey => some "cannot pack the reserved value"
  | listedTwice => some "block registered twice"
  | notAnAssignment => some "only assignments can be random writes"
  | nameTaken => some "assertion failed: self.find_procedure_by_name(name).is_none()"
  | procedureUnwritten => some "unable to write procedure to writer"
  | programUnwritten => some "unable to write program to writer"
  | unknownPass name => some ("unknown pass `" ++ name ++ "`")
  | brokenProcedure procedure reason =>
    some ("internal compiler error in `" ++ procedure ++ "`: " ++ reason)
  | failedVerification procedure => some ("procedure `" ++ procedure ++ "` failed verification")
  | noRoom | missingPair | missingString | notALoop | endlessTree => none

end Superstep
