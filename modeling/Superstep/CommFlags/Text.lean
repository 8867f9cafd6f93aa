import Superstep.CommFlags
import Superstep.Text.Blank

namespace Superstep

namespace CommFlags

/-- The bits that have no name. -/
def unnamed (f : CommFlags) : UInt8 :=
  named.foldl (fun bits flag => bits &&& ~~~flag.2.bits) f.bits

/-- The parts of the written form: the names of the set bits, then the other bits as one
hexadecimal number. -/
def parts (f : CommFlags) : List String :=
  (named.filter fun flag => f.contains flag.2).map (·.1) ++
    if f.unnamed = 0 then [] else ["0x" ++ String.ofList (Nat.toDigits 16 f.unnamed.toNat)]

/-- The written form. No bits are the empty text. -/
def text (f : CommFlags) : String := " | ".intercalate f.parts

/-- Divides a text at every bar. -/
def splitBars : List Char → List (List Char)
  | [] => [[]]
  | c :: rest =>
    if c = '|' then [] :: splitBars rest
    else
      match splitBars rest with
      | first :: others => (c :: first) :: others
      | [] => [[c]]

def hexDigit? (c : Char) : Option Nat :=
  if '0' ≤ c ∧ c ≤ '9' then some (c.toNat - '0'.toNat)
  else if 'a' ≤ c ∧ c ≤ 'f' then some (c.toNat - 'a'.toNat + 10)
  else if 'A' ≤ c ∧ c ≤ 'F' then some (c.toNat - 'A'.toNat + 10)
  else none

/-- Reads hexadecimal digits of a number that eight bits can hold. -/
def hexByte? (digits : List Char) : Option UInt8 := do
  if digits.isEmpty then none
  let value ← digits.foldlM (fun n c => do
    let digit ← hexDigit? c
    let value := 16 * n + digit
    if value < 256 then some value else none) 0
  return value.toUInt8

/-- Reads one part: a name, or `0x` and a hexadecimal number that may have a plus sign. -/
def ofPart? (part : List Char) : Option CommFlags :=
  match part with
  | '0' :: 'x' :: '+' :: digits => (hexByte? digits).map (⟨·⟩)
  | '0' :: 'x' :: digits => (hexByte? digits).map (⟨·⟩)
  | _ => (named.find? fun flag => flag.1.toList = part).map (·.2)

/-- Reads the written form. Blanks around the parts do not count, and a text of blanks is no bits. -/
def ofText? (s : String) : Option CommFlags :=
  if (trimBlanks s.toList).isEmpty then some {}
  else do
    let flags ← (splitBars s.toList).mapM fun part => ofPart? (trimBlanks part)
    return flags.foldl union {}

end CommFlags

end Superstep
