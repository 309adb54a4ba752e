import StackScript.Code.Instruction
import StackScript.Double.Basic
import StackScript.Step

/-!
# Chunks of code

A chunk is a sequence of instructions with the pool of constants they load.  A constant is pooled
once: `Chunk.addConstant` yields the first entry that equals it, and adds an entry only if there is
none.
-/

namespace StackScript

/-- A value that code loads by its index in the pool. -/
inductive Constant where
  | num (value : Double)
  | str (value : String)
  deriving DecidableEq, Repr, Inhabited

/-- Equality of constants: numbers are compared as numbers. -/
def Constant.equals : Constant → Constant → Bool
  | .num x, .num y => x.equals y
  | .str s, .str t => s == t
  | _, _ => false

/-- Code and the pool of constants that it loads from. -/
structure Chunk where
  instructions : Array Instruction := #[]
  constants : Array Constant := #[]
  deriving DecidableEq, Repr, Inhabited

namespace Chunk

/-- How many instructions there are, which is the offset of the next one. -/
def size (c : Chunk) : Nat := c.instructions.size

/-- Adds an instruction at the end of the code. -/
def emit (c : Chunk) (i : Instruction) : Chunk :=
  { c with instructions := c.instructions.push i }

/-- The pool entry of a constant, which is added if it is not there.  An operand has sixteen bits
for the entry, so a new entry beyond the first 65536 is refused, and an old one loses its higher
bits. -/
def addConstant (v : Constant) : Step Chunk UInt16 := fun c =>
  match c.constants.findIdx? (·.equals v) with
  | some index => (.ok index.toUInt16, c)
  | none =>
    let index := c.constants.size
    if index < UInt16.size then (.ok index.toUInt16, { c with constants := c.constants.push v })
    else (.error .tooManyConstants, c)

/-- How many instructions have the given opcode. -/
def count (c : Chunk) (op : Opcode) : Nat := c.instructions.countP (·.opcode = op)

end Chunk

end StackScript
