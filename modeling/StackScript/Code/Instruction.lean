import StackScript.ValueType

/-!
# Instructions

The instructions of the stack machine.  Each has an opcode and at most one operand.  While code is
being put together its jumps and calls name labels; finished code has offsets in their place, and a
call may stay without a target until the units are linked.
-/

namespace StackScript

/-- What an instruction does, but for its operand. -/
inductive Opcode where
  /-- Push a constant. -/
  | loadConst
  /-- Push an immediate integer. -/
  | pushInt
  | loadUndefined
  | loadTrue
  | loadFalse
  /-- Drop the top value. -/
  | pop
  /-- Push the top value again. -/
  | dup
  /-- Push a copy of the value `n` entries below the top. -/
  | dupN
  /-- Replace the top value with a deep copy of it. -/
  | copy
  | add
  | sub
  | mul
  | div
  | mod
  | concat
  | neg
  | eq
  | ne
  | lt
  | le
  | gt
  | ge
  | not
  | loadLocal
  /-- Pop into a local variable. -/
  | storeLocal
  | jump
  /-- Pop a value, and jump if it is false. -/
  | jumpIfFalse
  /-- Pop `b`, pop `a`, and jump if `a ≥ b`. -/
  | jumpIfGreaterOrEqual
  | call
  | callBuiltin
  | ret
  /-- Reserve the slots of a subroutine. -/
  | pushFrame
  /-- Convert the top value to a type, or fail. -/
  | toCompatible
  /-- Push an array of copies of the top `n` values, which stay. -/
  | makeArgArray
  /-- Pop `n` values into an array, and push it. -/
  | boxArray
  /-- Pop an index and an array, and push the element. -/
  | arrayGet
  /-- Mark a place for a debugger. -/
  | checkpoint
  | halt
  deriving DecidableEq, Repr, Inhabited

/-- The subroutines that the machine itself provides. -/
inductive Builtin where
  | print
  | say
  | elems
  | push
  | pop
  | shift
  | substr
  | length
  deriving DecidableEq, Repr, Inhabited

namespace Builtin

/-- The name a script calls it by. -/
def name : Builtin → String
  | .print => "print"
  | .say => "say"
  | .elems => "elems"
  | .push => "push"
  | .pop => "pop"
  | .shift => "shift"
  | .substr => "substr"
  | .length => "length"

/-- The builtins, in the order of their declaration. -/
def all : List Builtin := [.print, .say, .elems, .push, .pop, .shift, .substr, .length]

/-- The builtin that scripts call by this name. -/
def ofName? (name : String) : Option Builtin := all.find? fun b => b.name == name

/-- The static type of its result. -/
def resultType : Builtin → ValueType
  | .elems | .length => .int
  | .substr => .str
  | .print | .say => .bool
  | .push | .pop | .shift => .unknown

end Builtin

/-- A place in the code that is known by number before it is known by offset. -/
structure Label where
  id : UInt32
  deriving DecidableEq, Repr, Inhabited

/-- The slot of a local variable in its subroutine's frame. -/
abbrev Slot := UInt16

/-- Where a call goes. -/
inductive CallTarget where
  /-- A subroutine of the same unit, not yet placed. -/
  | label (label : Label)
  | address (offset : Nat)
  /-- A subroutine of another unit, to be found when the units are linked. -/
  | unresolved
  deriving DecidableEq, Repr, Inhabited

/-- What an instruction is about besides the values on the stack. -/
inductive Operand where
  | constant (index : UInt16)
  | int (value : Int64)
  | slot (slot : Slot)
  | count (count : UInt16)
  | label (label : Label)
  | offset (offset : Nat)
  | call (target : CallTarget) (argc : UInt8)
  | builtin (builtin : Builtin) (argc : UInt8)
  | frame (params locals : UInt16)
  | type (type : ValueType)
  deriving DecidableEq, Repr, Inhabited

/-- One step of the machine. -/
structure Instruction where
  opcode : Opcode
  operand : Option Operand := none
  deriving DecidableEq, Repr, Inhabited

namespace Instruction

/-- An instruction without an operand. -/
def bare (op : Opcode) : Instruction := { opcode := op }

/-- Push the constant with this index. -/
def loadConst (index : UInt16) : Instruction := ⟨.loadConst, some (.constant index)⟩

/-- Push this integer. -/
def pushInt (value : Int64) : Instruction := ⟨.pushInt, some (.int value)⟩

/-- Push a truth value. -/
def pushBool (value : Bool) : Instruction := bare (if value then .loadTrue else .loadFalse)

/-- Push a copy of the value this many entries below the top. -/
def dupN (depth : UInt16) : Instruction := ⟨.dupN, some (.count depth)⟩

/-- Push the value in the slot. -/
def load (s : Slot) : Instruction := ⟨.loadLocal, some (.slot s)⟩

/-- Pop a value into the slot. -/
def store (s : Slot) : Instruction := ⟨.storeLocal, some (.slot s)⟩

/-- Go on at the label. -/
def jump (l : Label) : Instruction := ⟨.jump, some (.label l)⟩

/-- Pop a value, and go on at the label if it is false. -/
def jumpIfFalse (l : Label) : Instruction := ⟨.jumpIfFalse, some (.label l)⟩

/-- Pop `b`, pop `a`, and go on at the label if `a ≥ b`. -/
def jumpIfGreaterOrEqual (l : Label) : Instruction := ⟨.jumpIfGreaterOrEqual, some (.label l)⟩

/-- A call of a subroutine of the same unit. -/
def call (l : Label) (argc : UInt8) : Instruction := ⟨.call, some (.call (.label l) argc)⟩

/-- A call of a subroutine that another unit provides. -/
def placeholderCall (argc : UInt8) : Instruction := ⟨.call, some (.call .unresolved argc)⟩

/-- Call a builtin with this many values from the stack. -/
def callBuiltin (b : Builtin) (argc : UInt8) : Instruction :=
  ⟨.callBuiltin, some (.builtin b argc)⟩

/-- Open the frame of a body, with slots for this many parameters and this many other variables. -/
def pushFrame (params locals : UInt16) : Instruction := ⟨.pushFrame, some (.frame params locals)⟩

/-- Convert the value on top of the stack to the type. -/
def toCompatible (t : ValueType) : Instruction := ⟨.toCompatible, some (.type t)⟩

/-- Pop this many values and push an array of them. -/
def boxArray (count : UInt16) : Instruction := ⟨.boxArray, some (.count count)⟩

/-- Push an array of copies of this many arguments, which stay, for `@_`. -/
def makeArgArray (count : UInt16) : Instruction := ⟨.makeArgArray, some (.count count)⟩

/-- The mark of a `checkpoint` call. -/
def checkpoint (id : Int64) : Instruction := ⟨.checkpoint, some (.int id)⟩

end Instruction

end StackScript
