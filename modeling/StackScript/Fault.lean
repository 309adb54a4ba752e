/-!
# Faults

What stops a compilation or a link without being an error in the script: a limit of the instruction
format, or a step that asks for something its builder never provided.
-/

namespace StackScript

/-- Why a program cannot be compiled or linked though no mistake has been found in it. -/
inductive Fault where
  /-- A subroutine needs more slots than a slot number can tell apart. -/
  | tooManyLocals
  /-- A unit needs more constants than an operand can tell apart. -/
  | tooManyConstants
  /-- A list literal has more items than an operand can count. -/
  | listTooLong
  /-- The constants of all units together are more than an operand can tell apart. -/
  | tooManyLinkedConstants
  | frameUnderflow
  | noOpenFrame
  | noSubroutineFrame
  | argumentOutsideSubroutine
  | labelMarkedTwice (label : UInt32)
  | unknownLabel (label : UInt32)
  | unmarkedLabel (label : UInt32)
  | noInstruction (offset : Nat)
  /-- A subroutine counts as emitted, and its label stands nowhere. -/
  | noEntryPoint (name : String)
  /-- A recorded call site holds no call. -/
  | noCall (offset : Nat) (unitName : String)
  deriving DecidableEq, Repr

namespace Fault

/-- What has gone wrong, in words. -/
def detail : Fault → String
  | .tooManyLocals => "too many local variables in subroutine"
  | .tooManyConstants => "too many constants in compilation unit"
  | .listTooLong => "list literal too long"
  | .tooManyLinkedConstants => "too many constants in program"
  | .frameUnderflow => "frame stack underflow"
  | .noOpenFrame => "no open frame"
  | .noSubroutineFrame => "no enclosing subroutine frame"
  | .argumentOutsideSubroutine => "argument bound outside a subroutine frame"
  | .labelMarkedTwice l => "label L" ++ toString l.toNat ++ " marked twice"
  | .unknownLabel l => "unknown label L" ++ toString l.toNat
  | .unmarkedLabel l => "label L" ++ toString l.toNat ++ " was never marked"
  | .noInstruction offset => "no instruction at offset " ++ toString offset
  | .noEntryPoint name => "subroutine `" ++ name ++ "' has no entry point"
  | .noCall offset unitName =>
    "no call instruction at offset " ++ toString offset ++ " in unit `" ++ unitName ++ "'"

/-- The message about a fault. -/
def message (f : Fault) : String := "internal compiler error: " ++ f.detail

end Fault

end StackScript
