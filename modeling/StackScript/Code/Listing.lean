import StackScript.Code.Chunk
import StackScript.Double.Shortest
import StackScript.Text.Quoted

/-!
# Listings

A chunk as text, one instruction a line, with its offset before it and the constant it loads behind
it.
-/

namespace StackScript

/-- The name of an opcode in listings and in the interchange format. -/
def Opcode.name : Opcode → String
  | .loadConst => "LoadConst"
  | .pushInt => "PushInt"
  | .loadUndefined => "LoadUndef"
  | .loadTrue => "LoadTrue"
  | .loadFalse => "LoadFalse"
  | .pop => "Pop"
  | .dup => "Dup"
  | .dupN => "DupN"
  | .copy => "Copy"
  | .add => "Add"
  | .sub => "Sub"
  | .mul => "Mul"
  | .div => "Div"
  | .mod => "Mod"
  | .concat => "Concat"
  | .neg => "Neg"
  | .eq => "Eq"
  | .ne => "Ne"
  | .lt => "Lt"
  | .le => "Le"
  | .gt => "Gt"
  | .ge => "Ge"
  | .not => "Not"
  | .loadLocal => "LoadLocal"
  | .storeLocal => "StoreLocal"
  | .jump => "Jump"
  | .jumpIfFalse => "JumpIfFalse"
  | .jumpIfGreaterOrEqual => "JumpIfGreaterOrEqual"
  | .call => "Call"
  | .callBuiltin => "CallBuiltin"
  | .ret => "Return"
  | .pushFrame => "PushFrame"
  | .toCompatible => "ToCompatible"
  | .makeArgArray => "MakeArgArray"
  | .boxArray => "BoxArray"
  | .arrayGet => "ArrayGet"
  | .checkpoint => "Checkpoint"
  | .halt => "Halt"

/-- The opcodes, in the order of their declaration. -/
def Opcode.all : List Opcode :=
  [.loadConst, .pushInt, .loadUndefined, .loadTrue, .loadFalse, .pop, .dup, .dupN, .copy, .add, .sub,
    .mul, .div, .mod, .concat, .neg, .eq, .ne, .lt, .le, .gt, .ge, .not, .loadLocal, .storeLocal,
    .jump, .jumpIfFalse, .jumpIfGreaterOrEqual, .call, .callBuiltin, .ret, .pushFrame,
    .toCompatible, .makeArgArray, .boxArray, .arrayGet, .checkpoint, .halt]

/-- An offset with at least five digits. -/
def offsetText (offset : Nat) : String :=
  let digits := Nat.toDigits 10 offset
  String.ofList (List.replicate (5 - digits.length) '0' ++ digits)

/-- A label as listings show it. -/
def Label.text (l : Label) : String := "L" ++ toString l.id.toNat

/-- The target of a call as listings show it. -/
def CallTarget.text : CallTarget → String
  | .label l => l.text
  | .address offset => "@" ++ offsetText offset
  | .unresolved => "<unresolved>"

/-- The number of arguments behind the target of a call. -/
def argsText (argc : UInt8) : String := " (" ++ toString argc.toNat ++ " args)"

/-- An operand as listings show it. -/
def Operand.text : Operand → String
  | .constant index => "#" ++ toString index.toNat
  | .int value => toString value.toInt
  | .slot s => "$" ++ toString s.toNat
  | .count n => toString n.toNat
  | .label l => l.text
  | .offset o => "@" ++ offsetText o
  | .call target argc => target.text ++ argsText argc
  | .builtin b argc => b.name ++ argsText argc
  | .frame params locals =>
    toString params.toNat ++ " params, " ++ toString locals.toNat ++ " locals"
  | .type t => t.text

/-- An instruction as listings show it: its opcode, and its operand if it has one. -/
def Instruction.text (i : Instruction) : String :=
  match i.operand with
  | none => i.opcode.name
  | some operand => i.opcode.name ++ " " ++ operand.text

/-- A constant as the comments of a listing show it. -/
def Constant.text : Constant → String
  | .num x => x.text
  | .str s => Text.quoted s

namespace Chunk

/-- The constant an instruction loads, if the pool has it. -/
def loaded? (c : Chunk) (i : Instruction) : Option Constant :=
  match i.opcode, i.operand with
  | .loadConst, some (.constant index) => c.constants[index.toNat]?
  | _, _ => none

/-- The line of an instruction: its offset, the instruction, and the constant that it loads. -/
def line (c : Chunk) (offset : Nat) (i : Instruction) : String :=
  let comment := match c.loaded? i with
    | some v => "  ; " ++ v.text
    | none => ""
  offsetText offset ++ "  " ++ i.text ++ comment ++ "\n"

/-- The listing of the code, line by line. -/
def listing (c : Chunk) : String :=
  (c.instructions.foldl (fun (out, offset) i => (out ++ c.line offset i, offset + 1))
    ("", 0)).1

end Chunk

end StackScript
