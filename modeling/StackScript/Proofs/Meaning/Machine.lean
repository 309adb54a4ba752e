import Mathlib.Logic.Relation
import StackScript.Code.Draft
import StackScript.Tree.Basic

/-!
# The stack machine

What finished code does.  The machine knows nothing of values but what an interpretation of the
value primitives tells it: what a constant stands for, what the operators and builtins make of their
arguments, and which values are true.  A primitive may fail, and then the machine stops.

* `Machine.step`: one instruction.
* `Machine.Goes`: any number of instructions.
-/

namespace StackScript

/-- What values are, and what the primitives make of them. -/
structure Interpretation (V : Type) where
  int : Int → V
  num : Double → V
  str : String → V
  bool : Bool → V
  undefined : V
  binary : BinaryOp → V → V → Option V
  unary : UnaryOp → V → Option V
  truthy : V → Bool
  /-- An array of the given elements. -/
  box : List V → V
  /-- The number of elements, if the value is an array. -/
  length? : V → Option Nat
  /-- The element of an array at an index. -/
  index : V → V → Option V
  builtin : Builtin → List V → Option V
  /-- A deep copy. -/
  copy : V → V
  convert : ValueType → V → Option V

namespace Interpretation

variable {V : Type}

/-- The value of an entry of the pool. -/
def constant (I : Interpretation V) : Constant → V
  | .num x => I.num x
  | .str s => I.str s

/-- The numbers that a loop over an array counts with act as integers: `elems` yields the number of
elements, and up to it adding one and `>=` do what they do to integers. -/
structure Counts (I : Interpretation V) : Prop where
  elems {v : V} {n : Nat} : I.length? v = some n → I.builtin .elems [v] = some (I.int n)
  succ {v : V} {n i : Nat} : I.length? v = some n → i < n →
    I.binary .add (I.int i) (I.int 1) = some (I.int (i + 1 : Nat))
  reached {v : V} {n i : Nat} : I.length? v = some n → i ≤ n →
    ∃ r, I.binary .greaterEqual (I.int i) (I.int n) = some r ∧ I.truthy r = decide (n ≤ i)

end Interpretation

/-- Where a subroutine goes on when a call returns. -/
structure Caller (V : Type) where
  pc : Nat
  stack : List V
  locals : List V

/-- A state of the machine: the offset of the next instruction, the operand stack of the current
activation with the top first, its local variables, and the activations around it. -/
structure Machine (V : Type) where
  pc : Nat
  stack : List V
  locals : List V
  callers : List (Caller V)

/-- The operator that an opcode computes. -/
def Opcode.binary? : Opcode → Option BinaryOp
  | .add => some .add
  | .sub => some .subtract
  | .mul => some .multiply
  | .div => some .divide
  | .mod => some .modulo
  | .concat => some .concat
  | .eq => some .equal
  | .ne => some .notEqual
  | .lt => some .less
  | .le => some .lessEqual
  | .gt => some .greater
  | .ge => some .greaterEqual
  | _ => none

namespace Machine

variable {V : Type}

/-! ### Single instructions -/

/-- Goes on behind the instruction with another stack. -/
def next (m : Machine V) (stack : List V) : Machine V := { m with pc := m.pc + 1, stack }

/-- Puts a value on the stack. -/
def push (m : Machine V) (v : V) : Machine V := m.next (v :: m.stack)

/-- Replaces the top value with what `f` makes of it. -/
def unary (m : Machine V) (f : V → Option V) : Option (Machine V) :=
  match m.stack with
  | a :: rest => (f a).map fun v => m.next (v :: rest)
  | _ => none

/-- Replaces the top two values with what `f` makes of them, the lower one first. -/
def binary (m : Machine V) (f : V → V → Option V) : Option (Machine V) :=
  match m.stack with
  | b :: a :: rest => (f a b).map fun v => m.next (v :: rest)
  | _ => none

/-- Goes on with the top `n` values, the top first, and with the others. -/
def taking (m : Machine V) (n : Nat) (f : List V → List V → Option (Machine V)) :
    Option (Machine V) :=
  if n ≤ m.stack.length then f (m.stack.take n) (m.stack.drop n) else none

/-- Takes the top value and goes to `n` if it is false. -/
def jumpIfFalse (I : Interpretation V) (m : Machine V) (n : Nat) : Option (Machine V) :=
  match m.stack with
  | v :: rest => some (if I.truthy v then m.next rest else { m with pc := n, stack := rest })
  | _ => none

/-- Takes the top two values and goes to `n` if the lower one is greater than the upper or equal. -/
def jumpIfGreaterOrEqual (I : Interpretation V) (m : Machine V) (n : Nat) : Option (Machine V) :=
  match m.stack with
  | b :: a :: rest => (I.binary .greaterEqual a b).map fun v =>
    if I.truthy v then { m with pc := n, stack := rest } else m.next rest
  | _ => none

/-- Takes the top value into a local variable. -/
def store (m : Machine V) (n : Nat) : Option (Machine V) :=
  match m.stack with
  | v :: rest =>
    if n < m.locals.length then some { m.next rest with locals := m.locals.set n v } else none
  | _ => none

/-- Goes back to the caller with the top value. -/
def ret (m : Machine V) : Option (Machine V) :=
  match m.stack, m.callers with
  | v :: _, caller :: callers =>
    some { pc := caller.pc, stack := v :: caller.stack, locals := caller.locals, callers }
  | _, _ => none

/-- What an instruction with this opcode and this operand does.  A call passes the values it takes,
the top one as the first; a frame keeps as many of them as there are parameters. -/
def execute (I : Interpretation V) (c : Chunk) (m : Machine V) :
    Opcode → Option Operand → Option (Machine V)
  | .loadConst, some (.constant index) =>
    c.constants[index.toNat]?.map fun v => m.push (I.constant v)
  | .pushInt, some (.int n) => some (m.push (I.int n.toInt))
  | .loadUndefined, _ => some (m.push I.undefined)
  | .loadTrue, _ => some (m.push (I.bool true))
  | .loadFalse, _ => some (m.push (I.bool false))
  | .pop, _ => m.taking 1 fun _ rest => some (m.next rest)
  | .dup, _ => m.stack[0]?.map m.push
  | .dupN, some (.count n) => m.stack[n.toNat]?.map m.push
  | .copy, _ => m.unary fun v => some (I.copy v)
  | .neg, _ => m.unary (I.unary .minus)
  | .not, _ => m.unary (I.unary .not)
  | .loadLocal, some (.slot s) => m.locals[s.toNat]?.map m.push
  | .storeLocal, some (.slot s) => m.store s.toNat
  | .jump, some (.offset n) => some { m with pc := n }
  | .jumpIfFalse, some (.offset n) => jumpIfFalse I m n
  | .jumpIfGreaterOrEqual, some (.offset n) => jumpIfGreaterOrEqual I m n
  | .call, some (.call (.address t) argc) => m.taking argc.toNat fun args rest =>
    some ⟨t, [], args, ⟨m.pc + 1, rest, m.locals⟩ :: m.callers⟩
  | .callBuiltin, some (.builtin b argc) => m.taking argc.toNat fun args rest =>
    (I.builtin b args).map fun v => m.next (v :: rest)
  | .ret, _ => m.ret
  | .pushFrame, some (.frame params locals) =>
    if params.toNat ≤ m.locals.length then
      some { m.next m.stack with
        locals := m.locals.take params.toNat ++ List.replicate locals.toNat I.undefined }
    else none
  | .toCompatible, some (.type t) => m.unary (I.convert t)
  | .makeArgArray, some (.count n) => m.taking n.toNat fun args _ =>
    some (m.push (I.box (args.map I.copy)))
  | .boxArray, some (.count n) => m.taking n.toNat fun items rest =>
    some (m.next (I.box items.reverse :: rest))
  | .arrayGet, _ => m.binary I.index
  | .checkpoint, _ => some (m.next m.stack)
  | op, _ => op.binary?.bind fun o => m.binary (I.binary o)

/-- One instruction; nothing where the machine stops. -/
def step (I : Interpretation V) (c : Chunk) (m : Machine V) : Option (Machine V) :=
  c.instructions[m.pc]?.bind fun i => m.execute I c i.opcode i.operand

/-- The machine gets from one state to the other. -/
def Goes (I : Interpretation V) (c : Chunk) : Machine V → Machine V → Prop :=
  Relation.ReflTransGen fun m m' => m.step I c = some m'

/-! ### Runs -/

/-- One instruction is executed. -/
theorem Goes.one {I : Interpretation V} {c : Chunk} {m m' : Machine V} {i : Instruction}
    (hi : c.instructions[m.pc]? = some i) (h : m.execute I c i.opcode i.operand = some m') :
    Goes I c m m' :=
  .single (by simp [step, hi, h])

theorem Goes.trans {I : Interpretation V} {c : Chunk} {m m₁ m' : Machine V} (h₁ : Goes I c m m₁)
    (h₂ : Goes I c m₁ m') : Goes I c m m' :=
  Relation.ReflTransGen.trans h₁ h₂

end Machine

end StackScript
