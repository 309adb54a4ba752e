import StackScript.Code.Chunk

/-!
# Code in the making

A draft is a chunk whose jumps and calls may name labels.  A label is created unmarked, marked once
at the offset that the next instruction will get, and from then on stands for that offset;
`Draft.finish` puts the offsets in place of the labels.
-/

namespace StackScript

/-- Code that is not finished: jumps and calls in it may go to labels, which stand for offsets that are not
known yet. -/
structure Draft where
  chunk : Chunk := {}
  /-- The offset of each label, by number; none while it is unmarked. -/
  labels : Array (Option Nat) := #[]
  deriving DecidableEq, Repr, Inhabited

namespace Draft

/-- The offset of the next instruction. -/
def position (d : Draft) : Nat := d.chunk.size

/-! ### Labels -/

/-- The number of the next label.  Numbers have thirty-two bits and start over beyond. -/
def nextLabel (d : Draft) : Label := ⟨d.labels.size.toUInt32⟩

/-- A new label, unmarked. -/
def newLabel (d : Draft) : Label × Draft :=
  (d.nextLabel, { d with labels := d.labels.push none })

/-- A new label, marked here. -/
def newMarkedLabel (d : Draft) : Label × Draft :=
  (d.nextLabel, { d with labels := d.labels.push (some d.position) })

/-- Marks a label here. -/
def mark (l : Label) : Step Draft Unit := fun d =>
  match d.labels[l.id.toNat]? with
  | some none =>
    (.ok (), { d with labels := d.labels.setIfInBounds l.id.toNat (some d.position) })
  | some (some _) => (.error (.labelMarkedTwice l.id), d)
  | none => (.error (.unknownLabel l.id), d)

/-- The offset a label is marked at. -/
def offset? (d : Draft) (l : Label) : Option Nat := d.labels[l.id.toNat]?.join

/-! ### Instructions -/

/-- Adds an instruction at the end of the code. -/
def emit (d : Draft) (i : Instruction) : Draft := { d with chunk := d.chunk.emit i }

/-- Emits an instruction that loads a constant. -/
def emitConstant (v : Constant) : Step Draft Unit := fun d =>
  match Chunk.addConstant v d.chunk with
  | (.ok index, chunk) => (.ok (), { d with chunk := chunk.emit (.loadConst index) })
  | (.error f, chunk) => (.error f, { d with chunk })

/-- Puts another instruction in the place of one, and yields the old one. -/
def replace (offset : Nat) (i : Instruction) : Step Draft Instruction := fun d =>
  match d.chunk.instructions[offset]? with
  | some old =>
    (.ok old, { d with
      chunk := { d.chunk with instructions := d.chunk.instructions.setIfInBounds offset i } })
  | none => (.error (.noInstruction offset), d)

/-! ### Finishing -/

/-- The offset a label is marked at, or that it is not. -/
def resolve (d : Draft) (l : Label) : Except Fault Nat :=
  match d.offset? l with
  | some offset => .ok offset
  | none => .error (.unmarkedLabel l.id)

/-- An operand with offsets in place of labels. -/
def resolveOperand (d : Draft) : Operand → Except Fault Operand
  | .label l => (d.resolve l).map .offset
  | .call (.label l) argc => (d.resolve l).map fun offset => .call (.address offset) argc
  | operand => .ok operand

/-- The instruction with the offset of its label in place of the label, if it has one. -/
def resolveInstruction (d : Draft) (i : Instruction) : Except Fault Instruction :=
  match i.operand with
  | none => .ok i
  | some operand => (d.resolveOperand operand).map fun operand => { i with operand := some operand }

/-- The chunk with every label resolved, or the first label that was never marked. -/
def finish (d : Draft) : Except Fault Chunk :=
  (d.chunk.instructions.mapM d.resolveInstruction).map fun instructions =>
    { d.chunk with instructions }

end Draft

end StackScript
