import StackScript.CompiledUnit

/-!
# Linking units

`link` lays units out one behind the other, the entry unit first, and makes one program of them.
Offsets and constants move with their unit, and each call left open is given the subroutine its name
stands for: one of the unit itself, or else an exported one of that name, or else an exported one
of a module that the unit uses.
-/

namespace StackScript

/-- What comes of linking: one chunk, and where in it the units and the exported subroutines are. -/
structure LinkedProgram where
  chunk : Chunk
  /-- The offset of each unit, in the order they are laid out. -/
  units : List (String × Nat)
  /-- The offset of each exported subroutine, by absolute name. -/
  exports : NameMap Nat

/-- Why units do not fit together. -/
inductive LinkError where
  /-- A call names a subroutine that is nowhere to be found. -/
  | unresolvedSubroutine (unitName name : String) (span : Span)
  /-- A unit uses a module that no unit declares. -/
  | missingModule (unitName name : String)
  | duplicateExport (name : String)
  | missingEntry (name : String)
  deriving DecidableEq, Repr, Inhabited

/-- Why units cannot be linked: for mistakes in them, or for limits of the code. -/
inductive LinkFailure where
  | errors (errors : List LinkError)
  | fault (fault : Fault)
  deriving DecidableEq, Repr

/-! ### Layout -/

/-- A unit at its place. -/
structure Placed where
  unit : CompiledUnit
  /-- The offset of its first instruction. -/
  base : Nat
  /-- The index of its first constant. -/
  constantBase : Nat

/-- Units one behind the other from the given offset and constant on. -/
def place : (base constantBase : Nat) → List CompiledUnit → List Placed
  | _, _, [] => []
  | base, constantBase, u :: rest =>
    ⟨u, base, constantBase⟩ ::
      place (base + u.chunk.instructions.size) (constantBase + u.chunk.constants.size) rest

/-- The first unit of the given name moved to the front. -/
def entryFirst? (entry : String) : List CompiledUnit → Option (List CompiledUnit)
  | [] => none
  | u :: rest =>
    if u.name == entry then some (u :: rest)
    else
      match entryFirst? entry rest with
      | some (e :: others) => some (e :: u :: others)
      | _ => none

/-! ### Tables -/

/-- Exported names with their offsets, and the names that were exported already. -/
structure ExportTable where
  offsets : NameMap Nat := ∅
  duplicates : List String := []

namespace ExportTable

/-- Of two exports of one name, the later counts. -/
def add (t : ExportTable) (base : Nat) (e : Export) : ExportTable :=
  { offsets := t.offsets.insert e.name (base + e.position)
    duplicates := if t.offsets.contains e.name then t.duplicates ++ [e.name] else t.duplicates }

/-- Adds the exports of a unit. -/
def addUnit (t : ExportTable) (p : Placed) : ExportTable :=
  p.unit.interface.exports.foldl (·.add p.base) t

/-- The exports of all the units, in their order. -/
def ofPlaced (ps : List Placed) : ExportTable := ps.foldl addUnit {}

end ExportTable

/-- The modules that units declare. -/
def declaredModules (ps : List Placed) : List String := ps.flatMap (·.unit.interface.modules)

/-- The modules that units depend on and none declares, unit by unit. -/
def missingModules (ps : List Placed) : List LinkError :=
  let modules := declaredModules ps
  ps.flatMap fun p =>
    (p.unit.interface.dependencies.filter fun d => !modules.contains d).map
      (LinkError.missingModule p.unit.name)

/-! ### Relocation -/

namespace Placed

/-- An operand of the unit as it stands in the program. -/
def relocateOperand (p : Placed) : Operand → Except Fault Operand
  | .offset o => .ok (.offset (p.base + o))
  | .constant index =>
    if index.toNat + p.constantBase < UInt16.size then
      .ok (.constant (index.toNat + p.constantBase).toUInt16)
    else .error .tooManyLinkedConstants
  | .call (.address o) argc => .ok (.call (.address (p.base + o)) argc)
  | operand => .ok operand

/-- The instruction with its operand relocated, if it has one. -/
def relocateInstruction (p : Placed) (i : Instruction) : Except Fault Instruction :=
  match i.operand with
  | none => .ok i
  | some operand => (p.relocateOperand operand).map fun operand => { i with operand := some operand }

/-- The offset in the program of the subroutine that a call of the unit means. -/
def target? (p : Placed) (exports : NameMap Nat) (name : String) : Option Nat :=
  match p.unit.subroutines[name]? with
  | some o => some (p.base + o)
  | none =>
    match exports[name]? with
    | some o => some o
    | none => p.unit.interface.dependencies.findSome? fun d => exports[d ++ "::" ++ name]?

/-- An instruction with its call directed to `target`, if it has a call to direct. -/
def redirect? (i : Instruction) (target : Nat) : Option Instruction :=
  match i.operand with
  | some (.call _ argc) => some { i with operand := some (.call (.address target) argc) }
  | _ => none

/-- The code of a unit with the given calls directed to what they mean, and the calls that mean
nothing. -/
def patch (p : Placed) (exports : NameMap Nat) :
    List CallSite → Array Instruction → List LinkError → Except Fault (Array Instruction × List LinkError)
  | [], code, errors => .ok (code, errors)
  | c :: rest, code, errors =>
    match p.target? exports c.name with
    | none =>
      p.patch exports rest code (errors ++ [.unresolvedSubroutine p.unit.name c.name c.span])
    | some target =>
      match code[c.position]? >>= (redirect? · target) with
      | none => .error (.noCall c.position p.unit.name)
      | some i => p.patch exports rest (code.setIfInBounds c.position i) errors

/-- The code of a unit as it stands in the program, and the calls in it that mean nothing. -/
def relocate (p : Placed) (exports : NameMap Nat) : Except Fault (Array Instruction × List LinkError) :=
  if p.constantBase < UInt16.size then
    match p.unit.chunk.instructions.mapM p.relocateInstruction with
    | .error f => .error f
    | .ok code => p.patch exports p.unit.unresolved code []
  else .error .tooManyLinkedConstants

end Placed

/-! ### The program -/

/-- One program of units that are laid out in order. -/
def linkPlaced (ps : List Placed) : Except LinkFailure LinkedProgram :=
  let table := ExportTable.ofPlaced ps
  match ps.mapM (·.relocate table.offsets) with
  | .error f => .error (.fault f)
  | .ok parts =>
    let errors := table.duplicates.map LinkError.duplicateExport ++ missingModules ps ++
      parts.flatMap Prod.snd
    if errors.isEmpty then
      .ok {
        chunk := {
          instructions := parts.foldl (fun code part => code ++ part.1) #[]
          constants := ps.foldl (fun pool p => pool ++ p.unit.chunk.constants) #[] }
        units := ps.map fun p => (p.unit.name, p.base)
        exports := table.offsets }
    else .error (.errors errors)

/-- One program of the given units, starting with the code of unit `entry`. -/
def link (units : List CompiledUnit) (entry : String) : Except LinkFailure LinkedProgram :=
  match entryFirst? entry units with
  | none => .error (.errors [.missingEntry entry])
  | some units => linkPlaced (place 0 0 units)

/-! ### Messages -/

/-- The text of the message about a link error. -/
def LinkError.text : LinkError → String
  | .unresolvedSubroutine unitName name span =>
    toString span.line.toNat ++ ":" ++ toString span.column.toNat ++
      ": call to undeclared subroutine `" ++ name ++ "' in unit `" ++ unitName ++ "'"
  | .missingModule unitName name =>
    "unit `" ++ unitName ++ "' depends on missing module `" ++ name ++ "'"
  | .duplicateExport name => "subroutine `" ++ name ++ "' is exported more than once"
  | .missingEntry name => "entry unit `" ++ name ++ "' not found"

/-- The message about a failure as a whole. -/
def LinkFailure.message : LinkFailure → String
  | .errors es => "linking failed with " ++ toString es.length ++ " error(s)"
  | .fault f => f.message

end StackScript
