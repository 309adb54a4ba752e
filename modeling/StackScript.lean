import StackScript.Command.Build
import StackScript.Main
import StackScript.Tree.Build
import StackScript.Proofs.Template
import StackScript.Proofs.Unfolding.Expr
import StackScript.Proofs.Unfolding.Stmt
import StackScript.Proofs.Growth
import StackScript.Proofs.Moves
import StackScript.Proofs.Runs
import StackScript.Proofs.Scoping
import StackScript.Proofs.Bodies
import StackScript.Proofs.Routines
import StackScript.Proofs.Slots.Given
import StackScript.Proofs.Slots.Demand
import StackScript.Proofs.Slots.Reserved
import StackScript.Proofs.Stack.Height
import StackScript.Proofs.Stack.Flow
import StackScript.Proofs.Stack.Places
import StackScript.Proofs.Stack.Discipline
import StackScript.Proofs.Stack.Exits
import StackScript.Proofs.Packages
import StackScript.Proofs.Declarations
import StackScript.Proofs.Calls
import StackScript.Proofs.Sealed
import StackScript.Proofs.Units
import StackScript.Proofs.CallSites
import StackScript.Proofs.Resolution
import StackScript.Proofs.Linking
import StackScript.Proofs.AcrossUnits
import StackScript.Proofs.LinkErrors
import StackScript.Proofs.LinkOrder
import StackScript.Proofs.LinkCapacity
import StackScript.Proofs.Convention
import StackScript.Proofs.Faults.Steps
import StackScript.Proofs.Faults.Limits
import StackScript.Proofs.Faults.Halting
import StackScript.Proofs.Sessions
import StackScript.Proofs.Checkpoints.Strip
import StackScript.Proofs.Checkpoints.Steps
import StackScript.Proofs.Checkpoints.Erasure
import StackScript.Proofs.Compositional
import StackScript.Proofs.ErrorLimit
import StackScript.Proofs.Restoration
import StackScript.Proofs.TypedDeclarations
import StackScript.Proofs.Marks
import StackScript.Proofs.Meaning.Machine
import StackScript.Proofs.Meaning.Evaluation
import StackScript.Proofs.Meaning.SlotExpr
import StackScript.Proofs.Meaning.Names
import StackScript.Proofs.Meaning.Declared
import StackScript.Proofs.Meaning.Agreement
import StackScript.Proofs.Meaning.Layout
import StackScript.Proofs.Meaning.Expressions
import StackScript.Proofs.Meaning.SlotCode
import StackScript.Proofs.Meaning.Statements
import StackScript.Proofs.Meaning.Loops
import StackScript.Proofs.Meaning.Preservation
import StackScript.Proofs.Interchange.Reading
import StackScript.Proofs.Interchange.Tree
import StackScript.Proofs.Interchange.Code
import StackScript.Proofs.Interchange.Format
import StackScript.Proofs.Interchange.RoundTrip
import StackScript.Proofs.Slots.Hidden
import StackScript.Proofs.Slots.Counting
import StackScript.Proofs.Slots.Aliasing
import StackScript.Proofs.Returns
import StackScript.Proofs.AbsoluteNames
import StackScript.Proofs.SymbolTable
import StackScript.Proofs.Exports
import StackScript.Proofs.NameLookup
import StackScript.Proofs.Literals
import StackScript.Proofs.CallTypes
import StackScript.Proofs.DeclaredTypes
import StackScript.Proofs.TypeFit
import StackScript.Proofs.SlotNumbering
import StackScript.Proofs.PackageGrowth
import StackScript.Proofs.ArgumentList.Mentions
import StackScript.Proofs.ArgumentList.Slot
import StackScript.Proofs.Labels
import StackScript.Proofs.ConstantPool
