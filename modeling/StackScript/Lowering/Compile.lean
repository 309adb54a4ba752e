import StackScript.Lowering.Stmt

/-!
# Compiling programs

`compile` turns a program into a unit.  First every subroutine the program declares is made known,
wherever it stands, so that a call may come before the declaration; then the statements are lowered
in order; at last the labels are resolved and the tables of the unit drawn up.
-/

namespace StackScript

namespace Session

/-- Makes a subroutine known; of several declarations the first one that is well formed counts. -/
def declareSub (s : Session) (id : PackageId) (head : SubHead) (body : List Stmt) : Session :=
  let (sub, packages, draft) := s.packages.mention id head.name s.draft
  let s := { s with packages, draft }
  match head.params.mapM Param.resolve with
  | .error _ => s
  | .ok params =>
    if sub.declared then s
    else
      { s with packages := s.packages.setSub id head.name { sub with
          declared := true, params, returnType := head.returnType
          usesArgList := mentionsArgList body } }

mutual

/-- Makes the subroutines known that a statement of package `id` declares. -/
def declareStmt (s : Session) (id : PackageId) : Stmt → Session
  | .sub head body => (s.declareSub id head body).declareStmts id body
  | .package kind name body =>
    let (child, packages) := s.packages.enter id name kind
    { s with packages }.declareStmts child body
  | .block body | .whileLoop _ body | .forEach _ _ body | .loop _ _ _ body =>
    s.declareStmts id body
  | .cond _ body elsifs otherwise =>
    let s := (s.declareStmts id body).declareBranches id elsifs
    match otherwise with
    | none => s
    | some body => s.declareStmts id body
  | .expr _ | .ret _ _ | .use _ => s

/-- Declares the subroutines of the statements, in their order. -/
def declareStmts (s : Session) (id : PackageId) : List Stmt → Session
  | [] => s
  | stmt :: rest => (s.declareStmt id stmt).declareStmts id rest

/-- Declares the subroutines in the bodies of the branches, in their order. -/
def declareBranches (s : Session) (id : PackageId) : List (Expr × List Stmt) → Session
  | [] => s
  | (_, body) :: rest => (s.declareStmts id body).declareBranches id rest

end

end Session

/-- Lowers a whole program. -/
def Lower.lowerProgram (p : Program) : Lower Unit := do
  Step.update (·.declareStmts PackageTree.root p.body)
  let locals ← slotCount (slotsNeeded p.body)
  inScope (.subroutine .unknown) do
    emit (.pushFrame 0 locals)
    lowerStmts p.body
    emitOp .halt

/-- Why a program has no unit. -/
inductive CompileError where
  /-- There are errors in the script. -/
  | rejected (diagnostics : List Diagnostic)
  | fault (fault : Fault)
  deriving DecidableEq, Repr

/-- The message about a failure as a whole. -/
def CompileError.message : CompileError → String
  | .rejected ds => "compilation failed with " ++ toString ds.length ++ " error(s)"
  | .fault f => f.message

namespace Session

/-- The offsets of the subroutines emitted, by absolute name.  Where names coincide, the one of the
package made last counts. -/
def entryPoints (s : Session) : Except Fault (NameMap Nat) :=
  (s.packages.subroutines.filter fun (_, sub) => sub.marked).foldlM
    (fun table (id, sub) =>
      match s.draft.offset? sub.label with
      | some offset => .ok (table.insert (s.packages.qualify id sub.name) offset)
      | none => .error (.noEntryPoint sub.name))
    ∅

/-- The unit a session has come to. -/
def finish (s : Session) : Except CompileError CompiledUnit :=
  if s.report.isEmpty then
    match s.entryPoints with
    | .error f => .error (.fault f)
    | .ok subroutines =>
      match s.draft.finish with
      | .error f => .error (.fault f)
      | .ok chunk =>
        .ok { name := s.name, chunk, uses := s.uses, subroutines, interface := s.interface }
  else .error (.rejected s.report.items)

end Session

/-- The unit of a program. -/
def compile (name : String) (options : CompileOptions) (p : Program) :
    Except CompileError CompiledUnit :=
  match (Lower.lowerProgram p).run (Session.start name options) with
  | (.ok (), s) => s.finish
  | (.error f, _) => .error (.fault f)

end StackScript
