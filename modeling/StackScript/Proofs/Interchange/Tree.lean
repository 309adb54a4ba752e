import StackScript.Proofs.Interchange.Reading
import StackScript.Tree.Json

/-!
# Syntax trees are read back

What is written for a program, and for all its parts, is read back as it was: by induction on the tree, a
node is read back if its parts are.
-/

namespace StackScript

open Json

/-! ### Leaves -/

/-- A type is read back whatever is nested in it. -/
theorem ValueType.reads (t : ValueType) : Reads ValueType.read? t.toJson t := by
  induction t with
  | array t ih => exact .tagged fun d hd => by simp [ValueType.read?, ih d hd]
  | _ =>
      intro d _
      cases d <;> rfl

/-- A place is read back. -/
theorem Span.reads (s : Span) : Reads Span.read? s.toJson s := by
  refine .obj fun d _ => ?_
  simp [Span.read?, Record.required]

/-- An operator is read back from its name. -/
theorem BinaryOp.reads (op : BinaryOp) : Reads BinaryOp.read? op.toJson op :=
  .name (by cases op <;> rfl)

theorem UnaryOp.reads (op : UnaryOp) : Reads UnaryOp.read? op.toJson op :=
  .name (by cases op <;> rfl)

/-! ### Expressions -/

namespace Expr

/-- Expressions are read one by one, each with one level less. -/
theorem readList?_eq : readList? = listOf? read? := by
  funext d j
  cases d <;> cases j <;> rfl

/-- An expression is read back if what it is can be read at its place. -/
theorem reads_node {kind : Json} {span : Span} {e : Expr}
    (h : Reads (fun d => readKind? d span) kind e) : Reads read? (node span kind) e := by
  refine .obj fun d hd => ?_
  simp [read?, Record.required, Record.withDefault, span.reads d hd.2.1, h d hd.1]

/-- An expression of a kind is read back if the content of that kind is. -/
theorem reads_kind {tag : String} {content : Json} {span : Span} {e : Expr}
    (h : Reads (fun d => readContent? d span tag) content e) :
    Reads read? (node span (.tagged tag content)) e := by
  refine reads_node (.tagged fun d hd => ?_)
  rw [readKind?]
  exact h d hd

mutual

/-- **Every expression is read back.**  Each kind of expression has a name of its own. -/
theorem reads : ∀ e : Expr, Reads read? e.toJson e
  | .integer v s => reads_kind fun d _ => by simp [readContent?]
  | .float v s => reads_kind fun d _ => by simp [readContent?]
  | .str v s => reads_kind fun d _ => by simp [readContent?]
  | .bool v s => reads_kind fun d _ => by simp [readContent?]
  | .undefined s => reads_node fun d _ => by cases d <;> rfl
  | .var n s => reads_kind fun d _ => by simp [readContent?]
  | .declare n t s => by
      refine reads_kind (.obj fun d hd => ?_)
      simp [readContent?, Record.required, Record.withDefault, t.reads d hd.2.1]
  | .typed t e s => by
      refine reads_kind (.obj fun d hd => ?_)
      simp [readContent?, Record.required, t.reads d hd.1, reads e d hd.2.1]
  | .list es s => by
      refine reads_kind fun d hd => ?_
      have hes := readEach es d hd
      cases d with
      | zero => cases hd
      | succ d =>
          have hitems : (listToJson es).mapM (read? d) = some es := hes
          simp [readContent?, hitems]
  | .binary op l r s => by
      refine reads_kind (.obj fun d hd => ?_)
      simp [readContent?, Record.required, op.reads d hd.1, reads l d hd.2.1, reads r d hd.2.2.1]
  | .unary op e s => by
      refine reads_kind (.obj fun d hd => ?_)
      simp [readContent?, Record.required, op.reads d hd.1, reads e d hd.2.1]
  | .assign t v s => by
      refine reads_kind (.obj fun d hd => ?_)
      simp [readContent?, Record.required, reads t d hd.1, reads v d hd.2.1]
  | .index t i s => by
      refine reads_kind (.obj fun d hd => ?_)
      simp [readContent?, Record.required, reads t d hd.1, reads i d hd.2.1]
  | .call n es s => by
      refine reads_kind (.obj fun d hd => ?_)
      simp [readContent?, Record.required, readList?_eq, readEach es d hd.2.1]

/-- Each expression of a list is read back. -/
theorem readEach : ∀ es : List Expr, Reads (listOf? read?) (.arr (listToJson es)) es
  | [] => .nil
  | e :: es => .cons (reads e) (readEach es)

end

/-- An expression is not written as `null`, so one that is left out can be told from it. -/
theorem toJson_ne_null (e : Expr) : e.toJson ≠ .null := by
  cases e <;> simp [toJson, node]

/-- An expression that may be missing. -/
theorem reads_option {o : Option Expr} {d : Nat} (hd : (Json.ofOption toJson o).depth ≤ d) :
    orNull (read? d) (.ofOption toJson o) = some o :=
  Reads.option toJson_ne_null (fun e _ => e.reads) hd

end Expr

/-! ### Statements -/

theorem Param.reads (p : Param) : Reads Param.read? p.toJson p := by
  refine .obj fun d hd => ?_
  simp [Param.read?, Record.required, Record.withDefault, p.pattern.reads d hd.1]

namespace Stmt

theorem readList?_eq : readList? = listOf? read? := by
  funext d j
  cases d <;> cases j <;> rfl

theorem readBranches?_eq : readBranches? = listOf? readBranch? := by
  funext d j
  cases d <;> cases j <;> rfl

/-- A statement of a kind is read back if the content of that kind is. -/
theorem reads_tagged {tag : String} {content : Json} {s : Stmt}
    (h : Reads (fun d => readContent? d tag) content s) : Reads read? (.tagged tag content) s := by
  refine .tagged fun d hd => ?_
  rw [read?]
  exact h d hd

/-- A block is read back if its statements are. -/
theorem reads_block {statements : List Json} {body : List Stmt}
    (h : Reads (listOf? read?) (.arr statements) body) : Reads readBlock? (blockJson statements) body := by
  refine .obj fun d hd => ?_
  simp [readBlock?, Record.required, readList?_eq, h d hd.1]

/-- A branch is read back if the statements of its body are. -/
theorem reads_branch {condition : Expr} {statements : List Json} {body : List Stmt}
    (h : Reads (listOf? read?) (.arr statements) body) :
    Reads readBranch? (.obj [("condition", condition.toJson), ("body", blockJson statements)])
      (condition, body) := by
  refine .obj fun d hd => ?_
  simp [readBranch?, Record.required, condition.reads d hd.1, reads_block h d hd.2.1]

mutual

/-- **Every statement is read back.** -/
theorem reads : ∀ s : Stmt, Reads read? s.toJson s
  | .expr e => by
      refine reads_tagged (.obj fun d hd => ?_)
      simp [readContent?, Record.required, e.reads d hd.1]
  | .block body => by
      refine reads_tagged (.obj fun d hd => ?_)
      simp [readContent?, Record.required, readList?_eq, readEach body d hd.1]
  | .sub head body => by
      refine reads_tagged (.obj fun d hd => ?_)
      obtain ⟨-, hparams, htype, htraits, hbody, hspan, -⟩ := hd
      have hparams' : listOf? Param.read? d (.ofList Param.toJson head.params) = some head.params :=
        Reads.list (fun p _ => p.reads) d hparams
      simp [readContent?, Record.required, Record.withDefault, hparams',
        head.returnType.reads d htype, Reads.strings d htraits, reads_block (readEach body) d hbody,
        head.span.reads d hspan]
  | .ret value span => by
      refine reads_tagged (.obj fun d hd => ?_)
      simp [readContent?, Record.nullable, Record.withDefault, Expr.reads_option hd.1,
        span.reads d hd.2.1]
  | .cond condition body elsifs none => by
      refine reads_tagged (.obj fun d hd => ?_)
      simp [readContent?, Record.required, Record.withDefault, reads_branch (readEach body) d hd.1,
        readBranches?_eq, readEachBranch elsifs d hd.2.1, orNull]
  | .cond condition body elsifs (some otherwise) => by
      refine reads_tagged (.obj fun d hd => ?_)
      have hblock : readBlock? d (blockJson (listToJson otherwise)) = some otherwise :=
        reads_block (readEach otherwise) d hd.2.2.1
      have hotherwise : orNull (readBlock? d) (blockJson (listToJson otherwise)) =
          some (some otherwise) := by
        show (readBlock? d (blockJson (listToJson otherwise))).map some = _
        rw [hblock]
        rfl
      simp [readContent?, Record.required, Record.withDefault, reads_branch (readEach body) d hd.1,
        readBranches?_eq, readEachBranch elsifs d hd.2.1, hotherwise]
  | .whileLoop condition body => by
      refine reads_tagged (.obj fun d hd => ?_)
      simp [readContent?, Record.required, condition.reads d hd.1,
        reads_block (readEach body) d hd.2.1]
  | .forEach name iterable body => by
      refine reads_tagged (.obj fun d hd => ?_)
      simp [readContent?, Record.required, iterable.reads d hd.2.1,
        reads_block (readEach body) d hd.2.2.1]
  | .loop init condition step body => by
      refine reads_tagged (.obj fun d hd => ?_)
      obtain ⟨hinit, hcondition, hstep, hbody, -⟩ := hd
      simp [readContent?, Record.required, Record.nullable, Expr.reads_option hinit,
        Expr.reads_option hcondition, Expr.reads_option hstep, reads_block (readEach body) d hbody]
  | .use name => by
      refine reads_tagged (.obj fun d _ => ?_)
      simp [readContent?, Record.required]
  | .package .package name body => by
      refine reads_tagged (.obj fun d hd => ?_)
      simp [readContent?, Record.required, reads_block (readEach body) d hd.2.1]
  | .package .module name body => by
      refine reads_tagged (.obj fun d hd => ?_)
      simp [readContent?, Record.required, reads_block (readEach body) d hd.2.1]

theorem readEach : ∀ body : List Stmt, Reads (listOf? read?) (.arr (listToJson body)) body
  | [] => .nil
  | s :: body => .cons (reads s) (readEach body)

/-- Each branch of a conditional is read back. -/
theorem readEachBranch : ∀ elsifs : List (Expr × List Stmt),
    Reads (listOf? readBranch?) (.arr (branchesToJson elsifs)) elsifs
  | [] => .nil
  | (_, body) :: rest => .cons (reads_branch (readEach body)) (readEachBranch rest)

end

end Stmt

/-- Every program is read back. -/
theorem Program.reads (p : Program) : Reads Program.read? p.toJson p := by
  refine .obj fun d hd => ?_
  simp [Program.read?, Record.required, Stmt.readList?_eq, Stmt.readEach p.body d hd.1]

end StackScript
