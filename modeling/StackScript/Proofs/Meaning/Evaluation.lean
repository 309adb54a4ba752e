import StackScript.Proofs.Meaning.Machine
import StackScript.Proofs.Slots.Demand

/-!
# Evaluation of statements

What a statement means, said of the tree alone: variables are names, and control is where the tree
says it is.  The statements are those without subroutines and what belongs to them; expressions have
no numerals with a fraction and call builtins only (`Stmt.simple`).

An environment holds the names declared in the scopes that are open.  What a name stands for is
settled by the text: a use means the innermost declaration before it.  Where control passes over a
declaration, in the condition of an `elsif`, the name is declared without a value, and has none until
it is assigned one.

* `Expr.eval`: the value of an expression and the environment behind it.
* `Stmt.exec`: how a statement ends, if it does within a number of steps, and the environment then.
-/

namespace StackScript

/-! ### Environments -/

/-- A variable that is declared. -/
structure Variable (V : Type) where
  /-- It was declared with a type. -/
  typed : Bool
  /-- It has none where control has passed over its declaration. -/
  value : Option V

/-- What the names stand for that a scope declares. -/
def Env.Scope (V : Type) : Type := String → Option (Variable V)

/-- What the names stand for that are declared in the scopes that are open, innermost scope first. -/
def Env (V : Type) : Type := List (Env.Scope V)

namespace Env

variable {V : Type}

namespace Scope

/-- No name is declared. -/
def empty : Scope V := fun _ => none

/-- Gives a name a value; one that is not declared is declared without a type. -/
def set (e : Scope V) (x : String) (v : V) : Scope V :=
  fun y => if x = y then some ⟨(e x).any (·.typed), some v⟩ else e y

end Scope

/-- The value of the variable that a name means. -/
def lookup? : Env V → String → Option V
  | [], _ => none
  | e :: env, x =>
    match e x with
    | some var => var.value
    | none => lookup? env x

/-- Gives the variable that a name means another value, if it was declared without a type. -/
def assign? : Env V → String → V → Option (Env V)
  | [], _, _ => none
  | e :: env, x, v =>
    match e x with
    | some var => if var.typed then none else some (e.set x v :: env)
    | none => (assign? env x v).map fun (env : List (Scope V)) => e :: env

/-- Declares a name in the innermost scope, with a value. -/
def declare : Env V → String → V → Env V
  | [], _, _ => []
  | e :: env, x, v => e.set x v :: env

/-- Declares the names in the innermost scope that are not declared there, without a value. -/
def announce (declares : String → Bool) : Env V → Env V
  | [] => []
  | e :: env => (fun x => (e x).or (if declares x then some ⟨false, none⟩ else none)) :: env

/-- Opens a scope. -/
def enter (env : Env V) : Env V := Scope.empty :: env

/-- Closes the innermost scope. -/
def leave : Env V → Env V := List.tail

/-- Forgets the names in the innermost scope that were not declared there before. -/
def cut : Env V → Env V → Env V
  | e :: env, before :: _ => (fun x => if (before x).isSome then e x else none) :: env
  | env, _ => env

end Env

/-! ### Expressions -/

namespace Expr

variable {V : Type}

mutual

/-- The value of an expression, and the environment behind it. -/
def eval (I : Interpretation V) : Expr → Env V → Option (V × Env V)
  | .integer n _, env => some (I.int n.toInt, env)
  | .str s _, env => some (I.str s, env)
  | .bool b _, env => some (I.bool b, env)
  | .undefined _, env => some (I.undefined, env)
  | .var x _, env => do
    let v ← env.lookup? x
    return (v, env)
  | .declare x _ _, env => some (I.undefined, env.declare x I.undefined)
  | .list items _, env => do
    let (vs, env) ← evalEach I items env
    return (I.box vs, env)
  | .binary op left right _, env => do
    let (a, env) ← left.eval I env
    let (b, env) ← right.eval I env
    return (← I.binary op a b, env)
  | .unary op operand _, env => do
    let (a, env) ← operand.eval I env
    return (← I.unary op a, env)
  | .assign (.var x _) value _, env => do
    let (v, env) ← value.eval I env
    return (v, ← env.assign? x v)
  | .assign (.declare x _ _) value _, env => do
    let (v, env) ← value.eval I env
    return (v, env.declare x v)
  | .index target position _, env => do
    let (a, env) ← target.eval I env
    let (i, env) ← position.eval I env
    return (← I.index a i, env)
  | .call name args _, env =>
    if name == "checkpoint" then some (I.undefined, env)
    else do
      let b ← Builtin.ofName? name
      let (vs, env) ← evalBackward I args env
      return (← I.builtin b vs, env)
  | .float _ _, _ | .typed _ _ _, _ | .assign _ _ _, _ => none

/-- The values of expressions, evaluated from the first to the last. -/
def evalEach (I : Interpretation V) : List Expr → Env V → Option (List V × Env V)
  | [], env => some ([], env)
  | e :: rest, env => do
    let (v, env) ← e.eval I env
    let (vs, env) ← evalEach I rest env
    return (v :: vs, env)

/-- The values of expressions, evaluated from the last to the first. -/
def evalBackward (I : Interpretation V) : List Expr → Env V → Option (List V × Env V)
  | [], env => some ([], env)
  | e :: rest, env => do
    let (vs, env) ← evalBackward I rest env
    let (v, env) ← e.eval I env
    return (v :: vs, env)

end

end Expr

/-! ### Statements -/

/-- How a statement ends. -/
inductive Ending where
  | normal
  /-- By `last`. -/
  | last
  /-- By `next`. -/
  | next
  deriving DecidableEq

/-- What `last` and `next` end a statement by. -/
def Expr.control? : Expr → Option Ending
  | .call name [] _ =>
    if name = "last" then some .last else if name = "next" then some .next else none
  | _ => none

namespace Stmt

variable {V : Type} (I : Interpretation V)

/-- The first or the last expression of a counted loop's header. -/
def effect : Option Expr → Env V → Option (Env V)
  | none, env => some env
  | some e, env => (e.eval I env).map (·.2)

/-- Whether the condition of a counted loop holds; it does where it is missing. -/
def test : Option Expr → Env V → Option (Bool × Env V)
  | none, env => some (true, env)
  | some e, env => (e.eval I env).map fun r => (I.truthy r.1, r.2)

/-- The conditions of these branches declare the name. -/
def branchesDeclare (elsifs : List (Expr × List Stmt)) (x : String) : Bool :=
  elsifs.any fun branch => branch.1.declares x

mutual

/-- How a statement ends if it does within the given number of steps, and the environment then. -/
def exec : Nat → Stmt → Env V → Option (Ending × Env V)
  | 0, _, _ => none
  | _ + 1, .expr e, env =>
    match e.control? with
    | some o => some (o, env)
    | none => (e.eval I env).map fun r => (.normal, r.2)
  | fuel + 1, .block body, env => execScope fuel body env
  | fuel + 1, .cond condition body elsifs otherwise, env => do
    match ← execBranches fuel ((condition, body) :: elsifs) env, otherwise with
    | (some o, env), _ => return (o, env)
    | (none, env), none => return (.normal, env)
    | (none, env), some body => execScope fuel body env
  | fuel + 1, .whileLoop condition body, env => do
    -- What the condition and the body declare is gone with each iteration.
    let (v, env) ← condition.eval I env.enter
    if I.truthy v then
      let (o, env) ← execAll fuel body env
      if o = .last then return (.normal, env.leave)
      else exec fuel (.whileLoop condition body) env.leave
    else return (.normal, env.leave)
  | fuel + 1, .loop init condition step body, env => do
    let env ← effect I init env.enter
    let env ← execCounted fuel condition step body env
    return (.normal, env.leave)
  | fuel + 1, .forEach x iterable body, env => do
    let (v, env) ← iterable.eval I env
    let env ← execEach fuel x body v (← I.length? v) 0 env
    return (.normal, env)
  | _ + 1, .sub _ _, _ | _ + 1, .ret _ _, _ | _ + 1, .use _, _ | _ + 1, .package _ _ _, _ => none

/-- The statements in order, as far as they end normally. -/
def execAll : Nat → List Stmt → Env V → Option (Ending × Env V)
  | 0, _, _ => none
  | _ + 1, [], env => some (.normal, env)
  | fuel + 1, s :: rest, env => do
    let (o, env) ← exec fuel s env
    if o = .normal then execAll fuel rest env else return (o, env)

/-- The statements in a scope of their own. -/
def execScope : Nat → List Stmt → Env V → Option (Ending × Env V)
  | 0, _, _ => none
  | fuel + 1, body, env => (execAll fuel body env.enter).map fun r => (r.1, r.2.leave)

/-- The first of the branches whose condition is true, and how it ends; nothing if none is.  The
conditions behind it are not evaluated. -/
def execBranches : Nat → List (Expr × List Stmt) → Env V → Option (Option Ending × Env V)
  | 0, _, _ => none
  | _ + 1, [], env => some (none, env)
  | fuel + 1, (condition, body) :: rest, env => do
    let (v, env) ← condition.eval I env
    if I.truthy v then
      let (o, env) ← execScope fuel body env
      return (some o, env.announce (branchesDeclare rest))
    else execBranches fuel rest env

/-- The iterations of a counted loop whose first expression has been evaluated.  What the condition
and the step declare is gone with each iteration. -/
def execCounted : Nat → Option Expr → Option Expr → List Stmt → Env V → Option (Env V)
  | 0, _, _, _, _ => none
  | fuel + 1, condition, step, body, env => do
    let (go, env₁) ← test I condition env
    if go then
      let (o, env₂) ← execScope fuel body env₁
      if o = .last then return env₂
      else execCounted fuel condition step body ((← effect I step env₂).cut env)
    else return env₁

/-- The iterations of a loop over an array of `n` elements from index `i` on. -/
def execEach : Nat → String → List Stmt → V → Nat → Nat → Env V → Option (Env V)
  | 0, _, _, _, _, _, _ => none
  | fuel + 1, x, body, v, n, i, env =>
    if i < n then do
      let item ← I.index v (I.int i)
      let (o, env) ← execAll fuel body (env.enter.declare x item)
      if o = .last then return env.leave
      else execEach fuel x body v n (i + 1) env.leave
    else some env

end

end Stmt

/-! ### The statements that are evaluated -/

namespace Expr

mutual

/-- The expression has no numerals with a fraction, calls builtins only, and declares variables
without a type. -/
def simple : Expr → Bool
  | .integer _ _ | .str _ _ | .bool _ _ | .undefined _ | .var _ _ => true
  | .float _ _ | .typed _ _ _ => false
  | .declare _ type _ => type.isUnknown
  | .list items _ => allSimple items
  | .binary _ left right _ => left.simple && right.simple
  | .unary _ operand _ => operand.simple
  | .assign target value _ => target.simple && value.simple
  | .index target position _ => target.simple && position.simple
  | .call name args _ => (name == "checkpoint" || (Builtin.ofName? name).isSome) && allSimple args

/-- All of the expressions are simple. -/
def allSimple : List Expr → Bool
  | [] => true
  | e :: rest => e.simple && allSimple rest

end

end Expr

namespace Stmt

mutual

/-- The statement is built from simple expressions, `last` and `next`, blocks, conditionals and
loops. -/
def simple : Stmt → Bool
  | .expr e => e.simple || e.control?.isSome
  | .block body => allSimple body
  | .cond condition body elsifs otherwise =>
    condition.simple && allSimple body && branchesSimple elsifs &&
      match otherwise with
      | none => true
      | some body => allSimple body
  | .whileLoop condition body => condition.simple && allSimple body
  | .forEach _ iterable body => iterable.simple && allSimple body
  | .loop init condition step body =>
    init.all (·.simple) && condition.all (·.simple) && step.all (·.simple) && allSimple body
  | .sub _ _ | .ret _ _ | .use _ | .package _ _ _ => false

/-- All of the statements are simple. -/
def allSimple : List Stmt → Bool
  | [] => true
  | s :: rest => s.simple && allSimple rest

/-- All of the branches are simple, conditions and bodies. -/
def branchesSimple : List (Expr × List Stmt) → Bool
  | [] => true
  | (condition, body) :: rest => condition.simple && allSimple body && branchesSimple rest

end

end Stmt

end StackScript
