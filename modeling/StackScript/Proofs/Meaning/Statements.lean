import StackScript.Proofs.Meaning.Expressions

/-!
# The code of statements

A statement that ends normally goes on behind its code.  One that ends by `last` or `next` comes to a
place in its code that leaves the innermost loop so, with the variables that are in scope there.

* `Settles`, `Arrives`: what the code of a statement does, according to how the statement ends.
* `Simulates`: it does so for all statements that end within a number of steps.
* `Simulates.stmts_succ`, `Simulates.scope_succ`, `Simulates.branches_succ`: one step more.
-/

namespace StackScript

open Scopes

/-! ### Scopes -/

namespace Scopes

/-- A scope that is left has changed the count of slots only. -/
theorem Kept.leave {s t : Scopes} {kind : ScopeKind} (h : Kept (s.enter kind).stack t.stack) :
    Below s.stack t.leave.stack := by
  have hdrop := h.drop_succ 0
  simpa [Scopes.leave, Scopes.enter] using hdrop

theorem Inner.tail_names {s : List Scope} (h : Inner 1 s) : (names s).tail = names s.tail := by
  cases s with
  | nil => rfl
  | cons a r =>
      have ha : a.isSubroutine = false := h a (by simp)
      simp [names, ha]

/-- Closing a scope leaves the same names, wherever in the scope it is closed. -/
theorem Inner.names_leave {s : List Scope} {t u : Scopes} (hin : Inner 1 s) (ht : Kept s t.stack)
    (hu : Kept s u.stack) : names u.leave.stack = (names t.stack).tail := by
  have ht' : Below s.tail t.stack.tail := by simpa using ht.drop_succ 0
  have hu' : Below s.tail u.leave.stack := by simpa [Scopes.leave] using hu.drop_succ 0
  rw [(hin.kept ht).tail_names, ht'.names, hu'.names]

/-- The innermost loop stays the same while its scope is open. -/
theorem Kept.innermostLoop {s t : Scopes} (h : Kept s.stack t.stack) :
    t.innermostLoop? = s.innermostLoop? :=
  innermostLoop?_congr h.kinds

end Scopes

/-! ### Rules -/

namespace Leads

variable {V : Type} {I : Interpretation V} {c : Chunk} {a b : Spot} {t u : Scopes} {n m : Nat}
  {env env₁ env₂ env' : Env V} {s s' : List V} {v : V}

/-- The environment that is reached is of other scopes as well. -/
theorem rescope (h : Leads I c a ⟨t, n⟩ env s env₁ s') (htaken : t.taken ≤ u.taken)
    (hfresh : Fresh t.stack u.stack)
    (hagree : ∀ {locals}, Agree locals (names t.stack) env₁ → Agree locals (names u.stack) env') :
    Leads I c a ⟨u, n⟩ env s env' s' := by
  refine ⟨Nat.le_trans h.taken htaken, h.fresh.trans hfresh h.taken, fun callers hstart hroom => ?_⟩
  obtain ⟨locals, hgo, hend, hspared⟩ := h.goes callers hstart (Nat.le_trans htaken hroom)
  exact ⟨locals, hgo, hagree hend, hspared⟩

/-- The count of slots has nothing to do with where code leads. -/
theorem below (h : Leads I c a ⟨t, n⟩ env s env' s') (hb : Below t.stack u.stack) :
    Leads I c a ⟨u, n⟩ env s env' s' :=
  h.rescope hb.taken (.below hb) fun hagree => by
    rw [hb.names]
    exact hagree

/-- The innermost scope is closed. -/
theorem close (h : Leads I c a ⟨t, n⟩ env s env' s') (hin : Inner 1 a.scopes.stack)
    (ht : Kept a.scopes.stack t.stack) (hu : Kept a.scopes.stack u.stack) (htu : t.taken ≤ u.taken) :
    Leads I c a ⟨u.leave, n⟩ env s env'.leave s' := by
  have hnames : names u.leave.stack = (names t.stack).tail := hin.names_leave ht hu
  refine h.rescope (by rwa [(hin.kept hu).leave.1]) (fun m hm => .inl ?_) fun hagree => ?_
  · obtain ⟨g, hg, hx⟩ := hm
    exact ⟨g, List.mem_of_mem_tail (hnames ▸ hg), hx⟩
  · rw [hnames]
    exact hagree.leave

/-- A run that comes back to where it started, and one from there on. -/
theorem again (h₁ : Leads I c a ⟨t, a.pc⟩ env s env₁ s) (ht : t.taken ≤ b.scopes.taken)
    (hback : ∀ {locals locals'}, Agree locals (names a.scopes.stack) env →
      Agree locals' (names t.stack) env₁ → Agree locals' (names a.scopes.stack) env₂)
    (h₂ : Leads I c a b env₂ s env' s') : Leads I c a b env s env' s' := by
  refine ⟨h₂.taken, h₂.fresh, fun callers hstart hroom => ?_⟩
  obtain ⟨locals₁, hgo₁, hagree₁, hspared₁⟩ := h₁.goes callers hstart (Nat.le_trans ht hroom)
  obtain ⟨locals₂, hgo₂, hagree₂, hspared₂⟩ :=
    h₂.goes callers (hback hstart hagree₁) (by rw [hspared₁.length]; exact hroom)
  exact ⟨locals₂, hgo₁.trans hgo₂, hagree₂, hspared₁.trans hspared₂ (Nat.le_refl _) .refl⟩

/-- A jump changes nothing but the place. -/
theorem jump (hi : c.instructions[a.pc]? = some ⟨.jump, some (.offset n)⟩) :
    Leads I c a ⟨a.scopes, n⟩ env s env s :=
  .instr hi fun _ _ => rfl

theorem pop (hi : c.instructions[a.pc]? = some (.bare .pop)) :
    Leads I c a ⟨a.scopes, a.pc + 1⟩ env (v :: s) env s :=
  .instr hi fun _ _ => by simp [Instruction.bare, Machine.execute, Machine.taking, Machine.next]

/-- The machine goes on behind a conditional jump if the condition is true. -/
theorem passes (hi : c.instructions[a.pc]? = some ⟨.jumpIfFalse, some (.offset n)⟩)
    (hv : I.truthy v = true) : Leads I c a ⟨a.scopes, a.pc + 1⟩ env (v :: s) env s :=
  .instr hi fun _ _ => by simp [Machine.execute, Machine.jumpIfFalse, hv, Machine.next]

/-- It goes where the jump leads if the condition is false. -/
theorem turns (hi : c.instructions[a.pc]? = some ⟨.jumpIfFalse, some (.offset n)⟩)
    (hv : I.truthy v = false) : Leads I c a ⟨a.scopes, n⟩ env (v :: s) env s :=
  .instr hi fun _ _ => by simp [Machine.execute, Machine.jumpIfFalse, hv]

end Leads

/-! ### Loops -/

/-- How a counted loop lies in the code: the places where its condition, its body, its step and the
jump back begin. -/
structure CountedLoop (d : Draft) (condition step : Option Expr) (body : List Stmt) (done next : Label)
    (a a₁ a₂ a₃ : Spot) : Prop where
  inner : Inner 1 a.scopes.stack
  control : a.scopes.innermostLoop? = some (.countedLoop done next)
  test : Lies d (Move.guarded done condition) a a₁
  body : Lies d (Move.block body) a₁ a₂
  next : d.offset? next = some a₂.pc
  step : Lies d (Move.effect step) a₂ a₃
  again : ∃ top, d.chunk.instructions[a₃.pc]? = some (.jump top) ∧ d.offset? top = some a.pc
  done : d.offset? done = some (a₃.pc + 1)

/-- How a loop over an array lies in the code: the places where an element is taken and where the
body ends.  The scope of the loop binds the element, and no name has the slot of the index. -/
structure EachLoop (d : Draft) (x : String) (body : List Stmt) (index item : Slot) (done top : Label)
    (a b : Spot) : Prop where
  inner : Inner 1 a.scopes.stack
  control : a.scopes.innermostLoop? = some (.forEach done top index item)
  bound : ∀ y, top? a.scopes.stack y = if x = y then some ⟨item, .unknown⟩ else none
  given : index.toNat < a.scopes.taken
  hidden : ¬ Bound a.scopes.stack index.toNat
  take : Lies d [.emit (.load index), .emit (.dupN 1), .emit (.jumpIfGreaterOrEqual done),
    .emit (.dupN 1), .emit (.load index), .op .arrayGet, .emit (.store item)] a ⟨a.scopes, a.pc + 7⟩
  body : Laid d (.stmts body) ⟨a.scopes, a.pc + 7⟩ b
  again : Lies d (Move.increment index ++ [Move.emit (.jump top)]) b ⟨b.scopes, b.pc + 5⟩
  top : d.offset? top = some a.pc
  done : d.offset? done = some (b.pc + 5)

/-! ### How statements end -/

/-- What `last` and `next` do in a loop. -/
def LoopControl.exit (control : LoopControl) : Ending → List Move
  | .normal => []
  | .last => [.emit (.jump control.done)]
  | .next => Move.advance control ++ [Move.emit (.jump control.next)]

/-- A statement with its end at `stop` that ends so goes on at `n`. -/
def Lands (d : Draft) (loop : Option LoopControl) (stop n : Nat) : Ending → Prop
  | .normal => n = stop
  | o => ∃ control, loop = some control ∧ ∃ t b, Lies d (control.exit o) ⟨t, n⟩ b

section Endings

variable {V : Type} (I : Interpretation V) (c : Chunk) (d : Draft)

/-- What the code of a block does that ends so. -/
def Settles (a b : Spot) (env : Env V) (s : List V) (o : Ending) (env' : Env V) : Prop :=
  ∃ n, Lands d a.scopes.innermostLoop? b.pc n o ∧ Leads I c a ⟨b.scopes, n⟩ env s env' s

/-- What the code of a statement does that ends so.  Where it does not end normally, names of the
innermost scope may not have been declared that are behind it. -/
def Arrives (a b : Spot) (env : Env V) (s : List V) (o : Ending) (env' : Env V) : Prop :=
  ∃ t : Scopes, Kept a.scopes.stack t.stack ∧ t.taken ≤ b.scopes.taken ∧
    (o = .normal → t = b.scopes) ∧ Settles I c d a ⟨t, b.pc⟩ env s o env'

/-- What the code of the branches of a conditional does that ends at `n`: it goes on behind them if no
condition is true, and otherwise the branch that is taken ends so. -/
def Decides (a b : Spot) (n : Nat) (env : Env V) (s : List V) : Option Ending → Env V → Prop
  | none, env' => Leads I c a b env s env' s
  | some o, env' => Settles I c d a ⟨b.scopes, n⟩ env s o env'

/-- What the code of a loop over an array does from index `i` on. -/
def Walks (a b : Spot) (index : Slot) (i : Nat) (env : Env V) (s : List V) (env' : Env V) : Prop :=
  ∀ {locals} callers, Agree locals (names a.scopes.stack).tail env →
    b.scopes.taken ≤ locals.length → locals[index.toNat]? = some (I.int i) → ∃ locals',
      Machine.Goes I c ⟨a.pc, s, locals, callers⟩ ⟨b.pc + 5, s, locals', callers⟩ ∧
      Agree locals' (names a.scopes.stack).tail env' ∧ locals'.length = locals.length ∧
      ∀ {m}, m < a.scopes.taken → ¬ Bound a.scopes.stack m → m ≠ index.toNat →
        locals'[m]? = locals[m]?

/-- The code does what the statements do that end within `k` steps. -/
structure Simulates (k : Nat) : Prop where
  stmt : ∀ {s a b env o env'} (st : List V), Laid d (.stmt s) a b → s.simple = true →
    Stmt.exec I k s env = some (o, env') → Arrives I c d a b env st o env'
  stmts : ∀ {ss a b env o env'} (st : List V), Laid d (.stmts ss) a b → Stmt.allSimple ss = true →
    Stmt.execAll I k ss env = some (o, env') → Arrives I c d a b env st o env'
  scope : ∀ {body a b env o env'} (st : List V), Lies d (Move.block body) a b →
    Stmt.allSimple body = true → Stmt.execScope I k body env = some (o, env') →
    Settles I c d a b env st o env'
  branches : ∀ {done elsifs ms r a b n env q env'} (st : List V),
    Unfolds (.branches done elsifs) ms r → Lies d ms a b → Stmt.branchesSimple elsifs = true →
    d.offset? done = some n → Stmt.execBranches I k elsifs env = some (q, env') →
    Decides I c d a b n env st q env'
  counted : ∀ {condition step body done next a a₁ a₂ a₃ env env'} (st : List V),
    CountedLoop d condition step body done next a a₁ a₂ a₃ → condition.all (·.simple) = true →
    step.all (·.simple) = true → Stmt.allSimple body = true →
    Stmt.execCounted I k condition step body env = some env' →
    Leads I c a ⟨a₃.scopes.leave, a₃.pc + 1⟩ env st env'.leave st
  each : ∀ {x body index item done top a b env env' v n i} (st : List V),
    EachLoop d x body index item done top a b → Stmt.allSimple body = true →
    I.length? v = some n → i ≤ n → Stmt.execEach I k x body v n i env = some env' →
    Walks I c a b index i env (I.int n :: v :: st) env'

end Endings

variable {V : Type} {I : Interpretation V} {c : Chunk} {d : Draft} {a a₁ b : Spot}
  {env env₁ env' : Env V} {s : List V} {o : Ending} {k : Nat}

/-- A block that settles arrives, the names around it being those that were. -/
theorem Settles.arrives (h : Settles I c d a b env s o env')
    (hk : Kept a.scopes.stack b.scopes.stack) : Arrives I c d a b env s o env' :=
  ⟨b.scopes, hk, Nat.le_refl _, fun _ => rfl, h⟩

/-- Code that goes on behind its end is of a statement that ends normally. -/
theorem Leads.settles (h : Leads I c a b env s env' s) : Settles I c d a b env s .normal env' :=
  ⟨b.pc, rfl, h⟩

/-- A statement that ends normally goes on behind its end. -/
theorem Settles.leads (h : Settles I c d a b env s .normal env') : Leads I c a b env s env' s := by
  obtain ⟨n, rfl, h⟩ := h
  exact h

/-- What comes before a statement in the same loop. -/
theorem Settles.after (h : Settles I c d a₁ b env₁ s o env') (h₁ : Leads I c a a₁ env s env₁ s)
    (hk : a₁.scopes.innermostLoop? = a.scopes.innermostLoop?) : Settles I c d a b env s o env' := by
  obtain ⟨n, hn, h⟩ := h
  exact ⟨n, hk ▸ hn, h₁.trans h⟩

/-- What a jump behind a block does. -/
theorem Settles.jump {n : Nat} (h : Settles I c d a b env s o env')
    (hi : c.instructions[b.pc]? = some ⟨.jump, some (.offset n)⟩) :
    Settles I c d a ⟨b.scopes, n⟩ env s o env' := by
  cases o with
  | normal => exact (h.leads.trans (.jump hi)).settles
  | last | next => exact h

/-- The environment that is reached is of other scopes as well. -/
theorem Settles.rescope {u : Scopes} (h : Settles I c d a b env s o env₁)
    (htaken : b.scopes.taken ≤ u.taken) (hfresh : Fresh b.scopes.stack u.stack)
    (hagree : ∀ {locals}, Agree locals (names b.scopes.stack) env₁ →
      Agree locals (names u.stack) env') : Settles I c d a ⟨u, b.pc⟩ env s o env' := by
  obtain ⟨n, hn, h⟩ := h
  exact ⟨n, hn, h.rescope htaken hfresh hagree⟩

theorem Settles.below {u : Scopes} (h : Settles I c d a b env s o env')
    (hb : Below b.scopes.stack u.stack) : Settles I c d a ⟨u, b.pc⟩ env s o env' := by
  obtain ⟨n, hn, h⟩ := h
  exact ⟨n, hn, h.below hb⟩

/-- What comes before the branches of a conditional. -/
theorem Decides.after {n : Nat} {q : Option Ending} (h : Decides I c d a₁ b n env₁ s q env')
    (h₁ : Leads I c a a₁ env s env₁ s)
    (hk : a₁.scopes.innermostLoop? = a.scopes.innermostLoop?) : Decides I c d a b n env s q env' := by
  cases q with
  | none => exact h₁.trans h
  | some o => exact Settles.after h h₁ hk

/-- A block changes the count of slots only. -/
theorem Lies.below {body : List Stmt} (h : Lies d (Move.block body) a b) :
    Below a.scopes.stack b.scopes.stack := by
  obtain ⟨_, rfl, a₁, hbody, _, rfl, rfl⟩ := h
  exact hbody.kept.leave

/-- How a statement that does not end normally goes on has nothing to do with its own end. -/
theorem Lands.abrupt {loop : Option LoopControl} {stop stop' n : Nat} (h : Lands d loop stop n o)
    (ho : o ≠ .normal) : Lands d loop stop' n o := by
  cases o with
  | normal => exact absurd rfl ho
  | last | next => exact h

theorem Arrives.leads (h : Arrives I c d a b env s .normal env') : Leads I c a b env s env' s := by
  obtain ⟨t, -, -, ht, h⟩ := h
  obtain rfl := ht rfl
  exact h.leads

/-- A statement that does not end normally, before others. -/
theorem Arrives.abrupt (h : Arrives I c d a a₁ env s o env') (ho : o ≠ .normal)
    (hk : Kept a₁.scopes.stack b.scopes.stack) : Arrives I c d a b env s o env' := by
  obtain ⟨t, ht, htaken, -, n, hn, h⟩ := h
  exact ⟨t, ht, Nat.le_trans htaken hk.taken, (absurd · ho), n, hn.abrupt ho, h⟩

/-- A statement behind others. -/
theorem Arrives.after (h : Arrives I c d a₁ b env₁ s o env') (h₁ : Leads I c a a₁ env s env₁ s)
    (hk : Kept a.scopes.stack a₁.scopes.stack) : Arrives I c d a b env s o env' := by
  obtain ⟨t, ht, htaken, hnormal, h⟩ := h
  exact ⟨t, hk.trans ht, htaken, hnormal, h.after h₁ hk.innermostLoop⟩

/-! ### Statements without loops -/

namespace Simulates

/-- `last` and `next` stand where they leave the loop. -/
theorem control {e : Expr} (hfew : d.labels.size ≤ UInt32.size) (h : Laid d (.expr e) a b)
    (ho : e.control? = some o) (hk : Kept a.scopes.stack a₁.scopes.stack) :
    Arrives I c d a a₁ env s o env := by
  obtain ⟨ms, r, hu, hq, hl⟩ := h.unfolds hfew
  cases e with
  | call name args span =>
      have hlands (hne : o ≠ .normal) (h : ∃ control, a.scopes.innermostLoop? = some control ∧
          ∃ b, Lies d (control.exit o) a b) : Arrives I c d a a₁ env s o env := by
        refine ⟨a.scopes, .refl, hk.taken, (absurd · hne), a.pc, ?_, .refl⟩
        obtain ⟨control, hloop, b, h⟩ := h
        cases o with
        | normal => exact absurd rfl hne
        | last | next => exact ⟨control, hloop, a.scopes, b, h⟩
      obtain ⟨rfl, hname⟩ := Expr.control?_call ho
      have hname : name = "last" ∨ name = "next" := hname.imp And.left And.left
      have hord : ¬ Ordinary name := fun h => hname.elim h.1 h.2.1
      cases hu with
      | loopControlArguments _ hargs => exact absurd rfl hargs
      | noLoop | checkpointArgument => simp [Quiet, Move.quiet] at hq
      | builtin hb | builtinTooMany hb => rcases hname with rfl | rfl <;> cases hb
      | external h | externalTooMany h | call h | callTooFew h | callTooMany h | callRefused h =>
          exact absurd h hord
      | last =>
          obtain rfl : Ending.last = o := by simpa [Expr.control?] using ho
          obtain ⟨_, ⟨hloop, rfl⟩, _, ⟨hjump, -⟩, -⟩ := hl
          exact hlands (by simp) ⟨_, hloop, _, _, ⟨hjump, rfl⟩, rfl⟩
      | next =>
          obtain rfl : Ending.next = o := by simpa [Expr.control?] using ho
          obtain ⟨_, ⟨hloop, rfl⟩, hl⟩ := hl
          obtain ⟨a₂, hadvance, _, ⟨hjump, -⟩, -⟩ := lies_append.mp hl
          exact hlands (by simp) ⟨_, hloop, _,
            lies_append.mpr ⟨a₂, hadvance, _, ⟨hjump, rfl⟩, rfl⟩⟩
  | _ => cases ho

/-- An expression is computed and its value dropped, or it is `last` or `next`. -/
theorem expr_succ {e : Expr} (hc : d.finish = .ok c) (hfew : d.labels.size ≤ UInt32.size)
    (h : Laid d (.stmt (.expr e)) a b) (hs : (Stmt.expr e).simple = true)
    (hx : Stmt.exec I (k + 1) (.expr e) env = some (o, env')) : Arrives I c d a b env s o env' := by
  have hkept := h.kept
  obtain ⟨ms, r, hu, hq, hl⟩ := h.unfolds hfew
  cases hu with
  | exprStmt =>
  obtain ⟨a₁, he, _, ⟨hpop, rfl⟩, rfl⟩ := hl
  simp only [Stmt.exec] at hx
  cases ho : e.control? with
  | some o' =>
      simp only [ho] at hx
      cases hx
      exact control hfew he ho hkept
  | none =>
      simp only [ho] at hx
      obtain ⟨⟨v, env₁⟩, hv, hx⟩ := Option.map_eq_some_iff.mp hx
      cases hx
      have hsimple : e.simple = true := by simpa [Stmt.simple, ho] using hs
      have hrun := (he.eval hc hfew hsimple (s := s) hv).trans
        (.pop (Draft.finished_plain hc hpop rfl))
      exact hrun.settles.arrives hkept

/-- Statements one after the other, as far as the first that does not end normally. -/
theorem stmts_succ (ih : Simulates I c d k) (hfew : d.labels.size ≤ UInt32.size) {ss : List Stmt}
    (h : Laid d (.stmts ss) a b) (hs : Stmt.allSimple ss = true)
    (hx : Stmt.execAll I (k + 1) ss env = some (o, env')) : Arrives I c d a b env s o env' := by
  obtain ⟨ms, r, hu, hq, hl⟩ := h.unfolds hfew
  cases hu with
  | stmtsNil =>
      obtain rfl := hl
      cases hx
      exact Leads.refl.settles.arrives .refl
  | stmtsCons =>
      obtain ⟨a₁, hstmt, _, hrest, rfl⟩ := hl
      simp only [Stmt.allSimple, Bool.and_eq_true] at hs
      simp only [Stmt.execAll, Option.bind_eq_bind, Option.bind_eq_some_iff] at hx
      obtain ⟨⟨o₁, env₁⟩, hx₁, hx⟩ := hx
      have hfirst := ih.stmt s hstmt hs.1 hx₁
      by_cases ho : o₁ = .normal
      · subst ho
        exact (ih.stmts s hrest hs.2 (by simpa using hx)).after hfirst.leads hstmt.kept
      · simp only [ho, if_false] at hx
        cases hx
        exact hfirst.abrupt ho hrest.kept

/-- Statements in a scope of their own, with the names of that scope gone at the end. -/
theorem scope_succ (ih : Simulates I c d k) {body : List Stmt} (h : Lies d (Move.block body) a b)
    (hs : Stmt.allSimple body = true) (hx : Stmt.execScope I (k + 1) body env = some (o, env')) :
    Settles I c d a b env s o env' := by
  obtain ⟨_, rfl, a₁, hbody, _, rfl, rfl⟩ := h
  simp only [Stmt.execScope] at hx
  obtain ⟨⟨o₁, env₁⟩, hall, hx⟩ := Option.map_eq_some_iff.mp hx
  cases hx
  obtain ⟨t, ht, htaken, -, n, hn, h⟩ := ih.stmts s hbody hs hall
  have hin : Scopes.Inner 1 (a.scopes.enter .block).stack := Scopes.Inner.zero.enter rfl
  exact ⟨n, hn, Leads.enter rfl |>.trans (h.close hin ht hbody.kept htaken)⟩

/-- The branches of a conditional, as far as the first whose condition is true. -/
theorem branches_succ (ih : Simulates I c d k) (hc : d.finish = .ok c)
    (hfew : d.labels.size ≤ UInt32.size) {done : Label} {elsifs : List (Expr × List Stmt)}
    {ms : List Move} {r : Bool} {n : Nat} {q : Option Ending} (hu : Unfolds (.branches done elsifs) ms r)
    (hl : Lies d ms a b) (hs : Stmt.branchesSimple elsifs = true) (hdone : d.offset? done = some n)
    (hx : Stmt.execBranches I (k + 1) elsifs env = some (q, env')) :
    Decides I c d a b n env s q env' := by
  cases hu with
  | branchesNil =>
      obtain rfl := hl
      cases hx
      exact Leads.refl
  | @branchesCons _ next condition body rest =>
      simp only [Stmt.branchesSimple, Bool.and_eq_true] at hs
      obtain ⟨⟨hcondition, hbody⟩, hrest⟩ := hs
      simp only [Stmt.execBranches, Option.bind_eq_bind, Option.bind_eq_some_iff] at hx
      obtain ⟨⟨v, env₁⟩, hv, hx⟩ := hx
      simp only [List.append_assoc, lies_append] at hl
      obtain ⟨_, ⟨_, rfl, a₁, hcond, _, ⟨hif, rfl⟩, rfl⟩, a₂, hblock, _, ⟨hjump, rfl⟩,
        _, ⟨hnext, rfl⟩, _, hbranches, rfl⟩ := hl
      have hif := Draft.finished_jump hc hif hnext
      have hjump := Draft.finished_jump hc hjump hdone
      have hv := hcond.eval hc hfew hcondition (s := s) hv
      cases htruth : I.truthy v with
      | true =>
          simp only [htruth, if_true, Option.bind_eq_some_iff] at hx
          obtain ⟨⟨o, env₂⟩, hscope, hx⟩ := hx
          cases hx
          have hrun := (ih.scope s hblock hbody hscope).after (hv.trans (.passes hif htruth))
            hcond.kept.innermostLoop
          -- The branches behind are passed over, but their conditions may declare names.
          exact (hrun.jump hjump).rescope hbranches.kept.taken hbranches.fresh fun hagree =>
            hagree.announce hbranches.kept (hbranches.grown hrest)
      | false =>
          simp only [htruth] at hx
          obtain ⟨ms', r', hu', -, hl'⟩ := hbranches.unfolds hfew
          have hpassed := (hv.trans (.turns hif htruth)).below hblock.below
          exact (ih.branches s hu' hl' hrest hdone hx).after hpassed
            (hcond.kept.trans (.of_below hblock.below)).innermostLoop

/-- **A conditional**: its condition, its own body, its branches, and what is left. -/
theorem cond_succ (ih : Simulates I c d k) (hfew : d.labels.size ≤ UInt32.size) {condition : Expr}
    {body : List Stmt} {elsifs : List (Expr × List Stmt)} {rest : Option (List Stmt)}
    (h : Laid d (.stmt (.cond condition body elsifs rest)) a b)
    (hs : (Stmt.cond condition body elsifs rest).simple = true)
    (hx : Stmt.exec I (k + 1) (.cond condition body elsifs rest) env = some (o, env')) :
    Settles I c d a b env s o env' := by
  obtain ⟨ms, r, hu, -, hl⟩ := h.unfolds hfew
  cases hu with
  | @cond _ _ _ _ done next =>
  obtain ⟨hs, hrest⟩ : Stmt.branchesSimple ((condition, body) :: elsifs) = true ∧
      rest.all Stmt.allSimple = true := by
    cases rest <;> simpa [Stmt.simple, Stmt.branchesSimple] using hs
  simp only [Stmt.exec, Option.bind_eq_bind, Option.bind_eq_some_iff] at hx
  obtain ⟨⟨q, env₁⟩, hbranches, hx⟩ := hx
  -- The first branch lies there like the others.
  simp only [@lies_append d _ (Move.otherwise rest), @lies_append d _ [.mark done]] at hl
  obtain ⟨b, ⟨a₁, ⟨_, rfl, hif⟩, hlast⟩, _, ⟨hdone, rfl⟩, rfl⟩ := hl
  have hrun := ih.branches s Unfolds.branchesCons hif hs hdone hbranches
  cases q with
  | none =>
      cases rest with
      | none =>
          obtain rfl := hlast
          cases hx
          exact Leads.settles hrun
      | some body =>
          have hloop : b.scopes.innermostLoop? = a₁.scopes.innermostLoop? :=
            (Kept.of_below (Lies.below hlast)).innermostLoop
          exact (ih.scope s hlast hrest hx).after hrun (hloop.symm.trans h.kept.innermostLoop)
  | some o' =>
      cases hx
      have hbelow : Below a₁.scopes.stack b.scopes.stack := by
        cases rest with
        | none =>
            obtain rfl := hlast
            exact .refl
        | some body => exact Lies.below hlast
      exact Settles.below (b := ⟨a₁.scopes, b.pc⟩) hrun hbelow

end Simulates

end StackScript
