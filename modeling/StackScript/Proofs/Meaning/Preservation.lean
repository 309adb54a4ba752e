import StackScript.Proofs.Meaning.Loops

/-!
# Lowering preserves meaning

A statement of a program means the same before and after lowering.  Where its evaluation ends normally,
the machine runs from the beginning of its code to its end, with the operand stack as it was, and
finds the variables in scope there with the values that the evaluation gives them.

* `lowered_preserves_meaning`: so for every simple statement, wherever in a program it stands.
* `Datum`: values with which programs can be run.
-/

namespace StackScript

open Scopes

/-- **Lowering preserves meaning.**  Let a statement have been lowered somewhere in a program without
diagnostics, and let `c` be the code of the unit.  If evaluation from `env` ends normally with `env'`,
a machine whose local variables agree with `env` gets from the beginning of the statement's code to its
end.  The operand stack is then as it was and the local variables agree with `env'`; those that no name
in scope has are as they were.

Evaluation does not end normally where it reads a variable that has no value: one whose `my` stands in the
condition of an `elsif` that control has passed over, and which has not been assigned since.  Of such a
read nothing is said here. -/
theorem lowered_preserves_meaning {V : Type} {I : Interpretation V} (hI : I.Counts) {p : Program}
    {name : String} {options : CompileOptions} {stmt : Stmt} {r : Bool} {σ σ' : Session} {d : Draft}
    {c : Chunk} {k : Nat} {env env' : Env V} {locals : List V}
    (h : p.Lowered name options (.stmt stmt) r σ σ') (hquiet : σ'.report.count = σ.report.count)
    (hd : σ'.draft.Grows d) (hfew : d.labels.size ≤ UInt32.size) (hc : d.finish = .ok c)
    (hs : stmt.simple = true) (hx : stmt.exec I k env = some (.normal, env'))
    (hagree : Agree locals (names σ.scopes.stack) env) (hroom : σ'.scopes.taken ≤ locals.length)
    (stack : List V) (callers : List (Caller V)) :
    ∃ locals', Machine.Goes I c ⟨σ.draft.position, stack, locals, callers⟩
        ⟨σ'.draft.position, stack, locals', callers⟩ ∧
      Agree locals' (names σ'.scopes.stack) env' ∧ Spared σ.scopes.stack locals locals' := by
  have hsane := h.sane
  obtain ⟨σ₁, hl, hv⟩ := h
  have hruns := (hv.within hl).1.runs.quiet hquiet
  have hlaid : Laid d (.stmt stmt) σ.spot σ'.spot := .intro hruns hsane hd
  exact ((simulates hc hfew hI k).stmt stack hlaid hs hx).leads.goes callers hagree hroom

/-! ### A run -/

/-- Values of a script. -/
inductive Datum where
  | undefined
  | bool (value : Bool)
  | int (value : Int)
  | num (value : Double)
  | str (value : String)
  | array (items : List Datum)

namespace Datum

/-- The integer that it is, if it is one. -/
def int? : Datum → Option Int
  | .int n => some n
  | _ => none

theorem int?_eq_some {v : Datum} {n : Int} : v.int? = some n ↔ v = .int n := by
  cases v <;> simp [int?]

/-- It counts as true. -/
def truthy : Datum → Bool
  | .undefined => false
  | .bool b => b
  | .int n => n ≠ 0
  | _ => true

/-- The number of items, if it is a list. -/
def length? : Datum → Option Nat
  | .array items => some items.length
  | _ => none

/-- The item at a position of a list. -/
def index : Datum → Datum → Option Datum
  | .array items, .int n => items[n.toNat]?
  | _, _ => none

/-- Addition, and what a comparison of integers gives. -/
def binary : BinaryOp → Datum → Datum → Option Datum
  | .add, .int a, .int b => some (.int (a + b))
  | .equal, .int a, .int b => some (.bool (a = b))
  | .greaterEqual, .int a, .int b => some (.bool (b ≤ a))
  | _, _, _ => none

/-- The one builtin that there is: the number of items. -/
def builtin : Builtin → List Datum → Option Datum
  | .elems, [v] => v.length?.map fun n => .int n
  | _, _ => none

/-- The primitives on these values, as far as programs below need them. -/
def interpretation : Interpretation Datum where
  int := .int
  num := .num
  str := .str
  bool := .bool
  undefined := .undefined
  binary := binary
  unary := fun _ _ => none
  truthy := truthy
  box := .array
  length? := length?
  index := index
  builtin := builtin
  copy := id
  convert := fun _ v => some v

theorem counts : interpretation.Counts where
  elems h := by
    show Option.map _ _ = _
    rw [show length? _ = _ from h]
    rfl
  succ _ _ := rfl
  reached _ _ := ⟨_, rfl, by simp [interpretation, truthy]⟩

end Datum

/-- Adds up the items of a list, but for those that are two, as far as the first that is four. -/
def skim : Stmt :=
  .forEach "$x" (.list [.integer 1 {}, .integer 2 {}, .integer 3 {}, .integer 4 {}] {}) [
    .cond (.binary .equal (.var "$x" {}) (.integer 2 {}) {}) [.expr (.call "next" [] {})]
      [(.binary .equal (.var "$x" {}) (.integer 4 {}) {}, [.expr (.call "last" [] {})])] none,
    .expr (.assign (.var "$sum" {}) (.binary .add (.var "$sum" {}) (.var "$x" {}) {}) {})]

/-- A sum of zero, and the loop that adds to it. -/
def skimming : Program where
  body := [.expr (.assign (.declare "$sum" .unknown {}) (.integer 0 {}) {}), skim]

/-- One and three make four, and the variable is in the first slot. -/
theorem lowered_preserves_meaning_skimming :
    ∃ u locals, compile "main" {} skimming = .ok u ∧
      Machine.Goes Datum.interpretation u.chunk ⟨1, [], List.replicate 3 .undefined, []⟩
        ⟨u.chunk.size - 1, [], locals, []⟩ ∧
      locals[0]? = some (.int 4) := by
  have hok : (compile "main" {} skimming).isOk = true := by decide +kernel
  have hend : (fun σ : Session => σ.scopes.taken = 3 ∧ σ.draft.labels.size ≤ UInt32.size ∧
      σ.scopes.resolve? "$sum" = some ⟨0, .unknown⟩)
      (Lower.lowerStmts skimming.body (skimming.entry "main" {})).2 := by decide +kernel
  have hsum : (skim.exec Datum.interpretation 20 [Env.Scope.empty.set "$sum" (.int 0)]).map
      (fun r => (r.1, (r.2.lookup? "$sum").bind Datum.int?)) = some (.normal, some 4) := by
    decide +kernel
  cases h : compile "main" {} skimming with
  | error e => simp [h, Except.isOk, Except.toBool] at hok
  | ok u =>
      obtain ⟨σ, hl, hcount, hfin⟩ := Program.lowers_of_compile h
      rw [(Lowers.stmts_iff.mp hl).1] at hend
      obtain ⟨htaken, hfew, hfound⟩ := hend
      -- The two statements of the program.
      obtain ⟨ms, hu, hall⟩ := id hl.unfolds
      cases hu with
      | stmtsCons =>
      obtain ⟨σ₁, hfirst, σ₃, hrest, rfl⟩ := hall
      obtain ⟨ms, hu, hall⟩ := id (Lowers.unfolds hrest)
      cases hu with
      | stmtsCons =>
      obtain ⟨σ₂, hsecond, σ₃, hnil, rfl⟩ := hall
      obtain ⟨ms, hu, hall⟩ := Lowers.unfolds hnil
      cases hu with
      | stmtsNil =>
      obtain rfl : σ₂ = σ₃ := hall
      have hpart : Part (.stmts skimming.body) true (skimming.entry "main" {}) σ₂ _ _ _ _ :=
        ⟨[], [.piece (.stmts [skim]) true], .stmtsCons, rfl, hfirst, _, hrest, rfl⟩
      have hpart' : Part (.stmts [skim]) true σ₁ σ₂ _ _ _ _ :=
        ⟨[], [.piece (.stmts []) true], .stmtsCons, rfl, hsecond, _, hnil, rfl⟩
      have hpart'' : Part (.stmts skimming.body) true (skimming.entry "main" {}) σ₂ _ _ _ _ :=
        ⟨[.piece _ true], [], .stmtsCons, ⟨σ₁, hfirst, rfl⟩, hrest, rfl⟩
      have h₁ : skimming.Lowered "main" {} _ _ _ _ := ⟨σ₂, hl, .part .self hpart⟩
      have h₂ : skimming.Lowered "main" {} _ _ _ _ := ⟨σ₂, hl, .part (.part .self hpart'') hpart'⟩
      have hcount₁ : σ₁.report.count = 0 := (Lowers.before hsecond).count_eq_zero hcount
      have hcount₀ : (skimming.entry "main" {}).report.count = 0 :=
        (Lowers.before hfirst).count_eq_zero hcount₁
      have hgrows : σ₁.draft.Grows σ₂.halted.draft := (Lowers.before hsecond).grows.trans .emit
      have hagree : Agree (List.replicate 3 Datum.undefined)
          (names (skimming.entry "main" {}).scopes.stack) [Env.Scope.empty] := by
        refine ⟨fun x => ?_, trivial⟩
        simp [Scope.binding?, Env.Scope.empty, Holds]
      have hroom : σ₁.scopes.taken ≤ 3 := htaken ▸ (Lowers.runs hsecond).kept.taken
      obtain ⟨locals₁, hgo₁, hagree₁, hspared₁⟩ := lowered_preserves_meaning Datum.counts h₁
        (hcount₁.trans hcount₀.symm) hgrows hfew hfin rfl (k := 1) rfl hagree hroom [] []
      cases hx : skim.exec Datum.interpretation 20 [Env.Scope.empty.set "$sum" (.int 0)] with
      | none => simp [hx] at hsum
      | some r =>
          obtain ⟨o, env⟩ := r
          rw [hx] at hsum
          obtain ⟨rfl, hsum⟩ := Prod.mk.inj (Option.some.inj hsum)
          obtain ⟨v, hfour, hv⟩ := Option.bind_eq_some_iff.mp hsum
          obtain rfl := Datum.int?_eq_some.mp hv
          obtain ⟨locals₂, hgo₂, hagree₂, -⟩ := lowered_preserves_meaning Datum.counts h₂
            (hcount.trans hcount₁.symm) .emit hfew hfin rfl hx hagree₁
            (by rw [hspared₁.length, List.length_replicate]; exact Nat.le_of_eq htaken) [] []
          have hsize : u.chunk.size - 1 = σ₂.draft.position := by
            have : u.chunk.size = σ₂.halted.draft.position := (Draft.finish_eq_ok hfin).2.1
            rw [this]
            simp [Session.halted, Draft.position, Draft.emit, Chunk.emit, Chunk.size]
          have hslot := hagree₂.lookup hfour (b := ⟨0, .unknown⟩) (resolve?_eq ▸ hfound)
          refine ⟨u, locals₂, rfl, ?_, hslot⟩
          rw [hsize, ← Program.entry_position]
          exact hgo₁.trans hgo₂

end StackScript
