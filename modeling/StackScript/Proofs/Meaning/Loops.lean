import StackScript.Proofs.Meaning.Statements

/-!
# The code of loops

The code of a loop comes back to where it started, with the variables around the loop.  What the body
has declared is out of scope there, so the next iteration starts from the same names as the first.

* `Simulates.whileLoop_succ`, `Simulates.counted_succ`, `Simulates.each_succ`: one iteration, and
  those behind it.
* `simulates`: the code of simple statements does what the statements do.
-/

namespace StackScript

open Scopes

variable {V : Type} {I : Interpretation V} {c : Chunk} {d : Draft} {a b : Spot}
  {env env₁ env' : Env V} {s : List V} {o : Ending} {k : Nat}

/-! ### Leaving loops -/

namespace Lands

variable {loop : Option LoopControl} {control : LoopControl} {stop n m : Nat}

/-- `last` goes to where the loop is done. -/
theorem last (h : Lands d loop stop n .last) (hloop : loop = some control) (hc : d.finish = .ok c)
    (hdone : d.offset? control.done = some m) :
    c.instructions[n]? = some ⟨.jump, some (.offset m)⟩ := by
  obtain ⟨_, hcontrol, t, b, _, ⟨hi, -⟩, -⟩ := h
  cases hloop.symm.trans hcontrol
  exact Draft.finished_jump hc hi hdone

/-- `next` goes to where the loop goes on, with nothing to do on the way. -/
theorem next (h : Lands d loop stop n .next) (hloop : loop = some control)
    (hadvance : Move.advance control = []) (hc : d.finish = .ok c)
    (hnext : d.offset? control.next = some m) :
    c.instructions[n]? = some ⟨.jump, some (.offset m)⟩ := by
  obtain ⟨_, hcontrol, t, b, h⟩ := h
  cases hloop.symm.trans hcontrol
  rw [LoopControl.exit, hadvance] at h
  obtain ⟨_, ⟨hi, -⟩, -⟩ := h
  exact Draft.finished_jump hc hi hnext

end Lands

/-! ### While loops -/

/-- A `while` ends normally. -/
theorem Stmt.exec_whileLoop {condition : Expr} {body : List Stmt}
    (h : Stmt.exec I k (.whileLoop condition body) env = some (o, env')) : o = .normal := by
  induction k generalizing env with
  | zero => cases h
  | succ k ih =>
      simp only [Stmt.exec, Option.bind_eq_bind, Option.bind_eq_some_iff] at h
      obtain ⟨⟨v, env₁⟩, -, h⟩ := h
      split at h
      · obtain ⟨⟨o₁, env₂⟩, -, h⟩ := Option.bind_eq_some_iff.mp h
        split at h
        · cases h
          rfl
        · exact ih h
      · cases h
        rfl

namespace Simulates

/-- A `while`: the condition, the body if it is true, and the loop again. -/
theorem whileLoop_succ (ih : Simulates I c d k) (hc : d.finish = .ok c)
    (hfew : d.labels.size ≤ UInt32.size) {condition : Expr} {body : List Stmt}
    (h : Laid d (.stmt (.whileLoop condition body)) a b)
    (hs : (Stmt.whileLoop condition body).simple = true)
    (hx : Stmt.exec I (k + 1) (.whileLoop condition body) env = some (.normal, env')) :
    Leads I c a b env s env' s := by
  obtain ⟨ms, r, hu, -, hl⟩ := h.unfolds hfew
  cases hu with
  | @whileLoop _ _ done top =>
  obtain ⟨hcondition, hbody⟩ : condition.simple = true ∧ Stmt.allSimple body = true := by
    simpa [Stmt.simple] using hs
  simp only [Stmt.exec, Option.bind_eq_bind, Option.bind_eq_some_iff] at hx
  obtain ⟨⟨v, env₁⟩, hv, hx⟩ := hx
  obtain ⟨_, rfl, _, ⟨htop, rfl⟩, _, rfl, a₁, hcond, _, ⟨hif, rfl⟩, a₂, hlaid, _, ⟨hjump, rfl⟩,
    _, ⟨hdone, rfl⟩, _, rfl, rfl⟩ := hl
  have hin : Scopes.Inner 1 (a.scopes.enter (.loop (.whileLoop done top))).stack :=
    Scopes.Inner.zero.enter rfl
  have hkept := hcond.kept.trans hlaid.kept
  have hentered : Leads I c a ⟨a.scopes.enter (.loop (.whileLoop done top)), a.pc⟩ env s env.enter s :=
    .enter rfl
  have hif := Draft.finished_jump hc hif hdone
  have hv := hcond.eval hc hfew hcondition (s := s) hv
  cases htruth : I.truthy v with
  | false =>
      simp only [htruth] at hx
      cases hx
      exact hentered.trans ((hv.trans (.turns hif htruth)).close hin hcond.kept hkept hlaid.kept.taken)
  | true =>
      simp only [htruth, if_true, Option.bind_eq_some_iff] at hx
      obtain ⟨⟨o, env₂⟩, hall, hx⟩ := hx
      obtain ⟨t, ht, htaken, -, n, hn, hrun⟩ := ih.stmts s hlaid hbody hall
      have hrun := hv.trans (.trans (.passes hif htruth) hrun)
      have hloop : a₁.scopes.innermostLoop? = some (.whileLoop done top) := hcond.kept.innermostLoop
      by_cases ho : o = .last
      · subst ho
        simp only [if_true] at hx
        cases hx
        have hleft := hrun.trans (.jump (Lands.last hn hloop hc hdone))
        exact hentered.trans (hleft.close hin (hcond.kept.trans ht) hkept htaken)
      · simp only [ho, if_false] at hx
        -- A body that ends normally jumps back as `next` does.
        have hback : c.instructions[n]? = some ⟨.jump, some (.offset a.pc)⟩ := by
          cases o with
          | normal =>
              obtain rfl : n = a₂.pc := hn
              exact Draft.finished_jump hc hjump htop
          | next => exact Lands.next hn hloop rfl hc htop
          | last => exact absurd rfl ho
        have ht' := hcond.kept.trans ht
        have hround := hentered.trans ((hrun.trans (.jump hback)).close hin ht' ht' (Nat.le_refl _))
        have hrest := (ih.stmt s h hs hx).leads
        refine hround.again ?_ (fun _ hagree => ?_) hrest
        · rw [(hin.kept ht').leave.1]
          exact Nat.le_trans htaken (Nat.le_of_eq (hin.kept hkept).leave.1.symm)
        · rw [ht'.leave.names] at hagree
          exact hagree

/-! ### Counted loops -/

end Simulates

/-- A part of a loop's header is computed and its value dropped; one that is left out does nothing. -/
theorem Lies.effect {e : Option Expr} (h : Lies d (Move.effect e) a b) (hc : d.finish = .ok c)
    (hfew : d.labels.size ≤ UInt32.size) (hs : e.all (·.simple) = true)
    (hx : Stmt.effect I e env = some env') : Leads I c a b env s env' s := by
  cases e with
  | none =>
      obtain rfl := h
      cases hx
      exact .refl
  | some e =>
      obtain ⟨a₁, he, _, ⟨hpop, rfl⟩, rfl⟩ := h
      obtain ⟨⟨v, env₁⟩, hv, rfl⟩ := Option.map_eq_some_iff.mp hx
      exact (he.eval hc hfew hs hv).trans (.pop (Draft.finished_plain hc hpop rfl))

/-- A condition that is left out is true. -/
theorem Lies.test {e : Option Expr} {done : Label} {n : Nat} {go : Bool}
    (h : Lies d (Move.guarded done e) a b) (hc : d.finish = .ok c)
    (hfew : d.labels.size ≤ UInt32.size) (hs : e.all (·.simple) = true)
    (hdone : d.offset? done = some n) (hx : Stmt.test I e env = some (go, env')) :
    Leads I c a ⟨b.scopes, if go then b.pc else n⟩ env s env' s := by
  cases e with
  | none =>
      obtain rfl := h
      cases hx
      exact .refl
  | some e =>
      obtain ⟨a₁, he, _, ⟨hif, rfl⟩, rfl⟩ := h
      obtain ⟨⟨v, env₁⟩, hv, hx⟩ := Option.map_eq_some_iff.mp hx
      cases hx
      have hif := Draft.finished_jump hc hif hdone
      have hv := he.eval hc hfew hs (s := s) hv
      cases htruth : I.truthy v with
      | true => exact hv.trans (.passes hif htruth)
      | false => exact hv.trans (.turns hif htruth)

/-- The expressions of a loop's header stand in the scope of the loop. -/
theorem Lies.header {e : Option Expr} {ms : List Move} (h : Lies d ms a b)
    (hms : ms = Move.effect e ∨ ∃ done, ms = Move.guarded done e) (hs : e.all (·.simple) = true) :
    Kept a.scopes.stack b.scopes.stack ∧ ∃ D, Grown D a.scopes.stack b.scopes.stack := by
  cases e with
  | none =>
      obtain rfl : ms = [] := hms.elim id fun ⟨_, h⟩ => h
      obtain rfl := h
      exact ⟨.refl, _, .refl⟩
  | some e =>
      obtain ⟨i, rfl⟩ : ∃ i, ms = [.piece (.expr e) true, .emit i] :=
        hms.elim (fun h => ⟨_, h⟩) fun ⟨_, h⟩ => ⟨_, h⟩
      obtain ⟨a₁, he, _, ⟨-, rfl⟩, rfl⟩ := h
      exact ⟨he.kept, _, he.grown (Bool.or_eq_true .. ▸ .inl hs)⟩

namespace Simulates

/-- A counted loop from its condition on: the body, the step, and the loop again. -/
theorem counted_succ (ih : Simulates I c d k) (hc : d.finish = .ok c)
    (hfew : d.labels.size ≤ UInt32.size) {condition step : Option Expr} {body : List Stmt}
    {done next : Label} {a₁ a₂ a₃ : Spot}
    (h : CountedLoop d condition step body done next a a₁ a₂ a₃)
    (hcondition : condition.all (·.simple) = true) (hstep : step.all (·.simple) = true)
    (hbody : Stmt.allSimple body = true)
    (hx : Stmt.execCounted I (k + 1) condition step body env = some env') :
    Leads I c a ⟨a₃.scopes.leave, a₃.pc + 1⟩ env s env'.leave s := by
  obtain ⟨hkept₁, D₁, hgrown₁⟩ := h.test.header (.inr ⟨done, rfl⟩) hcondition
  obtain ⟨hkept₃, D₃, hgrown₃⟩ := h.step.header (.inl rfl) hstep
  have hbelow := h.body.below
  have hkept₂ := hkept₁.trans (.of_below hbelow)
  simp only [Stmt.execCounted, Option.bind_eq_bind, Option.bind_eq_some_iff] at hx
  obtain ⟨⟨go, env₁⟩, htest, hx⟩ := hx
  have htest := h.test.test hc hfew hcondition (s := s) h.done htest
  cases go with
  | false =>
      cases hx
      exact htest.close h.inner hkept₁ (hkept₂.trans hkept₃)
        (Nat.le_trans hbelow.taken hkept₃.taken)
  | true =>
      simp only [if_true, Option.bind_eq_some_iff] at hx
      obtain ⟨⟨o, env₂⟩, hscope, hx⟩ := hx
      obtain ⟨n, hn, hrun⟩ := ih.scope s h.body hbody hscope
      have hrun := htest.trans hrun
      have hloop := hkept₁.innermostLoop.trans h.control
      by_cases ho : o = .last
      · subst ho
        cases hx
        have hleft := hrun.trans (.jump (Lands.last hn hloop hc h.done))
        exact hleft.close h.inner hkept₂ (hkept₂.trans hkept₃) hkept₃.taken
      · simp only [ho, if_false, Option.bind_eq_some_iff] at hx
        obtain ⟨env₃, heffect, hx⟩ := hx
        -- A `next` lands where the body ends, so that both ways out of the body come to the step.
        have hrun : Leads I c a a₂ env s env₂ s := by
          cases o with
          | normal =>
              obtain rfl : n = a₂.pc := hn
              exact hrun
          | next => exact hrun.trans (.jump (Lands.next hn hloop rfl hc h.next))
          | last => exact absurd rfl ho
        obtain ⟨top, hjump, htop⟩ := h.again
        have hround := hrun.trans ((h.step.effect hc hfew hstep heffect).trans
          (.jump (Draft.finished_jump hc hjump htop)))
        -- Names that the condition and the step declare are cut off before the next round.
        refine hround.again ?_ (fun hstart hend => ?_) (ih.counted s h hcondition hstep hbody hx)
        · exact Nat.le_of_eq (h.inner.kept (hkept₂.trans hkept₃)).leave.1.symm
        · exact hstart.cut hend (hkept₂.trans hkept₃) ((hgrown₁.below hbelow).trans hgrown₃)

/-- A counted loop as a whole, with its own scope around the header. -/
theorem loop_succ (ih : Simulates I c d k) (hc : d.finish = .ok c)
    (hfew : d.labels.size ≤ UInt32.size) {init condition step : Option Expr} {body : List Stmt}
    (h : Laid d (.stmt (.loop init condition step body)) a b)
    (hs : (Stmt.loop init condition step body).simple = true)
    (hx : Stmt.exec I (k + 1) (.loop init condition step body) env = some (o, env')) :
    Settles I c d a b env s o env' := by
  obtain ⟨ms, r, hu, -, hl⟩ := h.unfolds hfew
  cases hu with
  | @loop _ _ _ _ done next top =>
  obtain ⟨⟨⟨hinit, hcondition⟩, hstep⟩, hbody⟩ : ((init.all (·.simple) = true ∧
      condition.all (·.simple) = true) ∧ step.all (·.simple) = true) ∧
      Stmt.allSimple body = true := by
    simpa [Stmt.simple] using hs
  simp only [Stmt.exec, Option.bind_eq_bind, Option.bind_eq_some_iff] at hx
  obtain ⟨env₁, heffect, env₂, hcounted, hx⟩ := hx
  cases hx
  simp only [List.append_assoc, lies_append] at hl
  obtain ⟨_, ⟨_, rfl, _, rfl, _, rfl, rfl⟩, a₁, hfirst, _, ⟨_, ⟨htop, rfl⟩, rfl⟩, a₂, htest, a₃, hblock,
    _, ⟨_, ⟨hnext, rfl⟩, rfl⟩, a₄, hlast, _, ⟨hjump, rfl⟩, _, ⟨hdone, rfl⟩, _, rfl, rfl⟩ := hl
  have hin : Scopes.Inner 1 (a.scopes.enter (.loop (.countedLoop done next))).stack :=
    Scopes.Inner.zero.enter rfl
  obtain ⟨hkept, -⟩ := hfirst.header (.inl rfl) hinit
  have hloop : CountedLoop d condition step body done next a₁ a₂ a₃ a₄ :=
    ⟨hin.kept hkept, hkept.innermostLoop, htest, hblock, hnext, hlast, ⟨top, hjump, htop⟩, hdone⟩
  have hrun : Leads I c a _ env s _ s := .trans (.enter rfl) (.trans (hfirst.effect hc hfew hinit heffect)
    (ih.counted s hloop hcondition hstep hbody hcounted))
  exact hrun.settles

end Simulates

/-! ### Loops over arrays -/

namespace EachLoop

variable {x : String} {body : List Stmt} {index item : Slot} {done top : Label} {v w : V} {n i : Nat}
  {locals : List V} {callers : List (Caller V)}

theorem item_bound (h : EachLoop d x body index item done top a b) :
    Bound a.scopes.stack item.toNat := by
  have hx := h.bound x
  rw [if_pos rfl] at hx
  cases hs : a.scopes.stack with
  | nil => simp [hs, top?] at hx
  | cons r rs =>
      rw [hs] at hx
      exact bound_cons.mpr (.inl ⟨x, _, hx, rfl⟩)

/-- The element in its slot is the value of the loop variable. -/
theorem agree (h : EachLoop d x body index item done top a b)
    (hagree : Agree locals (names a.scopes.stack).tail env) (hlt : item.toNat < locals.length) :
    Agree (locals.set item.toNat w) (names a.scopes.stack) (env.enter.declare x w) := by
  have hdistinct := h.body.apart.distinct
  have hx : top? a.scopes.stack x = some ⟨item, .unknown⟩ := by rw [h.bound, if_pos rfl]
  rcases (Kept.refl (s := a.scopes.stack)).names with ⟨hnil, -⟩ | ⟨gs, hnames, -⟩
  · rw [hnil] at hx
    cases hx
  · rw [hnames] at hagree hdistinct ⊢
    exact hagree.enter.set_top hdistinct hlt (fun y hy => by rw [h.bound, if_neg hy]) hx rfl

/-- The index is compared with the number of elements. -/
theorem compares (h : EachLoop d x body index item done top a b) (hc : d.finish = .ok c)
    (hI : I.Counts) (hv : I.length? v = some n) (hi : i ≤ n)
    (hindex : locals[index.toNat]? = some (I.int i)) :
    Machine.Goes I c ⟨a.pc, I.int n :: v :: s, locals, callers⟩
      ⟨if i < n then a.pc + 3 else b.pc + 5, I.int n :: v :: s, locals, callers⟩ := by
  obtain ⟨_, ⟨h₀, rfl⟩, _, ⟨h₁, rfl⟩, _, ⟨h₂, rfl⟩, -⟩ := h.take
  have hload : Machine.Goes I c ⟨a.pc, I.int n :: v :: s, locals, callers⟩
      ⟨a.pc + 1, I.int i :: I.int n :: v :: s, locals, callers⟩ :=
    .load (Draft.finished_plain hc h₀ rfl) hindex
  have hdup : Machine.Goes I c ⟨a.pc + 1, I.int i :: I.int n :: v :: s, locals, callers⟩
      ⟨a.pc + 2, I.int n :: I.int i :: I.int n :: v :: s, locals, callers⟩ :=
    .one (Draft.finished_plain hc h₁ rfl) rfl
  obtain ⟨r, hr, htruth⟩ := hI.reached hv hi
  have hjump : Machine.Goes I c ⟨a.pc + 2, I.int n :: I.int i :: I.int n :: v :: s, locals, callers⟩
      ⟨if i < n then a.pc + 3 else b.pc + 5, I.int n :: v :: s, locals, callers⟩ := by
    refine .one (Draft.finished_jump hc h₂ h.done) ?_
    by_cases hlt : i < n
    · have : I.truthy r = false := by simpa [htruth] using hlt
      simp [Machine.execute, Machine.jumpIfGreaterOrEqual, hr, this, hlt, Machine.next]
    · have : I.truthy r = true := by simpa [htruth] using hlt
      simp [Machine.execute, Machine.jumpIfGreaterOrEqual, hr, this, hlt]
  exact hload.trans (hdup.trans hjump)

/-- The element at the index is put into its slot. -/
theorem takes (h : EachLoop d x body index item done top a b) (hc : d.finish = .ok c)
    (hindex : locals[index.toNat]? = some (I.int i)) (hw : I.index v (I.int i) = some w)
    (hlt : item.toNat < locals.length) :
    Machine.Goes I c ⟨a.pc + 3, I.int n :: v :: s, locals, callers⟩
      ⟨a.pc + 7, I.int n :: v :: s, locals.set item.toNat w, callers⟩ := by
  obtain ⟨_, ⟨-, rfl⟩, _, ⟨-, rfl⟩, _, ⟨-, rfl⟩, _, ⟨h₃, rfl⟩, _, ⟨h₄, rfl⟩, _, ⟨h₅, rfl⟩,
    _, ⟨h₆, rfl⟩, -⟩ := h.take
  have hdup : Machine.Goes I c ⟨a.pc + 3, I.int n :: v :: s, locals, callers⟩
      ⟨a.pc + 4, v :: I.int n :: v :: s, locals, callers⟩ :=
    .one (Draft.finished_plain hc h₃ rfl) rfl
  have hload : Machine.Goes I c ⟨a.pc + 4, v :: I.int n :: v :: s, locals, callers⟩
      ⟨a.pc + 5, I.int i :: v :: I.int n :: v :: s, locals, callers⟩ :=
    .load (Draft.finished_plain hc h₄ rfl) hindex
  have hget : Machine.Goes I c ⟨a.pc + 5, I.int i :: v :: I.int n :: v :: s, locals, callers⟩
      ⟨a.pc + 6, w :: I.int n :: v :: s, locals, callers⟩ :=
    .one (Draft.finished_plain hc h₅ rfl)
      (by simp [Instruction.bare, Machine.execute, Machine.binary, hw, Machine.next])
  exact hdup.trans (hload.trans (hget.trans (.store (Draft.finished_plain hc h₆ rfl) hlt)))

/-- The index is incremented, and the next element is taken. -/
theorem returns (h : EachLoop d x body index item done top a b) (hc : d.finish = .ok c)
    (hI : I.Counts) (hv : I.length? v = some n) (hi : i < n) {t e : Spot}
    (hl : Lies d (Move.increment index ++ [Move.emit (.jump top)]) t e)
    (hindex : locals[index.toNat]? = some (I.int i)) :
    Machine.Goes I c ⟨t.pc, s, locals, callers⟩
      ⟨a.pc, s, locals.set index.toNat (I.int (i + 1 : Nat)), callers⟩ := by
  obtain ⟨_, ⟨h₀, rfl⟩, _, ⟨h₁, rfl⟩, _, ⟨h₂, rfl⟩, _, ⟨h₃, rfl⟩, _, ⟨h₄, rfl⟩, -⟩ := hl
  have hload : Machine.Goes I c ⟨t.pc, s, locals, callers⟩
      ⟨t.pc + 1, I.int i :: s, locals, callers⟩ :=
    .load (Draft.finished_plain hc h₀ rfl) hindex
  have hone : Machine.Goes I c ⟨t.pc + 1, I.int i :: s, locals, callers⟩
      ⟨t.pc + 2, I.int 1 :: I.int i :: s, locals, callers⟩ :=
    .one (Draft.finished_plain hc h₁ rfl) rfl
  have hadd : Machine.Goes I c ⟨t.pc + 2, I.int 1 :: I.int i :: s, locals, callers⟩
      ⟨t.pc + 3, I.int (i + 1 : Nat) :: s, locals, callers⟩ :=
    .one (Draft.finished_plain hc h₂ rfl) (by
      simp only [Instruction.bare, Machine.execute, Opcode.binary?, Option.bind_some, Machine.binary,
        hI.succ hv hi, Option.map_some, Machine.next])
  have hlt : index.toNat < locals.length := (List.getElem?_eq_some_iff.mp hindex).1
  have hjump : Machine.Goes I c ⟨t.pc + 4, s, locals.set index.toNat (I.int (i + 1 : Nat)), callers⟩
      ⟨a.pc, s, locals.set index.toNat (I.int (i + 1 : Nat)), callers⟩ :=
    .one (Draft.finished_jump hc h₄ h.top) rfl
  exact hload.trans (hone.trans (hadd.trans
    (Machine.Goes.store (Draft.finished_plain hc h₃ rfl) hlt |>.trans hjump)))

end EachLoop

namespace Simulates

/-- A `for` from one index on: the item is bound, the body run, the index incremented, and the loop
again. -/
theorem each_succ (ih : Simulates I c d k) (hc : d.finish = .ok c) (hI : I.Counts) {x : String}
    {body : List Stmt} {index item : Slot} {done top : Label} {v : V} {n i : Nat}
    (h : EachLoop d x body index item done top a b) (hbody : Stmt.allSimple body = true)
    (hv : I.length? v = some n) (hi : i ≤ n)
    (hx : Stmt.execEach I (k + 1) x body v n i env = some env') :
    Walks I c a b index i env (I.int n :: v :: s) env' := by
  intro locals callers hagree hroom hindex
  have hcompare : Machine.Goes I c ⟨a.pc, I.int n :: v :: s, locals, callers⟩
      ⟨if i < n then a.pc + 3 else b.pc + 5, I.int n :: v :: s, locals, callers⟩ :=
    h.compares hc hI hv hi hindex
  simp only [Stmt.execEach] at hx
  by_cases hlt : i < n
  · simp only [hlt, if_true, Option.bind_eq_bind, Option.bind_eq_some_iff] at hx hcompare
    obtain ⟨w, hw, ⟨o, env₂⟩, hall, hx⟩ := hx
    obtain ⟨t, ht, htaken, -, m, hm, hrun⟩ := ih.stmts (I.int n :: v :: s) h.body hbody hall
    have hitem : item.toNat < locals.length :=
      Nat.lt_of_lt_of_le (h.body.apart.bound_lt h.item_bound) (Nat.le_trans h.body.kept.taken hroom)
    have hne : item.toNat ≠ index.toNat := fun he => h.hidden (he ▸ h.item_bound)
    obtain ⟨locals₁, hgo, hend, hspared⟩ := hrun.goes callers (h.agree hagree hitem)
      (Nat.le_trans htaken (by rwa [List.length_set]))
    have hgo := hcompare.trans ((h.takes hc hindex hw hitem).trans hgo)
    -- The body leaves the index alone, as no name has its slot.
    have hframe {m : Nat} (hm : m < a.scopes.taken) (hb : ¬ Bound a.scopes.stack m) :
        locals₁[m]? = locals[m]? := by
      have hne : item.toNat ≠ m := fun he => hb (he ▸ h.item_bound)
      rw [hspared.slots hm hb, List.getElem?_set_ne hne]
    have hleft : Agree locals₁ (names a.scopes.stack).tail env₂.leave := by
      rw [← h.inner.names_leave .refl ht, h.inner.names_leave ht ht]
      exact hend.leave
    have hlength : locals₁.length = locals.length := by rw [hspared.length, List.length_set]
    have hindex₁ := (hframe h.given h.hidden).trans hindex
    by_cases ho : o = .last
    · subst ho
      cases hx
      refine ⟨locals₁, hgo.trans (.one (hm.last h.control hc h.done) rfl), hleft, hlength,
        fun hm hb _ => hframe hm hb⟩
    · simp only [ho, if_false] at hx
      -- A body that ends normally goes on as `next` does.
      obtain ⟨u, e, hreturn⟩ : ∃ u e, Lies d (Move.increment index ++ [Move.emit (.jump top)]) ⟨u, m⟩ e := by
        cases o with
        | normal =>
            obtain rfl : m = b.pc := hm
            exact ⟨_, _, h.again⟩
        | next =>
            obtain ⟨control, hcontrol, u, e, hl⟩ := hm
            cases h.control.symm.trans hcontrol
            exact ⟨u, e, hl⟩
        | last => exact absurd rfl ho
      have hback : Machine.Goes I c ⟨m, I.int n :: v :: s, locals₁, callers⟩
          ⟨a.pc, I.int n :: v :: s, locals₁.set index.toNat (I.int (i + 1 : Nat)), callers⟩ :=
        h.returns hc hI hv hlt hreturn hindex₁
      have hunbound : ∀ {g y bnd}, g ∈ (names a.scopes.stack).tail → g y = some bnd →
          bnd.slot.toNat ≠ index.toNat :=
        fun hg hy he => h.hidden ⟨_, List.mem_of_mem_tail hg, _, _, hy, he⟩
      have hindex₂ : (locals₁.set index.toNat (I.int (i + 1 : Nat)))[index.toNat]? =
          some (I.int (i + 1 : Nat)) :=
        List.getElem?_set_self (List.getElem?_eq_some_iff.mp hindex₁).1
      obtain ⟨locals₂, hgo₂, hagree₂, hlength₂, hframe₂⟩ := ih.each s h hbody hv hlt hx callers
        (hleft.set hunbound) (by rwa [List.length_set, hlength]) hindex₂
      refine ⟨locals₂, hgo.trans (hback.trans hgo₂), hagree₂, ?_, fun hm hb hi => ?_⟩
      · rw [hlength₂, List.length_set, hlength]
      · rw [hframe₂ hm hb hi, List.getElem?_set_ne (Ne.symm hi), hframe hm hb]
  · simp only [hlt, if_false] at hx hcompare
    cases hx
    exact ⟨locals, hcompare, hagree, rfl, fun _ _ _ => rfl⟩

end Simulates

/-- The scope of a loop with its variable. -/
theorem Scopes.bind_enter {s u : Scopes} {x : String} {slot : Slot} {control : LoopControl}
    (h : Scopes.bind x slot .unknown (s.enter (.loop control)) = (.ok (), u)) :
    Inner 1 u.stack ∧ u.innermostLoop? = some control ∧ u.taken = s.taken ∧
      names u.stack = (fun y => if x = y then some ⟨slot, .unknown⟩ else none) :: names s.stack := by
  obtain ⟨scope, rest, hs, hu⟩ := bind_ok h
  obtain ⟨rfl, rfl⟩ : ({ kind := .loop control } : Scope) = scope ∧ s.stack = rest := by
    simpa [Scopes.enter] using hs
  refine ⟨?_, ?_, ?_, ?_⟩
  · rw [hu]
    intro r hr
    obtain rfl : r = _ := List.mem_singleton.mp hr
    rfl
  · rw [innermostLoop?_congr (s := s.enter (.loop control)) (by rw [hu]; rfl)]
    rfl
  · rw [Scopes.taken, hu]
    rfl
  · rw [hu]
    have hnames : (fun y => (Scope.bind { kind := .loop control } x ⟨slot, .unknown⟩).binding? y) =
        fun y => if x = y then some ⟨slot, .unknown⟩ else none := by
      funext y
      rw [binding?_bind]
      simp [Scope.binding?]
    rw [names]
    exact congrArg (· :: names s.stack) hnames

/-- How the code of a loop over an array lies around the loop: `t` are the scopes with the slots of the
index and the element given out, the array has been computed at `a₁`, the first element is taken at
`a₂` and the body ends at `a₃`. -/
structure EachCode (d : Draft) (x : String) (iterable : Expr) (body : List Stmt) (index item : Slot)
    (a : Spot) (t : Scopes) (a₁ a₂ a₃ b : Spot) : Prop where
  first : index.toNat = a.scopes.taken
  second : item.toNat = a.scopes.taken + 1
  below : Below a.scopes.stack t.stack
  taken : t.taken = a.scopes.taken + 2
  zero : d.chunk.instructions[a.pc]? = some (.pushInt 0)
  store : d.chunk.instructions[a.pc + 1]? = some (.store index)
  iterable : Laid d (.expr iterable) ⟨t, a.pc + 2⟩ a₁
  dup : d.chunk.instructions[a₁.pc]? = some (.bare .dup)
  elems : d.chunk.instructions[a₁.pc + 1]? = some (.callBuiltin .elems 1)
  pc : a₂.pc = a₁.pc + 2
  loop : ∃ done top, EachLoop d x body index item done top a₂ a₃
  names : names a₂.scopes.stack =
    (fun y => if x = y then some ⟨item, .unknown⟩ else none) :: names a₁.scopes.stack
  room : a₂.scopes.taken = a₁.scopes.taken
  pops : d.chunk.instructions[a₃.pc + 5]? = some (.bare .pop) ∧
    d.chunk.instructions[a₃.pc + 6]? = some (.bare .pop)
  behind : b = ⟨a₃.scopes.leave, a₃.pc + 7⟩

/-- The code of a `for`, part by part. -/
theorem Laid.eachCode {x : String} {iterable : Expr} {body : List Stmt}
    (h : Laid d (.stmt (.forEach x iterable body)) a b) (hfew : d.labels.size ≤ UInt32.size) :
    ∃ index item t a₁ a₂ a₃, EachCode d x iterable body index item a t a₁ a₂ a₃ b := by
  have hapart := h.apart
  obtain ⟨ms, r, hu, -, hl⟩ := h.unfolds hfew
  cases hu with
  | @forEach _ _ _ index item done top =>
  rw [List.append_assoc] at hl
  obtain ⟨⟨t₁, _⟩, ⟨halloc, rfl⟩, ⟨t, _⟩, ⟨halloc', rfl⟩, _, rfl, _, rfl, _, ⟨hzero, rfl⟩,
    _, ⟨hstore, rfl⟩, a₁, hiterable, _, ⟨hdup, rfl⟩, _, ⟨helems, rfl⟩, _, rfl, ⟨u, _⟩, ⟨hbind, rfl⟩,
    _, ⟨htop, rfl⟩, hl⟩ := hl
  obtain ⟨_, htake, a₃, hbody, hl⟩ := (@lies_append d [_, _, _, _, _, _, _] _ _ _).mp hl
  obtain ⟨_, ⟨_, ⟨h₀, rfl⟩, _, ⟨h₁, rfl⟩, _, ⟨h₂, rfl⟩, _, ⟨h₃, rfl⟩, _, ⟨h₄, rfl⟩, rfl⟩, hl⟩ :=
    (@lies_append d [_, _, _, _, _] _ _ _).mp hl
  obtain ⟨_, ⟨hdone, rfl⟩, _, ⟨hpop, rfl⟩, _, ⟨hpop', rfl⟩, _, rfl, rfl⟩ := hl
  obtain ⟨hindex, hstack₁, htaken₁⟩ := @alloc_ok _ t₁ _ halloc
  obtain ⟨hitem, hstack, htaken⟩ := @alloc_ok t₁ t _ halloc'
  have hbelow : Below a.scopes.stack t.stack := by
    rw [hstack, hstack₁]
    exact .trans .bump .bump
  obtain ⟨hin, hcontrol, hroom, hnames⟩ := bind_enter hbind
  have htop? (y : String) : top? u.stack y = if x = y then some ⟨item, .unknown⟩ else none := by
    cases hu : u.stack with
    | nil => simp [hu, names] at hnames
    | cons r rs =>
        rw [hu, names, List.cons.injEq] at hnames
        exact congrFun hnames.1 y
  -- The counter was given out in front of the iterable, and no name gets it: names bound there are
  -- either older or are given slots that come later.
  have hfree : ¬ Bound u.stack index.toNat := by
    rintro ⟨g, hg, y, bnd, hy, he⟩
    rw [hnames] at hg
    rcases List.mem_cons.mp hg with rfl | hg
    · simp only at hy
      split at hy <;> cases hy
      exact absurd he (by simp only; omega)
    · rcases hiterable.fresh _ ⟨g, hg, y, bnd, hy, he⟩ with hb | hle
      · have : index.toNat < a.scopes.taken := hapart.bound_lt (hbelow.bound.mp hb)
        omega
      · have : t.taken ≤ index.toNat := hle
        omega
  obtain ⟨_, ⟨g₀, rfl⟩, _, ⟨g₁, rfl⟩, _, ⟨g₂, rfl⟩, _, ⟨g₃, rfl⟩, _, ⟨g₄, rfl⟩, _, ⟨g₅, rfl⟩,
    _, ⟨g₆, rfl⟩, rfl⟩ := htake
  have hloop : EachLoop d x body index item done top ⟨u, a₁.pc + 2⟩ a₃ := {
    inner := hin
    control := hcontrol
    bound := htop?
    given := by
      have : t.taken ≤ a₁.scopes.taken := hiterable.kept.taken
      have : u.taken = a₁.scopes.taken := hroom
      show index.toNat < u.taken
      omega
    hidden := hfree
    take := ⟨_, ⟨g₀, rfl⟩, _, ⟨g₁, rfl⟩, _, ⟨g₂, rfl⟩, _, ⟨g₃, rfl⟩, _, ⟨g₄, rfl⟩, _, ⟨g₅, rfl⟩,
      _, ⟨g₆, rfl⟩, rfl⟩
    body := hbody
    again := ⟨_, ⟨h₀, rfl⟩, _, ⟨h₁, rfl⟩, _, ⟨h₂, rfl⟩, _, ⟨h₃, rfl⟩, _, ⟨h₄, rfl⟩, rfl⟩
    top := htop
    done := hdone }
  exact ⟨index, item, t, a₁, ⟨u, a₁.pc + 2⟩, a₃, hindex, by omega, hbelow, by omega, hzero, hstore,
    hiterable, hdup, helems, rfl, ⟨done, top, hloop⟩, hnames, hroom, ⟨hpop, hpop'⟩, rfl⟩

namespace EachCode

variable {x : String} {iterable : Expr} {body : List Stmt} {index item : Slot} {t : Scopes}
  {a₁ a₂ a₃ : Spot} {v : V} {n : Nat} {locals : List V} {callers : List (Caller V)}

/-- Of the slots that no name has before the loop, none gets one but those given out for it. -/
theorem free (h : EachCode d x iterable body index item a t a₁ a₂ a₃ b) {m : Nat}
    (hm : m < a.scopes.taken) (hb : ¬ Bound a.scopes.stack m) : ¬ Bound a₂.scopes.stack m := by
  rintro ⟨g, hg, y, bnd, hy, he⟩
  rw [h.names] at hg
  rcases List.mem_cons.mp hg with rfl | hg
  · simp only at hy
    split at hy <;> cases hy
    have : item.toNat = m := he
    have := h.second
    omega
  · rcases h.iterable.fresh _ ⟨g, hg, y, bnd, hy, he⟩ with hb' | hle
    · exact hb (h.below.bound.mp hb')
    · have : t.taken ≤ m := hle
      have := h.taken
      omega

/-- The index is set to zero. -/
theorem starts (h : EachCode d x iterable body index item a t a₁ a₂ a₃ b) (hc : d.finish = .ok c)
    (hlt : index.toNat < locals.length) :
    Machine.Goes I c ⟨a.pc, s, locals, callers⟩
      ⟨a.pc + 2, s, locals.set index.toNat (I.int (0 : Nat)), callers⟩ := by
  have hzero : Machine.Goes I c ⟨a.pc, s, locals, callers⟩
      ⟨a.pc + 1, I.int (0 : Nat) :: s, locals, callers⟩ :=
    .one (Draft.finished_plain hc h.zero rfl) rfl
  exact hzero.trans (.store (Draft.finished_plain hc h.store rfl) hlt)

/-- The elements of the array are counted. -/
theorem counts (h : EachCode d x iterable body index item a t a₁ a₂ a₃ b) (hc : d.finish = .ok c)
    (hI : I.Counts) (hv : I.length? v = some n) :
    Machine.Goes I c ⟨a₁.pc, v :: s, locals, callers⟩ ⟨a₂.pc, I.int n :: v :: s, locals, callers⟩ := by
  have hdup : Machine.Goes I c ⟨a₁.pc, v :: s, locals, callers⟩
      ⟨a₁.pc + 1, v :: v :: s, locals, callers⟩ :=
    .one (Draft.finished_plain hc h.dup rfl) rfl
  have helems : Machine.Goes I c ⟨a₁.pc + 1, v :: v :: s, locals, callers⟩
      ⟨a₁.pc + 2, I.int n :: v :: s, locals, callers⟩ :=
    .one (Draft.finished_plain hc h.elems rfl)
      (by simp [Instruction.callBuiltin, Machine.execute, Machine.taking, hI.elems hv, Machine.next])
  rw [h.pc]
  exact hdup.trans helems

/-- The array and the number of its elements are taken off the stack. -/
theorem drops (h : EachCode d x iterable body index item a t a₁ a₂ a₃ b) (hc : d.finish = .ok c) {v w : V} :
    Machine.Goes I c ⟨a₃.pc + 5, w :: v :: s, locals, callers⟩ ⟨b.pc, s, locals, callers⟩ := by
  have hpop {n : Nat} {w : V} {s : List V} (hi : d.chunk.instructions[n]? = some (.bare .pop)) :
      Machine.Goes I c ⟨n, w :: s, locals, callers⟩ ⟨n + 1, s, locals, callers⟩ :=
    .one (Draft.finished_plain hc hi rfl)
      (by simp [Instruction.bare, Machine.execute, Machine.taking, Machine.next])
  rw [h.behind]
  exact (hpop h.pops.1).trans (hpop h.pops.2)

end EachCode

namespace Simulates

/-- A `for` as a whole, with the list and its length on the stack while it runs. -/
theorem forEach_succ (ih : Simulates I c d k) (hc : d.finish = .ok c)
    (hfew : d.labels.size ≤ UInt32.size) (hI : I.Counts) {x : String} {iterable : Expr}
    {body : List Stmt} (h : Laid d (.stmt (.forEach x iterable body)) a b)
    (hs : (Stmt.forEach x iterable body).simple = true)
    (hx : Stmt.exec I (k + 1) (.forEach x iterable body) env = some (o, env')) :
    Settles I c d a b env s o env' := by
  obtain ⟨hiterable, hbody⟩ : iterable.simple = true ∧ Stmt.allSimple body = true := by
    simpa [Stmt.simple] using hs
  simp only [Stmt.exec, Option.bind_eq_bind, Option.bind_eq_some_iff] at hx
  obtain ⟨⟨v, env₁⟩, hv, n, hn, env₂, hwalk, hx⟩ := hx
  cases hx
  have hapart := h.apart
  obtain ⟨index, item, t, a₁, a₂, a₃, hcode⟩ := h.eachCode hfew
  obtain ⟨done, top, hloop⟩ := hcode.loop
  have hleft : b.scopes.taken = a₃.scopes.taken := by
    rw [hcode.behind]
    exact (hloop.inner.kept hloop.body.kept).leave.1
  have hgiven := hcode.first
  have htaken := hcode.taken
  have htaken₁ : t.taken ≤ a₁.scopes.taken := hcode.iterable.kept.taken
  have htaken₂ := hcode.room
  have htaken₃ : a₂.scopes.taken ≤ a₃.scopes.taken := hloop.body.kept.taken
  refine Leads.settles ⟨h.kept.taken, h.fresh, fun {locals} callers hagree hroom => ?_⟩
  -- No name that is in scope before the loop has the slot of the index.
  have hfree : ¬ Bound a.scopes.stack index.toNat := fun hb => by
    have : index.toNat < a.scopes.taken := hapart.bound_lt hb
    omega
  have hagree₀ : Agree (locals.set index.toNat (I.int (0 : Nat))) (names t.stack) env := by
    rw [hcode.below.names]
    exact hagree.set fun hg hy he => hfree ⟨_, hg, _, _, hy, he⟩
  obtain ⟨locals₁, hgo₁, hagree₁, hspared₁⟩ :=
    (hcode.iterable.eval hc hfew hiterable (s := s) hv).goes callers hagree₀
      (by rw [List.length_set]; omega)
  have hlength₁ : locals₁.length = locals.length := by rw [hspared₁.length, List.length_set]
  have hindex : locals₁[index.toNat]? = some (I.int (0 : Nat)) := by
    rw [hspared₁.slots (by show index.toNat < t.taken; omega) (hfree ∘ hcode.below.bound.mp)]
    exact List.getElem?_set_self (by omega)
  obtain ⟨locals₂, hgo₂, hagree₂, hlength₂, hframe₂⟩ := ih.each s hloop hbody hn (Nat.zero_le _) hwalk
    callers (by rw [hcode.names]; exact hagree₁) (by omega) hindex
  refine ⟨locals₂, ?_, ?_, by omega, fun {m} hm hb => ?_⟩
  · exact (hcode.starts hc (by omega)).trans (hgo₁.trans ((hcode.counts hc hI hn).trans
      (hgo₂.trans (hcode.drops hc))))
  · have hnames : names b.scopes.stack = (names a₂.scopes.stack).tail := by
      rw [hcode.behind]
      exact hloop.inner.names_leave .refl hloop.body.kept
    rw [hnames]
    exact hagree₂
  · have hm : m < a.scopes.taken := hm
    have hne : m ≠ index.toNat := by omega
    rw [hframe₂ (by omega) (hcode.free hm hb) hne,
      hspared₁.slots (by show m < t.taken; omega) (hb ∘ hcode.below.bound.mp),
      List.getElem?_set_ne (Ne.symm hne)]

/-! ### All statements -/

/-- **A statement of any kind**, one step more. -/
theorem stmt_succ (ih : Simulates I c d k) (hc : d.finish = .ok c)
    (hfew : d.labels.size ≤ UInt32.size) (hI : I.Counts) {stmt : Stmt} (h : Laid d (.stmt stmt) a b)
    (hs : stmt.simple = true) (hx : Stmt.exec I (k + 1) stmt env = some (o, env')) :
    Arrives I c d a b env s o env' := by
  cases stmt with
  | expr e => exact expr_succ hc hfew h hs hx
  | block body =>
      obtain ⟨ms, r, hu, -, hl⟩ := h.unfolds hfew
      cases hu with
      | block => exact (ih.scope s hl hs hx).arrives h.kept
  | cond condition body elsifs rest => exact (ih.cond_succ hfew h hs hx).arrives h.kept
  | whileLoop condition body =>
      obtain rfl := Stmt.exec_whileLoop hx
      exact (ih.whileLoop_succ hc hfew h hs hx).settles.arrives h.kept
  | loop init condition step body => exact (ih.loop_succ hc hfew h hs hx).arrives h.kept
  | forEach x iterable body => exact (ih.forEach_succ hc hfew hI h hs hx).arrives h.kept
  | sub | ret | use | package => cases hs

end Simulates

/-- **The code of simple statements does what the statements do.** -/
theorem simulates (hc : d.finish = .ok c) (hfew : d.labels.size ≤ UInt32.size) (hI : I.Counts) :
    ∀ k, Simulates I c d k
  | 0 => by constructor <;> intros <;> contradiction
  | k + 1 =>
    have ih := simulates hc hfew hI k
    { stmt := fun _ h hs hx => ih.stmt_succ hc hfew hI h hs hx
      stmts := fun _ h hs hx => ih.stmts_succ hfew h hs hx
      scope := fun _ h hs hx => ih.scope_succ h hs hx
      branches := fun _ hu h hs hdone hx => ih.branches_succ hc hfew hu h hs hdone hx
      counted := fun _ h hcondition hstep hbody hx => ih.counted_succ hc hfew h hcondition hstep hbody hx
      each := fun _ h hbody hv hi hx => ih.each_succ hc hI h hbody hv hi hx }

end StackScript
