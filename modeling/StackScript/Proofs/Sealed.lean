import StackScript.Proofs.Calls

/-!
# Bodies of subroutines are sealed

The code of a subroutine stands where the subroutine is declared, which may be in a loop, in a branch
or in another subroutine, with a jump over it.  Control gets into it by a call and out of it by a
return, and in no other way.

* `Program.Lowered.layout`: how the code of a subroutine lies in a unit.
* `Program.bodyEnd_le`: bodies do not overlap unless one is inside the other.
* `Program.branch_interior`: branches go to the inside of the body they are in.
* `compile_sealed`: what this comes to.
-/

namespace StackScript

namespace Chunk

/-- The code from the frame at `e` to `s` is sealed: it is jumped over and ends in a return, and
branches lead neither out of it nor into it, nor to its frame or its last return. -/
structure Sealed (c : Chunk) (e s : Nat) : Prop where
  lt : e < s
  skipped : ∃ n, n + 1 = e ∧ c.instructions[n]? = some ⟨.jump, some (.offset s)⟩
  returns : ∃ n, n + 1 = s ∧ c.instructions[n]? = some (.bare .ret)
  inside : ∀ {n i}, c.instructions[n]? = some i → i.branches = true → e ≤ n → n < s →
    ∃ m, i.operand = some (.offset m) ∧ e < m ∧ m + 1 < s
  outside : ∀ {n i}, c.instructions[n]? = some i → i.branches = true → n < e ∨ s ≤ n →
    ∃ m, i.operand = some (.offset m) ∧ (m < e ∨ s ≤ m)

end Chunk

/-- Behind a body that is closed stands a return. -/
theorem Closes.returns {K : Piece → Bool → Session → Session → Prop} {s : Span} {ends : Bool}
    {close : List Move} {σ σ' : Session} {d : Draft} {c : Chunk} (hclose : Closes s ends close)
    (h : Along K close σ σ') (hd : σ'.draft.Grows d) (hc : d.finish = .ok c) :
    ∃ n, n + 1 = σ'.draft.position ∧ c.instructions[n]? = some (.bare .ret) := by
  obtain ⟨ms, rfl⟩ := hclose.ends_in_ret
  obtain ⟨τ, -, _, hret, rfl⟩ := along_append.mp h
  obtain ⟨j, hj, hr⟩ := Move.acts_emit_at hret hd hc
  obtain rfl : Instruction.bare .ret = j := Except.ok.inj hr
  exact ⟨τ.draft.position, (Move.Does.position (m := .op .ret) hret).symm, hj⟩

namespace Program

variable {p : Program} {name : String} {options : CompileOptions} {u : CompiledUnit}

/-- **How the code of a subroutine lies in a unit.** -/
theorem Lowered.layout {head : SubHead} {body : List Stmt} {b : Bool} {τ τ' : Session}
    (hsub : p.Lowered name options (.stmt (.sub head body)) b τ τ')
    (h : compile name options p = .ok u) :
    (∃ ps, head.params.mapM Param.resolve = .ok ps ∧
      u.chunk.instructions[τ.draft.position + 1]? = some (.pushFrame
        (ps.length + (mentionsArgList body).toNat).toUInt16 (slotsNeeded body).toUInt16)) ∧
      u.chunk.instructions[τ.draft.position]? = some ⟨.jump, some (.offset τ'.draft.position)⟩ ∧
      (∃ n, n + 1 = τ'.draft.position ∧ u.chunk.instructions[n]? = some (.bare .ret)) ∧
      u.chunk.Closed τ.draft.position τ'.draft.position := by
  obtain ⟨σ, hl, hcount, hfin⟩ := lowers_of_compile h
  obtain ⟨hlow, -, hbehind⟩ := hsub.within hl
  have hcount' : τ'.report.count = 0 := hbehind.count_eq_zero hcount
  have hd : τ'.draft.Grows σ.halted.draft := hbehind.grows.trans .emit
  have hrun := hlow.quiet hcount'
  obtain ⟨ms, hu, hq, ha⟩ := hrun.unfolds
  cases hu.subRun hq ha with
  | @intro ps _ _ _ _ _ _ _ _ _ _ hps _ hclose h₁ h₂ h₃ hbody h₅ h₆ =>
  obtain ⟨-, -, hstop, hjump, hframe, -⟩ :=
    SubRun.layout hclose h₁ h₂ h₃ hbody.grows h₅ h₆ hd hfin
  refine ⟨⟨ps, hps, hframe⟩, hjump, ?_, hrun.closed hd hfin⟩
  rw [hstop]
  exact hclose.returns h₅ ((h₆.grows_flat rfl).trans hd) hfin

/-- Of two bodies one of which begins in the other, the one ends in the other. -/
theorem bodyEnd_le {e t : Nat} (h : compile name options p = .ok u) (he : u.chunk.opens e = true)
    (ht : u.chunk.opens t = true) (hle : e ≤ t) (hlt : t < u.chunk.bodyEnd e) :
    u.chunk.bodyEnd t ≤ u.chunk.bodyEnd e := by
  obtain ⟨r, σ, hb⟩ := exists_body_of_opens h he
  cases hb with
  | top => exact (bodyEnd_of_opens h ht).2
  | sub hsub =>
      obtain ⟨-, hjump, -, hclosed⟩ := hsub.layout h
      simp only [Chunk.bodyEnd, hjump] at hlt ⊢
      exact hclosed.ended ht (Nat.le_of_succ_le hle) hlt

/-- A place is in a body if it is of the body or of one inside it. -/
theorem mem_body_iff {e t n : Nat} (h : compile name options p = .ok u)
    (he : u.chunk.opens e = true) (hb : u.chunk.InBody t n) :
    (e ≤ n ∧ n < u.chunk.bodyEnd e) ↔ (e ≤ t ∧ t < u.chunk.bodyEnd e) := by
  obtain ⟨ht, htn, hn, hin⟩ := hb
  constructor
  · rintro ⟨hen, hlt⟩
    refine ⟨Nat.le_of_not_lt fun hte => ?_, Nat.lt_of_le_of_lt htn hlt⟩
    exact Nat.not_le.mpr hlt (hin e he hte hen)
  · rintro ⟨het, hlt⟩
    exact ⟨Nat.le_trans het htn, Nat.lt_of_lt_of_le hn (bodyEnd_le h he ht het hlt)⟩

/-- Branches go to labels. -/
theorem branch_label {σ : Session} {n : Nat} {i : Instruction} (h : compile name options p = .ok u)
    (hl : Lowers (.stmts p.body) true (p.entry name options) σ)
    (hi : u.chunk.instructions[n]? = some i) (hb : i.branches = true) :
    ∃ l m, σ.halted.draft.offset? l = some m ∧ i.operand = some (.offset m) := by
  rcases emitter_of_instruction h hl hi with
    ⟨-, _, rfl⟩ | ⟨-, rfl⟩ | ⟨_, rfl, -⟩ | ⟨q, e, τ, τ', j, υ, υ', -, hmakes, -, hr⟩
  · cases hb
  · cases hb
  · cases hb
  · obtain ⟨ms, ns, hu, -⟩ := hmakes
    obtain ⟨hop, ho⟩ := Draft.resolveInstruction_eq_ok hr
    rw [Instruction.branches, hop] at hb
    rcases hu.emits (i := j) (by simp) with hseeks | ⟨_, _, _, _, -, rfl⟩ | ⟨_, _, rfl⟩ | ⟨_, rfl⟩
    · have hlabel : j.label?.isSome = true := by
        simpa [Instruction.seeks, Instruction.settled, Instruction.branches, hb] using hseeks
      obtain ⟨l, hl⟩ := Option.isSome_iff_exists.mp hlabel
      rw [Instruction.operand_of_label hl] at ho
      obtain ⟨m, hm, hoperand⟩ := ho
      exact ⟨l, m, hm, hoperand⟩
    · cases hb
    · cases hb
    · cases hb

/-- Branches have been resolved. -/
theorem branch_resolved {n : Nat} {i : Instruction} (h : compile name options p = .ok u)
    (hi : u.chunk.instructions[n]? = some i) (hb : i.branches = true) :
    ∃ m, i.operand = some (.offset m) := by
  obtain ⟨σ, hl, -⟩ := lowers_of_compile h
  obtain ⟨-, m, -, hm⟩ := branch_label h hl hi hb
  exact ⟨m, hm⟩

/-- The program ends at the end of the code only. -/
theorem halt_last {σ : Session} {n : Nat} {i : Instruction} (h : compile name options p = .ok u)
    (hl : Lowers (.stmts p.body) true (p.entry name options) σ)
    (hi : u.chunk.instructions[n]? = some i) (hop : i.opcode = .halt) : n = σ.draft.position := by
  rcases emitter_of_instruction h hl hi with
    ⟨-, _, rfl⟩ | ⟨hn, -⟩ | ⟨_, rfl, -⟩ | ⟨q, e, τ, τ', j, υ, υ', -, hmakes, -, hr⟩
  · cases hop
  · exact hn
  · cases hop
  · obtain ⟨ms, ns, hu, -⟩ := hmakes
    rw [(Draft.resolveInstruction_eq_ok hr).1] at hop
    exact absurd hop (hu.emits_opcode (i := j) (by simp)).1

/-- Where control goes from a place of a body, without a call or a return, is in the body. -/
theorem flows_inBody {t n m : Nat} {i : Instruction} (h : compile name options p = .ok u)
    (hlabels : p.labelCount name options < UInt32.size) (hb : u.chunk.InBody t n)
    (hi : u.chunk.instructions[n]? = some i) (hf : i.Flows n m) : u.chunk.InBody t m := by
  rcases placed h hlabels hb with hs | ⟨k, _, _, _, _, _, -, -, -, hs⟩
  · exact (hs.flows hi hf).1
  · exact (hs.flows hi hf).1

/-- A branch goes to the inside of the body that it is of. -/
theorem branch_interior {t n : Nat} {i : Instruction} (h : compile name options p = .ok u)
    (hlabels : p.labelCount name options < UInt32.size) (hb : u.chunk.InBody t n)
    (hi : u.chunk.instructions[n]? = some i) (hbranch : i.branches = true) :
    ∃ m, i.operand = some (.offset m) ∧ u.chunk.Interior t m := by
  obtain ⟨m, hm⟩ := branch_resolved h hi hbranch
  refine ⟨m, hm, ?_⟩
  rcases placed h hlabels hb with hs | ⟨k, _, _, _, _, _, -, -, -, hs⟩
  · exact hs.jumps hi hbranch hm
  · exact hs.jumps hi hbranch hm

/-- **The bodies of subroutines are sealed.** -/
theorem Lowered.sealed {head : SubHead} {body : List Stmt} {b : Bool} {τ τ' : Session}
    (hsub : p.Lowered name options (.stmt (.sub head body)) b τ τ')
    (h : compile name options p = .ok u) (hlabels : p.labelCount name options < UInt32.size) :
    u.chunk.Sealed (τ.draft.position + 1) τ'.draft.position := by
  obtain ⟨⟨ps, -, hframe⟩, hjump, hreturn, -⟩ := hsub.layout h
  have ho : u.chunk.opens (τ.draft.position + 1) = true := by
    simp [Chunk.opens, hframe, Instruction.pushFrame]
  have hstop : u.chunk.bodyEnd (τ.draft.position + 1) = τ'.draft.position := by
    simp [Chunk.bodyEnd, hjump]
  have hlt := (bodyEnd_of_opens h ho).1
  rw [hstop] at hlt
  have hbody {n : Nat} {i : Instruction} (hi : u.chunk.instructions[n]? = some i) :
      ∃ t, u.chunk.InBody t n :=
    Chunk.exists_inBody (entry_opens h) (Array.getElem?_eq_some_iff.mp hi).1
  refine ⟨hlt, ⟨_, rfl, hjump⟩, hreturn, fun {n i} hi hb hle hn => ?_, fun {n i} hi hb hn => ?_⟩
  · obtain ⟨t, ht⟩ := hbody hi
    obtain ⟨m, hm, hin⟩ := branch_interior h hlabels ht hi hb
    -- The body it is of is inside this one, and the inside of a body is inside this one too.
    obtain ⟨het, htlt⟩ := (mem_body_iff h ho ht).mp ⟨hle, hstop ▸ hn⟩
    have hend := bodyEnd_le h ho ht.1 het htlt
    have hbefore := hin.before (by omega)
    exact ⟨m, hm, Nat.lt_of_le_of_lt het hin.behind, by omega⟩
  · obtain ⟨t, ht⟩ := hbody hi
    obtain ⟨m, hm, hin⟩ := branch_interior h hlabels ht hi hb
    have hsame := (mem_body_iff h ho hin.inBody).trans (mem_body_iff h ho ht).symm
    rw [hstop] at hsame
    exact ⟨m, hm, by omega⟩

/-- From a place of a body control goes on, unless it returns. -/
theorem Lowered.flows_or_returns {head : SubHead} {body : List Stmt} {b : Bool} {τ τ' : Session}
    {n : Nat} {i : Instruction} (hsub : p.Lowered name options (.stmt (.sub head body)) b τ τ')
    (h : compile name options p = .ok u) (hi : u.chunk.instructions[n]? = some i)
    (hn : n < τ'.draft.position) : (∃ m, i.Flows n m) ∨ i.opcode = .ret := by
  obtain ⟨σ, hl, -⟩ := lowers_of_compile h
  have hhalt : i.opcode ≠ .halt := by
    intro hop
    have := halt_last h hl hi hop
    have := (hsub.within hl).2.2.grows.position_le
    omega
  by_cases hret : i.opcode = .ret
  · exact .inr hret
  by_cases hjump : i.opcode = .jump
  · have hb : i.branches = true := by simp [Instruction.branches, hjump]
    obtain ⟨m, hm⟩ := branch_resolved h hi hb
    exact .inl ⟨m, Instruction.flows_iff.mpr (.inr ⟨hb, hm⟩)⟩
  · exact .inl ⟨n + 1, Instruction.flows_iff.mpr (.inl ⟨rfl, by simp [hret, hjump, hhalt]⟩)⟩

/-- A call in a unit goes to the frame of one of its subroutines. -/
theorem call_resolved {n t : Nat} {op : Opcode} {argc : UInt8} (h : compile name options p = .ok u)
    (hi : u.chunk.instructions[n]? = some ⟨op, some (.call (.address t) argc)⟩) :
    ∃ head body b τ τ', p.Lowered name options (.stmt (.sub head body)) b τ τ' ∧
      t = τ.draft.position + 1 := by
  obtain ⟨σ, hl, -⟩ := lowers_of_compile h
  rcases emitter_of_instruction h hl hi with
    ⟨-, _, hi⟩ | ⟨-, hi⟩ | ⟨_, hi, -⟩ | ⟨q, e, τ, τ', j, υ, υ', hq, hmakes, rfl, hr⟩
  · cases hi
  · cases hi
  · cases hi
  · obtain ⟨-, ho⟩ := Draft.resolveInstruction_eq_ok hr
    obtain ⟨ms, ns, hu, -⟩ := id hmakes
    rcases hu.emits (i := j) (by simp) with hseeks | ⟨_, _, _, _, -, rfl⟩ | ⟨l, c, rfl⟩ | ⟨_, rfl⟩
    · rcases Draft.resolves_of_seeks hseeks hr with ⟨m, -, hm⟩ | ⟨rfl, hs⟩
      · cases hm
      · simp [Instruction.settled] at hs
    · cases ho
    · obtain ⟨x, args, s, owner, sub, σ₁, σ₂, rfl, hrun, -, hpos⟩ := hmakes.call rfl
      obtain ⟨head, body, f, ρ, ρ', hsub, -, -, -, hcall⟩ := call_target h hq hrun
      rw [hpos, hcall] at hi
      cases hi
      exact ⟨head, body, f, ρ, ρ', hsub, rfl⟩
    · cases ho

end Program

/-- **Bodies of subroutines are sealed.**  In the unit of a program the code of each subroutine begins
with its frame, with a jump over it before it, and ends in a return.  Branches in it go to its inside
and branches elsewhere go elsewhere.  So control gets into it by a call and out of it by a return only,
and neither a branch nor falling through arrives at a frame.  The code of two subroutines, with the
jumps over it, does not overlap unless that of the one is inside that of the other. -/
theorem compile_sealed {p : Program} {name : String} {options : CompileOptions} {u : CompiledUnit}
    (h : compile name options p = .ok u) (hlabels : p.labelCount name options < UInt32.size) :
    (∀ r ∈ p.routines, ∃ e σ, p.Body name options r e σ) ∧
    (∀ head body e σ, p.Body name options ⟨some head, body⟩ e σ →
      (∃ ps, head.params.mapM Param.resolve = .ok ps ∧
        u.chunk.instructions[e]? = some (.pushFrame
          (ps.length + (mentionsArgList body).toNat).toUInt16 (slotsNeeded body).toUInt16)) ∧
      u.chunk.Sealed e (u.chunk.bodyEnd e) ∧
      (∀ head' body' e' σ', p.Body name options ⟨some head', body'⟩ e' σ' →
        u.chunk.bodyEnd e ≤ e' - 1 ∨ u.chunk.bodyEnd e' ≤ e - 1 ∨
          e - 1 ≤ e' - 1 ∧ u.chunk.bodyEnd e' ≤ u.chunk.bodyEnd e ∨
          e' - 1 ≤ e - 1 ∧ u.chunk.bodyEnd e ≤ u.chunk.bodyEnd e') ∧
      ∀ (n : Nat) (i : Instruction), u.chunk.instructions[n]? = some i →
        (∀ m, i.Flows n m →
          ((e ≤ n ∧ n < u.chunk.bodyEnd e) ↔ (e ≤ m ∧ m < u.chunk.bodyEnd e))) ∧
        (e ≤ n → n < u.chunk.bodyEnd e → (∃ m, i.Flows n m) ∨ i.opcode = .ret)) ∧
    ∀ (n : Nat) (i : Instruction), u.chunk.instructions[n]? = some i →
      (∀ m, i.Flows n m → u.chunk.opens m = false) ∧
      ∀ t argc, i.operand = some (.call (.address t) argc) →
        ∃ head body σ, p.Body name options ⟨some head, body⟩ t σ := by
  obtain ⟨σ, hl, hcount, -⟩ := Program.lowers_of_compile h
  have hbody {n : Nat} {i : Instruction} (hi : u.chunk.instructions[n]? = some i) :
      ∃ t, u.chunk.InBody t n :=
    Chunk.exists_inBody (Program.entry_opens h) (Array.getElem?_eq_some_iff.mp hi).1
  refine ⟨fun r hr => Program.exists_body h hr, fun head body e σ hb => ?_, fun n i hi => ⟨?_, ?_⟩⟩
  · cases hb with
    | @sub _ _ b c τ τ' υ υ' hsub hpart =>
    obtain ⟨⟨ps, hps, hframe⟩, hjump, ⟨k, hk, hret⟩, -⟩ := hsub.layout h
    have hsealed := hsub.sealed h hlabels
    have ho : u.chunk.opens (τ.draft.position + 1) = true := by
      simp [Chunk.opens, hframe, Instruction.pushFrame]
    have hstop : u.chunk.bodyEnd (τ.draft.position + 1) = τ'.draft.position := by
      simp [Chunk.bodyEnd, hjump]
    refine ⟨⟨ps, hps, hframe⟩, hstop ▸ hsealed, fun head' body' e' σ' hb' => ?_,
      fun n i hi => ⟨fun m hf => ?_, fun _ hn => ?_⟩⟩
    · cases hb' with
      | @sub _ _ _ _ ρ ρ' _ _ hsub' _ =>
      obtain ⟨⟨_, -, hframe'⟩, hjump', ⟨k', hk', hret'⟩, -⟩ := hsub'.layout h
      have ho' : u.chunk.opens (ρ.draft.position + 1) = true := by
        simp [Chunk.opens, hframe', Instruction.pushFrame]
      have hstop' : u.chunk.bodyEnd (ρ.draft.position + 1) = ρ'.draft.position := by
        simp [Chunk.bodyEnd, hjump']
      -- The one that begins first either goes beyond the beginning of the other or ends before it.
      have hnot : τ'.draft.position ≠ ρ.draft.position + 1 := by
        rintro heq
        obtain rfl : k = ρ.draft.position := by omega
        cases hret.symm.trans hjump'
      have hnot' : ρ'.draft.position ≠ τ.draft.position + 1 := by
        rintro heq
        obtain rfl : k' = τ.draft.position := by omega
        cases hret'.symm.trans hjump
      have hle := Program.bodyEnd_le h ho ho'
      have hle' := Program.bodyEnd_le h ho' ho
      rw [hstop, hstop'] at hle hle' ⊢
      omega
    · obtain ⟨t, ht⟩ := hbody hi
      have hm := Program.flows_inBody h hlabels ht hi hf
      exact (Program.mem_body_iff h ho ht).trans (Program.mem_body_iff h ho hm).symm
    · exact hsub.flows_or_returns h hi (hstop ▸ hn)
  · intro m hf
    obtain ⟨t, ht⟩ := hbody hi
    cases hopen : u.chunk.opens m with
    | false => rfl
    | true =>
        -- Then it is the frame of the body itself, and control comes from before it.
        have hm := Program.flows_inBody h hlabels ht hi hf
        obtain rfl := hm.unique (Program.inBody_of_opens h hopen)
        rcases hf.cases with ⟨rfl, -⟩ | ⟨hb, hoperand⟩
        · exact absurd ht.2.1 (Nat.not_succ_le_self n)
        · obtain ⟨m, hm', hin⟩ := Program.branch_interior h hlabels ht hi hb
          rw [hoperand] at hm'
          cases hm'
          exact absurd hin.behind (Nat.lt_irrefl _)
  · intro t argc ho
    obtain ⟨op, operand⟩ := i
    obtain rfl : operand = _ := ho
    obtain ⟨head, body, b, τ, τ', ⟨σ', hl', hv⟩, rfl⟩ := Program.call_resolved h hi
    obtain rfl : σ = σ' := (Prod.mk.inj (Eq.trans hl.symm hl')).2
    obtain ⟨υ, hb⟩ := Program.Body.of_visits hl hcount hv
    exact ⟨head, body, υ, hb⟩

/-- A subroutine in the body of a loop, with a loop and another subroutine in it. -/
def polling : Program where
  body := [
    .whileLoop (.call "poll" [.integer 3 {}] {}) [
      .sub { name := "poll", params := [⟨.var "$times" {}, false⟩] } [
        .sub { name := "ready", params := [] } [.expr (.var "@_" {})],
        .loop none (some (.var "$times" {})) none [
          .cond (.call "ready" [] {}) [.expr (.call "last" [] {})] [] none,
          .expr (.call "next" [] {})]],
      .expr (.call "last" [] {})]]

theorem compile_sealed_polling :
    ∃ u, compile "main" {} polling = .ok u ∧ polling.labelCount "main" {} < UInt32.size ∧
      (∀ r ∈ polling.routines, ∃ e σ, polling.Body "main" {} r e σ) ∧
      ∀ head body e σ, polling.Body "main" {} ⟨some head, body⟩ e σ →
        u.chunk.Sealed e (u.chunk.bodyEnd e) := by
  have hok : (compile "main" {} polling).isOk = true := by decide +kernel
  have hlabels : polling.labelCount "main" {} < UInt32.size := by decide +kernel
  cases h : compile "main" {} polling with
  | error e => simp [h, Except.isOk, Except.toBool] at hok
  | ok u =>
      obtain ⟨hall, hsealed, -⟩ := compile_sealed h hlabels
      exact ⟨u, rfl, hlabels, hall, fun head body e σ hb => (hsealed head body e σ hb).2.1⟩

end StackScript
