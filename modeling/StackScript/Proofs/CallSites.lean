import Mathlib.Data.List.Sort
import StackScript.Proofs.Units

/-!
# The calls of a unit

A unit is self-contained but for the calls that it leaves open, and it records all its calls: the
list of uses is the list of the call instructions in the order of the code, each with the offset of its
instruction.  A linker that goes through the open uses misses no call and meets none twice.

* `Program.uses_eq_calls`: the uses recorded are the calls of the code.
* `Program.loadConst_resolved`: constants are in the pool.
* `compile_self_contained`: nothing else in a unit refers to anything outside it.
-/

namespace StackScript

/-- The offsets of the calls, in increasing order. -/
def Chunk.calls (c : Chunk) : List Nat :=
  (List.range c.size).filter fun n => c.instructions[n]?.any (·.opcode == .call)

theorem Chunk.mem_calls {c : Chunk} {n : Nat} :
    n ∈ c.calls ↔ ∃ i, c.instructions[n]? = some i ∧ i.opcode = .call := by
  constructor
  · intro h
    obtain ⟨-, hn⟩ := List.mem_filter.mp h
    obtain ⟨i, hi, hop⟩ := Option.any_eq_true _ _ |>.mp hn
    exact ⟨i, hi, by simpa using hop⟩
  · rintro ⟨i, hi, hop⟩
    refine List.mem_filter.mpr ⟨List.mem_range.mpr (Array.getElem?_eq_some_iff.mp hi).1, ?_⟩
    simp [hi, hop]

theorem Chunk.calls_sorted {c : Chunk} : c.calls.Pairwise (· < ·) :=
  List.pairwise_lt_range.sublist List.filter_sublist

namespace Program

variable {p : Program} {name : String} {options : CompileOptions} {u : CompiledUnit}

/-- **The uses recorded are the calls of the code**, in their order. -/
theorem uses_eq_calls (h : compile name options p = .ok u) :
    u.uses.toList.map (·.position) = u.chunk.calls := by
  have hordered : (u.uses.toList.map (·.position)).Pairwise (· < ·) :=
    List.pairwise_map.mpr (uses_ordered h)
  have hmem : ∀ n, n ∈ u.uses.toList.map (·.position) ↔ n ∈ u.chunk.calls := by
    intro n
    rw [List.mem_map, Chunk.mem_calls]
    constructor
    · rintro ⟨c, hc, rfl⟩
      rcases instruction_of_use h (Array.mem_toList_iff.mp hc) with ⟨-, _, _, hi⟩ | ⟨-, _, hi⟩
      · exact ⟨_, hi, rfl⟩
      · exact ⟨_, hi, rfl⟩
    · rintro ⟨i, hi, hop⟩
      obtain ⟨c, hc, hpos⟩ := use_of_instruction h hi hop
      exact ⟨c, Array.mem_toList_iff.mpr hc, hpos⟩
  have hperm := (List.perm_ext_iff_of_nodup (hordered.imp Nat.ne_of_lt)
    (Chunk.calls_sorted.imp Nat.ne_of_lt)).mpr hmem
  exact List.Perm.eq_of_pairwise (fun _ _ _ _ h₁ h₂ => absurd h₁ (Nat.lt_asymm h₂)) hordered
    Chunk.calls_sorted hperm

/-- What is loaded as a constant is in the pool. -/
theorem loadConst_resolved {n : Nat} {i : Instruction} (h : compile name options p = .ok u)
    (hi : u.chunk.instructions[n]? = some i) (hop : i.opcode = .loadConst) :
    ∃ index, i = .loadConst index ∧ index.toNat < u.chunk.constants.size := by
  obtain ⟨σ, hl, -⟩ := lowers_of_compile h
  rcases emitter_of_instruction h hl hi with
    ⟨-, _, rfl⟩ | ⟨-, rfl⟩ | hload | ⟨q, e, τ, τ', j, υ, υ', -, hmakes, -, hr⟩
  · cases hop
  · cases hop
  · exact hload
  · obtain ⟨ms, ns, hu, -⟩ := hmakes
    rw [(Draft.resolveInstruction_eq_ok hr).1] at hop
    exact absurd hop (hu.emits_opcode (i := j) (by simp)).2

/-- The frame of a subroutine is not the one that the program begins with. -/
theorem Lowered.frame_ne_zero {head : SubHead} {body : List Stmt} {e : Bool} {τ τ' : Session} {o : Nat}
    (hsub : p.Lowered name options (.stmt (.sub head body)) e τ τ')
    (h : compile name options p = .ok u) (ho : o = τ.draft.position + 1) :
    o ≠ 0 ∧ u.chunk.opens o = true := by
  subst ho
  exact ⟨Nat.succ_ne_zero _, hsub.opens h⟩

end Program

/-- **Units are self-contained, and record all their calls.**  The uses of a unit are the calls of its
code, in the order of the code.  A use is resolved if its call goes to an address and not if it has been
left open.  No operand is a label: branches go to offsets of the code, calls that are not left open
go to offsets of the code, and constants are in the pool.  The subroutines listed, for the unit itself
and for others, are frames other than the one that the program begins with. -/
theorem compile_self_contained {p : Program} {name : String} {options : CompileOptions}
    {u : CompiledUnit} (h : compile name options p = .ok u)
    (hlabels : p.labelCount name options < UInt32.size) :
    u.uses.toList.map (·.position) = u.chunk.calls ∧
    (∀ c ∈ u.uses, ∃ target argc,
      u.chunk.instructions[c.position]? = some ⟨.call, some (.call target argc)⟩ ∧
      (c.resolved = true ↔ ∃ t, target = .address t) ∧
      (c.resolved = false ↔ target = .unresolved)) ∧
    (∀ (n : Nat) (i : Instruction), u.chunk.instructions[n]? = some i →
      (∀ l, i.operand ≠ some (.label l)) ∧ (∀ l argc, i.operand ≠ some (.call (.label l) argc)) ∧
      (i.branches = true → ∃ m, i.operand = some (.offset m) ∧ m < u.chunk.size) ∧
      (∀ t argc, i.operand = some (.call (.address t) argc) → t < u.chunk.size) ∧
      (i.opcode = .loadConst → ∃ index, i.operand = some (.constant index) ∧
        index.toNat < u.chunk.constants.size)) ∧
    (∀ (x : String) (o : Nat), u.subroutines[x]? = some o → o ≠ 0 ∧ u.chunk.opens o = true) ∧
    ∀ x ∈ u.interface.exports, x.position ≠ 0 ∧ u.chunk.opens x.position = true := by
  have hu := Program.wellFormed_of_compile h hlabels
  refine ⟨Program.uses_eq_calls h, fun c hc => ?_, fun n i hi => ⟨fun l ho => ?_, fun l argc ho => ?_,
    fun hb => ?_, fun t argc ho => ?_, fun hop => ?_⟩, fun x o ho => ?_, fun x hx => ?_⟩
  · rcases Program.instruction_of_use h hc with ⟨hr, t, argc, hi⟩ | ⟨hr, argc, hi⟩
    · exact ⟨.address t, argc, hi, by simp [hr], by simp [hr]⟩
    · exact ⟨.unresolved, argc, hi, by simp [hr], by simp [hr]⟩
  · exact hu.operand hi ho
  · exact hu.operand hi ho
  · obtain ⟨m, hm⟩ := Program.branch_resolved h hi hb
    exact ⟨m, hm, hu.operand hi hm⟩
  · exact Chunk.lt_size_of_opens (hu.operand hi ho)
  · obtain ⟨index, rfl, hindex⟩ := Program.loadConst_resolved h hi hop
    exact ⟨index, rfl, hindex⟩
  · obtain ⟨head, body, e, τ, τ', hsub, heq⟩ := Program.subroutine_of_compile h ho
    exact hsub.frame_ne_zero h heq
  · obtain ⟨head, body, e, τ, τ', hsub, heq⟩ := Program.export_of_compile h hx
    exact hsub.frame_ne_zero h heq

/-- A module that exports a subroutine, calls one of its own before it is declared and one of another
module. -/
def ledger : Program where
  body := [
    .use "Text",
    .package .module "Ledger" [
      .sub { name := "total", params := [⟨.var "@amounts" {}, false⟩], traits := ["export"] } [
        .expr (.assign (.declare "$sum" .any {}) (.float ⟨0⟩ {}) {}),
        .forEach "$amount" (.var "@amounts" {}) [
          .cond (.call "skip" [.var "$amount" {}] {}) [.expr (.call "next" [] {})] [] none,
          .expr (.assign (.var "$sum" {}) (.binary .add (.var "$sum" {}) (.var "$amount" {}) {}) {})],
        .ret (some (.call "shout" [.var "$sum" {}] {})) {}],
      .sub { name := "skip", params := [⟨.var "$amount" {}, false⟩] } [
        .ret (some (.binary .less (.var "$amount" {}) (.float ⟨0⟩ {}) {})) {}]]]

theorem compile_self_contained_ledger :
    ∃ u, compile "main" {} ledger = .ok u ∧ ledger.labelCount "main" {} < UInt32.size ∧
      u.chunk.calls.length = 2 ∧ u.uses.toList.map (·.position) = u.chunk.calls ∧
      ∀ x ∈ u.interface.exports, x.position ≠ 0 ∧ u.chunk.opens x.position = true := by
  have hok : (compile "main" {} ledger).toOption.any (·.chunk.calls.length == 2) = true := by
    decide +kernel
  have hlabels : ledger.labelCount "main" {} < UInt32.size := by decide +kernel
  cases h : compile "main" {} ledger with
  | error e => simp [h, Except.toOption] at hok
  | ok u =>
      obtain ⟨huses, -, -, -, hexports⟩ := compile_self_contained h hlabels
      exact ⟨u, rfl, hlabels, by simpa [h, Except.toOption] using hok, huses, hexports⟩

end StackScript
