import StackScript.Proofs.Checkpoints.Steps

/-!
# Checkpoints can be erased

Whether checkpoints are emitted makes no difference to anything else.  Compiling a program without them
comes to the same as compiling it with them and stripping the unit: there is a unit in the one case if
there is one in the other, and the errors and faults are the same.

* `Lower.oblivious`: the single steps of lowering are oblivious of checkpoints.
* `Lower.oblivious_program`: so is lowering a program.
* `compile_without_checkpoints`: what this comes to.
-/

namespace StackScript

namespace Lower

/-- An ordinary instruction may stand in a draft, and is no checkpoint. -/
theorem ordinary_symbolic {i : Instruction} (hi : i.ordinary = true) :
    i.symbolic = true ∧ i.isCheckpoint = false := by
  obtain ⟨op, operand⟩ := i
  have hk : op ≠ .checkpoint := by
    rintro rfl
    unfold Instruction.ordinary at hi
    split at hi <;> simp at hi
  refine ⟨?_, by simpa [Instruction.isCheckpoint] using hk⟩
  unfold Instruction.ordinary at hi
  unfold Instruction.symbolic Instruction.isCheckpoint
  split <;> simp_all

/-- The single steps of lowering are oblivious of checkpoints, and so is what they are put together to. -/
theorem oblivious : Compositional @Oblivious where
  pure := .pure
  bind := .bind
  fail := .fail
  view hg := .view fun _ => hg rfl rfl rfl
  report := .report
  emit hi := .emit (ordinary_symbolic hi).1 (ordinary_symbolic hi).2
  emitConstant := .emitConstant
  newLabel := .newLabel
  newMarkedLabel := .newMarkedLabel
  mark := .mark
  recordUse := .recordUse
  alloc := .onScopes
  declare := .onScopes
  bindArgument := .onScopes
  bindSlot := .onScopes
  inScope := .inScope
  inPackage := .inPackage
  onPackages := .aside (fun _ => rfl) (fun _ => rfl) (fun _ => rfl) fun _ => rfl
  mentionIn := .mentionIn
  addDependency := .addDependency
  addModule := .addModule
  addExport hname := .addExport fun _ => hname rfl rfl rfl
  checkpoint := .checkpoint

/-- **Lowering a program is oblivious of checkpoints.** -/
theorem oblivious_program {p : Program} : Oblivious (lowerProgram p) := oblivious.self.program

end Lower

theorem Session.start_strip {name : String} {maxErrors : Nat} :
    (Session.start name { checkpoints := true, maxErrors }).strip =
      Session.start name { checkpoints := false, maxErrors } := by
  simp [Session.start, Session.strip, Draft.strip, Chunk.strip, Interface.mapOffset]

theorem Session.start_symbolic {name : String} {options : CompileOptions} :
    (Session.start name options).Symbolic := by
  refine ⟨⟨?_, ?_⟩, ?_, ?_⟩ <;> simp [Session.start]

/-- **Checkpoints can be erased.**  A program compiled without checkpoints is what it is with them, less
the checkpoints: the unit is the one with checkpoints, stripped of them, and where there is no unit the
diagnostics or the fault are the same. -/
theorem compile_without_checkpoints (name : String) (maxErrors : Nat) (p : Program) :
    compile name { checkpoints := false, maxErrors } p =
      (compile name { checkpoints := true, maxErrors } p).map CompiledUnit.strip := by
  have hstart : (Session.start name { checkpoints := true, maxErrors }).Symbolic := Session.start_symbolic
  have hstrip := Lower.oblivious_program (p := p) |>.commutes hstart
  have hσ := Lower.oblivious_program (p := p) |>.keeps hstart
  rw [Session.start_strip] at hstrip
  unfold compile Step.run
  rw [hstrip]
  rcases hr : Lower.lowerProgram p (Session.start name { checkpoints := true, maxErrors }) with
    ⟨f | ⟨⟩, σ⟩
  · rfl
  · rw [hr] at hσ
    exact hσ.finish_strip

end StackScript
