import StackScript.LinkedProgram.Json
import StackScript.Proofs.Interchange.Tree

/-!
# Code is read back

What is written for compiled units and linked programs, and for all their parts, is read back as it was.
-/

namespace StackScript

open Json

/-! ### Instructions -/

/-- An operation is read back from its name. -/
theorem Opcode.reads (op : Opcode) : Reads Opcode.read? op.toJson op :=
  .name (by cases op <;> rfl)

theorem Builtin.reads (b : Builtin) : Reads Builtin.read? b.toJson b :=
  .name (by cases b <;> rfl)

@[simp] theorem Label.ofJson?_toJson {l : Label} : Label.ofJson? l.toJson = some l := by
  simp [Label.ofJson?, Label.toJson]

/-- What a call goes to is read back, resolved or not. -/
theorem CallTarget.reads (t : CallTarget) : Reads CallTarget.read? t.toJson t := by
  cases t with
  | label l => exact .tagged fun d _ => by simp [CallTarget.read?]
  | address offset => exact .tagged fun d _ => by simp [CallTarget.read?]
  | unresolved =>
      intro d _
      cases d <;> rfl

/-- Every operand is read back. -/
theorem Operand.reads (o : Operand) : Reads Operand.read? o.toJson o := by
  cases o with
  | constant | int | slot | count | label | offset =>
      exact .tagged fun d _ => by simp [Operand.read?, Operand.readContent?]
  | type t =>
      exact .tagged fun d hd => by simp [Operand.read?, Operand.readContent?, t.reads d hd]
  | call target argc =>
      have hcontent : Reads (fun d => Operand.readContent? d "Call")
          (.obj [("target", target.toJson), ("argc", .ofNat argc.toNat)]) (.call target argc) := by
        refine .obj fun d hd => ?_
        simp [Operand.readContent?, Record.required, target.reads d hd.1]
      exact .tagged hcontent
  | builtin b argc =>
      have hcontent : Reads (fun d => Operand.readContent? d "Builtin")
          (.obj [("builtin", b.toJson), ("argc", .ofNat argc.toNat)]) (.builtin b argc) := by
        refine .obj fun d hd => ?_
        simp [Operand.readContent?, Record.required, b.reads d hd.1]
      exact .tagged hcontent
  | frame params locals =>
      have hcontent : Reads (fun d => Operand.readContent? d "Frame")
          (.obj [("params", .ofNat params.toNat), ("locals", .ofNat locals.toNat)])
          (.frame params locals) := by
        refine .obj fun d _ => ?_
        simp [Operand.readContent?, Record.required]
      exact .tagged hcontent

/-- An operand is not written as `null`, so one that is left out can be told from it. -/
theorem Operand.toJson_ne_null (o : Operand) : o.toJson ≠ .null := by
  cases o <;> simp [Operand.toJson, tagged]

/-- Every instruction is read back, with an operand or without. -/
theorem Instruction.reads (i : Instruction) : Reads Instruction.read? i.toJson i := by
  refine .obj fun d hd => ?_
  have hoperand : orNull (Operand.read? d) (.ofOption Operand.toJson i.operand) = some i.operand :=
    Reads.option Operand.toJson_ne_null (fun o _ => o.reads) hd.2.1
  simp [Instruction.read?, Record.required, Record.nullable, i.opcode.reads d hd.1, hoperand]

/-- Every constant is read back, the number or the text that it is. -/
theorem Constant.reads (v : Constant) : Reads Constant.read? v.toJson v := by
  cases v with
  | num x => exact .tagged fun d _ => by simp [Constant.read?]
  | str s => exact .tagged fun d _ => by simp [Constant.read?]

/-- Every chunk is read back. -/
theorem Chunk.reads (c : Chunk) : Reads Chunk.read? c.toJson c := by
  refine .obj fun d hd => ?_
  have hcode : listOf? Instruction.read? d (.ofList Instruction.toJson c.instructions.toList) = some _ :=
    Reads.list (fun i _ => i.reads) d hd.1
  have hpool : listOf? Constant.read? d (.ofList Constant.toJson c.constants.toList) = some _ :=
    Reads.list (fun v _ => v.reads) d hd.2.1
  simp [Chunk.read?, Record.required, hcode, hpool]

/-! ### Units -/

theorem Export.reads (e : Export) : Reads Export.read? e.toJson e := by
  refine .obj fun d _ => ?_
  simp [Export.read?, Record.required]

/-- An interface is read back. -/
theorem Interface.reads (i : Interface) : Reads Interface.read? i.toJson i := by
  refine .obj fun d hd => ?_
  have hexports : listOf? Export.read? d (.ofList Export.toJson i.exports) = some i.exports :=
    Reads.list (fun e _ => e.reads) d hd.2.1
  simp [Interface.read?, Record.required, Reads.strings d hd.1, hexports, Reads.strings d hd.2.2.1]

/-- A recorded call is read back. -/
theorem CallSite.reads (c : CallSite) : Reads CallSite.read? c.toJson c := by
  refine .obj fun d hd => ?_
  simp [CallSite.read?, Record.required, c.span.reads d hd.2.1]

/-- A map is made of its entries. -/
theorem NameMap.ofList_toList {α : Type} (m : NameMap α) : Std.ExtTreeMap.ofList m.toList = m := by
  apply Std.ExtTreeMap.ext_getElem?
  intro name
  cases h : m[name]? with
  | some a =>
      have hmem : (name, a) ∈ m.toList := Std.ExtTreeMap.mem_toList_iff_getElem?_eq_some.mpr h
      exact Std.ExtTreeMap.getElem?_ofList_of_mem Std.ReflCmp.compare_self
        Std.ExtTreeMap.distinct_keys_toList hmem
  | none =>
      apply Std.ExtTreeMap.getElem?_ofList_of_contains_eq_false
      rw [← Bool.not_eq_true, List.contains_iff_mem, List.mem_map]
      rintro ⟨⟨_, a⟩, hmem, rfl⟩
      rw [Std.ExtTreeMap.mem_toList_iff_getElem?_eq_some.mp hmem] at h
      cases h

/-- A table of offsets is read back as the map it is. -/
theorem reads_offsets (offsets : NameMap Nat) : Reads readOffsets? (offsetsToJson offsets) offsets := by
  have hentries (entries : List (String × Nat)) :
      readOffsets? 1 (.obj (entries.map fun e => (e.1, Json.ofNat e.2))) =
        some (Std.ExtTreeMap.ofList entries) := by
    rw [readOffsets?, List.mapM_map]
    have hpure : List.mapM (fun e => pure (id e)) entries = some (entries.map id) := List.mapM_pure
    rw [List.map_id] at hpure
    exact congrArg _ hpure
  refine .obj fun d _ => ?_
  exact (hentries offsets.toList).trans (congrArg some (NameMap.ofList_toList offsets))

/-- Every unit is read back. -/
theorem CompiledUnit.reads (u : CompiledUnit) : Reads CompiledUnit.read? u.toJson u := by
  refine .obj fun d hd => ?_
  have huses : listOf? CallSite.read? d (.ofList CallSite.toJson u.uses.toList) = some _ :=
    Reads.list (fun c _ => c.reads) d hd.2.2.1
  simp [CompiledUnit.read?, Record.required, u.chunk.reads d hd.2.1, huses,
    reads_offsets u.subroutines d hd.2.2.2.1, u.interface.reads d hd.2.2.2.2.1]

/-! ### Linked programs -/

theorem LinkedProgram.reads_place (place : String × Nat) :
    Reads readPlace? (placeToJson place) place := by
  refine .arr fun d _ => ?_
  simp [readPlace?]

/-- Every linked program is read back. -/
theorem LinkedProgram.reads (p : LinkedProgram) : Reads LinkedProgram.read? p.toJson p := by
  refine .obj fun d hd => ?_
  have hunits : listOf? readPlace? d (.ofList placeToJson p.units) = some p.units :=
    Reads.list (fun place _ => reads_place place) d hd.2.1
  simp [LinkedProgram.read?, Record.required, p.chunk.reads d hd.1, hunits,
    reads_offsets p.exports d hd.2.2.1]

end StackScript
