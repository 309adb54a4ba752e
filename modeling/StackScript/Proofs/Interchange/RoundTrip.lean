import StackScript.Proofs.Interchange.Code
import StackScript.Proofs.Interchange.Format

/-!
# The interchange format loses nothing

Programs, compiled units and linked programs are written with all their fields, and what was written is
read back as it was.

* `Program.finite`, `Chunk.finite`: JSON has all the numbers in it.
* `Program.fits`, `CompiledUnit.fits`, `LinkedProgram.fits`: what is written has the shape of the format.
* `interchange_round_trips`: and it is read back.
-/

namespace StackScript

open Json

/-! ### Finite numbers -/

namespace Expr

mutual

/-- The numerals in the expression are finite. -/
def finite : Expr → Bool
  | .float v _ => v.isFinite
  | .integer _ _ | .str _ _ | .bool _ _ | .undefined _ | .var _ _ | .declare _ _ _ => true
  | .typed _ e _ | .unary _ e _ => e.finite
  | .binary _ l r _ | .assign l r _ | .index l r _ => l.finite && r.finite
  | .list es _ | .call _ es _ => allFinite es

/-- The numerals in all of the expressions are finite. -/
def allFinite : List Expr → Bool
  | [] => true
  | e :: rest => e.finite && allFinite rest

end

end Expr

namespace Stmt

mutual

/-- The numerals in the statement are finite. -/
def finite : Stmt → Bool
  | .expr e => e.finite
  | .block body | .package _ _ body => allFinite body
  | .sub head body => head.params.all (·.pattern.finite) && allFinite body
  | .ret value _ => value.all (·.finite)
  | .cond condition body elsifs otherwise =>
    condition.finite && allFinite body && branchesFinite elsifs &&
      match otherwise with
      | none => true
      | some body => allFinite body
  | .whileLoop condition body => condition.finite && allFinite body
  | .forEach _ iterable body => iterable.finite && allFinite body
  | .loop init condition step body =>
    init.all (·.finite) && condition.all (·.finite) && step.all (·.finite) && allFinite body
  | .use _ => true

/-- The numerals in all of the statements are finite. -/
def allFinite : List Stmt → Bool
  | [] => true
  | s :: rest => s.finite && allFinite rest

/-- The numerals in all of the branches are finite. -/
def branchesFinite : List (Expr × List Stmt) → Bool
  | [] => true
  | (condition, body) :: rest => condition.finite && allFinite body && branchesFinite rest

end

end Stmt

/-- The numerals of the program are finite. -/
def Program.finite (p : Program) : Bool := Stmt.allFinite p.body

/-- The constant is a finite number or a text. -/
def Constant.finite : Constant → Bool
  | .num x => x.isFinite
  | .str _ => true

/-- The numbers of the pool are finite. -/
def Chunk.finite (c : Chunk) : Bool := c.constants.all (·.finite)

/-! ### Shapes of trees -/

namespace Fits

/-- A list fits if its items do. -/
theorem ofList {α : Type} {s : Shape} {write : α → Json} {items : List α}
    (h : ∀ a ∈ items, Fits s (write a)) : Fits (.list s) (ofList write items) :=
  .list fun _ hj => by
    obtain ⟨a, ha, rfl⟩ := List.mem_map.mp hj
    exact h a ha

/-- A value that may be left out fits if it does where it is there. -/
theorem ofOption {α : Type} {s : Shape} {write : α → Json} {o : Option α}
    (h : ∀ a ∈ o, Fits s (write a)) : Fits (.optional s) (ofOption write o) := by
  cases o with
  | none => exact .null
  | some a => exact .present (h a rfl)

/-- The number of bits bounds the number. -/
theorem uint8 {n : UInt8} : Fits .uint8 (.ofNat n.toNat) :=
  .integer (Int.natCast_nonneg _) (Int.ofNat_le.mpr (Nat.le_of_lt_succ n.toNat_lt))

theorem uint16 {n : UInt16} : Fits .uint16 (.ofNat n.toNat) :=
  .integer (Int.natCast_nonneg _) (Int.ofNat_le.mpr (Nat.le_of_lt_succ n.toNat_lt))

theorem uint32 {n : UInt32} : Fits .uint32 (.ofNat n.toNat) :=
  .integer (Int.natCast_nonneg _) (Int.ofNat_le.mpr (Nat.le_of_lt_succ n.toNat_lt))

theorem int64 {n : Int64} : Fits .int64 (.int n.toInt) :=
  .integer n.minValue_le_toInt n.toInt_le

end Fits

/-- A type fits whatever is nested in it. -/
theorem ValueType.fits (t : ValueType) : Fits (.part .type) t.toJson := by
  induction t with
  | array t ih => exact .part (.content rfl ih)
  | _ => exact .part (.bare (by decide))

theorem Span.fits (s : Span) : Fits .span s.toJson :=
  .record (.cons .uint32 (.cons .uint32 .nil))

theorem BinaryOp.fits (op : BinaryOp) : Fits .binaryOp op.toJson :=
  .bare (by cases op <;> decide)

theorem UnaryOp.fits (op : UnaryOp) : Fits .unaryOp op.toJson :=
  .bare (by cases op <;> decide)

namespace Expr

/-- An expression fits if what it is does; its place always fits. -/
theorem fits_node {kind : Json} {span : Span} (h : Fits .exprKind kind) :
    Fits (.part .expr) (node span kind) :=
  .part (.record (.cons h (.cons span.fits .nil)))

mutual

/-- **An expression whose numerals are finite fits.**  Each kind of expression is one line of the format. -/
theorem fits : ∀ {e : Expr}, e.finite = true → Fits (.part .expr) e.toJson
  | .integer _ _, _ => fits_node (.content rfl .int64)
  | .float _ _, h => fits_node (.content rfl (.number h))
  | .str _ _, _ => fits_node (.content rfl .text)
  | .bool _ _, _ => fits_node (.content rfl .bool)
  | .undefined _, _ => fits_node (.bare List.mem_cons_self)
  | .var _ _, _ => fits_node (.content rfl .text)
  | .declare _ t _, _ => fits_node (.content rfl (.record (.cons .text (.cons t.fits .nil))))
  | .typed t _ _, h => fits_node (.content rfl (.record (.cons t.fits (.cons (fits h) .nil))))
  | .list _ _, h => fits_node (.content rfl (.list (eachFits h)))
  | .binary op _ _ _, h => by
      obtain ⟨hl, hr⟩ := Bool.and_eq_true_iff.mp h
      exact fits_node (.content rfl (.record (.cons op.fits (.cons (fits hl) (.cons (fits hr) .nil)))))
  | .unary op _ _, h => fits_node (.content rfl (.record (.cons op.fits (.cons (fits h) .nil))))
  | .assign _ _ _, h | .index _ _ _, h => by
      obtain ⟨hl, hr⟩ := Bool.and_eq_true_iff.mp h
      exact fits_node (.content rfl (.record (.cons (fits hl) (.cons (fits hr) .nil))))
  | .call _ _ _, h =>
      fits_node (.content rfl (.record (.cons .text (.cons (.list (eachFits h)) .nil))))

/-- Each expression of a list fits. -/
theorem eachFits : ∀ {es : List Expr}, allFinite es = true → ∀ j ∈ listToJson es, Fits (.part .expr) j
  | [], _ => fun _ hj => by cases hj
  | _ :: _, h => by
      obtain ⟨he, hes⟩ := Bool.and_eq_true_iff.mp h
      exact List.forall_mem_cons.mpr ⟨fits he, eachFits hes⟩

end

/-- An expression that may be left out fits. -/
theorem fits_option {o : Option Expr} (h : o.all (·.finite) = true) :
    Fits (.optional (.part .expr)) (.ofOption toJson o) :=
  .ofOption fun e he => by
    obtain rfl : o = some e := he
    exact fits h

end Expr

theorem Param.fits {p : Param} (h : p.pattern.finite = true) : Fits .param p.toJson :=
  .record (.cons (Expr.fits h) (.cons .bool .nil))

namespace Stmt

/-- A block fits if its statements do. -/
theorem fits_block {statements : List Json} (h : ∀ j ∈ statements, Fits (.part .stmt) j) :
    Fits .block (blockJson statements) :=
  .record (.cons (.list h) .nil)

/-- A branch fits if its condition is finite and the statements of its body fit. -/
theorem fits_branch {condition : Expr} {statements : List Json} (hc : condition.finite = true)
    (h : ∀ j ∈ statements, Fits (.part .stmt) j) :
    Fits .branch (.obj [("condition", condition.toJson), ("body", blockJson statements)]) :=
  .record (.cons (Expr.fits hc) (.cons (fits_block h) .nil))

mutual

/-- **A statement whose numerals are finite fits.** -/
theorem fits : ∀ {s : Stmt}, s.finite = true → Fits (.part .stmt) s.toJson
  | .expr _, h => .part (.content rfl (.record (.cons (Expr.fits h) .nil)))
  | .block _, h => .part (.content rfl (fits_block (eachFits h)))
  | .sub head _, h => by
      obtain ⟨hparams, hbody⟩ := Bool.and_eq_true_iff.mp h
      have hlist : Fits (.list .param) (.ofList Param.toJson head.params) :=
        .ofList fun p hp => Param.fits (List.all_eq_true.mp hparams p hp)
      have htraits : Fits (.list .text) (.ofList .str head.traits) := .ofList fun _ _ => .text
      exact .part (.content rfl (.record (.cons .text (.cons hlist (.cons head.returnType.fits
        (.cons htraits (.cons (fits_block (eachFits hbody)) (.cons head.span.fits .nil))))))))
  | .ret _ span, h =>
      .part (.content rfl (.record (.cons (Expr.fits_option h) (.cons span.fits .nil))))
  | .cond _ _ _ none, h => by
      simp only [finite, Bool.and_eq_true] at h
      exact .part (.content rfl (.record (.cons (fits_branch h.1.1.1 (eachFits h.1.1.2))
        (.cons (.list (eachBranchFits h.1.2)) (.cons .null .nil)))))
  | .cond _ _ _ (some _), h => by
      simp only [finite, Bool.and_eq_true] at h
      exact .part (.content rfl (.record (.cons (fits_branch h.1.1.1 (eachFits h.1.1.2))
        (.cons (.list (eachBranchFits h.1.2)) (.cons (.present (fits_block (eachFits h.2))) .nil)))))
  | .whileLoop _ _, h => by
      obtain ⟨hc, hbody⟩ := Bool.and_eq_true_iff.mp h
      exact .part (.content rfl (fits_branch hc (eachFits hbody)))
  | .forEach _ _ _, h => by
      obtain ⟨he, hbody⟩ := Bool.and_eq_true_iff.mp h
      exact .part (.content rfl (.record (.cons .text (.cons (Expr.fits he)
        (.cons (fits_block (eachFits hbody)) .nil)))))
  | .loop _ _ _ _, h => by
      simp only [finite, Bool.and_eq_true] at h
      exact .part (.content rfl (.record (.cons (Expr.fits_option h.1.1.1)
        (.cons (Expr.fits_option h.1.1.2) (.cons (Expr.fits_option h.1.2)
        (.cons (fits_block (eachFits h.2)) .nil))))))
  | .use _, _ => .part (.content rfl (.record (.cons .text .nil)))
  | .package .package _ _, h | .package .module _ _, h =>
      .part (.content rfl (.record (.cons .text (.cons (fits_block (eachFits h)) .nil))))

theorem eachFits : ∀ {body : List Stmt}, allFinite body = true →
    ∀ j ∈ listToJson body, Fits (.part .stmt) j
  | [], _ => fun _ hj => by cases hj
  | _ :: _, h => by
      obtain ⟨hs, hbody⟩ := Bool.and_eq_true_iff.mp h
      exact List.forall_mem_cons.mpr ⟨fits hs, eachFits hbody⟩

/-- Each branch of a conditional fits. -/
theorem eachBranchFits : ∀ {elsifs : List (Expr × List Stmt)}, branchesFinite elsifs = true →
    ∀ j ∈ branchesToJson elsifs, Fits .branch j
  | [], _ => fun _ hj => by cases hj
  | (_, _) :: _, h => by
      simp only [branchesFinite, Bool.and_eq_true] at h
      exact List.forall_mem_cons.mpr ⟨fits_branch h.1.1 (eachFits h.1.2), eachBranchFits h.2⟩

end

end Stmt

/-- A program whose numerals are finite fits. -/
theorem Program.fits {p : Program} (h : p.finite = true) : Fits .program p.toJson :=
  .record (.cons (.list (Stmt.eachFits h)) .nil)

/-! ### Shapes of code -/

/-- Every operation is in the format. -/
theorem Opcode.fits (op : Opcode) : Fits .opcode op.toJson :=
  .bare (by cases op <;> decide)

theorem Builtin.fits (b : Builtin) : Fits .builtin b.toJson :=
  .bare (by cases b <;> decide)

theorem CallTarget.fits (t : CallTarget) : Fits .callTarget t.toJson := by
  cases t with
  | label l => exact .content rfl .uint32
  | address offset => exact .content rfl .natural
  | unresolved => exact .bare List.mem_cons_self

/-- Every operand is in the format, with its own bounds. -/
theorem Operand.fits (o : Operand) : Fits .operand o.toJson := by
  cases o with
  | constant | slot | count => exact .content rfl .uint16
  | int => exact .content rfl .int64
  | label => exact .content rfl .uint32
  | offset => exact .content rfl .natural
  | call target argc => exact .content rfl (.record (.cons target.fits (.cons .uint8 .nil)))
  | builtin b argc => exact .content rfl (.record (.cons b.fits (.cons .uint8 .nil)))
  | frame params locals => exact .content rfl (.record (.cons .uint16 (.cons .uint16 .nil)))
  | type t => exact .content rfl t.fits

/-- Every instruction is in the format. -/
theorem Instruction.fits (i : Instruction) : Fits .instruction i.toJson :=
  .record (.cons i.opcode.fits (.cons (.ofOption fun o _ => o.fits) .nil))

/-- A constant is in the format, unless it is a NaN or infinite: those have no notation. -/
theorem Constant.fits {v : Constant} (h : v.finite = true) : Fits .constant v.toJson := by
  cases v with
  | num x => exact .content rfl (.number h)
  | str s => exact .content rfl .text

/-- A chunk fits if the numbers of its pool are finite. -/
theorem Chunk.fits {c : Chunk} (h : c.finite = true) : Fits .chunk c.toJson := by
  have hpool : Fits (.list .constant) (.ofList Constant.toJson c.constants.toList) :=
    .ofList fun v hv => Constant.fits (Array.all_eq_true'.mp h v (Array.mem_toList_iff.mp hv))
  exact .record (.cons (.ofList fun i _ => i.fits) (.cons hpool .nil))

/-- A table of offsets fits, whatever names are in it. -/
theorem fits_offsets (offsets : NameMap Nat) : Fits (.map .natural) (offsetsToJson offsets) := by
  refine .map ?_ ?_
  · rw [List.map_map]
    show (offsets.toList.map Prod.fst).Nodup
    refine List.pairwise_map.mpr (Std.ExtTreeMap.distinct_keys_toList.imp fun hne heq => hne ?_)
    rw [heq]
    exact Std.ReflCmp.compare_self
  · intro f hf
    obtain ⟨e, -, rfl⟩ := List.mem_map.mp hf
    exact .natural

theorem Interface.fits (i : Interface) : Fits .interface i.toJson :=
  .record (.cons (.ofList fun _ _ => .text) (.cons
    (.ofList fun _ _ => .record (.cons .text (.cons .natural .nil)))
    (.cons (.ofList fun _ _ => .text) .nil)))

theorem CallSite.fits (c : CallSite) : Fits .callSite c.toJson :=
  .record (.cons .text (.cons c.span.fits (.cons .natural (.cons .bool .nil))))

/-- A unit fits if the numbers of its pool are finite. -/
theorem CompiledUnit.fits {u : CompiledUnit} (h : u.chunk.finite = true) : Fits .unit u.toJson :=
  .record (.cons .text (.cons (Chunk.fits h) (.cons (.ofList fun c _ => c.fits)
    (.cons (fits_offsets u.subroutines) (.cons u.interface.fits .nil)))))

/-- A linked program fits if the numbers of its pool are finite. -/
theorem LinkedProgram.fits {p : LinkedProgram} (h : p.chunk.finite = true) :
    Fits .linkedProgram p.toJson :=
  .record (.cons (Chunk.fits h) (.cons (.ofList fun _ _ => .pair .text .natural)
    (.cons (fits_offsets p.exports) .nil)))

/-! ### Round trips -/

/-- **What is written is read back as it was**, by a reader that follows values as deep as what was written
is nested or deeper, and it has all the fields of the format where JSON has the numbers that are in it.

This is about values and not about their text.  The command reads its inputs with a reader that stops where
values are nested more than 127 deep, so it refuses a program that is written deeper than that. -/
theorem interchange_round_trips :
    (∀ p : Program, Program.ofJson? p.toJson = some p ∧
      (∀ depth, p.toJson.depth ≤ depth → Program.read? depth p.toJson = some p) ∧
      (p.finite = true → Fits .program p.toJson)) ∧
    (∀ u : CompiledUnit, CompiledUnit.ofJson? u.toJson = some u ∧
      (∀ depth, u.toJson.depth ≤ depth → CompiledUnit.read? depth u.toJson = some u) ∧
      (u.chunk.finite = true → Fits .unit u.toJson)) ∧
    ∀ p : LinkedProgram, LinkedProgram.ofJson? p.toJson = some p ∧
      (∀ depth, p.toJson.depth ≤ depth → LinkedProgram.read? depth p.toJson = some p) ∧
      (p.chunk.finite = true → Fits .linkedProgram p.toJson) := by
  refine ⟨fun p => ⟨?_, p.reads, Program.fits⟩, fun u => ⟨?_, u.reads, CompiledUnit.fits⟩,
    fun p => ⟨?_, p.reads, LinkedProgram.fits⟩⟩
  · exact p.reads p.toJson.depth (Nat.le_refl _)
  · exact u.reads u.toJson.depth (Nat.le_refl _)
  · exact p.reads p.toJson.depth (Nat.le_refl _)

/-- Prints the negative zero where a loop without a condition ends at once. -/
def zeroing : Program where
  body := [.loop none none (some (.call "last" [] ⟨1, 8⟩))
    [.cond (.bool true {}) [.expr (.call "say" [.float (.zero true) ⟨2, 9⟩] {})] [] none]]

/-- A unit that halts at once, with the negative zero in its pool and two names for one position. -/
def zeroUnit : CompiledUnit where
  name := "zero"
  chunk := ⟨#[.loadConst 0, .bare .halt], #[.num (.zero true)]⟩
  uses := #[]
  subroutines := Std.ExtTreeMap.ofList [("zero", 0), ("again", 0)]
  interface := { exports := [⟨"zero", 0⟩] }

/-- The same unit, linked alone. -/
def zeroLinked : LinkedProgram where
  chunk := zeroUnit.chunk
  units := [("zero", 0)]
  exports := zeroUnit.subroutines

/-- They are read back with the negative zero, by a reader that follows values 127 deep. -/
theorem interchange_round_trips_zero :
    (Program.ofJson? zeroing.toJson = some zeroing ∧
      Program.read? 127 zeroing.toJson = some zeroing ∧ Fits .program zeroing.toJson) ∧
    (CompiledUnit.ofJson? zeroUnit.toJson = some zeroUnit ∧
      CompiledUnit.read? 127 zeroUnit.toJson = some zeroUnit ∧ Fits .unit zeroUnit.toJson) ∧
    LinkedProgram.ofJson? zeroLinked.toJson = some zeroLinked ∧
      LinkedProgram.read? 127 zeroLinked.toJson = some zeroLinked ∧
      Fits .linkedProgram zeroLinked.toJson := by
  have hprogram : zeroing.finite = true := by decide
  have hchunk : zeroUnit.chunk.finite = true := by decide +kernel
  have hdepth : zeroing.toJson.depth ≤ 127 := by decide +kernel
  have hunit : zeroUnit.toJson.depth ≤ 127 := by decide +kernel
  have hlinked : zeroLinked.toJson.depth ≤ 127 := by decide +kernel
  obtain ⟨h₁, h₂, h₃⟩ := interchange_round_trips
  obtain ⟨hback, hread, hfits⟩ := h₁ zeroing
  obtain ⟨uback, uread, ufits⟩ := h₂ zeroUnit
  obtain ⟨lback, lread, lfits⟩ := h₃ zeroLinked
  exact ⟨⟨hback, hread 127 hdepth, hfits hprogram⟩, ⟨uback, uread 127 hunit, ufits hchunk⟩,
    lback, lread 127 hlinked, lfits hchunk⟩

end StackScript
