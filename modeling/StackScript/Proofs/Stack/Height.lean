import Mathlib.Algebra.Ring.Int.Defs
import StackScript.Proofs.Routines

/-!
# Heights of the operand stack

What an instruction takes from the operand stack and leaves there, and where control goes from it.

The height at an offset is what the instructions before it add up to.  Along a path control may
jump, but the code of a routine is laid out so that heights, counted from the frame of the routine,
are the depths that paths arrive with.  `Chunk.Sound` says what this takes at one place: the
instruction finds what it takes, and wherever control goes from it is in the same body and has the
height that the instruction leaves.

* `Chunk.PathAvoiding.sound`: where all places that it goes on from are sound, a path stays in its
  body, and it arrives everywhere with the depth of the place.
-/

namespace StackScript

/-! ### What instructions do to the stack -/

namespace Instruction

/-- The number in the operand that says how many values are meant. -/
def count (i : Instruction) : Nat :=
  match i.operand with
  | some (.count n) => n.toNat
  | some (.call _ argc) | some (.builtin _ argc) => argc.toNat
  | _ => 0

/-- How many values the instruction needs on the stack; it takes them. -/
def takes (i : Instruction) : Nat :=
  match i.opcode with
  | .loadConst | .pushInt | .loadUndefined | .loadTrue | .loadFalse | .loadLocal | .jump
  | .pushFrame | .checkpoint | .halt => 0
  | .pop | .dup | .copy | .neg | .not | .storeLocal | .jumpIfFalse | .ret | .toCompatible => 1
  | .add | .sub | .mul | .div | .mod | .concat | .eq | .ne | .lt | .le | .gt | .ge | .arrayGet
  | .jumpIfGreaterOrEqual => 2
  | .dupN => i.count + 1
  | .call | .callBuiltin | .boxArray | .makeArgArray => i.count

/-- How many values the instruction puts in the place of those it takes. -/
def leaves (i : Instruction) : Nat :=
  match i.opcode with
  | .pop | .storeLocal | .jump | .jumpIfFalse | .jumpIfGreaterOrEqual | .ret | .pushFrame
  | .checkpoint | .halt => 0
  | .loadConst | .pushInt | .loadUndefined | .loadTrue | .loadFalse | .loadLocal | .copy | .neg
  | .not | .toCompatible | .add | .sub | .mul | .div | .mod | .concat | .eq | .ne | .lt | .le | .gt
  | .ge | .arrayGet | .call | .callBuiltin | .boxArray => 1
  | .dup => 2
  | .dupN => i.count + 2
  | .makeArgArray => i.count + 1

/-- How much deeper the stack is behind the instruction. -/
def net (i : Instruction) : Int := i.leaves - i.takes

/-- The instruction may go on somewhere else. -/
def branches (i : Instruction) : Bool :=
  i.opcode = .jump || i.opcode = .jumpIfFalse || i.opcode = .jumpIfGreaterOrEqual

/-- Control goes on at `m` from the instruction at `n`.  A call goes on behind it when the routine
has returned. -/
def Flows (i : Instruction) (n m : Nat) : Prop :=
  match i.opcode with
  | .jump => i.operand = some (.offset m)
  | .jumpIfFalse | .jumpIfGreaterOrEqual => m = n + 1 ∨ i.operand = some (.offset m)
  | .ret | .halt => False
  | _ => m = n + 1

/-- Control goes on behind the instruction, or where its operand says. -/
theorem flows_iff {i : Instruction} {n m : Nat} : i.Flows n m ↔
    (m = n + 1 ∧ i.opcode ∉ [.jump, .ret, .halt]) ∨
      (i.branches = true ∧ i.operand = some (.offset m)) := by
  obtain ⟨op, operand⟩ := i
  cases op <;> simp [Flows, branches]

instance {i : Instruction} {n m : Nat} : Decidable (i.Flows n m) :=
  decidable_of_iff _ flows_iff.symm

/-- Control goes on to the next instruction, or to the target of a branch. -/
theorem Flows.cases {i : Instruction} {n m : Nat} (h : i.Flows n m) :
    (m = n + 1 ∧ i.opcode ≠ .jump) ∨ (i.branches = true ∧ i.operand = some (.offset m)) := by
  rcases flows_iff.mp h with ⟨hm, hop⟩ | h
  · exact .inl ⟨hm, fun h => hop (by simp [h])⟩
  · exact .inr h

end Instruction

/-- Resolving labels changes nothing about the stack. -/
theorem Draft.resolveInstruction_stack {d : Draft} {i j : Instruction}
    (h : d.resolveInstruction i = .ok j) : j.takes = i.takes ∧ j.leaves = i.leaves := by
  obtain ⟨hop, ho⟩ := resolveInstruction_eq_ok h
  obtain ⟨op, operand⟩ := i
  obtain ⟨op', operand'⟩ := j
  obtain rfl : op' = op := hop
  have hcount : Instruction.count ⟨op', operand'⟩ = Instruction.count ⟨op', operand⟩ := by
    unfold Resolves at ho
    split at ho
    · obtain ⟨offset, -, ho⟩ := ho
      simp_all [Instruction.count]
    · obtain ⟨offset, -, ho⟩ := ho
      simp_all [Instruction.count]
    · simp_all [Instruction.count]
  simp [Instruction.takes, Instruction.leaves, hcount]

/-! ### Paths -/

namespace Chunk

/-- A path from `t`, where the stack of the activation is empty, arrives at `n` with the stack `k`
values deep. -/
inductive Path (c : Chunk) (t : Nat) : Nat → Int → Prop where
  | start : Path c t t 0
  | step {n m : Nat} {k : Int} {i : Instruction} : Path c t n k → c.instructions[n]? = some i →
      i.Flows n m → Path c t m (k - i.takes + i.leaves)

/-- How deep the stack is behind a walk from `n`, where it is `k` values deep, over the places `ms`,
if control can go that way. -/
def walk (c : Chunk) : Nat → Int → List Nat → Option Int
  | _, k, [] => some k
  | n, k, m :: ms =>
    match c.instructions[n]? with
    | none => none
    | some i => if i.Flows n m then walk c m (k - i.takes + i.leaves) ms else none

theorem Path.walk {c : Chunk} {t n : Nat} {k j : Int} {ms : List Nat} (h : c.Path t n k)
    (hw : c.walk n k ms = some j) : c.Path t ((n :: ms).getLast (by simp)) j := by
  induction ms generalizing n k with
  | nil =>
      obtain rfl : k = j := Option.some.inj hw
      exact h
  | cons m ms ih =>
      unfold Chunk.walk at hw
      split at hw
      · cases hw
      · rename_i i hi
        split at hw
        · rename_i hflows
          exact ih (.step h hi hflows) hw
        · cases hw

/-- What the instructions before the offset add to the stack, one after the other. -/
def height (c : Chunk) (n : Nat) : Int := ((c.instructions.toList.take n).map Instruction.net).sum

/-- An instruction changes the height by what it takes and leaves. -/
theorem height_succ {c : Chunk} {n : Nat} {i : Instruction} (h : c.instructions[n]? = some i) :
    c.height (n + 1) = c.height n + i.net := by
  rw [← Array.getElem?_toList] at h
  simp [height, List.take_add_one, h]

/-- The frame of the body that the offset is of. -/
def frame (c : Chunk) (n : Nat) : Nat := go n
where
  go : Nat → Nat
    | 0 => 0
    | t + 1 => if c.opens (t + 1) && n < c.bodyEnd (t + 1) then t + 1 else go t

/-- The frame of an instruction is that of the body it is of. -/
theorem InBody.frame_eq {c : Chunk} {t n : Nat} (h : c.InBody t n) : c.frame n = t := by
  obtain ⟨ho, hle, hlt, hin⟩ := h
  have hgo : ∀ m, t ≤ m → m ≤ n → frame.go c n m = t := by
    intro m
    induction m with
    | zero =>
        intro htm _
        obtain rfl : t = 0 := Nat.le_zero.mp htm
        rfl
    | succ m ih =>
        intro htm hmn
        rcases Nat.eq_or_lt_of_le htm with rfl | htm
        · simp [frame.go, ho, hlt]
        · have hclosed : ¬ (c.opens (m + 1) = true ∧ n < c.bodyEnd (m + 1)) :=
            fun ⟨ho', hlt'⟩ => Nat.not_le.mpr hlt' (hin _ ho' htm hmn)
          simp [frame.go, hclosed, ih (by omega) (by omega)]
  exact hgo n hle (Nat.le_refl n)

/-- How deep the stack is at the offset, counted from the frame of its body. -/
def depth (c : Chunk) (n : Nat) : Nat := (c.height n - c.height (c.frame n)).toNat

/-- A place of the body opened at `t` that is behind its frame, and before the return at its end if it
is the body of a subroutine. -/
structure Interior (c : Chunk) (t n : Nat) : Prop where
  inBody : c.InBody t n
  behind : t < n
  before : t ≠ 0 → n + 1 < c.bodyEnd t

/-- The instruction at `n`, which is of the body opened at `t`, finds what it takes, and nothing more
if it is the last.  Wherever control goes from it is in the body and has the height that the
instruction leaves, but for `k` values that are not expected there; jumps go to the inside of the
body. -/
structure Sound (c : Chunk) (k t n : Nat) : Prop where
  takes : ∃ i, c.instructions[n]? = some i ∧ c.height t + i.takes ≤ c.height n ∧
    (i.opcode = .halt → c.height n = c.height t)
  flows : ∀ {i m}, c.instructions[n]? = some i → i.Flows n m →
    c.InBody t m ∧ c.height m + k = c.height n + i.net
  jumps : ∀ {i m}, c.instructions[n]? = some i → i.branches = true →
    i.operand = some (.offset m) → c.Interior t m

/-- Where a place is sound, its height is its depth above the frame. -/
theorem Sound.depth_eq {c : Chunk} {k t n : Nat} (h : c.Sound k t n) (hb : c.InBody t n) :
    c.height n = c.height t + c.depth n := by
  obtain ⟨i, -, htakes, -⟩ := h.takes
  have : (i.takes : Int) ≥ 0 := Int.natCast_nonneg _
  rw [depth, hb.frame_eq]
  omega

/-- A path from `t` that goes on from no place in `A`. -/
inductive PathAvoiding (c : Chunk) (A : Nat → Prop) (t : Nat) : Nat → Int → Prop where
  | start : PathAvoiding c A t t 0
  | step {n m : Nat} {k : Int} {i : Instruction} : PathAvoiding c A t n k → ¬ A n →
      c.instructions[n]? = some i → i.Flows n m → PathAvoiding c A t m (k - i.takes + i.leaves)

theorem Path.avoiding {c : Chunk} {A : Nat → Prop} {t n : Nat} {k : Int} (h : c.Path t n k)
    (hA : ∀ n, ¬ A n) : c.PathAvoiding A t n k := by
  induction h with
  | start => exact .start
  | step _ hi hf ih => exact .step ih (hA _) hi hf

/-- A path from a frame stays in its body, and arrives with the depths of the places. -/
theorem PathAvoiding.sound {c : Chunk} {A : Nat → Prop} {t n : Nat} {k : Int}
    (h : c.PathAvoiding A t n k) (ht : c.InBody t t) (hc : ∀ {t n}, c.InBody t n → ∃ k, c.Sound k t n)
    (hA : ∀ {t n}, c.InBody t n → ¬ A n → c.Sound 0 t n) : c.InBody t n ∧ k = c.depth n := by
  have hpath : c.InBody t n ∧ c.height n = c.height t + k := by
    induction h with
    | start => exact ⟨ht, by omega⟩
    | step _ ha hi hf ih =>
        obtain ⟨hb, hk⟩ := (hA ih.1 ha).flows hi hf
        refine ⟨hb, ?_⟩
        have := ih.2
        rw [Instruction.net] at hk
        omega
  refine ⟨hpath.1, ?_⟩
  obtain ⟨k', hs⟩ := hc hpath.1
  have := hs.depth_eq hpath.1
  omega

/-- **On every path the height is the depth of the place**, if all places are sound. -/
theorem Path.sound {c : Chunk} {t n : Nat} {k : Int} (h : c.Path t n k) (ht : c.InBody t t)
    (hc : ∀ {t n}, c.InBody t n → c.Sound 0 t n) : c.InBody t n ∧ k = c.depth n :=
  (h.avoiding (A := fun _ => False) fun _ => id).sound ht (fun hb => ⟨0, hc hb⟩) fun hb _ => hc hb

end Chunk

end StackScript
