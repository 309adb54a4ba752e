import StackScript.Lowering.Compile

/-!
# How code grows and is finished

While a unit is lowered its draft grows: instructions and constants keep their places, and a label
once marked stays where it is (`Draft.Grows`).  A finished chunk has every instruction of the draft
in its place, with the offset of each label instead of the label (`Draft.finish_eq_ok`); code cannot be
finished if it names a label without an offset (`Draft.finish_eq_error_iff`).
-/

namespace StackScript

/-! ### Growth -/

/-- Pooling a constant keeps the pool's entries, and yields one that equals the constant. -/
theorem Chunk.addConstant_ok {v : Constant} {c c' : Chunk} {index : UInt16}
    (h : Chunk.addConstant v c = (.ok index, c')) :
    c'.instructions = c.instructions ∧ c.constants.toList <+: c'.constants.toList ∧
      ∃ (n : Nat) (w : Constant), index = n.toUInt16 ∧ c'.constants[n]? = some w ∧
        (w.equals v = true ∨ w = v) := by
  unfold addConstant at h
  cases hf : c.constants.findIdx? (·.equals v) with
  | some n =>
      simp only [hf, Prod.mk.injEq, Except.ok.injEq] at h
      obtain ⟨rfl, rfl⟩ := h
      obtain ⟨hn, hw, -⟩ := Array.findIdx?_eq_some_iff_getElem.mp hf
      exact ⟨rfl, List.prefix_rfl, n, c.constants[n], rfl, by simp, .inl hw⟩
  | none =>
      simp only [hf] at h
      split at h
      · simp only [Prod.mk.injEq, Except.ok.injEq] at h
        obtain ⟨rfl, rfl⟩ := h
        exact ⟨rfl, by simp, c.constants.size, v, rfl, by simp, .inr rfl⟩
      · cases h

/-- Pooling a constant fails for want of room only, and then nothing is changed. -/
theorem Chunk.addConstant_error {v : Constant} {c c' : Chunk} {f : Fault}
    (h : Chunk.addConstant v c = (.error f, c')) : f = .tooManyConstants ∧ c' = c := by
  unfold addConstant at h
  split at h
  · cases h
  · simp only at h
    split at h
    · cases h
    · cases h
      exact ⟨rfl, rfl⟩

/-- Pooling a constant adds no entry that an operand could not tell apart. -/
theorem Chunk.size_addConstant {v : Constant} {c : Chunk} (h : c.constants.size ≤ UInt16.size) :
    (addConstant v c).2.constants.size ≤ UInt16.size := by
  unfold addConstant
  split
  · exact h
  · simp only
    split
    · rename_i hroom
      rw [Array.size_push]
      exact hroom
    · exact h

namespace Draft

/-- A constant is emitted if the pool has it or has room for it, and then it is loaded from its place. -/
theorem emitConstant_eq_ok {v : Constant} {d d' : Draft} :
    Draft.emitConstant v d = (.ok (), d') ↔
      ∃ index c, Chunk.addConstant v d.chunk = (.ok index, c) ∧
        d' = { d with chunk := c.emit (.loadConst index) } := by
  unfold emitConstant
  rcases hc : Chunk.addConstant v d.chunk with ⟨_ | index, c⟩
  · simp
  · simp only [Prod.mk.injEq, Except.ok.injEq, true_and]
    constructor
    · rintro rfl
      exact ⟨index, c, ⟨rfl, rfl⟩, rfl⟩
    · rintro ⟨_, _, ⟨rfl, rfl⟩, rfl⟩
      rfl

/-- The draft `d'` has all that is in `d`: the instructions and constants in their places, and the
labels marked where they were marked. -/
structure Grows (d d' : Draft) : Prop where
  code : d.chunk.instructions.toList <+: d'.chunk.instructions.toList
  pool : d.chunk.constants.toList <+: d'.chunk.constants.toList
  labels : d.labels.size ≤ d'.labels.size
  marks : ∀ {n offset : Nat}, d.labels[n]? = some (some offset) → d'.labels[n]? = some (some offset)

namespace Grows

theorem refl {d : Draft} : Grows d d := ⟨List.prefix_rfl, List.prefix_rfl, Nat.le_refl _, id⟩

theorem trans {d₁ d₂ d₃ : Draft} (h₁ : Grows d₁ d₂) (h₂ : Grows d₂ d₃) : Grows d₁ d₃ :=
  ⟨h₁.code.trans h₂.code, h₁.pool.trans h₂.pool, Nat.le_trans h₁.labels h₂.labels,
    fun h => h₂.marks (h₁.marks h)⟩

/-- An instruction is added behind the others. -/
theorem emit {d : Draft} {i : Instruction} : Grows d (d.emit i) :=
  ⟨by simp [Draft.emit, Chunk.emit], List.prefix_rfl, Nat.le_refl _, id⟩

/-- A constant is added behind the others, if it is new. -/
theorem emitConstant {d d' : Draft} {v : Constant}
    (h : Draft.emitConstant v d = (.ok (), d')) : Grows d d' := by
  obtain ⟨index, c, hc, rfl⟩ := emitConstant_eq_ok.mp h
  obtain ⟨hi, hp, -⟩ := Chunk.addConstant_ok hc
  exact ⟨by simp [Chunk.emit, hi], hp, Nat.le_refl _, id⟩

/-- A label is added behind the others. -/
theorem push {d : Draft} {o : Option Nat} : Grows d { d with labels := d.labels.push o } :=
  ⟨List.prefix_rfl, List.prefix_rfl, by simp, fun {n offset} h => by
    have : n < d.labels.size := by grind
    grind⟩

theorem newLabel {d : Draft} : Grows d d.newLabel.2 := push

theorem newMarkedLabel {d : Draft} : Grows d d.newMarkedLabel.2 := push

/-- A label that gets a place had none. -/
theorem mark {d d' : Draft} {l : Label} (h : Draft.mark l d = (.ok (), d')) : Grows d d' := by
  unfold Draft.mark at h
  split at h
  · cases h
    exact ⟨List.prefix_rfl, List.prefix_rfl, by simp, fun h => by grind⟩
  · cases h
  · cases h

/-- The position does not go back. -/
theorem position_le {d d' : Draft} (h : Grows d d') : d.position ≤ d'.position := by
  simpa [position, Chunk.size] using h.code.length_le

/-- An instruction stays in its place. -/
theorem instruction {d d' : Draft} (h : Grows d d') {n : Nat} {i : Instruction}
    (hi : d.chunk.instructions[n]? = some i) : d'.chunk.instructions[n]? = some i := by
  obtain ⟨rest, hrest⟩ := h.code
  rw [← Array.getElem?_toList] at hi ⊢
  rw [← hrest, List.getElem?_append_left (List.getElem?_eq_some_iff.mp hi).1, hi]

/-- A constant stays in its place. -/
theorem constant {d d' : Draft} (h : Grows d d') {n : Nat} {v : Constant}
    (hv : d.chunk.constants[n]? = some v) : d'.chunk.constants[n]? = some v := by
  obtain ⟨rest, hrest⟩ := h.pool
  rw [← Array.getElem?_toList] at hv ⊢
  rw [← hrest, List.getElem?_append_left (List.getElem?_eq_some_iff.mp hv).1, hv]

/-- The code before a position stays as it is. -/
theorem instruction_eq {d d' : Draft} (h : Grows d d') {n : Nat} (hn : n < d.position) :
    d'.chunk.instructions[n]? = d.chunk.instructions[n]? := by
  have : n < d.chunk.instructions.size := hn
  obtain ⟨i, hi⟩ : ∃ i, d.chunk.instructions[n]? = some i := ⟨_, Array.getElem?_eq_getElem this⟩
  rw [hi, h.instruction hi]

/-- A label that is marked keeps its offset. -/
theorem offset {d d' : Draft} (h : Grows d d') {l : Label} {n : Nat} (hl : d.offset? l = some n) :
    d'.offset? l = some n := by
  simp only [offset?, Option.join_eq_some_iff] at hl ⊢
  exact h.marks hl

end Grows

end Draft

/-! ### Finished code -/

/-- A list all of whose items can be mapped is mapped item by item. -/
theorem mapM_eq_ok {α β ε : Type} {f : α → Except ε β} {l : List α} {l' : List β}
    (h : l.mapM f = .ok l') :
    l'.length = l.length ∧ ∀ {n : Nat} {a : α}, l[n]? = some a → ∃ b, l'[n]? = some b ∧ f a = .ok b := by
  induction l generalizing l' with
  | nil =>
      obtain rfl : [] = l' := by simpa [pure, Except.pure] using h
      simp
  | cons x l ih =>
      rw [List.mapM_cons] at h
      cases hx : f x with
      | error e => simp [hx, bind, Except.bind] at h
      | ok y =>
          cases hl : l.mapM f with
          | error e => simp [hx, hl, bind, Except.bind] at h
          | ok ys =>
              obtain rfl : y :: ys = l' := by
                simpa [hx, hl, bind, Except.bind, pure, Except.pure] using h
              obtain ⟨hlen, hget⟩ := ih hl
              refine ⟨by simp [hlen], fun {n a} hn => ?_⟩
              cases n with
              | zero =>
                  obtain rfl : x = a := by simpa using hn
                  exact ⟨y, rfl, hx⟩
              | succ n => exact hget (by simpa using hn)

theorem mapM_total {α β ε : Type} {f : α → Except ε β} {l : List α}
    (h : ∀ a ∈ l, ∃ b, f a = .ok b) : ∃ l', l.mapM f = .ok l' := by
  induction l with
  | nil => exact ⟨[], rfl⟩
  | cons a l ih =>
      obtain ⟨b, hb⟩ := h a List.mem_cons_self
      obtain ⟨l', hl'⟩ := ih fun a ha => h a (List.mem_cons_of_mem _ ha)
      refine ⟨b :: l', ?_⟩
      rw [List.mapM_cons, hb, hl']
      rfl

/-- Mapping a list stops at the first item that cannot be mapped. -/
theorem mapM_eq_error_iff {α β ε : Type} {f : α → Except ε β} {l : List α} {e : ε} :
    l.mapM f = .error e ↔ ∃ (k : Nat) (a : α), l[k]? = some a ∧ f a = .error e ∧
      ∀ j < k, ∀ b, l[j]? = some b → ∃ c, f b = .ok c := by
  induction l with
  | nil => simp [pure, Except.pure]
  | cons x l ih =>
      rw [List.mapM_cons]
      cases hx : f x with
      | error e' =>
          show (Except.error e' : Except ε (List β)) = .error e ↔ _
          constructor
          · intro h
            obtain rfl := Except.error.inj h
            exact ⟨0, x, rfl, hx, by simp⟩
          · rintro ⟨k, a, hk, ha, hbefore⟩
            cases k with
            | zero =>
                obtain rfl : x = a := by simpa using hk
                obtain rfl := Except.error.inj (hx.symm.trans ha)
                rfl
            | succ k =>
                obtain ⟨c, hc⟩ := hbefore 0 k.succ_pos x rfl
                cases hx.symm.trans hc
      | ok y =>
          have hrest : (Except.ok y >>= fun y => l.mapM f >>= fun ys => pure (y :: ys)) = .error e ↔
              l.mapM f = .error e := by
            cases l.mapM f <;> simp [bind, Except.bind, pure, Except.pure]
          rw [hrest, ih]
          constructor
          · rintro ⟨k, a, hk, ha, hbefore⟩
            refine ⟨k + 1, a, hk, ha, fun j hj b hb => ?_⟩
            cases j with
            | zero =>
                obtain rfl : x = b := by simpa using hb
                exact ⟨y, hx⟩
            | succ j => exact hbefore j (Nat.lt_of_succ_lt_succ hj) b hb
          · rintro ⟨k, a, hk, ha, hbefore⟩
            cases k with
            | zero =>
                obtain rfl : x = a := by simpa using hk
                cases hx.symm.trans ha
            | succ k =>
                exact ⟨k, a, hk, ha, fun j hj b hb => hbefore (j + 1) (Nat.succ_lt_succ hj) b hb⟩

/-- What can be told of each item that is mapped can be told of the whole list. -/
theorem mapM_map {α β γ ε : Type} {f : α → Except ε β} {l : List α} {l' : List β} {g : β → γ}
    {g' : α → γ} (h : l.mapM f = .ok l') (hg : ∀ a ∈ l, ∀ b, f a = .ok b → g b = g' a) :
    l'.map g = l.map g' := by
  obtain ⟨hlen, hget⟩ := mapM_eq_ok h
  refine List.ext_getElem? fun n => ?_
  rw [List.getElem?_map, List.getElem?_map]
  cases hn : l[n]? with
  | none =>
      have hle : l'.length ≤ n := hlen ▸ List.getElem?_eq_none_iff.mp hn
      rw [List.getElem?_eq_none hle]
      rfl
  | some a =>
      obtain ⟨b, hb, hf⟩ := hget hn
      rw [hb, Option.map_some, Option.map_some, hg a (List.mem_of_getElem? hn) b hf]

/-- The label that the instruction names, as the place to go to or as the subroutine to call. -/
def Instruction.reference? (i : Instruction) : Option Label :=
  match i.operand with
  | some (.label l) | some (.call (.label l) _) => some l
  | _ => none

namespace Draft

/-- Code is finished instruction by instruction. -/
theorem finish_eq {d : Draft} : d.finish =
    (d.chunk.instructions.toList.mapM d.resolveInstruction).map fun is =>
      { d.chunk with instructions := is.toArray } := by
  unfold finish
  rw [Array.mapM_eq_mapM_toList]
  cases d.chunk.instructions.toList.mapM d.resolveInstruction <;> rfl

/-- A finished chunk is made of resolved instructions. -/
theorem mapM_of_finish {d : Draft} {c : Chunk} (h : d.finish = .ok c) :
    ∃ is, d.chunk.instructions.toList.mapM d.resolveInstruction = .ok is ∧
      c = { d.chunk with instructions := is.toArray } := by
  rw [finish_eq] at h
  cases hl : d.chunk.instructions.toList.mapM d.resolveInstruction with
  | error e => simp [hl, Except.map] at h
  | ok is => exact ⟨is, rfl, by simpa [hl, Except.map, eq_comm] using h⟩

/-- A finished chunk has each instruction in its place, with its labels resolved. -/
theorem finish_eq_ok {d : Draft} {c : Chunk} (h : d.finish = .ok c) :
    c.constants = d.chunk.constants ∧ c.size = d.position ∧
      ∀ {n : Nat} {i : Instruction}, d.chunk.instructions[n]? = some i →
        ∃ j, c.instructions[n]? = some j ∧ d.resolveInstruction i = .ok j := by
  obtain ⟨is, hl, rfl⟩ := mapM_of_finish h
  obtain ⟨hlen, hget⟩ := mapM_eq_ok hl
  refine ⟨rfl, by simpa [Chunk.size, position] using hlen, fun {n i} hn => ?_⟩
  obtain ⟨j, hj, hr⟩ := hget (Array.getElem?_toList ▸ hn)
  exact ⟨j, by simpa using hj, hr⟩

/-- An operand with its labels resolved. -/
def Resolves (d : Draft) : Option Operand → Option Operand → Prop
  | some (.label l), o => ∃ offset, d.offset? l = some offset ∧ o = some (.offset offset)
  | some (.call (.label l) argc), o =>
    ∃ offset, d.offset? l = some offset ∧ o = some (.call (.address offset) argc)
  | operand, o => o = operand

/-- A resolved instruction has its operation and, in place of labels, their offsets. -/
theorem resolveInstruction_eq_ok {d : Draft} {i j : Instruction}
    (h : d.resolveInstruction i = .ok j) :
    j.opcode = i.opcode ∧ d.Resolves i.operand j.operand := by
  obtain ⟨opcode, operand⟩ := i
  unfold resolveInstruction at h
  cases operand with
  | none =>
      obtain rfl := Except.ok.inj h
      exact ⟨rfl, rfl⟩
  | some operand =>
      simp only [resolveOperand, resolve] at h
      split at h
      · rename_i l
        cases ho : d.offset? l with
        | none => simp [ho, Except.map] at h
        | some offset =>
            obtain rfl : ⟨opcode, some (.offset offset)⟩ = j := by simpa [ho, Except.map] using h
            exact ⟨rfl, offset, ho, rfl⟩
      · rename_i l argc
        cases ho : d.offset? l with
        | none => simp [ho, Except.map] at h
        | some offset =>
            obtain rfl : ⟨opcode, some (.call (.address offset) argc)⟩ = j := by
              simpa [ho, Except.map] using h
            exact ⟨rfl, offset, ho, rfl⟩
      · rename_i hlabel hcall
        obtain rfl := Except.ok.inj h
        unfold Resolves
        split <;> simp_all

variable {d : Draft} {i : Instruction} {f : Fault}

/-- An instruction cannot be resolved if it names a label without an offset. -/
theorem resolveInstruction_eq_error_iff : d.resolveInstruction i = .error f ↔
    ∃ l, i.reference? = some l ∧ d.offset? l = none ∧ f = .unmarkedLabel l.id := by
  have hmap {α β : Type} {x : Except Fault α} {g : α → β} : x.map g = .error f ↔ x = .error f := by
    cases x <;> simp [Except.map]
  have hresolve {l : Label} : d.resolve l = .error f ↔ d.offset? l = none ∧ f = .unmarkedLabel l.id := by
    unfold resolve
    cases d.offset? l <;> simp [eq_comm]
  obtain ⟨op, operand⟩ := i
  unfold resolveInstruction
  cases operand with
  | none => simp [Instruction.reference?]
  | some operand =>
      simp only [hmap]
      unfold resolveOperand Instruction.reference?
      split
      · simp [hmap, hresolve]
      · simp [hmap, hresolve]
      · rename_i hlabel hcall
        simp only [reduceCtorEq, false_iff]
        rintro ⟨l, href, -⟩
        split at href <;> simp_all

/-- An instruction can be resolved if the label it names, if any, has an offset. -/
theorem resolveInstruction_ok_iff : (∃ j, d.resolveInstruction i = .ok j) ↔
    ∀ l, i.reference? = some l → d.offset? l ≠ none := by
  constructor
  · rintro ⟨j, hj⟩ l hl hnone
    cases hj.symm.trans (resolveInstruction_eq_error_iff.mpr ⟨l, hl, hnone, rfl⟩)
  · intro h
    cases hi : d.resolveInstruction i with
    | ok j => exact ⟨j, rfl⟩
    | error f =>
        obtain ⟨l, hl, hnone, -⟩ := resolveInstruction_eq_error_iff.mp hi
        exact absurd hnone (h l hl)

/-- **Where code cannot be finished.**  It is at the first instruction that names a label without an
offset. -/
theorem finish_eq_error_iff : d.finish = .error f ↔
    ∃ (n : Nat) (i : Instruction) (l : Label), d.chunk.instructions[n]? = some i ∧
      i.reference? = some l ∧ d.offset? l = none ∧ f = .unmarkedLabel l.id ∧
      ∀ m < n, ∀ j, d.chunk.instructions[m]? = some j → ∀ k, j.reference? = some k → d.offset? k ≠ none := by
  have hfinish : d.finish = .error f ↔
      d.chunk.instructions.toList.mapM d.resolveInstruction = .error f := by
    rw [finish_eq]
    cases d.chunk.instructions.toList.mapM d.resolveInstruction <;> simp [Except.map]
  rw [hfinish, mapM_eq_error_iff]
  simp only [Array.getElem?_toList, resolveInstruction_eq_error_iff, resolveInstruction_ok_iff]
  constructor
  · rintro ⟨n, i, hi, ⟨l, hl, hnone, hf⟩, hbefore⟩
    exact ⟨n, i, l, hi, hl, hnone, hf, hbefore⟩
  · rintro ⟨n, i, l, hi, hl, hnone, hf, hbefore⟩
    exact ⟨n, i, hi, ⟨l, hl, hnone, hf⟩, hbefore⟩

/-- Code can be finished if all labels that it names have offsets. -/
theorem finish_ok_iff : (∃ c, d.finish = .ok c) ↔
    ∀ i ∈ d.chunk.instructions, ∀ l, i.reference? = some l → d.offset? l ≠ none := by
  constructor
  · rintro ⟨c, hc⟩ i hi
    obtain ⟨n, hn⟩ := Array.mem_iff_getElem?.mp hi
    obtain ⟨-, -, hget⟩ := finish_eq_ok hc
    obtain ⟨j, -, hj⟩ := hget hn
    exact resolveInstruction_ok_iff.mp ⟨j, hj⟩
  · intro h
    cases hfinish : d.finish with
    | ok c => exact ⟨c, rfl⟩
    | error f =>
        obtain ⟨n, i, l, hi, hl, hnone, -⟩ := finish_eq_error_iff.mp hfinish
        exact absurd hnone (h i (Array.mem_of_getElem? hi) l hl)

end Draft

end StackScript
