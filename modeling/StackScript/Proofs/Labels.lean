import StackScript.Proofs.Faults.Steps

/-!
# Labels and the history of a draft

Code in the making is changed in any order: labels are created and marked, instructions are emitted and
put in the place of others.  The history of a draft has the labels that were created (`Draft.created`), and
the labels that were marked, each with the offset that the next instruction had then (`Draft.marked`).  As
long as no label number is used twice, the table of labels agrees with the history, and finished code has
the offsets of the history in place of the labels.

* `DraftOp.perform_cases`: what one operation does to the labels.
* `Draft.offset?_after`: the labels are where they were marked.
* `Draft.created_numbers`: the labels are numbered in the order in which they are created.
* `labels_resolved`: finishing code resolves its labels by the history.
-/

namespace StackScript

/-! ### Operations -/

/-- An operation on code in the making. -/
inductive DraftOp where
  | newLabel
  | newMarkedLabel
  | mark (l : Label)
  | emit (i : Instruction)
  | constant (v : Constant)
  | replace (offset : Nat) (i : Instruction)

namespace DraftOp

/-- Performs the operation.  It yields a label if it creates one. -/
def perform : DraftOp → Step Draft (Option Label)
  | .newLabel => fun d => (.ok (some d.newLabel.1), d.newLabel.2)
  | .newMarkedLabel => fun d => (.ok (some d.newMarkedLabel.1), d.newMarkedLabel.2)
  | .mark l => do
    Draft.mark l
    return none
  | .emit i => do
    Step.update (·.emit i)
    return none
  | .constant v => do
    Draft.emitConstant v
    return none
  | .replace offset i => do
    let _ ← Draft.replace offset i
    return none

/-- The label that the operation creates. -/
def created? (d : Draft) (op : DraftOp) : Option Label := (op.perform d).1.toOption.join

/-- The label that the operation marks, if it is not refused. -/
def marked? (d : Draft) : DraftOp → Option Label
  | .newMarkedLabel => some d.newMarkedLabel.1
  | .mark l => (Draft.mark l d).1.toOption.map fun _ => l
  | _ => none

end DraftOp

namespace Draft

/-- What the operations make of the draft, whether or not they fail. -/
def after (d : Draft) (ops : List DraftOp) : Draft := ops.foldl (fun d op => (op.perform d).2) d

/-- The labels that the operations create, one after the other. -/
def created (d : Draft) : List DraftOp → List Label
  | [] => []
  | op :: ops => (op.created? d).toList ++ created (op.perform d).2 ops

/-- The labels that the operations mark, each with the offset that the next instruction has then. -/
def marked (d : Draft) : List DraftOp → List (Label × Nat)
  | [] => []
  | op :: ops => (op.marked? d).toList.map (·, d.position) ++ marked (op.perform d).2 ops

end Draft

/-! ### What one operation does -/

namespace Draft

variable {d : Draft} {l : Label}

/-- A label that is open gets the position as its place. -/
theorem mark_of_isOpen (h : d.IsOpen l) :
    mark l d = (.ok (), { d with labels := d.labels.setIfInBounds l.id.toNat (some d.position) }) := by
  unfold IsOpen at h
  rw [mark, h]

/-- Any other label is refused. -/
theorem mark_of_not_isOpen (h : ¬ d.IsOpen l) : ∃ f, mark l d = (.error f, d) := by
  unfold mark
  split
  · rename_i hopen
    exact absurd hopen h
  · exact ⟨_, rfl⟩
  · exact ⟨_, rfl⟩

/-- A label is open if it has been created and has no offset. -/
theorem isOpen_iff : d.IsOpen l ↔ l.id.toNat < d.labels.size ∧ d.offset? l = none := by
  unfold IsOpen offset?
  cases hl : d.labels[l.id.toNat]? with
  | none =>
      have hle : d.labels.size ≤ l.id.toNat := Array.getElem?_eq_none_iff.mp hl
      simp [Nat.not_lt.mpr hle]
  | some o =>
      have hlt : l.id.toNat < d.labels.size := (Array.getElem?_eq_some_iff.mp hl).1
      simp [hlt]

/-- Exactly the open labels can be marked. -/
theorem mark_ok_iff : (mark l d).1 = .ok () ↔ d.IsOpen l := by
  constructor
  · intro hok
    refine Classical.byContradiction fun hopen => ?_
    obtain ⟨f, hf⟩ := mark_of_not_isOpen hopen
    rw [hf] at hok
    cases hok
  · intro hopen
    rw [mark_of_isOpen hopen]

theorem labels_emitConstant {v : Constant} : (emitConstant v d).2.labels = d.labels := by
  unfold emitConstant
  split <;> rfl

theorem labels_replace {offset : Nat} {i : Instruction} : (replace offset i d).2.labels = d.labels := by
  unfold replace
  split <;> rfl

end Draft

namespace DraftOp

variable {op : DraftOp} {d : Draft} {l : Label} {p : Nat}

/-- A step that yields no label creates none, whether or not it fails. -/
theorem created?_bind {α : Type} {x : Step Draft α} {d : Draft} :
    ((x >>= fun _ => (return none : Step Draft (Option Label))) d).1.toOption.join = none ∧
      ((x >>= fun _ => (return none : Step Draft (Option Label))) d).2 = (x d).2 := by
  show (Step.bind x _ d).1.toOption.join = none ∧ (Step.bind x _ d).2 = (x d).2
  unfold Step.bind
  rcases x d with ⟨_ | _, d'⟩ <;> exact ⟨rfl, rfl⟩

/-- **What an operation does to the labels.**  It creates one, which it may mark; it marks one that is
there and not marked; or it leaves the labels as they are. -/
theorem perform_cases (op : DraftOp) (d : Draft) :
    (op.created? d = some d.nextLabel ∧ ∃ o : Option Nat, (∀ p ∈ o, p = d.position) ∧
        op.marked? d = o.map (fun _ => d.nextLabel) ∧ (op.perform d).2.labels = d.labels.push o) ∨
      (op.created? d = none ∧ ∃ l, op.marked? d = some l ∧ d.IsOpen l ∧
        (op.perform d).2.labels = d.labels.setIfInBounds l.id.toNat (some d.position)) ∨
      (op.created? d = none ∧ op.marked? d = none ∧ (op.perform d).2.labels = d.labels) := by
  cases op with
  | newLabel => exact .inl ⟨rfl, none, by simp, rfl, rfl⟩
  | newMarkedLabel => exact .inl ⟨rfl, some d.position, by simp, rfl, rfl⟩
  | mark l =>
      obtain ⟨hcreated, hafter⟩ := @created?_bind _ (Draft.mark l) d
      by_cases hopen : d.IsOpen l
      · have hmark := Draft.mark_of_isOpen hopen
        refine .inr (.inl ⟨hcreated, l, ?_, hopen, ?_⟩)
        · rw [marked?, hmark]
          rfl
        · rw [perform, hafter, hmark]
      · obtain ⟨f, hmark⟩ := Draft.mark_of_not_isOpen hopen
        refine .inr (.inr ⟨hcreated, ?_, ?_⟩)
        · rw [marked?, hmark]
          rfl
        · rw [perform, hafter, hmark]
  | emit i => exact .inr (.inr ⟨rfl, rfl, rfl⟩)
  | constant v =>
      obtain ⟨hcreated, hafter⟩ := @created?_bind _ (Draft.emitConstant v) d
      exact .inr (.inr ⟨hcreated, rfl, by rw [perform, hafter, Draft.labels_emitConstant]⟩)
  | replace offset i =>
      obtain ⟨hcreated, hafter⟩ := @created?_bind _ (Draft.replace offset i) d
      exact .inr (.inr ⟨hcreated, rfl, by rw [perform, hafter, Draft.labels_replace]⟩)

/-- The table of labels has one entry more for a label that is created. -/
theorem size_perform : (op.perform d).2.labels.size = d.labels.size + (op.created? d).toList.length := by
  rcases op.perform_cases d with ⟨hcreated, o, -, -, heq⟩ | ⟨hcreated, l, -, -, heq⟩ | ⟨hcreated, -, heq⟩ <;>
    simp [hcreated, heq]

/-- **Where a label is after an operation.**  It is where it was, or it is marked by the operation and is
where the code has come to. -/
theorem offset?_perform (hfew : (op.perform d).2.labels.size ≤ UInt32.size) :
    (op.perform d).2.offset? l = some p ↔
      d.offset? l = some p ∨ (op.marked? d = some l ∧ d.position = p) := by
  simp only [Draft.offset?, Option.join_eq_some_iff]
  rcases op.perform_cases d with ⟨-, o, ho, hmarked, heq⟩ | ⟨-, k, hmarked, hopen, heq⟩ | ⟨-, hmarked, heq⟩
  · rw [heq, Array.size_push] at hfew
    have hnext : d.nextLabel = l ↔ l.id.toNat = d.labels.size := by
      have hid := Draft.nextLabel_toNat hfew
      exact ⟨fun h => h ▸ hid, fun h => Label.ext_toNat (hid.trans h.symm)⟩
    rw [heq, hmarked, Array.getElem?_push]
    cases o with
    | none => grind
    | some m =>
        obtain rfl : m = d.position := ho m rfl
        simp only [Option.map_some, Option.some.injEq, hnext]
        split
        · rename_i hid
          simp [hid]
        · rename_i hid
          simp [hid]
  · rw [heq, hmarked, Array.getElem?_setIfInBounds]
    have hlt : k.id.toNat < d.labels.size := hopen.lt
    have hsame : k = l ↔ k.id.toNat = l.id.toNat := ⟨fun h => h ▸ rfl, Label.ext_toNat⟩
    simp only [Option.some.injEq, hsame]
    split
    · rename_i hid
      rw [Draft.IsOpen, hid] at hopen
      rw [hopen]
      simp [hid]
    · rename_i hid
      simp [hid]
  · simp [heq, hmarked]

end DraftOp

/-! ### What a sequence of operations does -/

namespace Draft

variable {d : Draft} {ops : List DraftOp} {l : Label}

/-- What two sequences create, one after the other. -/
theorem created_append {ops' : List DraftOp} :
    created d (ops ++ ops') = created d ops ++ created (d.after ops) ops' := by
  induction ops generalizing d with
  | nil => rfl
  | cons op ops ih =>
      rw [List.cons_append, created, created, ih, List.append_assoc]
      rfl

theorem marked_append {ops' : List DraftOp} :
    marked d (ops ++ ops') = marked d ops ++ marked (d.after ops) ops' := by
  induction ops generalizing d with
  | nil => rfl
  | cons op ops ih =>
      rw [List.cons_append, marked, marked, ih, List.append_assoc]
      rfl

/-- There are as many labels more as have been created. -/
theorem size_after : (d.after ops).labels.size = d.labels.size + (created d ops).length := by
  induction ops generalizing d with
  | nil => rfl
  | cons op ops ih =>
      rw [created, List.length_append, ← Nat.add_assoc, ← DraftOp.size_perform]
      exact ih

/-- **The labels are where they were marked.** -/
theorem offset?_after {p : Nat} (hfew : d.labels.size + (created d ops).length ≤ UInt32.size) :
    (d.after ops).offset? l = some p ↔ d.offset? l = some p ∨ (l, p) ∈ marked d ops := by
  induction ops generalizing d with
  | nil => simp [after, marked]
  | cons op ops ih =>
      rw [created, List.length_append, ← Nat.add_assoc, ← DraftOp.size_perform] at hfew
      have hfirst := @DraftOp.offset?_perform op d l p (Nat.le_trans (Nat.le_add_right _ _) hfew)
      have hmarked : (l, p) ∈ (op.marked? d).toList.map (·, d.position) ↔
          op.marked? d = some l ∧ d.position = p := by
        cases op.marked? d <;> simp [eq_comm]
      show ((op.perform d).2.after ops).offset? l = some p ↔ _
      rw [ih hfew, hfirst, marked, List.mem_append, hmarked, or_assoc]

/-- **Labels are numbered in the order in which they are created.** -/
theorem created_numbers (hfew : d.labels.size + (created d ops).length ≤ UInt32.size) :
    (created d ops).map (·.id.toNat) = List.range' d.labels.size (created d ops).length := by
  induction ops generalizing d with
  | nil => rfl
  | cons op ops ih =>
      rw [created, List.length_append, ← Nat.add_assoc, ← DraftOp.size_perform] at hfew
      have hfirst : (op.created? d).toList.map (·.id.toNat) =
          List.range' d.labels.size (op.created? d).toList.length := by
        rcases op.perform_cases d with ⟨hcreated, o, -, -, heq⟩ | ⟨hcreated, -⟩ | ⟨hcreated, -⟩
        · rw [heq, Array.size_push] at hfew
          have hlt : d.labels.size < UInt32.size := by omega
          rw [hcreated]
          exact congrArg (fun n => [n]) (nextLabel_toNat hlt)
        · rw [hcreated]
          rfl
        · rw [hcreated]
          rfl
      rw [created, List.map_append, List.length_append, ih hfew, hfirst, DraftOp.size_perform,
        List.range'_append_1]

/-! ### Drafts that were empty -/

section Empty

/-- A part of the operations creates no more labels than all of them. -/
theorem created_length_le {before rest : List DraftOp}
    (hfew : (created {} (before ++ rest)).length ≤ UInt32.size) :
    (created {} before).length ≤ UInt32.size := by
  rw [created_append, List.length_append] at hfew
  omega

variable (hfew : (created {} ops).length ≤ UInt32.size)

include hfew

/-- The labels are numbered from zero on. -/
theorem created_map_toNat : (created {} ops).map (·.id.toNat) = List.range (created {} ops).length := by
  rw [List.range_eq_range']
  exact created_numbers (by simpa using hfew)

/-- No label is created twice. -/
theorem created_nodup : (created {} ops).Nodup := by
  have hnumbers : ((created {} ops).map (·.id.toNat)).Nodup := created_map_toNat hfew ▸ List.nodup_range
  exact (List.pairwise_map.mp hnumbers).imp fun hne heq => hne (congrArg (·.id.toNat) heq)

/-- A label has been created if there are that many. -/
theorem mem_created : l ∈ created {} ops ↔ l.id.toNat < (after {} ops).labels.size := by
  have hsize : (after {} ops).labels.size = (created {} ops).length := by simp [size_after]
  rw [hsize, ← List.mem_range, ← created_map_toNat hfew, List.mem_map]
  constructor
  · intro h
    exact ⟨l, h, rfl⟩
  · rintro ⟨l', h, hid⟩
    exact Label.ext_toNat hid ▸ h

/-- A label has the offset at which it was marked. -/
theorem offset?_eq_some_iff {n : Nat} : (after {} ops).offset? l = some n ↔ (l, n) ∈ marked {} ops := by
  rw [offset?_after (by simpa using hfew)]
  simp [offset?]

/-- A label has no offset if it was not marked. -/
theorem offset?_eq_none_iff : (after {} ops).offset? l = none ↔ ∀ n, (l, n) ∉ marked {} ops := by
  simp only [← offset?_eq_some_iff hfew, Option.eq_none_iff_forall_ne_some, ne_eq]

theorem offset?_ne_none_iff : (after {} ops).offset? l ≠ none ↔ ∃ n, (l, n) ∈ marked {} ops := by
  simp only [← offset?_eq_some_iff hfew, Option.ne_none_iff_exists']

/-- Only labels that were created are marked. -/
theorem mem_created_of_marked {n : Nat} (h : (l, n) ∈ marked {} ops) : l ∈ created {} ops := by
  have hoffset := (offset?_eq_some_iff hfew).mpr h
  rw [offset?, Option.join_eq_some_iff] at hoffset
  exact (mem_created hfew).mpr (Array.getElem?_eq_some_iff.mp hoffset).1

end Empty

end Draft

/-! ### Resolving labels -/

namespace Instruction

/-- The instruction `j` is `i` with an offset in place of the label, and all else as it is. -/
inductive Resolved (place : Label → Nat → Prop) : Instruction → Instruction → Prop where
  | branch {op : Opcode} {l : Label} {n : Nat} (h : place l n) :
      Resolved place ⟨op, some (.label l)⟩ ⟨op, some (.offset n)⟩
  | call {op : Opcode} {l : Label} {argc : UInt8} {n : Nat} (h : place l n) :
      Resolved place ⟨op, some (.call (.label l) argc)⟩ ⟨op, some (.call (.address n) argc)⟩
  | plain {i : Instruction} (h : i.reference? = none) : Resolved place i i

/-- What holds of the offsets of labels may be replaced by what follows from it. -/
theorem Resolved.mono {P Q : Label → Nat → Prop} {i j : Instruction} (h : i.Resolved P j)
    (hPQ : ∀ l n, P l n → Q l n) : i.Resolved Q j := by
  cases h with
  | branch h => exact .branch (hPQ _ _ h)
  | call h => exact .call (hPQ _ _ h)
  | plain h => exact .plain h

end Instruction

namespace Draft

/-- An instruction that the draft can resolve is resolved by the offsets of the draft. -/
theorem resolved_of_resolveInstruction {d : Draft} {i j : Instruction}
    (h : d.resolveInstruction i = .ok j) :
    i.Resolved (fun l n => d.offset? l = some n) j := by
  obtain ⟨hop, hresolves⟩ := resolveInstruction_eq_ok h
  obtain ⟨op, operand⟩ := i
  obtain ⟨op', operand'⟩ := j
  obtain rfl : op' = op := hop
  unfold Resolves at hresolves
  split at hresolves
  · rename_i heq
    obtain ⟨n, hn, rfl⟩ := hresolves
    obtain rfl := heq
    exact .branch hn
  · rename_i heq
    obtain ⟨n, hn, rfl⟩ := hresolves
    obtain rfl := heq
    exact .call hn
  · rename_i hlabel hcall
    obtain rfl : operand' = operand := hresolves
    refine .plain ?_
    unfold Instruction.reference?
    split <;> simp_all

end Draft

/-- The fault names the label by its number. -/
theorem Fault.message_unmarkedLabel {id : UInt32} : (unmarkedLabel id).message =
    "internal compiler error: label L" ++ toString id.toNat ++ " was never marked" := by
  show "internal compiler error: " ++ ("label L" ++ toString id.toNat ++ " was never marked") = _
  rw [← String.append_assoc, ← String.append_assoc]
  rfl

open Draft

/-- **Labels are resolved exactly.**  Let any operations be performed on an empty draft, failing or not,
that create at most as many labels as there are label numbers.

* No label is created twice.
* A label can be marked exactly if it was created and not marked.
* At any time a label has the offset that the next instruction had when it was marked, and keeps it.
* The code can be finished exactly if every label in it was created and marked.
* Finished code has as many instructions, the same opcodes and constants; the offsets of labels stand in
  place of the labels, and all other operands are as they were.
* Otherwise the fault names the first label in the code that was not marked. -/
theorem labels_resolved {ops : List DraftOp} (hfew : (created {} ops).length ≤ UInt32.size) :
    (created {} ops).Nodup ∧
    (∀ before rest : List DraftOp, ops = before ++ rest → ∀ l : Label,
      ((mark l (after {} before)).1 = .ok () ↔
        l ∈ created {} before ∧ ∀ n, (l, n) ∉ marked {} before) ∧
      ∀ n, ((after {} before).offset? l = some n ↔ (l, n) ∈ marked {} before) ∧
        ((after {} before).offset? l = some n → (after {} ops).offset? l = some n)) ∧
    let d := after {} ops
    ((∃ c, d.finish = .ok c) ↔ ∀ i ∈ d.chunk.instructions, ∀ l, i.reference? = some l →
      l ∈ created {} ops ∧ ∃ n, (l, n) ∈ marked {} ops) ∧
    (∀ c, d.finish = .ok c → c.constants = d.chunk.constants ∧ c.size = d.chunk.size ∧
      ∀ (n : Nat) (i : Instruction), d.chunk.instructions[n]? = some i →
        ∃ j, c.instructions[n]? = some j ∧ i.Resolved (fun l m => (l, m) ∈ marked {} ops) j) ∧
    ∀ f, d.finish = .error f ↔ ∃ (n : Nat) (i : Instruction) (l : Label),
      d.chunk.instructions[n]? = some i ∧ i.reference? = some l ∧ (∀ m, (l, m) ∉ marked {} ops) ∧
      f = .unmarkedLabel l.id ∧
      f.message = "internal compiler error: label L" ++ toString l.id.toNat ++ " was never marked" ∧
      ∀ m < n, ∀ j, d.chunk.instructions[m]? = some j → ∀ k, j.reference? = some k →
        ∃ p, (k, p) ∈ marked {} ops := by
  refine ⟨created_nodup hfew, ?_, ?_, ?_, ?_⟩
  · rintro before rest rfl l
    have hbefore := created_length_le hfew
    refine ⟨?_, fun n => ⟨offset?_eq_some_iff hbefore, fun hn => ?_⟩⟩
    · rw [mark_ok_iff, isOpen_iff, mem_created hbefore, offset?_eq_none_iff hbefore]
    · rw [offset?_eq_some_iff hfew, marked_append]
      exact List.mem_append_left _ ((offset?_eq_some_iff hbefore).mp hn)
  -- A label that is marked was created, so that only the marks matter for finishing.
  · simp only [finish_ok_iff, offset?_ne_none_iff hfew]
    constructor
    · intro h i hi l hl
      obtain ⟨n, hn⟩ := h i hi l hl
      exact ⟨mem_created_of_marked hfew hn, n, hn⟩
    · intro h i hi l hl
      exact (h i hi l hl).2
  · intro c hc
    obtain ⟨hconstants, hsize, hget⟩ := finish_eq_ok hc
    refine ⟨hconstants, hsize, fun n i hi => ?_⟩
    obtain ⟨j, hj, hresolve⟩ := hget hi
    exact ⟨j, hj, (resolved_of_resolveInstruction hresolve).mono fun l m => (offset?_eq_some_iff hfew).mp⟩
  · intro f
    rw [finish_eq_error_iff]
    simp only [offset?_eq_none_iff hfew, offset?_ne_none_iff hfew]
    constructor
    · rintro ⟨n, i, l, hi, hl, hunmarked, rfl, hbefore⟩
      exact ⟨n, i, l, hi, hl, hunmarked, rfl, Fault.message_unmarkedLabel, hbefore⟩
    · rintro ⟨n, i, l, hi, hl, hunmarked, hf, -, hbefore⟩
      exact ⟨n, i, l, hi, hl, hunmarked, hf, hbefore⟩

/-- Operations that name a label before it is marked, mark a label twice, and put another instruction in
the place of one whose label is never marked. -/
def patchingOps : List DraftOp :=
  [.newLabel, .emit (.jump ⟨0⟩), .newLabel, .emit (.jumpIfFalse ⟨1⟩), .newMarkedLabel,
    .constant (.str "x"), .emit (.call ⟨2⟩ 1), .mark ⟨0⟩, .mark ⟨0⟩, .emit (.bare .halt),
    .replace 1 (.jumpIfFalse ⟨2⟩)]

/-- The code can be finished, with the place of the third label as the address of the call.  Without the
last operation it cannot, because of the second label. -/
theorem labels_resolved_patching :
    (created {} patchingOps).length = 3 ∧ marked {} patchingOps = [(⟨2⟩, 2), (⟨0⟩, 4)] ∧
      (∃ c, (after {} patchingOps).finish = .ok c ∧
        c.instructions[3]? = some ⟨.call, some (.call (.address 2) 1)⟩) ∧
      (after {} patchingOps.dropLast).finish = .error (.unmarkedLabel 1) := by
  have hcreated : created {} patchingOps = [⟨0⟩, ⟨1⟩, ⟨2⟩] := by decide +kernel
  have hmarked : marked {} patchingOps = [(⟨2⟩, 2), (⟨0⟩, 4)] := by decide +kernel
  have hcode : (after {} patchingOps).chunk.instructions =
      #[.jump ⟨0⟩, .jumpIfFalse ⟨2⟩, .loadConst 0, .call ⟨2⟩ 1, .bare .halt] := by decide +kernel
  have hlength : (created {} patchingOps).length = 3 := congrArg List.length hcreated
  refine ⟨hlength, hmarked, ?_, ?_⟩
  · obtain ⟨-, -, hok, hresolved, -⟩ := @labels_resolved patchingOps (by rw [hlength]; decide)
    rw [hmarked] at hok hresolved
    obtain ⟨c, hc⟩ := hok.mpr fun i hi l hl => by
      rw [hcode] at hi
      rw [hcreated]
      simp only [List.mem_toArray, List.mem_cons, List.not_mem_nil, or_false] at hi
      rcases hi with rfl | rfl | rfl | rfl | rfl
      · obtain rfl : ⟨0⟩ = l := Option.some.inj hl
        exact ⟨by decide, 4, by decide⟩
      · obtain rfl : ⟨2⟩ = l := Option.some.inj hl
        exact ⟨by decide, 2, by decide⟩
      · cases hl
      · obtain rfl : ⟨2⟩ = l := Option.some.inj hl
        exact ⟨by decide, 2, by decide⟩
      · cases hl
    obtain ⟨-, -, hget⟩ := hresolved c hc
    obtain ⟨j, hj, hcall⟩ := hget 3 (.call ⟨2⟩ 1) (by rw [hcode]; rfl)
    refine ⟨c, hc, hj.trans (congrArg some ?_)⟩
    cases hcall with
    | @call _ _ _ n h =>
        obtain rfl : n = 2 := by simpa using h
        rfl
    | plain h => cases h
  · have hbefore : marked {} patchingOps.dropLast = [(⟨2⟩, 2), (⟨0⟩, 4)] := by decide +kernel
    obtain ⟨-, -, -, -, herror⟩ := @labels_resolved patchingOps.dropLast (by decide +kernel)
    rw [hbefore] at herror
    refine (herror _).mpr ⟨1, .jumpIfFalse ⟨1⟩, ⟨1⟩, by decide +kernel, rfl, by simp, rfl, by decide +kernel, ?_⟩
    intro m hm j hj l hl
    obtain rfl : m = 0 := Nat.lt_one_iff.mp hm
    obtain rfl : Instruction.jump ⟨0⟩ = j :=
      Option.some.inj (Eq.trans (by decide +kernel) hj)
    obtain rfl : ⟨0⟩ = l := Option.some.inj hl
    exact ⟨4, by decide⟩

end StackScript
