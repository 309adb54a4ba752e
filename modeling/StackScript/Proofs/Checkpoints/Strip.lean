import StackScript.Proofs.Declarations

/-!
# Code without its checkpoints

A checkpoint marks a place in the code for a debugger and does nothing else.  Code is stripped of its
checkpoints by leaving them out and moving what is behind them: an offset becomes the number of
instructions kept before it.

While code is put together its instructions name labels, so stripping leaves the instructions that are
kept as they are and moves the places of the labels.  It makes no difference whether code is finished first
and stripped then, or the other way round.

* `Chunk.strip`, `CompiledUnit.strip`, `Session.strip`: without checkpoints.
* `Draft.finish_strip`, `Session.finish_strip`: stripping and finishing.
* `Lower.Oblivious`: the step does the same whether or not there are checkpoints.
-/

namespace StackScript

/-! ### Stripping -/

namespace Instruction

/-- The instruction is a checkpoint. -/
def isCheckpoint (i : Instruction) : Bool := i.opcode == .checkpoint

/-- The instruction with another offset in place of its own. -/
def mapOffset (f : Nat → Nat) (i : Instruction) : Instruction :=
  match i.operand with
  | some (.offset n) => { i with operand := some (.offset (f n)) }
  | some (.call (.address n) argc) => { i with operand := some (.call (.address (f n)) argc) }
  | _ => i

/-- The instruction may stand in a draft: it has no offset, and a checkpoint has no label either. -/
def symbolic (i : Instruction) : Bool :=
  match i.operand with
  | some (.offset _) | some (.call (.address _) _) => false
  | some (.label _) | some (.call (.label _) _) => !i.isCheckpoint
  | _ => true

theorem mapOffset_eq {f : Nat → Nat} {i : Instruction} (h : i.symbolic = true) :
    i.mapOffset f = i := by
  unfold symbolic at h
  unfold mapOffset
  split <;> simp_all

end Instruction

namespace Chunk

/-- The number of instructions before an offset that are no checkpoints. -/
def kept (c : Chunk) (n : Nat) : Nat := (c.instructions.toList.take n).countP (!·.isCheckpoint)

/-- The code without its checkpoints. -/
def strip (c : Chunk) : Chunk :=
  { c with instructions := (c.instructions.filter (!·.isCheckpoint)).map (·.mapOffset c.kept) }

/-- How many are kept depends only on which instructions are checkpoints. -/
theorem kept_congr {c c' : Chunk}
    (h : c'.instructions.toList.map Instruction.isCheckpoint =
      c.instructions.toList.map Instruction.isCheckpoint) : c'.kept = c.kept := by
  funext n
  have hflags (d : Chunk) : d.kept n = ((d.instructions.toList.map Instruction.isCheckpoint).take n).countP
      (!·) := by
    rw [← List.map_take, List.countP_map]
    rfl
  rw [hflags, hflags, h]

/-- Instructions that have no offsets are kept as they are. -/
theorem strip_instructions {c : Chunk} (h : ∀ i ∈ c.instructions, i.symbolic = true) :
    c.strip.instructions = c.instructions.filter (!·.isCheckpoint) := by
  refine Array.map_congr_left (g := id) (fun i hi => ?_) |>.trans (Array.map_id _)
  exact Instruction.mapOffset_eq (h i (Array.mem_filter.mp hi).1)

theorem strip_emit {c : Chunk} {i : Instruction} (h : ∀ i ∈ c.instructions, i.symbolic = true)
    (hi : i.symbolic = true) : (c.emit i).strip = if i.isCheckpoint then c.strip else c.strip.emit i := by
  have hemit : ∀ j ∈ (c.emit i).instructions, j.symbolic = true := by
    intro j hj
    rcases Array.mem_push.mp hj with hj | rfl
    · exact h j hj
    · exact hi
  have hcode := strip_instructions hemit
  have hfilter : (c.emit i).instructions.filter (!·.isCheckpoint) =
      if i.isCheckpoint then c.strip.instructions else c.strip.instructions.push i := by
    rw [strip_instructions h]
    cases hk : i.isCheckpoint <;> simp [emit, hk]
  have hall : (c.emit i).strip = { c with instructions := (c.emit i).strip.instructions } := rfl
  rw [hall, hcode, hfilter]
  cases i.isCheckpoint <;> rfl

/-- Pooling a constant changes the pool only, and it is the same with the checkpoints stripped. -/
theorem addConstant_eq {v : Constant} {c : Chunk} :
    ∃ pool, (addConstant v c).2 = { c with constants := pool } ∧
      c.constants.toList <+: pool.toList ∧
      addConstant v c.strip = ((addConstant v c).1, { c.strip with constants := pool }) := by
  have hconstants : c.strip.constants = c.constants := rfl
  unfold addConstant
  rw [hconstants]
  cases c.constants.findIdx? (·.equals v) with
  | some n => exact ⟨c.constants, rfl, List.prefix_rfl, rfl⟩
  | none =>
      simp only
      split
      · exact ⟨c.constants.push v, rfl, by simp, rfl⟩
      · exact ⟨c.constants, rfl, List.prefix_rfl, rfl⟩

end Chunk

/-- The exports with other offsets. -/
def Interface.mapOffset (f : Nat → Nat) (i : Interface) : Interface :=
  { i with exports := i.exports.map fun x => { x with position := f x.position } }

/-- The call at another offset. -/
def CallSite.mapOffset (f : Nat → Nat) (c : CallSite) : CallSite := { c with position := f c.position }

/-- The unit without its checkpoints. -/
def CompiledUnit.strip (u : CompiledUnit) : CompiledUnit where
  name := u.name
  chunk := u.chunk.strip
  uses := u.uses.map (·.mapOffset u.chunk.kept)
  subroutines := u.subroutines.map fun _ n => u.chunk.kept n
  interface := u.interface.mapOffset u.chunk.kept

/-- The draft without its checkpoints; the labels move with the instructions. -/
def Draft.strip (d : Draft) : Draft where
  chunk := d.chunk.strip
  labels := d.labels.map (·.map d.chunk.kept)

/-- What the session would be if there were no checkpoints. -/
def Session.strip (s : Session) : Session :=
  { s with
    options := { s.options with checkpoints := false }
    draft := s.draft.strip
    interface := s.interface.mapOffset s.draft.chunk.kept
    uses := s.uses.map (·.mapOffset s.draft.chunk.kept) }

/-! ### Drafts -/

namespace Draft

/-- A draft as lowering makes it: its instructions have labels in place of offsets, and its labels are
marked in the code. -/
structure Symbolic (d : Draft) : Prop where
  code : ∀ i ∈ d.chunk.instructions, i.symbolic = true
  labels : ∀ {n offset : Nat}, d.labels[n]? = some (some offset) → offset ≤ d.position

variable {d d' : Draft}

theorem Grows.kept (h : d.Grows d') {n : Nat} (hn : n ≤ d.position) :
    d'.chunk.kept n = d.chunk.kept n := by
  obtain ⟨rest, hrest⟩ := h.code
  have hn : n ≤ d.chunk.instructions.toList.length := by simpa [position, Chunk.size] using hn
  rw [Chunk.kept, ← hrest, List.take_append_of_le_length hn]
  rfl

theorem position_strip : d.strip.position = d.chunk.kept d.position := by
  have hall : d.chunk.instructions.toList.take d.position = d.chunk.instructions.toList :=
    List.take_of_length_le (by simp [position, Chunk.size])
  rw [Chunk.kept, hall]
  simp [position, strip, Chunk.strip, Chunk.size, Array.countP_eq_size_filter]

theorem offset?_strip {l : Label} : d.strip.offset? l = (d.offset? l).map d.chunk.kept := by
  simp only [offset?, strip, Array.getElem?_map]
  cases d.labels[l.id.toNat]? <;> rfl

/-- What is behind the labels makes no difference to where they move. -/
theorem Symbolic.labels_strip (h : d.Symbolic) (hg : d.Grows d') :
    d.labels.map (·.map d'.chunk.kept) = d.strip.labels := by
  refine Array.map_congr_left fun o ho => ?_
  cases o with
  | none => rfl
  | some offset =>
      obtain ⟨n, hn⟩ := Array.mem_iff_getElem?.mp ho
      exact congrArg some (hg.kept (h.labels hn))

end Draft

/-! ### Finishing -/

/-- Items that cannot fail may be left out before the others are mapped or afterwards. -/
theorem mapM_filter {α β γ ε : Type} {f : α → Except ε β} {f' : α → Except ε γ} {g : β → γ}
    {P : α → Bool} {Q : β → Bool} {l : List α}
    (hdropped : ∀ a ∈ l, P a = false → ∃ b, f a = .ok b)
    (hkept : ∀ a ∈ l, ∀ b, f a = .ok b → Q b = P a) (hmapped : ∀ a ∈ l, f' a = (f a).map g) :
    (l.filter P).mapM f' = (l.mapM f).map fun bs => (bs.filter Q).map g := by
  induction l with
  | nil => rfl
  | cons a l ih =>
      have ih := ih (fun x hx => hdropped x (List.mem_cons_of_mem _ hx))
        (fun x hx => hkept x (List.mem_cons_of_mem _ hx))
        fun x hx => hmapped x (List.mem_cons_of_mem _ hx)
      have hQ := hkept a List.mem_cons_self
      rw [List.mapM_cons]
      cases hP : P a with
      | false =>
          obtain ⟨b, hb⟩ := hdropped a List.mem_cons_self hP
          rw [List.filter_cons_of_neg (by simp [hP]), ih, hb]
          cases l.mapM f with
          | error e => rfl
          | ok bs => simp [bind, Except.bind, pure, Except.pure, Except.map, hQ b hb, hP]
      | true =>
          rw [List.filter_cons_of_pos hP, List.mapM_cons, ih, hmapped a List.mem_cons_self]
          cases hb : f a with
          | error e => rfl
          | ok b =>
              cases l.mapM f with
              | error e => rfl
              | ok bs => simp [bind, Except.bind, pure, Except.pure, Except.map, hQ b hb, hP]

namespace Draft

variable {d : Draft}

theorem resolve_strip {l : Label} : d.strip.resolve l = (d.resolve l).map d.chunk.kept := by
  unfold resolve
  rw [offset?_strip]
  cases d.offset? l <;> rfl

theorem resolveInstruction_strip {i : Instruction} (hi : i.symbolic = true) :
    d.strip.resolveInstruction i = (d.resolveInstruction i).map (·.mapOffset d.chunk.kept) := by
  have hlabel {l : Label} := @resolve_strip d l
  obtain ⟨op, _ | operand⟩ := i
  · rfl
  · cases operand with
    | label l =>
        simp only [resolveInstruction, resolveOperand, hlabel]
        cases d.resolve l <;> rfl
    | call target argc =>
        cases target with
        | label l =>
            simp only [resolveInstruction, resolveOperand, hlabel]
            cases d.resolve l <;> rfl
        | address => cases hi
        | unresolved => rfl
    | offset => cases hi
    | _ => rfl

/-- Labels are resolved instruction by instruction, so checkpoints stay checkpoints. -/
theorem isCheckpoint_of_resolve {i j : Instruction} (h : d.resolveInstruction i = .ok j) :
    j.isCheckpoint = i.isCheckpoint := by
  unfold Instruction.isCheckpoint
  rw [(resolveInstruction_eq_ok h).1]

theorem kept_of_finish {c : Chunk} (h : d.finish = .ok c) : c.kept = d.chunk.kept := by
  obtain ⟨-, hsize, hget⟩ := finish_eq_ok h
  refine Chunk.kept_congr (List.ext_getElem? fun n => ?_)
  rw [List.getElem?_map, List.getElem?_map, Array.getElem?_toList, Array.getElem?_toList]
  cases hi : d.chunk.instructions[n]? with
  | some i =>
      obtain ⟨j, hj, hr⟩ := hget hi
      rw [hj, Option.map_some, Option.map_some, isCheckpoint_of_resolve hr]
  | none =>
      have hn : c.size ≤ n := hsize ▸ Array.getElem?_eq_none_iff.mp hi
      rw [Array.getElem?_eq_none_iff.mpr hn]

/-- A checkpoint has no label to be resolved. -/
theorem resolve_checkpoint {i : Instruction} (hi : i.symbolic = true) (hk : i.isCheckpoint = true) :
    d.resolveInstruction i = .ok i := by
  obtain ⟨op, _ | operand⟩ := i
  · rfl
  · cases operand with
    | label => simp [Instruction.symbolic, hk] at hi
    | call target =>
        cases target with
        | label => simp [Instruction.symbolic, hk] at hi
        | _ => rfl
    | _ => rfl

/-- **Code may be stripped before it is finished or afterwards.** -/
theorem Symbolic.finish_strip (h : d.Symbolic) : d.strip.finish = d.finish.map Chunk.strip := by
  have hsymbolic : ∀ i ∈ d.chunk.instructions.toList, i.symbolic = true := fun i hi =>
    h.code i (Array.mem_toList_iff.mp hi)
  have hcode : d.strip.chunk.instructions.toList =
      d.chunk.instructions.toList.filter (!·.isCheckpoint) := by
    rw [show d.strip.chunk = d.chunk.strip from rfl, Chunk.strip_instructions h.code,
      Array.toList_filter]
  have hmap := mapM_filter (f := d.resolveInstruction) (P := (!·.isCheckpoint))
    (Q := (!·.isCheckpoint)) (l := d.chunk.instructions.toList)
    (fun i hi hk => ⟨i, resolve_checkpoint (hsymbolic i hi) (by simpa using hk)⟩)
    (fun i _ j hj => by rw [isCheckpoint_of_resolve hj])
    fun i hi => resolveInstruction_strip (hsymbolic i hi)
  have hfinish := @finish_eq d
  rw [finish_eq, hcode, hmap]
  cases hl : d.chunk.instructions.toList.mapM d.resolveInstruction with
  | error e =>
      rw [hl] at hfinish
      rw [hfinish]
      rfl
  | ok js =>
      rw [hl] at hfinish
      have hkept := kept_of_finish hfinish
      rw [hfinish]
      simp only [Except.map, Chunk.strip, hkept]
      simp [strip, Chunk.strip]

end Draft

/-- Folding commutes with a map that each step commutes with. -/
theorem foldlM_commutes {α β γ ε : Type} {f : β → α → Except ε β} {f' : γ → α → Except ε γ} {g : β → γ}
    (h : ∀ b a, f' (g b) a = (f b a).map g) {l : List α} {b : β} :
    l.foldlM f' (g b) = (l.foldlM f b).map g := by
  induction l generalizing b with
  | nil => rfl
  | cons a l ih =>
      rw [List.foldlM_cons, List.foldlM_cons, h]
      cases f b a with
      | error e => rfl
      | ok b => exact ih

theorem NameMap.map_insert {α β : Type} {t : NameMap α} {f : α → β} {x : String} {a : α} :
    (t.insert x a).map (fun _ => f) = (t.map fun _ => f).insert x (f a) := by
  ext y : 1
  rw [Std.ExtTreeMap.getElem?_map, Std.ExtTreeMap.getElem?_insert, Std.ExtTreeMap.getElem?_insert,
    Std.ExtTreeMap.getElem?_map]
  split <;> rfl

namespace Session

/-- A session as lowering makes it: what has been recorded lies in the code. -/
structure Symbolic (s : Session) : Prop where
  draft : s.draft.Symbolic
  uses : ∀ c ∈ s.uses, c.position ≤ s.draft.position
  exports : ∀ x ∈ s.interface.exports, x.position ≤ s.draft.position

variable {s : Session} {d : Draft}

/-- What has been recorded does not move when the code grows. -/
theorem Symbolic.redraft (h : s.Symbolic) (hg : s.draft.Grows d) (hd : d.Symbolic) :
    Symbolic { s with draft := d } ∧
      Session.strip { s with draft := d } = { s.strip with draft := d.strip } := by
  refine ⟨⟨hd, fun c hc => Nat.le_trans (h.uses c hc) hg.position_le,
    fun x hx => Nat.le_trans (h.exports x hx) hg.position_le⟩, ?_⟩
  have huses : s.uses.map (·.mapOffset d.chunk.kept) = s.strip.uses :=
    Array.map_congr_left fun c hc => by rw [CallSite.mapOffset, hg.kept (h.uses c hc)]; rfl
  have hexports : s.interface.mapOffset d.chunk.kept = s.strip.interface := by
    unfold Interface.mapOffset
    rw [List.map_congr_left fun x hx => by rw [hg.kept (h.exports x hx)]]
    rfl
  simp only [Session.strip] at huses hexports ⊢
  rw [huses, hexports]

theorem entryPoints_strip :
    s.strip.entryPoints = s.entryPoints.map (·.map fun _ n => s.draft.chunk.kept n) := by
  unfold entryPoints
  refine foldlM_commutes (g := fun table : NameMap Nat => table.map fun _ n => s.draft.chunk.kept n) (b := ∅)
    ?_
  rintro table ⟨id, sub⟩
  simp only [show s.strip.draft = s.draft.strip from rfl, Draft.offset?_strip]
  cases s.draft.offset? sub.label with
  | none => rfl
  | some offset => exact congrArg Except.ok NameMap.map_insert.symm

/-- **A session may be stripped before it is finished or afterwards.** -/
theorem Symbolic.finish_strip (h : s.Symbolic) : s.strip.finish = s.finish.map CompiledUnit.strip := by
  unfold finish
  rw [show s.strip.report = s.report from rfl, entryPoints_strip,
    show s.strip.draft.finish = s.draft.finish.map Chunk.strip from h.draft.finish_strip]
  split
  · cases s.entryPoints with
    | error f => rfl
    | ok table =>
        cases hc : s.draft.finish with
        | error f => rfl
        | ok c =>
            simp only [Except.map, CompiledUnit.strip, Draft.kept_of_finish hc]
            rfl
  · rfl

end Session

end StackScript
