import StackScript.LinkedProgram
import StackScript.Proofs.Units

/-!
# Linking

A linked program is the code of its units one behind the other, and their constants one behind the
other.  Each instruction stands in it as in its unit, but that what it refers to has moved, and that a
call left open goes to the subroutine that its name means.

* `entryFirst?_eq_some`, `place_getElem?`: where the units are laid out.
* `Placed.patch_eq_ok`: each call left open is directed to what it means, and nothing else changes.
* `ExportTable.ofPlaced_offsets`: the exports of the program are those of its units.
* `link_relocates`: what linking does.
-/

namespace StackScript

/-! ### Layout -/

/-- The first unit of the name comes first, and the others stay in their order. -/
theorem entryFirst?_eq_some {entry : String} {us vs : List CompiledUnit}
    (h : entryFirst? entry us = some vs) :
    ∃ before first after, us = before ++ first :: after ∧ first.name = entry ∧
      (∀ u ∈ before, u.name ≠ entry) ∧ vs = first :: (before ++ after) := by
  induction us generalizing vs with
  | nil => cases h
  | cons u us ih =>
      unfold entryFirst? at h
      split at h
      · rename_i hu
        obtain rfl := Option.some.inj h
        exact ⟨[], u, us, rfl, by simpa using hu, by simp, rfl⟩
      · rename_i hu
        cases hrest : entryFirst? entry us with
        | none => simp [hrest] at h
        | some ws =>
            obtain ⟨before, first, after, rfl, hname, hbefore, rfl⟩ := ih hrest
            simp only [hrest] at h
            obtain rfl := Option.some.inj h
            refine ⟨u :: before, first, after, rfl, hname, ?_, rfl⟩
            intro v hv
            rcases List.mem_cons.mp hv with rfl | hv
            · simpa using hu
            · exact hbefore v hv

/-- The offset at which the unit of the given number begins. -/
def codeBase (us : List CompiledUnit) (k : Nat) : Nat := ((us.take k).map (·.chunk.size)).sum

/-- The index at which its constants begin. -/
def poolBase (us : List CompiledUnit) (k : Nat) : Nat :=
  ((us.take k).map (·.chunk.constants.size)).sum

/-- Each unit is placed behind the code and the pools of those before it. -/
theorem place_getElem? {us : List CompiledUnit} {b c k : Nat} :
    (place b c us)[k]? = us[k]?.map fun u => ⟨u, b + codeBase us k, c + poolBase us k⟩ := by
  induction us generalizing b c k with
  | nil => rfl
  | cons u us ih =>
      cases k with
      | zero => simp [place, codeBase, poolBase]
      | succ k =>
          rw [place, List.getElem?_cons_succ, ih, List.getElem?_cons_succ]
          simp [codeBase, poolBase, Chunk.size, Nat.add_assoc]

theorem map_unit_place {us : List CompiledUnit} {b c : Nat} : (place b c us).map (·.unit) = us := by
  induction us generalizing b c with
  | nil => rfl
  | cons u us ih => simp [place, ih]

/-- What stands in a list of lists put one behind the other. -/
theorem flatten_getElem? {α : Type} {L : List (List α)} {l : List α} {k j : Nat}
    (hk : L[k]? = some l) (hj : j < l.length) :
    L.flatten[((L.take k).map List.length).sum + j]? = l[j]? := by
  induction L generalizing k with
  | nil => simp at hk
  | cons m L ih =>
      cases k with
      | zero =>
          obtain rfl : m = l := by simpa using hk
          simp [List.getElem?_append_left hj]
      | succ k =>
          have := ih (k := k) (by simpa using hk)
          rw [List.take_succ_cons, List.map_cons, List.sum_cons, List.flatten_cons, Nat.add_assoc,
            List.getElem?_append_right (Nat.le_add_right _ _), Nat.add_sub_cancel_left, this]

/-- Every offset is in one of the units. -/
theorem exists_of_lt_size {us : List CompiledUnit} {n : Nat} (h : n < (us.map (·.chunk.size)).sum) :
    ∃ k u j, us[k]? = some u ∧ j < u.chunk.size ∧ n = codeBase us k + j := by
  induction us generalizing n with
  | nil => simp at h
  | cons u us ih =>
      rcases Nat.lt_or_ge n u.chunk.size with hn | hn
      · exact ⟨0, u, n, rfl, hn, by simp [codeBase]⟩
      · obtain ⟨k, v, j, hk, hj, heq⟩ := ih (n := n - u.chunk.size) (by
          rw [List.map_cons, List.sum_cons] at h
          omega)
        refine ⟨k + 1, v, j, by simpa using hk, hj, ?_⟩
        rw [codeBase, List.take_succ_cons, List.map_cons, List.sum_cons]
        rw [codeBase] at heq
        omega

/-! ### Relocation -/

namespace Placed

variable {p : Placed}

/-- An operand of the unit and how it stands in the program, calls left open apart. -/
def Moves (p : Placed) : Option Operand → Option Operand → Prop
  | some (.offset m), o => o = some (.offset (p.base + m))
  | some (.constant index), o =>
    ∃ index', o = some (.constant index') ∧ index'.toNat = p.constantBase + index.toNat
  | some (.call (.address t) argc), o => o = some (.call (.address (p.base + t)) argc)
  | operand, o => o = operand

/-- A relocated instruction has its operation and an operand moved to the place of the unit. -/
theorem relocateInstruction_eq_ok {i j : Instruction} (h : p.relocateInstruction i = .ok j) :
    j.opcode = i.opcode ∧ p.Moves i.operand j.operand := by
  obtain ⟨op, operand⟩ := i
  unfold relocateInstruction at h
  cases operand with
  | none =>
      obtain rfl := Except.ok.inj h
      exact ⟨rfl, rfl⟩
  | some operand =>
      simp only at h
      unfold relocateOperand at h
      split at h
      · obtain rfl := Except.ok.inj h
        exact ⟨rfl, rfl⟩
      · split at h
        · rename_i index hlt
          obtain rfl := Except.ok.inj h
          refine ⟨rfl, _, rfl, ?_⟩
          rw [Nat.add_comm p.constantBase]
          exact Nat.mod_eq_of_lt hlt
        · cases h
      · obtain rfl := Except.ok.inj h
        exact ⟨rfl, rfl⟩
      · rename_i h₁ h₂ h₃
        obtain rfl := Except.ok.inj h
        refine ⟨rfl, ?_⟩
        unfold Moves
        split <;> simp_all

/-- Only a call is redirected, and only its target changes. -/
theorem redirect?_eq_some {i j : Instruction} {t : Nat} (h : redirect? i t = some j) :
    ∃ target argc, i.operand = some (.call target argc) ∧
      j = ⟨i.opcode, some (.call (.address t) argc)⟩ := by
  unfold redirect? at h
  split at h
  · rename_i target argc heq
    exact ⟨target, argc, heq, (Option.some.inj h).symm⟩
  · cases h

/-- A call that is directed elsewhere stays a call, and no other instruction becomes one. -/
theorem call_of_redirected {code : Array Instruction} {m n : Nat} {op op' : Opcode}
    {target target' : CallTarget} {argc argc' : UInt8} {t : Nat}
    (hold : code[m]? = some ⟨op, some (.call target argc)⟩)
    (hnew : (code.setIfInBounds m ⟨op, some (.call (.address t) argc)⟩)[n]? =
      some ⟨op', some (.call target' argc')⟩) :
    ∃ target, code[n]? = some ⟨op', some (.call target argc')⟩ := by
  by_cases hn : n = m
  · subst hn
    have hlt : n < code.size := (Array.getElem?_eq_some_iff.mp hold).1
    simp only [Array.getElem?_setIfInBounds_self_of_lt hlt, Option.some.injEq, Instruction.mk.injEq,
      Operand.call.injEq] at hnew
    obtain ⟨rfl, -, rfl⟩ := hnew
    exact ⟨target, hold⟩
  · rw [Array.getElem?_setIfInBounds_ne (Ne.symm hn)] at hnew
    exact ⟨target', hnew⟩

/-- The calls among the given ones that mean nothing. -/
def unknown (p : Placed) (exports : NameMap Nat) (cs : List CallSite) : List LinkError :=
  (cs.filter fun c => (p.target? exports c.name).isNone).map fun c =>
    .unresolvedSubroutine p.unit.name c.name c.span

/-- **Each call is directed to what it means, and nothing else changes.**  The calls that mean nothing
are reported; of several calls in one place the last one counts. -/
theorem patch_eq_ok {exports : NameMap Nat} {cs : List CallSite} {code code' : Array Instruction}
    {errors errors' : List LinkError} (h : p.patch exports cs code errors = .ok (code', errors')) :
    errors' = errors ++ p.unknown exports cs ∧ code'.size = code.size ∧
      (∀ n, (∀ c ∈ cs, c.position ≠ n) → code'[n]? = code[n]?) ∧
      ∀ before c after t, cs = before ++ c :: after → p.target? exports c.name = some t →
        ∃ op target argc, code[c.position]? = some ⟨op, some (.call target argc)⟩ ∧
          ((∀ c' ∈ after, c'.position ≠ c.position) →
            code'[c.position]? = some ⟨op, some (.call (.address t) argc)⟩) := by
  induction cs generalizing code errors with
  | nil =>
      obtain ⟨rfl, rfl⟩ := Prod.mk.inj (Except.ok.inj h)
      exact ⟨by simp [unknown], rfl, fun _ _ => rfl, fun before c after t hcs => by simp at hcs⟩
  | cons c cs ih =>
      rw [patch] at h
      cases ht : p.target? exports c.name with
      | none =>
          simp only [ht] at h
          obtain ⟨rfl, hsize, hother, hcalls⟩ := ih h
          refine ⟨by simp [unknown, ht], hsize, fun n hn => hother n fun c' hc' => ?_, ?_⟩
          · exact hn c' (List.mem_cons_of_mem _ hc')
          · intro before c' after t hcs ht'
            cases before with
            | nil =>
                obtain ⟨rfl, -⟩ := List.cons.inj hcs
                simp [ht] at ht'
            | cons _ before => exact hcalls before c' after t (List.cons.inj hcs).2 ht'
      | some t =>
          simp only [ht] at h
          cases hi : code[c.position]? >>= (redirect? · t) with
          | none => simp [hi] at h
          | some i =>
              simp only [hi] at h
              obtain ⟨⟨op, operand⟩, hold, hredirect⟩ := Option.bind_eq_some_iff.mp hi
              obtain ⟨target, argc, rfl, rfl⟩ := redirect?_eq_some hredirect
              have hlt : c.position < code.size := (Array.getElem?_eq_some_iff.mp hold).1
              obtain ⟨rfl, hsize, hother, hcalls⟩ := ih h
              refine ⟨by simp [unknown, ht], by simpa using hsize, fun n hn => ?_, ?_⟩
              · rw [hother n fun c' hc' => hn c' (List.mem_cons_of_mem _ hc'),
                  Array.getElem?_setIfInBounds_ne (hn c List.mem_cons_self)]
              · intro before c' after t' hcs ht'
                cases before with
                | nil =>
                    obtain ⟨rfl, rfl⟩ := List.cons.inj hcs
                    obtain rfl := Option.some.inj (ht.symm.trans ht')
                    refine ⟨op, target, argc, hold, fun hafter => ?_⟩
                    rw [hother _ hafter, Array.getElem?_setIfInBounds_self_of_lt hlt]
                | cons _ before =>
                    -- The rest is patched in code where this call is redirected already, and a
                    -- later call may stand in the same place.
                    obtain ⟨op', target', argc', hold', hnew⟩ :=
                      hcalls before c' after t' (List.cons.inj hcs).2 ht'
                    obtain ⟨target'', hold''⟩ := call_of_redirected hold hold'
                    exact ⟨op', target'', argc', hold'', hnew⟩

/-- An instruction of the unit and how it stands in the program.  A call left open goes to the
subroutine that the name recorded for it means. -/
def Relocates (p : Placed) (exports : NameMap Nat) (j : Nat) (i i' : Instruction) : Prop :=
  i'.opcode = i.opcode ∧
    match i.operand with
    | some (.call .unresolved argc) => ∃ c ∈ p.unit.unresolved, c.position = j ∧
        ∃ t, p.target? exports c.name = some t ∧ i'.operand = some (.call (.address t) argc)
    | operand => p.Moves operand i'.operand

/-- What it takes to relocate a unit. -/
theorem relocate_eq_ok {exports : NameMap Nat} {code : Array Instruction} {errors : List LinkError}
    (h : p.relocate exports = .ok (code, errors)) :
    p.constantBase < UInt16.size ∧ ∃ moved : Array Instruction, moved.size = p.unit.chunk.size ∧
      (∀ {j : Nat} {i : Instruction}, p.unit.chunk.instructions[j]? = some i →
        ∃ i', moved[j]? = some i' ∧ p.relocateInstruction i = .ok i') ∧
      p.patch exports p.unit.unresolved moved [] = .ok (code, errors) := by
  unfold relocate at h
  split at h
  · rename_i hbase
    rw [Array.mapM_eq_mapM_toList] at h
    cases hl : p.unit.chunk.instructions.toList.mapM p.relocateInstruction with
    | error e => simp [hl, Functor.map, Except.map] at h
    | ok is =>
        simp only [hl, Functor.map, Except.map] at h
        obtain ⟨hlen, hget⟩ := mapM_eq_ok hl
        refine ⟨hbase, is.toArray, by simpa [Chunk.size] using hlen, fun {j i} hi => ?_, h⟩
        obtain ⟨i', hi', hr⟩ := hget (Array.getElem?_toList ▸ hi)
        exact ⟨i', by simpa using hi', hr⟩
  · cases h

/-- Relocating adds no instruction and takes none away. -/
theorem relocate_size {exports : NameMap Nat} {code : Array Instruction} {errors : List LinkError}
    (h : p.relocate exports = .ok (code, errors)) : code.size = p.unit.chunk.size := by
  obtain ⟨-, moved, hmoved, -, hpatch⟩ := relocate_eq_ok h
  obtain ⟨-, hsize, -⟩ := patch_eq_ok hpatch
  exact hsize.trans hmoved

/-- An instruction of a unit that lists its open calls stands in the code relocated, with the call resolved
if it was open. -/
theorem relocate_ok {exports : NameMap Nat} {code : Array Instruction} (hu : p.unit.Listed)
    (h : p.relocate exports = .ok (code, [])) {j : Nat} {i : Instruction}
    (hi : p.unit.chunk.instructions[j]? = some i) :
    ∃ i', code[j]? = some i' ∧ p.Relocates exports j i i' := by
  obtain ⟨-, moved, -, hget, hpatch⟩ := relocate_eq_ok h
  obtain ⟨hnone, -, hother, hcalls⟩ := patch_eq_ok hpatch
  obtain ⟨i', hi', hr⟩ := hget hi
  obtain ⟨hop, hmoves⟩ := relocateInstruction_eq_ok hr
  by_cases hj : ∃ c ∈ p.unit.unresolved, c.position = j
  · obtain ⟨c, hc, rfl⟩ := hj
    obtain ⟨argc, hcall⟩ := hu.unresolved c hc
    obtain rfl := Option.some.inj (hcall.symm.trans hi)
    -- The call means something, and no other call is in its place.
    obtain ⟨t, ht⟩ : ∃ t, p.target? exports c.name = some t := by
      have hnone : ∀ c ∈ p.unit.unresolved, ¬ p.target? exports c.name = none := by
        simpa [unknown] using hnone.symm
      exact Option.ne_none_iff_exists'.mp (hnone c hc)
    obtain ⟨before, after, hsplit⟩ := List.append_of_mem hc
    have hlast : ∀ c' ∈ after, c'.position ≠ c.position := by
      have honce := hu.once
      rw [hsplit] at honce
      intro c' hc'
      exact ((List.pairwise_cons.mp (List.pairwise_append.mp honce).2.1).1 c' hc').symm
    obtain ⟨op, target, argc', hold, hnew⟩ := hcalls before c after t hsplit ht
    obtain rfl := Option.some.inj (hold.symm.trans hi')
    refine ⟨_, hnew hlast, hop, c, hc, rfl, t, ht, ?_⟩
    obtain ⟨rfl, rfl⟩ : target = .unresolved ∧ argc' = argc := by
      simpa [Moves, Instruction.placeholderCall] using hmoves
    rfl
  · refine ⟨i', (hother j fun c hc hcj => hj ⟨c, hc, hcj⟩).trans hi', hop, ?_⟩
    split
    · rename_i argc heq
      exact absurd (hu.complete hi heq) hj
    · exact hmoves

end Placed

/-! ### Exports -/

namespace ExportTable

/-- The names that placed units export, with their offsets. -/
def entries (ps : List Placed) : List (String × Nat) :=
  ps.flatMap fun p => p.unit.interface.exports.map fun x => (x.name, p.base + x.position)

/-- A table without duplicates has each name that was added, at the offset it was added with. -/
def Lists (t : ExportTable) (es : List (String × Nat)) : Prop :=
  t.duplicates = [] → ∀ name o, t.offsets[name]? = some o ↔ (name, o) ∈ es

/-- An export is listed with its offset in the whole. -/
theorem Lists.add {t : ExportTable} {es : List (String × Nat)} {b : Nat} {x : Export}
    (h : t.Lists es) : (t.add b x).Lists (es ++ [(x.name, b + x.position)]) := by
  intro hnone name o
  obtain ⟨hnew, hbefore⟩ : x.name ∉ t.offsets ∧ t.duplicates = [] := by
    unfold ExportTable.add at hnone
    simp only at hnone
    split at hnone
    · simp at hnone
    · rename_i hc
      exact ⟨by simpa using hc, hnone⟩
  have h := h hbefore
  have hmem : (name, o) ∈ es ++ [(x.name, b + x.position)] ↔
      (name, o) ∈ es ∨ name = x.name ∧ o = b + x.position := by simp
  rw [hmem, ← h]
  show (t.offsets.insert x.name (b + x.position))[name]? = some o ↔ _
  rw [Std.ExtTreeMap.getElem?_insert]
  split
  · rename_i heq
    obtain rfl : x.name = name := by simpa using heq
    have hnone : t.offsets[x.name]? = none := by simpa using hnew
    simp [hnone, eq_comm]
  · rename_i hne
    have : name ≠ x.name := by
      rintro rfl
      simp at hne
    simp [this]

/-- What is kept as each export is added holds of the whole table. -/
theorem ofPlaced_rec {P : ExportTable → List (String × Nat) → Prop} (hempty : P {} [])
    (hadd : ∀ {t es} b (x : Export), P t es → P (t.add b x) (es ++ [(x.name, b + x.position)]))
    {ps : List Placed} : P (ofPlaced ps) (entries ps) := by
  have hall (b : Nat) : ∀ (xs : List Export) {t es}, P t es →
      P (xs.foldl (·.add b) t) (es ++ xs.map fun x => (x.name, b + x.position)) := by
    intro xs
    induction xs with
    | nil =>
        intro t es h
        simpa using h
    | cons x xs ih =>
        intro t es h
        simpa using ih (hadd b x h)
  have hunits : ∀ (ps : List Placed) {t es}, P t es → P (ps.foldl addUnit t) (es ++ entries ps) := by
    intro ps
    induction ps with
    | nil =>
        intro t es h
        simpa [entries] using h
    | cons p ps ih =>
        intro t es h
        simpa [entries] using ih (t := t.addUnit p) (hall p.base p.unit.interface.exports h)
  simpa [ofPlaced] using hunits ps hempty

/-- **The exports of placed units**, if no name is exported twice. -/
theorem ofPlaced_offsets {ps : List Placed} (h : (ofPlaced ps).duplicates = []) {name : String}
    {o : Nat} : (ofPlaced ps).offsets[name]? = some o ↔
      ∃ p ∈ ps, ∃ x ∈ p.unit.interface.exports, x.name = name ∧ o = p.base + x.position := by
  have hempty : Lists {} [] := fun _ name o => by simp
  have hlists : (ofPlaced ps).Lists (entries ps) := ofPlaced_rec hempty fun _ _ => Lists.add
  rw [hlists h name o]
  simp [entries, eq_comm]

end ExportTable

/-! ### The program -/

theorem toList_foldl_append {α β : Type} {f : α → Array β} {l : List α} {a : Array β} :
    (l.foldl (fun a x => a ++ f x) a).toList = a.toList ++ (l.map fun x => (f x).toList).flatten := by
  induction l generalizing a with
  | nil => simp
  | cons x l ih => simp [ih]

/-- The parts of a program that is linked. -/
theorem linkPlaced_eq_ok {ps : List Placed} {r : LinkedProgram} (h : linkPlaced ps = .ok r) :
    ∃ parts : List (Array Instruction × List LinkError),
      ps.mapM (·.relocate r.exports) = .ok parts ∧ (∀ part ∈ parts, part.2 = []) ∧
      r.chunk.instructions.toList = (parts.map (·.1.toList)).flatten ∧
      r.chunk.constants.toList = (ps.map (·.unit.chunk.constants.toList)).flatten ∧
      r.units = ps.map (fun p => (p.unit.name, p.base)) ∧
      r.exports = (ExportTable.ofPlaced ps).offsets ∧ (ExportTable.ofPlaced ps).duplicates = [] := by
  unfold linkPlaced at h
  simp only at h
  cases hparts : ps.mapM (·.relocate (ExportTable.ofPlaced ps).offsets) with
  | error f => simp [hparts] at h
  | ok parts =>
      simp only [hparts] at h
      split at h
      · rename_i hempty
        obtain rfl := Except.ok.inj h
        simp only [List.isEmpty_iff, List.append_eq_nil_iff, List.map_eq_nil_iff,
          List.flatMap_eq_nil_iff] at hempty
        refine ⟨parts, hparts, hempty.2, ?_, ?_, rfl, rfl, hempty.1.1⟩
        · simp [toList_foldl_append]
        · simp [toList_foldl_append]
      · cases h

/-- The operand waits to be resolved. -/
def Operand.isOpen : Operand → Bool
  | .label _ | .call (.label _) _ | .call .unresolved _ => true
  | _ => false

/-- The program is the units `us` in their order. -/
structure LinkedProgram.Joins (r : LinkedProgram) (us : List CompiledUnit) : Prop where
  units : ∀ k, r.units[k]? = us[k]?.map fun u => (u.name, codeBase us k)
  size : r.chunk.size = (us.map (·.chunk.size)).sum
  constants : r.chunk.constants.toList = (us.map (·.chunk.constants.toList)).flatten
  /-- Each instruction of a unit stands in the program, relocated. -/
  instruction : ∀ {k u j i}, us[k]? = some u → u.chunk.instructions[j]? = some i →
    ∃ i', r.chunk.instructions[codeBase us k + j]? = some i' ∧
      Placed.Relocates ⟨u, codeBase us k, poolBase us k⟩ r.exports j i i'
  exports : ∀ {name : String} {o}, r.exports[name]? = some o ↔ ∃ k u x, us[k]? = some u ∧
    x ∈ u.interface.exports ∧ x.name = name ∧ o = codeBase us k + x.position

theorem place_zero {us : List CompiledUnit} {k : Nat} : (place 0 0 us)[k]? =
    us[k]?.map fun u => ⟨u, codeBase us k, poolBase us k⟩ := by
  simpa using @place_getElem? us 0 0 k

/-- **The exports of units that are laid out in order**, if no name is exported twice. -/
theorem ofPlaced_place_offsets {us : List CompiledUnit} {name : String} {o : Nat}
    (h : (ExportTable.ofPlaced (place 0 0 us)).duplicates = []) :
    (ExportTable.ofPlaced (place 0 0 us)).offsets[name]? = some o ↔ ∃ k u x, us[k]? = some u ∧
      x ∈ u.interface.exports ∧ x.name = name ∧ o = codeBase us k + x.position := by
  rw [ExportTable.ofPlaced_offsets h]
  constructor
  · rintro ⟨p, hp, x, hx, hname, ho⟩
    obtain ⟨k, hk⟩ := List.mem_iff_getElem?.mp hp
    rw [place_zero] at hk
    obtain ⟨u, hu, rfl⟩ := Option.map_eq_some_iff.mp hk
    exact ⟨k, u, x, hu, hx, hname, ho⟩
  · rintro ⟨k, u, x, hk, hx, hname, ho⟩
    refine ⟨⟨u, codeBase us k, poolBase us k⟩, List.mem_iff_getElem?.mpr ⟨k, ?_⟩, x, hx, hname, ho⟩
    rw [place_zero, hk]
    rfl

/-- Each unit is relocated to a part of its own. -/
theorem linkPlaced_part {us : List CompiledUnit} {r : LinkedProgram}
    (h : linkPlaced (place 0 0 us) = .ok r) :
    r.chunk.size = (us.map (·.chunk.size)).sum ∧ ∀ {k u}, us[k]? = some u → ∃ code : Array Instruction,
      Placed.relocate ⟨u, codeBase us k, poolBase us k⟩ r.exports = .ok (code, []) ∧
      ∀ {j i}, code[j]? = some i → r.chunk.instructions[codeBase us k + j]? = some i := by
  obtain ⟨parts, hparts, hnone, hcode, -⟩ := linkPlaced_eq_ok h
  have hsizes : (parts.map (·.1.toList)).map List.length = us.map (·.chunk.size) := by
    have hmap : parts.map (·.1.toList.length) = (place 0 0 us).map (·.unit.chunk.size) :=
      mapM_map hparts fun p _ part hpart => by simpa using Placed.relocate_size hpart
    have hplaced := congrArg (List.map (·.chunk.size)) (@map_unit_place us 0 0)
    rw [List.map_map] at hplaced ⊢
    exact hmap.trans hplaced
  have hbase (k : Nat) : (((parts.map (·.1.toList)).take k).map List.length).sum = codeBase us k := by
    rw [List.map_take, hsizes, ← List.map_take]
    rfl
  refine ⟨?_, fun {k u} hk => ?_⟩
  · rw [Chunk.size, ← Array.length_toList, hcode, List.length_flatten, hsizes]
  · obtain ⟨-, hget⟩ := mapM_eq_ok hparts
    obtain ⟨⟨code, errors⟩, hpk, hr⟩ := hget (n := k) (by rw [place_zero, hk]; rfl)
    obtain rfl : errors = [] := hnone _ (List.mem_of_getElem? hpk)
    refine ⟨code, hr, fun {j i} hi => ?_⟩
    have hj : j < code.toList.length := (Array.getElem?_eq_some_iff.mp hi).1
    rw [← hbase k, ← Array.getElem?_toList, hcode, flatten_getElem? (by simp [hpk]) hj]
    simpa using hi

/-- Units that list the calls they leave open are joined. -/
theorem joins_of_listed {us : List CompiledUnit} {r : LinkedProgram}
    (hus : ∀ u ∈ us, u.Listed) (h : linkPlaced (place 0 0 us) = .ok r) : r.Joins us := by
  obtain ⟨-, -, -, -, hpool, hbases, hexports, hdup⟩ := linkPlaced_eq_ok h
  obtain ⟨hsize, hpart⟩ := linkPlaced_part h
  refine ⟨fun k => ?_, hsize, ?_, fun {k u j i} hk hi => ?_, fun {name o} => ?_⟩
  · rw [hbases, List.getElem?_map, place_zero, Option.map_map]
    rfl
  · have hmap := congrArg (List.map (·.chunk.constants.toList)) (@map_unit_place us 0 0)
    rw [List.map_map] at hmap
    rw [hpool, ← hmap]
    rfl
  · obtain ⟨code, hr, hcode⟩ := hpart hk
    obtain ⟨i', hi', hrelocates⟩ := Placed.relocate_ok (hus u (List.mem_of_getElem? hk)) hr hi
    exact ⟨i', hcode hi', hrelocates⟩
  · rw [hexports, ofPlaced_place_offsets hdup]

theorem linkPlaced_joins {us : List CompiledUnit} {r : LinkedProgram}
    (hus : ∀ u ∈ us, u.WellFormed) (h : linkPlaced (place 0 0 us) = .ok r) : r.Joins us :=
  joins_of_listed (fun u hu => (hus u hu).listed) h

namespace LinkedProgram.Joins

variable {r : LinkedProgram} {us : List CompiledUnit}

/-- A frame of a unit is a frame of the program. -/
theorem opens (h : r.Joins us) {k t : Nat} {u : CompiledUnit} (hk : us[k]? = some u)
    (ht : u.chunk.opens t = true) : r.chunk.opens (codeBase us k + t) = true := by
  cases hi : u.chunk.instructions[t]? with
  | none => simp [Chunk.opens, hi] at ht
  | some i =>
      obtain ⟨i', hi', hop, -⟩ := h.instruction hk hi
      have : i.opcode = .pushFrame := by simpa [Chunk.opens, hi] using ht
      simp [Chunk.opens, hi', hop, this]

/-- Every instruction of the program is one of a unit. -/
theorem exists_instruction (h : r.Joins us) {n : Nat} {i' : Instruction}
    (hi : r.chunk.instructions[n]? = some i') :
    ∃ k u j i, us[k]? = some u ∧ u.chunk.instructions[j]? = some i ∧ n = codeBase us k + j ∧
      Placed.Relocates ⟨u, codeBase us k, poolBase us k⟩ r.exports j i i' := by
  have hn : n < r.chunk.size := (Array.getElem?_eq_some_iff.mp hi).1
  rw [h.size] at hn
  obtain ⟨k, u, j, hk, hj, rfl⟩ := exists_of_lt_size hn
  have hj : j < u.chunk.instructions.size := hj
  obtain ⟨i'', hi'', hr⟩ := h.instruction hk (Array.getElem?_eq_getElem hj)
  obtain rfl := Option.some.inj (hi.symm.trans hi'')
  exact ⟨k, u, j, _, hk, Array.getElem?_eq_getElem hj, rfl, hr⟩

/-- The constants of a unit are where its pool begins. -/
theorem constant (h : r.Joins us) {k n : Nat} {u : CompiledUnit} (hk : us[k]? = some u)
    (hn : n < u.chunk.constants.size) :
    r.chunk.constants[poolBase us k + n]? = u.chunk.constants[n]? := by
  have hget := flatten_getElem? (L := us.map (·.chunk.constants.toList)) (k := k) (j := n)
    (l := u.chunk.constants.toList) (by simp [hk]) (by simpa using hn)
  rw [← h.constants, ← List.map_take, List.map_map] at hget
  simpa [poolBase, Function.comp_def] using hget

/-- Every export of the whole is a frame. -/
theorem opens_of_exports (h : r.Joins us) (hus : ∀ u ∈ us, u.WellFormed) {name : String} {o : Nat}
    (ho : r.exports[name]? = some o) : r.chunk.opens o = true := by
  obtain ⟨k, u, x, hk, hx, -, rfl⟩ := h.exports.mp ho
  exact h.opens hk ((hus u (List.mem_of_getElem? hk)).exported x hx)

/-- What a call left open is directed to is a frame. -/
theorem opens_of_target (h : r.Joins us) (hus : ∀ u ∈ us, u.WellFormed) {k t : Nat}
    {u : CompiledUnit} (hk : us[k]? = some u) {name : String}
    (ht : Placed.target? ⟨u, codeBase us k, poolBase us k⟩ r.exports name = some t) :
    r.chunk.opens t = true := by
  unfold Placed.target? at ht
  split at ht
  · rename_i o ho
    obtain rfl := Option.some.inj ht
    exact h.opens hk ((hus u (List.mem_of_getElem? hk)).subroutine ho)
  · split at ht
    · rename_i o ho
      obtain rfl := Option.some.inj ht
      exact h.opens_of_exports hus ho
    · obtain ⟨d, -, hd⟩ := List.exists_of_findSome?_eq_some ht
      exact h.opens_of_exports hus hd

/-- No operand of the program waits to be resolved, and calls go to frames. -/
theorem resolved (h : r.Joins us) (hus : ∀ u ∈ us, u.WellFormed) {n : Nat} {i : Instruction}
    {o : Operand} (hi : r.chunk.instructions[n]? = some i) (ho : i.operand = some o) :
    o.isOpen = false ∧ ∀ t argc, o = .call (.address t) argc → r.chunk.opens t = true := by
  obtain ⟨k, u, j, i₀, hk, hi₀, -, -, hr⟩ := h.exists_instruction hi
  have hu := hus u (List.mem_of_getElem? hk)
  rw [ho] at hr
  split at hr
  · obtain ⟨c, -, -, t, ht, heq⟩ := hr
    obtain rfl := Option.some.inj heq
    refine ⟨rfl, ?_⟩
    rintro t' argc' ⟨⟩
    exact h.opens_of_target hus hk ht
  · rename_i hopen
    unfold Placed.Moves at hr
    split at hr
    · obtain rfl := Option.some.inj hr
      exact ⟨rfl, fun t argc h => by cases h⟩
    · obtain ⟨index, heq, -⟩ := hr
      obtain rfl := Option.some.inj heq
      exact ⟨rfl, fun t argc h => by cases h⟩
    · rename_i t argc hop
      obtain rfl := Option.some.inj hr
      refine ⟨rfl, ?_⟩
      rintro t' argc' ⟨⟩
      exact h.opens hk (hu.operand hi₀ hop)
    -- An operand that stays as it is: in a well-formed unit none of these is open but the calls, which
    -- have been dealt with.
    · rename_i h₁ h₂ h₃
      have hhas := hu.operand hi₀ hr.symm
      refine ⟨?_, ?_⟩
      · unfold CompiledUnit.Has at hhas
        split at hhas
        · rfl
        · rfl
        · rfl
        · exact absurd hr.symm (hopen _)
        · exact hhas.elim
        · exact hhas.elim
        · unfold Operand.isOpen
          split <;> simp_all
      · rintro t argc rfl
        exact absurd hr.symm (h₃ t argc)

/-- A branch of a unit goes to the same place in the program, which is in the same unit. -/
theorem branch (h : r.Joins us) (hus : ∀ u ∈ us, u.WellFormed) {k j m : Nat} {u : CompiledUnit}
    {i : Instruction} (hk : us[k]? = some u) (hi : u.chunk.instructions[j]? = some i)
    (ho : i.operand = some (.offset m)) :
    m < u.chunk.size ∧ r.chunk.instructions[codeBase us k + j]? =
      some ⟨i.opcode, some (.offset (codeBase us k + m))⟩ := by
  obtain ⟨⟨op, operand⟩, hi', hop, hr⟩ := h.instruction hk hi
  rw [ho] at hr
  obtain rfl : op = i.opcode := hop
  obtain rfl : operand = _ := hr
  exact ⟨(hus u (List.mem_of_getElem? hk)).operand hi ho, hi'⟩

/-- A constant is loaded in the program as in the unit. -/
theorem loadConst (h : r.Joins us) (hus : ∀ u ∈ us, u.WellFormed) {k j : Nat} {u : CompiledUnit}
    {index : UInt16} (hk : us[k]? = some u)
    (hi : u.chunk.instructions[j]? = some (.loadConst index)) :
    ∃ index' v, r.chunk.instructions[codeBase us k + j]? = some (.loadConst index') ∧
      index'.toNat = poolBase us k + index.toNat ∧ u.chunk.constants[index.toNat]? = some v ∧
      r.chunk.constants[index'.toNat]? = some v := by
  obtain ⟨⟨op, operand⟩, hi', hop, index', hr, hindex⟩ := h.instruction hk hi
  obtain rfl : op = _ := hop
  obtain rfl : operand = _ := hr
  have hlt := (hus u (List.mem_of_getElem? hk)).operand hi rfl
  have hv := Array.getElem?_eq_getElem hlt
  exact ⟨index', _, hi', hindex, hv, by rw [hindex, h.constant hk hlt, hv]⟩

end LinkedProgram.Joins

/-- **Linking relocates faithfully.**  The first unit of the entry's name is laid out first and the
others behind it in their order.  The program is the code of the units, one behind the other, with
branches, calls and constants moved along with their unit and with the calls that were left open
directed to what they mean; and it is their constants, one behind the other.  So constants are those
of the unit, branches stay in the unit, calls go to frames, exports are the frames exported, and
nothing waits to be resolved. -/
theorem link_relocates {units : List CompiledUnit} {entry : String} {r : LinkedProgram}
    (hunits : ∀ u ∈ units, ∃ name options p, compile name options p = .ok u ∧
      p.labelCount name options < UInt32.size) (h : link units entry = .ok r) :
    ∃ before first after us, units = before ++ first :: after ∧ us = first :: (before ++ after) ∧
      first.name = entry ∧ (∀ u ∈ before, u.name ≠ entry) ∧ r.units.head? = some (entry, 0) ∧
      r.Joins us ∧
      (∀ k u j i m, us[k]? = some u → u.chunk.instructions[j]? = some i →
        i.operand = some (.offset m) → m < u.chunk.size ∧
          r.chunk.instructions[codeBase us k + j]? =
            some ⟨i.opcode, some (.offset (codeBase us k + m))⟩) ∧
      (∀ k u j index, us[k]? = some u → u.chunk.instructions[j]? = some (.loadConst index) →
        ∃ index' v, r.chunk.instructions[codeBase us k + j]? = some (.loadConst index') ∧
          index'.toNat = poolBase us k + index.toNat ∧ u.chunk.constants[index.toNat]? = some v ∧
          r.chunk.constants[index'.toNat]? = some v) ∧
      (∀ (n : Nat) (i : Instruction) o, r.chunk.instructions[n]? = some i → i.operand = some o →
        o.isOpen = false ∧ ∀ t argc, o = .call (.address t) argc → r.chunk.opens t = true) ∧
      ∀ (name : String) o, r.exports[name]? = some o → r.chunk.opens o = true := by
  unfold link at h
  cases hfirst : entryFirst? entry units with
  | none => simp [hfirst] at h
  | some us =>
      simp only [hfirst] at h
      obtain ⟨before, first, after, rfl, hname, hbefore, rfl⟩ := entryFirst?_eq_some hfirst
      have hus : ∀ u ∈ first :: (before ++ after), u.WellFormed := by
        intro u hu
        obtain ⟨name, options, p, hc, hlabels⟩ := hunits u (by
          simp only [List.mem_cons, List.mem_append] at hu ⊢
          exact or_left_comm.mp hu)
        exact Program.wellFormed_of_compile hc hlabels
      have hjoins := linkPlaced_joins hus h
      refine ⟨before, first, after, _, rfl, rfl, hname, hbefore, ?_, hjoins,
        fun k u j i m => hjoins.branch hus, fun k u j index => hjoins.loadConst hus,
        fun n i o => hjoins.resolved hus, fun name o => hjoins.opens_of_exports hus⟩
      rw [List.head?_eq_getElem?, hjoins.units]
      simp [codeBase, hname]

/-- A program that uses a module and calls what it exports. -/
def greeting : Program where
  body := [
    .use "Text",
    .whileLoop (.bool true {}) [
      .expr (.call "say" [.call "shout" [.str "hello" {}] {}] {}),
      .expr (.call "last" [] {})]]

/-- The module. -/
def shouting : Program where
  body := [
    .package .module "Text" [
      .sub { name := "shout", params := [⟨.var "$s" {}, false⟩], traits := ["export"] } [
        .cond (.call "length" [.var "$s" {}] {})
          [.ret (some (.binary .concat (.var "$s" {}) (.str "!" {}) {})) {}] [] none]]]

/-- The two units link, the program first, and no call is left open. -/
theorem link_relocates_greeting :
    ∃ u v r, compile "text" {} shouting = .ok u ∧ compile "main" {} greeting = .ok v ∧
      link [u, v] "main" = .ok r ∧ r.units.head? = some ("main", 0) ∧
      (∀ (n : Nat) (i : Instruction) o, r.chunk.instructions[n]? = some i → i.operand = some o →
        o.isOpen = false) := by
  have hrun : (do
      let u ← (compile "text" {} shouting).toOption
      let v ← (compile "main" {} greeting).toOption
      (link [u, v] "main").toOption).isSome = true := by decide +kernel
  have hlabels : shouting.labelCount "text" {} < UInt32.size ∧
      greeting.labelCount "main" {} < UInt32.size := by decide +kernel
  cases hu : compile "text" {} shouting with
  | error e => simp [hu, Except.toOption] at hrun
  | ok u =>
      cases hv : compile "main" {} greeting with
      | error e => simp [hu, hv, Except.toOption] at hrun
      | ok v =>
          cases hr : link [u, v] "main" with
          | error e => simp [hu, hv, hr, Except.toOption] at hrun
          | ok r =>
              have hunits : ∀ w ∈ [u, v], ∃ name options p, compile name options p = .ok w ∧
                  p.labelCount name options < UInt32.size := by
                intro w hw
                rcases List.mem_cons.mp hw with rfl | hw
                · exact ⟨"text", {}, shouting, hu, hlabels.1⟩
                · obtain rfl := List.mem_singleton.mp hw
                  exact ⟨"main", {}, greeting, hv, hlabels.2⟩
              obtain ⟨_, _, _, _, -, -, -, -, hfirst, -, -, -, hresolved, -⟩ :=
                link_relocates hunits hr
              exact ⟨u, v, r, rfl, rfl, hr, hfirst, fun n i o hi ho => (hresolved n i o hi ho).1⟩

end StackScript
