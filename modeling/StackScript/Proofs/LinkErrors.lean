import Mathlib.Data.List.Induction
import StackScript.Proofs.Linking

/-!
# What keeps units from being linked

Units are linked if there is one of the entry's name and nothing is wrong with them together: no name is
exported twice, every module that is used is declared, and every call left open means something.  Whatever
is wrong is reported, in the order in which the units are laid out.

Apart from that, linking can only fail where constants have no index left or where a call is recorded in a
place that holds none.

* `linkErrors`: what is wrong with units.
* `CompiledUnit.Relocatable`: a unit can be moved to its place.
* `Directed`: the subroutine that a call left open means.
* `link_reports`: linking fails exactly where something is wrong, and reports just that.
-/

namespace StackScript

/-! ### What is wrong with units -/

/-- The names in a list that stand in it before, once for each time they are repeated. -/
def repeats (names : List String) : List String :=
  (names.zipIdx.filter fun e => e.1 ∈ names.take e.2).map (·.1)

/-- The names that units export, in their order. -/
def exportedNames (us : List CompiledUnit) : List String :=
  us.flatMap (·.interface.exports.map (·.name))

/-- A call of `name` in unit `u` means nothing: the unit has no subroutine of that name, and none is
exported under it or under it in a module that the unit uses. -/
def CompiledUnit.Lacks (u : CompiledUnit) (us : List CompiledUnit) (name : String) : Prop :=
  name ∉ u.subroutines ∧ name ∉ exportedNames us ∧
    ∀ d ∈ u.interface.dependencies, d ++ "::" ++ name ∉ exportedNames us

instance {u : CompiledUnit} {us : List CompiledUnit} {name : String} : Decidable (u.Lacks us name) :=
  inferInstanceAs (Decidable (_ ∧ _ ∧ _))

/-- The modules that a unit uses and none of the units declares. -/
def CompiledUnit.missing (u : CompiledUnit) (us : List CompiledUnit) : List LinkError :=
  (u.interface.dependencies.filter fun d => ∀ v ∈ us, d ∉ v.interface.modules).map (.missingModule u.name)

/-- The calls that a unit leaves open and that mean nothing. -/
def CompiledUnit.dangling (u : CompiledUnit) (us : List CompiledUnit) : List LinkError :=
  (u.unresolved.filter fun c => u.Lacks us c.name).map fun c => .unresolvedSubroutine u.name c.name c.span

/-- What is wrong with units that are laid out in the given order. -/
def linkErrors (us : List CompiledUnit) : List LinkError :=
  (repeats (exportedNames us)).map .duplicateExport ++ us.flatMap (·.missing us) ++
    us.flatMap (·.dangling us)

/-- Unit number `k` of the units can be moved to its place: there are indices left for its constants, and
where a call is recorded that means something there is one. -/
structure CompiledUnit.Relocatable (u : CompiledUnit) (us : List CompiledUnit) (k : Nat) : Prop where
  pool : poolBase us k < UInt16.size
  constants : ∀ i ∈ u.chunk.instructions, ∀ index, i.operand = some (.constant index) →
    poolBase us k + index.toNat < UInt16.size
  calls : ∀ c ∈ u.unresolved, ¬ u.Lacks us c.name →
    ∃ op target argc, u.chunk.instructions[c.position]? = some ⟨op, some (.call target argc)⟩

/-- A subroutine is exported under the name, and its offset in the program is `t`. -/
def ExportedAt (us : List CompiledUnit) (name : String) (t : Nat) : Prop :=
  ∃ k u x, us[k]? = some u ∧ x ∈ u.interface.exports ∧ x.name = name ∧ t = codeBase us k + x.position

/-- The subroutine at offset `t` of the program is what a call of `name` means in unit number `k`. -/
inductive Directed (us : List CompiledUnit) (k : Nat) (u : CompiledUnit) (name : String) : Nat → Prop where
  /-- One of the unit itself. -/
  | own {o : Nat} : u.subroutines[name]? = some o → Directed us k u name (codeBase us k + o)
  /-- Or else the one exported under the name. -/
  | exported {t : Nat} : name ∉ u.subroutines → ExportedAt us name t → Directed us k u name t
  /-- Or else the one of the first module used that exports one. -/
  | used {before after : List String} {d : String} {t : Nat} : name ∉ u.subroutines →
    name ∉ exportedNames us → u.interface.dependencies = before ++ d :: after →
    (∀ e ∈ before, e ++ "::" ++ name ∉ exportedNames us) → ExportedAt us (d ++ "::" ++ name) t →
    Directed us k u name t

/-! ### Names that are repeated -/

/-- A name is repeated if it was among those before it. -/
theorem repeats_append_singleton {names : List String} {name : String} :
    repeats (names ++ [name]) = repeats names ++ if name ∈ names then [name] else [] := by
  have hbefore : (names.zipIdx.filter fun e => decide (e.1 ∈ (names ++ [name]).take e.2)) =
      names.zipIdx.filter fun e => decide (e.1 ∈ names.take e.2) := by
    refine List.filter_congr fun e he => ?_
    have hlt : e.2 < names.length := by simpa using (List.mem_zipIdx he).2.1
    rw [List.take_append_of_le_length (Nat.le_of_lt hlt)]
  unfold repeats
  rw [List.zipIdx_append, List.filter_append, hbefore, List.map_append]
  by_cases hname : name ∈ names <;> simp [hname]

/-- No name is repeated if each stands in the list once. -/
theorem repeats_eq_nil_iff {names : List String} : repeats names = [] ↔ names.Nodup := by
  induction names using List.reverseRecOn with
  | nil => simp [repeats]
  | append_singleton names name ih =>
      rw [repeats_append_singleton, List.append_eq_nil_iff, ih, List.nodup_append]
      by_cases hname : name ∈ names
      · simp [hname]
      · have hne : ∀ n ∈ names, n ≠ name := fun n hn heq => hname (heq ▸ hn)
        simpa [hname] using fun _ => hne

/-! ### Tables of exports -/

theorem flatMap_unit_place {α : Type} (f : CompiledUnit → List α) {us : List CompiledUnit} {b c : Nat} :
    (place b c us).flatMap (fun p => f p.unit) = us.flatMap f := by
  have hunits := congrArg (List.flatMap f) (@map_unit_place us b c)
  rwa [List.flatMap_map] at hunits

/-- The table has the names that were added, and those that were added again among the duplicates. -/
structure ExportTable.Records (t : ExportTable) (names : List String) : Prop where
  mem : ∀ name, name ∈ t.offsets ↔ name ∈ names
  duplicates : t.duplicates = repeats names

namespace ExportTable

/-- An export adds its name, which counts as repeated if it is there already. -/
theorem Records.add {t : ExportTable} {names : List String} {b : Nat} {x : Export}
    (h : t.Records names) : (t.add b x).Records (names ++ [x.name]) := by
  refine ⟨fun name => ?_, ?_⟩
  · show name ∈ t.offsets.insert x.name (b + x.position) ↔ _
    rw [Std.ExtTreeMap.mem_insert, h.mem, List.mem_append, List.mem_singleton,
      Std.LawfulEqCmp.compare_eq_iff_eq]
    exact ⟨fun hor => hor.symm.imp id Eq.symm, fun hor => hor.symm.imp Eq.symm id⟩
  · rw [repeats_append_singleton, ← h.duplicates]
    by_cases hx : x.name ∈ names
    · have hc : t.offsets.contains x.name = true := Std.ExtTreeMap.contains_iff_mem.mpr ((h.mem _).mpr hx)
      simp [ExportTable.add, hx, hc]
    · have hc : t.offsets.contains x.name = false := by
        rw [← Bool.not_eq_true, Std.ExtTreeMap.contains_iff_mem, h.mem]
        exact hx
      simp [ExportTable.add, hx, hc]

/-- **The table of exports** has the names that are exported, and as duplicates those that are repeated. -/
theorem ofPlaced_records {us : List CompiledUnit} :
    (ofPlaced (place 0 0 us)).Records (exportedNames us) := by
  have hempty : Records {} ([] : List (String × Nat)).unzip.1 := ⟨by simp, by simp [repeats]⟩
  have hentries : (entries (place 0 0 us)).map (·.1) = exportedNames us := by
    rw [exportedNames, ← flatMap_unit_place _ (b := 0) (c := 0), entries, List.map_flatMap]
    simp [Function.comp_def]
  rw [← hentries]
  refine ofPlaced_rec (P := fun t es => t.Records (es.map (·.1))) (by simpa using hempty)
    fun b x h => ?_
  simpa using h.add

end ExportTable

/-! ### What calls mean -/

/-- A name is exported somewhere if it is among the exported names. -/
theorem exists_exportedAt {us : List CompiledUnit} {name : String} :
    (∃ t, ExportedAt us name t) ↔ name ∈ exportedNames us := by
  simp only [exportedNames, List.mem_flatMap, List.mem_map, ExportedAt]
  constructor
  · rintro ⟨t, k, u, x, hk, hx, hname, -⟩
    exact ⟨u, List.mem_of_getElem? hk, x, hx, hname⟩
  · rintro ⟨u, hu, x, hx, hname⟩
    obtain ⟨k, hk⟩ := List.mem_iff_getElem?.mp hu
    exact ⟨_, k, u, x, hk, hx, hname, rfl⟩

/-- A name has no target exactly if the unit lacks it. -/
theorem target?_eq_none_iff {us : List CompiledUnit} {exports : NameMap Nat} {p : Placed} {name : String}
    (hexports : ∀ name, name ∈ exports ↔ name ∈ exportedNames us) :
    p.target? exports name = none ↔ p.unit.Lacks us name := by
  have hnone (n : String) : exports[n]? = none ↔ n ∉ exportedNames us := by
    rw [getElem?_eq_none_iff, hexports]
  unfold Placed.target? CompiledUnit.Lacks
  cases hown : p.unit.subroutines[name]? with
  | some o =>
      have hmem : name ∈ p.unit.subroutines := Std.ExtTreeMap.mem_iff_isSome_getElem?.mpr (by simp [hown])
      simp [hmem]
  | none =>
      have hmem : name ∉ p.unit.subroutines := by simpa using hown
      cases hexport : exports[name]? with
      | some o =>
          have hname : name ∈ exportedNames us := by
            rw [← hexports]
            exact Std.ExtTreeMap.mem_iff_isSome_getElem?.mpr (by simp [hexport])
          simp [hname]
      | none => simp [hmem, (hnone name).mp hexport, hnone]

/-- A call is directed to what it means. -/
theorem directed_of_target {us : List CompiledUnit} {exports : NameMap Nat} {k t : Nat}
    {u : CompiledUnit} {name : String}
    (hexports : ∀ {name : String} {o}, exports[name]? = some o ↔ ExportedAt us name o)
    (ht : Placed.target? ⟨u, codeBase us k, poolBase us k⟩ exports name = some t) :
    Directed us k u name t := by
  have hnone {n : String} (h : exports[n]? = none) : n ∉ exportedNames us := by
    intro hn
    obtain ⟨o, ho⟩ := exists_exportedAt.mpr hn
    rw [hexports.mpr ho] at h
    cases h
  unfold Placed.target? at ht
  split at ht
  · rename_i o ho
    obtain rfl := Option.some.inj ht
    exact .own ho
  · rename_i hown
    have hown : name ∉ u.subroutines := by simpa using hown
    split at ht
    · rename_i o ho
      obtain rfl := Option.some.inj ht
      exact .exported hown (hexports.mp ho)
    · rename_i hexport
      obtain ⟨before, d, after, hsplit, hd, hbefore⟩ := List.findSome?_eq_some_iff.mp ht
      exact .used hown (hnone hexport) hsplit (fun e he => hnone (hbefore e he)) (hexports.mp hd)

/-! ### Units that can be relocated -/

namespace Placed

variable {p : Placed} {exports : NameMap Nat}

/-- An instruction can be relocated if its constant stays within the reach of an operand. -/
theorem relocateInstruction_total {i : Instruction}
    (h : ∀ index, i.operand = some (.constant index) → p.constantBase + index.toNat < UInt16.size) :
    ∃ j, p.relocateInstruction i = .ok j := by
  obtain ⟨op, operand⟩ := i
  unfold relocateInstruction
  cases operand with
  | none => exact ⟨_, rfl⟩
  | some operand =>
      unfold relocateOperand
      simp only
      split
      · exact ⟨_, rfl⟩
      · rename_i index
        have hlt : index.toNat + p.constantBase < UInt16.size := by
          rw [Nat.add_comm]
          exact h index rfl
        rw [if_pos hlt]
        exact ⟨_, rfl⟩
      · exact ⟨_, rfl⟩
      · exact ⟨_, rfl⟩

/-- An instruction is a call in the program if it is one in the unit. -/
theorem call_iff_of_relocate {i j : Instruction} {op : Opcode} {argc : UInt8}
    (h : p.relocateInstruction i = .ok j) :
    (∃ target, j = ⟨op, some (.call target argc)⟩) ↔ ∃ target, i = ⟨op, some (.call target argc)⟩ := by
  obtain ⟨op, operand⟩ := i
  obtain ⟨op', operand'⟩ := j
  obtain ⟨rfl, hmoves⟩ := relocateInstruction_eq_ok h
  unfold Moves at hmoves
  split at hmoves
  · simp_all
  · obtain ⟨index, hindex, -⟩ := hmoves
    simp_all
  · simp_all
  · simp_all

/-- Calls can be patched that stand where they are recorded. -/
theorem patch_total {cs : List CallSite} {code : Array Instruction} {errors : List LinkError}
    (h : ∀ c ∈ cs, ∀ t, p.target? exports c.name = some t →
      ∃ op target argc, code[c.position]? = some ⟨op, some (.call target argc)⟩) :
    ∃ r, p.patch exports cs code errors = .ok r := by
  induction cs generalizing code errors with
  | nil => exact ⟨_, rfl⟩
  | cons c cs ih =>
      rw [patch]
      cases ht : p.target? exports c.name with
      | none => exact ih fun c' hc' => h c' (List.mem_cons_of_mem _ hc')
      | some t =>
          obtain ⟨op, target, argc, hold⟩ := h c List.mem_cons_self t ht
          have hlt : c.position < code.size := (Array.getElem?_eq_some_iff.mp hold).1
          simp only [hold, redirect?, Option.bind_eq_bind, Option.bind_some]
          refine ih fun c' hc' t' ht' => ?_
          by_cases heq : c'.position = c.position
          · exact ⟨op, _, argc, by rw [heq, Array.getElem?_setIfInBounds_self_of_lt hlt]⟩
          · rw [Array.getElem?_setIfInBounds_ne (Ne.symm heq)]
            exact h c' (List.mem_cons_of_mem _ hc') t' ht'

end Placed

/-- **A unit can be moved to its place exactly if there are indices left for its constants and calls where
calls are recorded.** -/
theorem relocate_total_iff {us : List CompiledUnit} {k : Nat} {u : CompiledUnit} {exports : NameMap Nat}
    (hexports : ∀ name, name ∈ exports ↔ name ∈ exportedNames us) :
    (∃ r, Placed.relocate ⟨u, codeBase us k, poolBase us k⟩ exports = .ok r) ↔ u.Relocatable us k := by
  have hknown (name : String) : ¬ u.Lacks us name ↔
      ∃ t, Placed.target? ⟨u, codeBase us k, poolBase us k⟩ exports name = some t := by
    rw [← Option.ne_none_iff_exists', ne_eq, target?_eq_none_iff hexports]
  constructor
  · rintro ⟨⟨code, errors⟩, h⟩
    obtain ⟨hpool, moved, hsize, hget, hpatch⟩ := Placed.relocate_eq_ok h
    obtain ⟨-, -, -, hcalls⟩ := Placed.patch_eq_ok hpatch
    refine ⟨hpool, fun i hi index ho => ?_, fun c hc hlacks => ?_⟩
    · obtain ⟨j, hj⟩ := Array.mem_iff_getElem?.mp hi
      obtain ⟨i', -, hr⟩ := hget hj
      obtain ⟨-, hmoves⟩ := Placed.relocateInstruction_eq_ok hr
      rw [ho] at hmoves
      obtain ⟨index', -, hindex⟩ := hmoves
      exact hindex ▸ index'.toNat_lt
    · obtain ⟨t, ht⟩ := (hknown c.name).mp hlacks
      obtain ⟨before, after, hsplit⟩ := List.append_of_mem hc
      obtain ⟨op, target, argc, hmoved, -⟩ := hcalls before c after t hsplit ht
      -- The place is one of the unit, since moving the code changes no length.
      have hlt : c.position < u.chunk.instructions.size :=
        Nat.lt_of_lt_of_eq (Array.getElem?_eq_some_iff.mp hmoved).1 hsize
      obtain ⟨i', hi', hr⟩ := hget (Array.getElem?_eq_getElem hlt)
      obtain rfl := Option.some.inj (hmoved.symm.trans hi')
      obtain ⟨target', hi⟩ := (Placed.call_iff_of_relocate hr).mp ⟨target, rfl⟩
      exact ⟨op, target', argc, by rw [← hi]; exact Array.getElem?_eq_getElem hlt⟩
  · intro h
    obtain ⟨is, his⟩ : ∃ is, u.chunk.instructions.toList.mapM
        (Placed.relocateInstruction ⟨u, codeBase us k, poolBase us k⟩) = .ok is :=
      mapM_total fun i hi => Placed.relocateInstruction_total (h.constants i (Array.mem_toList_iff.mp hi))
    obtain ⟨-, hget⟩ := mapM_eq_ok his
    have hcalls : ∀ c ∈ u.unresolved, ∀ t,
        Placed.target? ⟨u, codeBase us k, poolBase us k⟩ exports c.name = some t →
        ∃ op target argc, is.toArray[c.position]? = some ⟨op, some (.call target argc)⟩ := by
      intro c hc t ht
      obtain ⟨op, target, argc, hi⟩ := h.calls c hc ((hknown c.name).mpr ⟨t, ht⟩)
      obtain ⟨j, hj, hr⟩ := hget (Array.getElem?_toList ▸ hi)
      obtain ⟨target', rfl⟩ := (Placed.call_iff_of_relocate hr).mpr ⟨target, rfl⟩
      exact ⟨op, target', argc, by simpa using hj⟩
    obtain ⟨r, hr⟩ := Placed.patch_total hcalls
    refine ⟨r, ?_⟩
    unfold Placed.relocate
    rw [if_pos h.pool, Array.mapM_eq_mapM_toList, his]
    exact hr

/-! ### Linking -/

theorem entryFirst?_eq_none {entry : String} {us : List CompiledUnit} (h : ∀ u ∈ us, u.name ≠ entry) :
    entryFirst? entry us = none := by
  induction us with
  | nil => rfl
  | cons u us ih =>
      rw [entryFirst?, ih fun v hv => h v (List.mem_cons_of_mem _ hv)]
      simp [h u List.mem_cons_self]

/-- The first unit of the name comes first, and the others keep their order. -/
theorem entryFirst?_append {entry : String} {front rest : List CompiledUnit} {first : CompiledUnit}
    (hname : first.name = entry) (hfront : ∀ u ∈ front, u.name ≠ entry) :
    entryFirst? entry (front ++ first :: rest) = some (first :: (front ++ rest)) := by
  induction front with
  | nil => simp [entryFirst?, hname]
  | cons u front ih =>
      rw [List.cons_append, entryFirst?, ih fun v hv => hfront v (List.mem_cons_of_mem _ hv)]
      simp [hfront u List.mem_cons_self]

/-- The modules that are missing, unit by unit. -/
theorem missingModules_place {us : List CompiledUnit} :
    missingModules (place 0 0 us) = us.flatMap (·.missing us) := by
  have hdeclared (d : String) : (!(declaredModules (place 0 0 us)).contains d) =
      decide (∀ v ∈ us, d ∉ v.interface.modules) := by
    rw [declaredModules, flatMap_unit_place (·.interface.modules), List.contains_eq_mem, ← decide_not,
      decide_eq_decide]
    simp
  rw [missingModules]
  simp only [hdeclared]
  exact flatMap_unit_place (·.missing us)

/-- The calls of a unit that have no target are those that dangle. -/
theorem unknown_unresolved {us : List CompiledUnit} {exports : NameMap Nat} {p : Placed}
    (hexports : ∀ name, name ∈ exports ↔ name ∈ exportedNames us) :
    p.unknown exports p.unit.unresolved = p.unit.dangling us := by
  have hlacks (c : CallSite) : (p.target? exports c.name).isNone = decide (p.unit.Lacks us c.name) := by
    rw [Bool.eq_iff_iff, Option.isNone_iff_eq_none, decide_eq_true_iff, target?_eq_none_iff hexports]
  rw [Placed.unknown, CompiledUnit.dangling]
  simp only [hlacks]

/-- What is wrong with units is what linking reports, if they can all be moved to their places. -/
theorem linkPlaced_of_relocatable {us : List CompiledUnit}
    (h : ∀ (k : Nat) (u : CompiledUnit), us[k]? = some u → u.Relocatable us k) :
    (linkErrors us = [] → ∃ r, linkPlaced (place 0 0 us) = .ok r) ∧
      (linkErrors us ≠ [] → linkPlaced (place 0 0 us) = .error (.errors (linkErrors us))) := by
  have hrecords := @ExportTable.ofPlaced_records us
  obtain ⟨parts, hparts⟩ : ∃ parts, (place 0 0 us).mapM
      (·.relocate (ExportTable.ofPlaced (place 0 0 us)).offsets) = .ok parts := by
    refine mapM_total fun p hp => ?_
    obtain ⟨k, hk⟩ := List.mem_iff_getElem?.mp hp
    rw [place_zero] at hk
    obtain ⟨u, hu, rfl⟩ := Option.map_eq_some_iff.mp hk
    exact (relocate_total_iff hrecords.mem).mpr (h k u hu)
  have hunknown : parts.map Prod.snd = (place 0 0 us).map fun p => p.unit.dangling us := by
    refine mapM_map hparts fun p _ part hpart => ?_
    obtain ⟨-, moved, -, -, hpatch⟩ := Placed.relocate_eq_ok hpart
    obtain ⟨herrors, -⟩ := Placed.patch_eq_ok hpatch
    rw [herrors, List.nil_append, unknown_unresolved hrecords.mem]
  have hdangling : parts.flatMap Prod.snd = us.flatMap (·.dangling us) := by
    rw [List.flatMap_def, hunknown, ← List.flatMap_def, flatMap_unit_place (·.dangling us)]
  have herrors : (ExportTable.ofPlaced (place 0 0 us)).duplicates.map LinkError.duplicateExport ++
      missingModules (place 0 0 us) ++ parts.flatMap Prod.snd = linkErrors us := by
    rw [hrecords.duplicates, missingModules_place, hdangling, linkErrors]
  unfold linkPlaced
  simp only [hparts, herrors]
  refine ⟨fun hnone => ?_, fun hsome => ?_⟩
  · rw [hnone]
    exact ⟨_, rfl⟩
  · rw [if_neg (by simpa using hsome)]

/-- Where linking ends in no fault, the units can all be moved to their places. -/
theorem relocatable_of_linkPlaced {us : List CompiledUnit}
    (h : ∀ f, linkPlaced (place 0 0 us) ≠ .error (.fault f)) {k : Nat} {u : CompiledUnit}
    (hk : us[k]? = some u) : u.Relocatable us k := by
  cases hparts : (place 0 0 us).mapM (·.relocate (ExportTable.ofPlaced (place 0 0 us)).offsets) with
  | error f =>
      refine absurd ?_ (h f)
      unfold linkPlaced
      simp only [hparts]
  | ok parts =>
      obtain ⟨-, hget⟩ := mapM_eq_ok hparts
      obtain ⟨part, -, hr⟩ := hget (n := k) (by rw [place_zero, hk]; rfl)
      exact (relocate_total_iff (@ExportTable.ofPlaced_records us).mem).mp ⟨part, hr⟩

/-- **What units are linked to.**  No name is exported twice, and each call left open goes to the
subroutine that it means; of several calls that are recorded in one place, the last one counts. -/
theorem linkPlaced_directs {us : List CompiledUnit} {r : LinkedProgram}
    (h : linkPlaced (place 0 0 us) = .ok r) :
    (exportedNames us).Nodup ∧ ∀ (k : Nat) (u : CompiledUnit) before c after, us[k]? = some u →
      u.unresolved = before ++ c :: after → (∀ c' ∈ after, c'.position ≠ c.position) →
      ∃ op target argc t, u.chunk.instructions[c.position]? = some ⟨op, some (.call target argc)⟩ ∧
        r.chunk.instructions[codeBase us k + c.position]? =
          some ⟨op, some (.call (.address t) argc)⟩ ∧ Directed us k u c.name t := by
  obtain ⟨-, -, -, -, -, -, hexports, hdup⟩ := linkPlaced_eq_ok h
  obtain ⟨-, hpart⟩ := linkPlaced_part h
  refine ⟨?_, fun k u before c after hk hsplit hafter => ?_⟩
  · rw [← repeats_eq_nil_iff, ← ExportTable.ofPlaced_records.duplicates]
    exact hdup
  · have hc : c ∈ u.unresolved := by simp [hsplit]
    obtain ⟨code, hr, hcode⟩ := hpart hk
    obtain ⟨-, moved, hsize, hget, hpatch⟩ := Placed.relocate_eq_ok hr
    obtain ⟨hnone, -, -, hcalls⟩ := Placed.patch_eq_ok hpatch
    obtain ⟨t, ht⟩ : ∃ t, Placed.target? ⟨u, codeBase us k, poolBase us k⟩ r.exports c.name = some t := by
      have hnone : ∀ c ∈ u.unresolved,
          ¬ Placed.target? ⟨u, codeBase us k, poolBase us k⟩ r.exports c.name = none := by
        simpa [Placed.unknown] using hnone.symm
      exact Option.ne_none_iff_exists'.mp (hnone c hc)
    obtain ⟨op, target, argc, hmoved, hnew⟩ := hcalls before c after t hsplit ht
    have hlt : c.position < u.chunk.instructions.size :=
      Nat.lt_of_lt_of_eq (Array.getElem?_eq_some_iff.mp hmoved).1 hsize
    obtain ⟨i, hi, hrelocate⟩ := hget (Array.getElem?_eq_getElem hlt)
    obtain rfl := Option.some.inj (hmoved.symm.trans hi)
    obtain ⟨target', heq⟩ := (Placed.call_iff_of_relocate hrelocate).mp ⟨target, rfl⟩
    refine ⟨op, target', argc, t, by rw [← heq]; exact Array.getElem?_eq_getElem hlt,
      hcode (hnew hafter), directed_of_target (fun {name o} => ?_) ht⟩
    rw [hexports]
    exact ofPlaced_place_offsets hdup

/-- **Linking fails exactly where something is wrong, and reports just that.**  Without a unit of the
entry's name, that is what is reported.  Otherwise the first one of that name is laid out first and the
others behind it in their order; where every unit can be moved to its place, all that is wrong with them is
reported, and if nothing is they are linked, with every call left open directed to the subroutine that it
means.  Where a unit cannot be moved to its place, linking ends in a fault. -/
theorem link_reports (units : List CompiledUnit) (entry : String) :
    ((∀ u ∈ units, u.name ≠ entry) → link units entry = .error (.errors [.missingEntry entry])) ∧
    ∀ front first rest us, units = front ++ first :: rest → first.name = entry →
      (∀ u ∈ front, u.name ≠ entry) → us = first :: (front ++ rest) →
      ((∀ f, link units entry ≠ .error (.fault f)) ↔
        ∀ (k : Nat) (u : CompiledUnit), us[k]? = some u → u.Relocatable us k) ∧
      ((∀ f, link units entry ≠ .error (.fault f)) →
        (linkErrors us ≠ [] → link units entry = .error (.errors (linkErrors us))) ∧
        (linkErrors us = [] → ∃ r, link units entry = .ok r ∧ (exportedNames us).Nodup ∧
          ∀ (k : Nat) (u : CompiledUnit) before c after, us[k]? = some u →
            u.unresolved = before ++ c :: after → (∀ c' ∈ after, c'.position ≠ c.position) →
            ∃ op target argc t, u.chunk.instructions[c.position]? = some ⟨op, some (.call target argc)⟩ ∧
              r.chunk.instructions[codeBase us k + c.position]? =
                some ⟨op, some (.call (.address t) argc)⟩ ∧ Directed us k u c.name t)) := by
  refine ⟨fun hnone => ?_, ?_⟩
  · unfold link
    rw [entryFirst?_eq_none hnone]
  · rintro front first rest us rfl hname hfront rfl
    have hlink : link (front ++ first :: rest) entry = linkPlaced (place 0 0 (first :: (front ++ rest))) := by
      unfold link
      rw [entryFirst?_append hname hfront]
    rw [hlink]
    refine ⟨⟨fun hfault k u hk => relocatable_of_linkPlaced hfault hk, fun h f hf => ?_⟩, fun hfault => ?_⟩
    · obtain ⟨hok, herrors⟩ := linkPlaced_of_relocatable h
      by_cases hnone : linkErrors (first :: (front ++ rest)) = []
      · obtain ⟨r, hr⟩ := hok hnone
        simp [hr] at hf
      · simp [herrors hnone] at hf
    · obtain ⟨hok, herrors⟩ := linkPlaced_of_relocatable fun k u hk => relocatable_of_linkPlaced hfault hk
      refine ⟨herrors, fun hnone => ?_⟩
      obtain ⟨r, hr⟩ := hok hnone
      exact ⟨r, hr, linkPlaced_directs hr⟩

/-- A unit that calls a subroutine of a module it uses. -/
def borrowing : CompiledUnit where
  name := "app"
  chunk := { instructions := #[.placeholderCall 0, .bare .halt] }
  uses := #[⟨"f", {}, 0, false⟩]
  subroutines := ∅
  interface := { dependencies := ["A"] }

/-- The unit that declares the module. -/
def lending : CompiledUnit where
  name := "lib"
  chunk := { instructions := #[.pushFrame 0 0, .bare .ret] }
  uses := #[]
  subroutines := ∅
  interface := { exports := [⟨"A::f", 0⟩], modules := ["A"] }

/-- The call of `borrowing` is directed to the export of `lending`. -/
theorem link_reports_borrowing :
    ∃ r t, link [lending, borrowing] "app" = .ok r ∧
      r.chunk.instructions[0]? = some ⟨.call, some (.call (.address t) 0)⟩ ∧
      Directed [borrowing, lending] 0 borrowing "f" t := by
  have hmoves : ∀ (k : Nat) (u : CompiledUnit), [borrowing, lending][k]? = some u →
      u.Relocatable [borrowing, lending] k := by
    rintro (_ | _ | k) u hk
    · obtain rfl : borrowing = u := by simpa using hk
      refine ⟨by decide, ?_, fun c hc _ => ⟨.call, .unresolved, 0, ?_⟩⟩
      · simp [borrowing, Instruction.placeholderCall, Instruction.bare]
      · obtain rfl : c = ⟨"f", {}, 0, false⟩ := by simpa [borrowing, CompiledUnit.unresolved] using hc
        rfl
    · obtain rfl : lending = u := by simpa using hk
      refine ⟨by decide, ?_, ?_⟩
      · simp [lending, Instruction.pushFrame, Instruction.bare]
      · simp [lending, CompiledUnit.unresolved]
    · simp at hk
  obtain ⟨-, h⟩ := link_reports [lending, borrowing] "app"
  obtain ⟨hfault, hlink⟩ := h [lending] borrowing [] [borrowing, lending] rfl rfl (by simp [lending]) rfl
  obtain ⟨r, hr, -, hcalls⟩ := (hlink (hfault.mpr hmoves)).2 (by decide)
  obtain ⟨op, target, argc, t, hi, ht, hdirected⟩ :=
    hcalls 0 borrowing [] ⟨"f", {}, 0, false⟩ [] rfl rfl (by simp)
  obtain ⟨rfl, rfl, rfl⟩ : .call = op ∧ .unresolved = target ∧ 0 = argc := by
    simpa [borrowing, Instruction.placeholderCall] using hi
  exact ⟨r, t, hr, ht, hdirected⟩

end StackScript
