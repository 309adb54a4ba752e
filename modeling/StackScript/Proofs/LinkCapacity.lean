import StackScript.Proofs.LinkErrors

/-!
# Room for the constants of linked units

An operand has sixteen bits for the index of a constant, so a program has room for 65536 of them.  The
units are moved to their places one after the other, and linking stops at the first that cannot be moved.
A unit is refused for want of room where a constant that it loads gets an index with more than sixteen
bits, and also where the index at which its own constants begin has more.

The second is more than there is need for.  A unit without constants may stand behind 65536 constants of
others; nothing in it needs an index, and it is refused all the same.

* `link_overflows_iff`: the unit that linking stops at for want of room.
* `link_full_pool_iff`: where the constants do fit, it is one that begins behind the last of 65536.
* `full_pool_refused`: there is one.
-/

namespace StackScript

/-! ### Units that are refused -/

/-- Unit number `k` of the units takes an index that an operand cannot hold, for its first constant or for
one that it loads. -/
def CompiledUnit.Overflows (u : CompiledUnit) (us : List CompiledUnit) (k : Nat) : Prop :=
  UInt16.size ≤ poolBase us k ∨ ∃ i ∈ u.chunk.instructions, ∃ index,
    i.operand = some (.constant index) ∧ UInt16.size ≤ poolBase us k + index.toNat

namespace Placed

variable {p : Placed} {exports : NameMap Nat}

/-- An instruction cannot be moved only if the constant that it loads gets too large an index. -/
theorem relocateInstruction_eq_error {i : Instruction} {f : Fault} :
    p.relocateInstruction i = .error f ↔ f = .tooManyLinkedConstants ∧
      ∃ index, i.operand = some (.constant index) ∧ UInt16.size ≤ p.constantBase + index.toNat := by
  constructor
  · intro h
    by_contra hno
    by_cases hfits : ∀ index, i.operand = some (.constant index) →
        p.constantBase + index.toNat < UInt16.size
    · obtain ⟨j, hj⟩ := relocateInstruction_total hfits
      cases h.symm.trans hj
    · simp only [not_forall, Nat.not_lt] at hfits
      obtain ⟨index, ho, hge⟩ := hfits
      refine hno ⟨?_, index, ho, hge⟩
      rw [relocateInstruction, ho] at h
      simp only [relocateOperand, Nat.add_comm index.toNat, if_neg (Nat.not_lt.mpr hge)] at h
      exact (Except.error.inj h).symm
  · rintro ⟨rfl, index, ho, hge⟩
    rw [relocateInstruction, ho]
    simp only [relocateOperand, Nat.add_comm index.toNat, if_neg (Nat.not_lt.mpr hge)]
    rfl

/-- Directing calls never lacks room for constants. -/
theorem patch_ne_tooMany {cs : List CallSite} {code : Array Instruction} {errors : List LinkError} :
    p.patch exports cs code errors ≠ .error .tooManyLinkedConstants := by
  induction cs generalizing code errors with
  | nil => simp [patch]
  | cons c cs ih =>
      intro h
      rw [patch] at h
      split at h
      · exact ih h
      · split at h
        · cases h
        · exact ih h

/-- **A unit is refused for want of room exactly if it overflows.** -/
theorem relocate_eq_tooMany {us : List CompiledUnit} {k : Nat} {u : CompiledUnit} :
    Placed.relocate ⟨u, codeBase us k, poolBase us k⟩ exports = .error .tooManyLinkedConstants ↔
      u.Overflows us k := by
  rw [relocate, CompiledUnit.Overflows]
  split
  · rename_i hbase
    rw [Array.mapM_eq_mapM_toList, or_iff_right (Nat.not_le.mpr hbase)]
    cases hl : u.chunk.instructions.toList.mapM
        (Placed.relocateInstruction ⟨u, codeBase us k, poolBase us k⟩) with
    | error f =>
        obtain ⟨j, i, hi, hf, -⟩ := mapM_eq_error_iff.mp hl
        obtain ⟨rfl, index, ho, hge⟩ := relocateInstruction_eq_error.mp hf
        have hmem : i ∈ u.chunk.instructions := Array.mem_toList_iff.mp (List.mem_of_getElem? hi)
        exact ⟨fun _ => ⟨i, hmem, index, ho, hge⟩, fun _ => rfl⟩
    | ok is =>
        obtain ⟨-, hget⟩ := mapM_eq_ok hl
        refine ⟨fun h => absurd h patch_ne_tooMany, ?_⟩
        rintro ⟨i, hmem, index, ho, hge⟩
        obtain ⟨j, hj⟩ := List.mem_iff_getElem?.mp (Array.mem_toList_iff.mpr hmem)
        obtain ⟨i', -, hok⟩ := hget hj
        cases hok.symm.trans (relocateInstruction_eq_error.mpr ⟨rfl, index, ho, hge⟩)
  · rename_i hbase
    exact ⟨fun _ => .inl (Nat.not_lt.mp hbase), fun _ => rfl⟩

end Placed

/-- Linking units in the given order ends in a fault exactly if moving one of them to its place does. -/
theorem linkPlaced_eq_fault {ps : List Placed} {f : Fault} :
    linkPlaced ps = .error (.fault f) ↔
      ps.mapM (·.relocate (ExportTable.ofPlaced ps).offsets) = .error f := by
  unfold linkPlaced
  cases hparts : ps.mapM (·.relocate (ExportTable.ofPlaced ps).offsets) with
  | error e => simp [hparts]
  | ok parts =>
      simp only [hparts]
      split <;> simp

/-- **Where linking stops for want of room.**  It is at the first unit that cannot be moved to its place,
if that unit overflows. -/
theorem link_overflows_iff {units : List CompiledUnit} {entry : String} :
    link units entry = .error (.fault .tooManyLinkedConstants) ↔
      ∃ (us : List CompiledUnit) (k : Nat) (u : CompiledUnit), entryFirst? entry units = some us ∧
        us[k]? = some u ∧ u.Overflows us k ∧
        ∀ j < k, ∀ v, us[j]? = some v → v.Relocatable us j := by
  unfold link
  cases entryFirst? entry units with
  | none => simp
  | some us =>
      have hplaced {k : Nat} {p : Placed} : (place 0 0 us)[k]? = some p ↔
          ∃ u, us[k]? = some u ∧ ⟨u, codeBase us k, poolBase us k⟩ = p := by
        rw [place_zero, Option.map_eq_some_iff]
      have hmem := (@ExportTable.ofPlaced_records us).mem
      rw [linkPlaced_eq_fault, mapM_eq_error_iff]
      constructor
      · rintro ⟨k, p, hp, hf, hbefore⟩
        obtain ⟨u, hu, rfl⟩ := hplaced.mp hp
        refine ⟨us, k, u, rfl, hu, Placed.relocate_eq_tooMany.mp hf, fun j hj v hv => ?_⟩
        exact (relocate_total_iff hmem).mp (hbefore j hj _ (hplaced.mpr ⟨v, hv, rfl⟩))
      · rintro ⟨_, k, u, ⟨⟩, hu, hf, hbefore⟩
        refine ⟨k, _, hplaced.mpr ⟨u, hu, rfl⟩, Placed.relocate_eq_tooMany.mpr hf, fun j hj q hq => ?_⟩
        obtain ⟨v, hv, rfl⟩ := hplaced.mp hq
        exact (relocate_total_iff hmem).mpr (hbefore j hj v hv)

/-! ### Units whose constants fit -/

/-- Every constant that the unit loads is one of its own. -/
def CompiledUnit.Pooled (u : CompiledUnit) : Prop :=
  ∀ i ∈ u.chunk.instructions, ∀ index, i.operand = some (.constant index) →
    index.toNat < u.chunk.constants.size

/-- The number of constants that units have together. -/
def poolSize (us : List CompiledUnit) : Nat := (us.map (·.chunk.constants.size)).sum

theorem poolSize_entryFirst? {units us : List CompiledUnit} {entry : String}
    (h : entryFirst? entry units = some us) : poolSize us = poolSize units := by
  obtain ⟨before, first, after, rfl, -, -, rfl⟩ := entryFirst?_eq_some h
  simp only [poolSize, List.map_cons, List.map_append, List.sum_cons, List.sum_append]
  exact Nat.add_left_comm _ _ _

theorem mem_entryFirst? {units us : List CompiledUnit} {entry : String} {u : CompiledUnit}
    (h : entryFirst? entry units = some us) (hu : u ∈ us) : u ∈ units := by
  obtain ⟨before, first, after, rfl, -, -, rfl⟩ := entryFirst?_eq_some h
  simp only [List.mem_cons, List.mem_append] at hu ⊢
  rcases hu with rfl | hu | hu
  · exact .inr (.inl rfl)
  · exact .inl hu
  · exact .inr (.inr hu)

/-- The constants of a unit stand behind those of the units before it, within those of all. -/
theorem poolBase_add_le {us : List CompiledUnit} {k : Nat} {u : CompiledUnit} (h : us[k]? = some u) :
    poolBase us k + u.chunk.constants.size ≤ poolSize us := by
  induction us generalizing k with
  | nil => cases h
  | cons v us ih =>
      cases k with
      | zero =>
          obtain rfl : v = u := by simpa using h
          simp [poolBase, poolSize]
      | succ k =>
          have hle : poolBase us k + u.chunk.constants.size ≤ poolSize us := ih h
          simp only [poolBase, poolSize, List.take_succ_cons, List.map_cons, List.sum_cons,
            Nat.add_assoc] at hle ⊢
          exact Nat.add_le_add_left hle _

/-- **A unit whose constants have room overflows only if it begins behind the last of 65536.** -/
theorem CompiledUnit.Pooled.overflows_iff {us : List CompiledUnit} {k : Nat} {u : CompiledUnit}
    (hpooled : u.Pooled) (hfit : poolSize us ≤ UInt16.size) (hk : us[k]? = some u) :
    u.Overflows us k ↔ poolBase us k = UInt16.size := by
  have hroom : poolBase us k + u.chunk.constants.size ≤ UInt16.size :=
    Nat.le_trans (poolBase_add_le hk) hfit
  constructor
  · rintro (hbase | ⟨i, hi, index, ho, hge⟩)
    · exact Nat.le_antisymm (Nat.le_of_add_right_le hroom) hbase
    · have hlt := Nat.add_lt_add_left (hpooled i hi index ho) (poolBase us k)
      exact absurd (Nat.lt_of_lt_of_le hlt hroom) (Nat.not_lt.mpr hge)
  · intro hbase
    exact .inl (Nat.le_of_eq hbase.symm)

/-- **Linking units whose constants have room.**  Let every unit load constants of its own only, and let
all units together have 65536 constants at most.  Linking ends for want of room exactly if a unit is laid
out behind 65536 constants, and no unit before it stops linking for another reason. -/
theorem link_full_pool_iff {units : List CompiledUnit} {entry : String}
    (hpooled : ∀ u ∈ units, u.Pooled) (hfit : poolSize units ≤ UInt16.size) :
    link units entry = .error (.fault .tooManyLinkedConstants) ↔
      ∃ us k, entryFirst? entry units = some us ∧ k < us.length ∧ poolBase us k = UInt16.size ∧
        ∀ j < k, ∀ u, us[j]? = some u → u.Relocatable us j := by
  rw [link_overflows_iff]
  constructor
  · rintro ⟨us, k, u, hus, hk, hover, hbefore⟩
    have hpooled := hpooled u (mem_entryFirst? hus (List.mem_of_getElem? hk))
    have hfit := Nat.le_trans (Nat.le_of_eq (poolSize_entryFirst? hus)) hfit
    exact ⟨us, k, hus, (List.getElem?_eq_some_iff.mp hk).1, (hpooled.overflows_iff hfit hk).mp hover,
      hbefore⟩
  · rintro ⟨us, k, hus, hk, hbase, hbefore⟩
    have hk := List.getElem?_eq_getElem hk
    have hpooled := hpooled _ (mem_entryFirst? hus (List.mem_of_getElem? hk))
    have hfit := Nat.le_trans (Nat.le_of_eq (poolSize_entryFirst? hus)) hfit
    exact ⟨us, k, _, hus, hk, (hpooled.overflows_iff hfit hk).mpr hbase, hbefore⟩

/-- A unit that has as many constants as an operand can tell apart, and loads the last of them. -/
def fullUnit : CompiledUnit where
  name := "full"
  chunk := {
    instructions := #[.loadConst 65535]
    constants := Array.replicate UInt16.size (.num ⟨0⟩) }
  uses := #[]
  subroutines := ∅
  interface := {}

/-- A unit without constants. -/
def bareUnit : CompiledUnit where
  name := "bare"
  chunk := {}
  uses := #[]
  subroutines := ∅
  interface := {}

theorem fullUnit_size : fullUnit.chunk.constants.size = UInt16.size := by
  simp [fullUnit]

theorem fullUnit_pooled : fullUnit.Pooled := by
  intro i hi index ho
  rw [fullUnit_size]
  exact index.toNat_lt

theorem bareUnit_pooled : bareUnit.Pooled := by
  intro i hi
  simp [bareUnit] at hi

theorem poolSize_full_bare : poolSize [fullUnit, bareUnit] = UInt16.size := by
  simp [poolSize, fullUnit_size, bareUnit]

/-- Laid out before the constants, the unit without any is no obstacle. -/
theorem link_full_pool_iff_bare_first :
    link [fullUnit, bareUnit] "bare" ≠ .error (.fault .tooManyLinkedConstants) := by
  intro h
  obtain ⟨us, k, hus, hk, hbase, -⟩ := (link_full_pool_iff
    (List.forall_mem_cons.mpr ⟨fullUnit_pooled, List.forall_mem_singleton.mpr bareUnit_pooled⟩)
    (Nat.le_of_eq poolSize_full_bare)).mp h
  obtain rfl : [bareUnit, fullUnit] = us := by simpa [entryFirst?, fullUnit, bareUnit] using hus
  obtain _ | _ | k := k
  · simp [poolBase] at hbase
  · simp [poolBase, bareUnit] at hbase
  · exact absurd hk (Nat.not_lt.mpr (Nat.le_add_left 2 k))

/-- **Constants that fit are refused.**  The two units have 65536 constants together, and every constant
that they load is in its unit.  The unit without constants is laid out last, and linking fails. -/
theorem full_pool_refused :
    (∀ u ∈ [fullUnit, bareUnit], u.Pooled) ∧ poolSize [fullUnit, bareUnit] ≤ UInt16.size ∧
      link [fullUnit, bareUnit] "full" = .error (.fault .tooManyLinkedConstants) := by
  have hpooled : ∀ u ∈ [fullUnit, bareUnit], u.Pooled :=
    List.forall_mem_cons.mpr ⟨fullUnit_pooled, List.forall_mem_singleton.mpr bareUnit_pooled⟩
  refine ⟨hpooled, Nat.le_of_eq poolSize_full_bare, link_overflows_iff.mpr
    ⟨[fullUnit, bareUnit], 1, bareUnit, rfl, rfl, .inl ?_, fun j hj u hu => ?_⟩⟩
  · simp [poolBase, fullUnit_size]
  · obtain rfl : j = 0 := Nat.lt_one_iff.mp hj
    obtain rfl : fullUnit = u := by simpa using hu
    refine ⟨by simp [poolBase], fun i hi index ho => ?_, ?_⟩
    · simpa [poolBase] using index.toNat_lt
    · simp [fullUnit, CompiledUnit.unresolved]

end StackScript
