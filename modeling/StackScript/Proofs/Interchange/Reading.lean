import StackScript.Json.Record

/-!
# Reading back what was written

A reader takes the number of arrays and objects that it may still open.  What it reads from a value is what
it reads when it may open as many as there are, or more.

* `Json.Reads`: a reader gets something from a value.
* `Json.Reads.obj`, `Json.Reads.arr`: it has to get it with one level less for the parts.
* `Json.Reads.list`, `Json.Reads.option`, `Json.Reads.name`: lists, optional values and cases without
  content are read back if their parts are.
-/

namespace StackScript.Json

/-! ### Nesting -/

section Nesting

variable {d : Nat}

/-- An array is nested one deeper than the deepest of its items. -/
theorem depthOfItems_le {items : List Json} :
    depthOfItems items ≤ d ↔ ∀ j ∈ items, j.depth ≤ d := by
  induction items with
  | nil => simp [depthOfItems]
  | cons j items ih => rw [depthOfItems, Nat.max_le, List.forall_mem_cons, ih]

/-- The values of the fields are nested at most `d` deep. -/
def FieldsWithin (d : Nat) : List (String × Json) → Prop
  | [] => True
  | f :: fields => f.2.depth ≤ d ∧ FieldsWithin d fields

/-- An object is nested one deeper than the deepest of its fields. -/
theorem depthOfFields_le {fields : List (String × Json)} :
    depthOfFields fields ≤ d ↔ FieldsWithin d fields := by
  induction fields with
  | nil => simp [depthOfFields, FieldsWithin]
  | cons f fields ih => rw [depthOfFields, Nat.max_le, FieldsWithin, ih]

end Nesting

/-! ### Leaves -/

@[simp] theorem toStr?_str {s : String} : (Json.str s).toStr? = some s := rfl

@[simp] theorem toBool?_bool {b : Bool} : (Json.bool b).toBool? = some b := rfl

@[simp] theorem toDouble?_float {x : Double} : (Json.float x).toDouble? = some x := rfl

@[simp] theorem toNat?_ofNat {n : Nat} : (Json.ofNat n).toNat? = some n := rfl

/-- A number is read back that is below the bound. -/
theorem toNatBelow?_ofNat {n bound : Nat} (h : n < bound) :
    (Json.ofNat n).toNatBelow? bound = some n := by
  simp [toNatBelow?, h]

@[simp] theorem toUInt8?_ofNat {n : UInt8} : (Json.ofNat n.toNat).toUInt8? = some n := by
  simp [toUInt8?, toNatBelow?_ofNat n.toNat_lt]

@[simp] theorem toUInt16?_ofNat {n : UInt16} : (Json.ofNat n.toNat).toUInt16? = some n := by
  simp [toUInt16?, toNatBelow?_ofNat n.toNat_lt]

@[simp] theorem toUInt32?_ofNat {n : UInt32} : (Json.ofNat n.toNat).toUInt32? = some n := by
  simp [toUInt32?, toNatBelow?_ofNat n.toNat_lt]

/-- An integer of 64 bits is read back, the least one included. -/
@[simp] theorem toInt64?_int {n : Int64} : (Json.int n.toInt).toInt64? = some n := by
  have hrange : (decide (Int64.minValue.toInt ≤ n.toInt) && decide (n.toInt ≤ Int64.maxValue.toInt)) =
      true := by
    rw [Bool.and_eq_true, decide_eq_true_eq, decide_eq_true_eq]
    exact ⟨n.minValue_le_toInt, n.toInt_le⟩
  show ((some n.toInt).filter _).map Int64.ofInt = some n
  rw [Option.filter_some, if_pos hrange, Option.map_some, Int64.ofInt_toInt]

/-! ### Fields -/

section Fields

variable {name other : String} {j : Json} {fields : List (String × Json)} {p : Bool}

/-- A record that is written as an object of its fields, in their order. -/
@[simp] theorem record?_obj {names : List String} (hnames : fields.map Prod.fst = names)
    (hnodup : names.Nodup) : record? names (.obj fields) = some ⟨fields, false⟩ := by
  subst hnames
  have hall : fields.filter (fun f => (fields.map Prod.fst).contains f.1) = fields := by
    refine List.filter_eq_self.mpr fun f hf => ?_
    simpa using ⟨f.2, hf⟩
  simp only [record?, hall, if_pos hnodup]

namespace Record

/-- A field is found under its name. -/
@[simp] theorem get?_here : get? ⟨(name, j) :: fields, p⟩ name = some j :=
  List.lookup_cons_self

/-- The fields under other names are passed over. -/
@[simp] theorem get?_there (h : name ≠ other) :
    get? ⟨(other, j) :: fields, p⟩ name = get? ⟨fields, p⟩ name := by
  rw [get?, List.lookup_cons, beq_eq_false_iff_ne.mpr h]
  rfl

end Record

end Fields

/-! ### Readers -/

variable {α : Type}

/-- The reader gets `a` from the value, however many arrays and objects it may open beyond those that
there are. -/
def Reads (read? : Nat → Json → Option α) (j : Json) (a : α) : Prop :=
  ∀ d, j.depth ≤ d → read? d j = some a

namespace Reads

variable {read? : Nat → Json → Option α} {a : α}

/-- An object is read back if it is with one level less for its fields. -/
theorem obj {fields : List (String × Json)}
    (h : ∀ d, FieldsWithin d fields → read? (d + 1) (.obj fields) = some a) :
    Reads read? (.obj fields) a := by
  intro d hd
  cases d with
  | zero => cases hd
  | succ d => exact h d (depthOfFields_le.mp (Nat.le_of_succ_le_succ hd))

/-- An array is read back if it is with one level less for its items. -/
theorem arr {items : List Json}
    (h : ∀ d, (∀ j ∈ items, j.depth ≤ d) → read? (d + 1) (.arr items) = some a) :
    Reads read? (.arr items) a := by
  intro d hd
  cases d with
  | zero => cases hd
  | succ d => exact h d (depthOfItems_le.mp (Nat.le_of_succ_le_succ hd))

/-- An object of one field, such as a case with its content. -/
theorem tagged {tag : String} {j : Json}
    (h : ∀ d, j.depth ≤ d → read? (d + 1) (.obj [(tag, j)]) = some a) :
    Reads read? (.tagged tag j) a :=
  .obj fun d hd => h d hd.1

/-- A case without content. -/
theorem name {cases : List (String × α)} {tag : String} (h : cases.lookup tag = some a) :
    Reads (oneOf? cases) (.str tag) a := by
  intro d _
  cases d <;> exact h

theorem nil : Reads (listOf? read?) (.arr []) [] :=
  .arr fun _ _ => rfl

/-- An array is read back if its first item and the array of the others are. -/
theorem cons {j : Json} {js : List Json} {items : List α} (ha : Reads read? j a)
    (hitems : Reads (listOf? read?) (.arr js) items) :
    Reads (listOf? read?) (.arr (j :: js)) (a :: items) := by
  refine .arr fun d hd => ?_
  rw [List.forall_mem_cons] at hd
  have hrest : js.mapM (read? d) = some items :=
    hitems (d + 1) (Nat.succ_le_succ (depthOfItems_le.mpr hd.2))
  show (j :: js).mapM (read? d) = some (a :: items)
  rw [List.mapM_cons, ha d hd.1, hrest]
  rfl

/-- A list is read back if each of its items is. -/
theorem list {write : α → Json} {items : List α} (h : ∀ a ∈ items, Reads read? (write a) a) :
    Reads (listOf? read?) (ofList write items) items := by
  induction items with
  | nil => exact .nil
  | cons a items ih =>
      rw [List.forall_mem_cons] at h
      exact .cons h.1 (ih h.2)

theorem strings {items : List String} : Reads strings? (ofList .str items) items :=
  .list fun _ _ _ _ => rfl

/-- A value that may be missing.  What is there must not be written as `null`. -/
theorem option {write : α → Json} {o : Option α} (hnull : ∀ a, write a ≠ .null)
    (h : ∀ a ∈ o, Reads read? (write a) a) {d : Nat} (hd : (ofOption write o).depth ≤ d) :
    orNull (read? d) (ofOption write o) = some o := by
  cases o with
  | none => rfl
  | some a =>
      have ha : read? d (write a) = some a := h a rfl d hd
      show orNull (read? d) (write a) = some (some a)
      unfold orNull
      split
      · rename_i hj
        exact absurd hj (hnull a)
      · rw [ha]
        rfl

end Reads

end StackScript.Json
