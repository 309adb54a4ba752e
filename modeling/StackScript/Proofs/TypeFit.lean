import StackScript.ValueType

/-!
# Laws of fitting types

How one type fits another is found out layer by layer: arrays fit as their elements do.  So only what is left
without the arrays around both types counts (`peel`, `fit_peel`), and there the answer can be read off
(`fit_of_bare`).

* `fit_eq_identical_iff`: a value is used as it is.  This is a preorder with `unknown` and `any` on top.
* `fit_eq_incompatible_iff`: a value cannot be used.  This is symmetric, unlike the need for a conversion.
* `fit_laws`: the laws together.
-/

namespace StackScript.ValueType

variable {a b c : ValueType}

/-- It is the type of an array. -/
def isArray : ValueType → Bool
  | .array _ => true
  | _ => false

/-- Arrays of arrays of the type, nested this deep. -/
def nested (t : ValueType) : Nat → ValueType
  | 0 => t
  | n + 1 => .array (t.nested n)

/-- What is left of two types without the arrays around both. -/
def peel : ValueType → ValueType → ValueType × ValueType
  | .array a, .array b => peel a b
  | a, b => (a, b)

/-! ### Layers -/

attribute [local simp] peel

/-- Where one of the types is no array, nothing is peeled. -/
theorem peel_of_bare (h : a.isArray = false ∨ b.isArray = false) : peel a b = (a, b) := by
  unfold peel
  split
  · simp [isArray] at h
  · rfl

/-- Peeling takes off as many layers as both types have. -/
theorem nested_peel (a b : ValueType) :
    ((peel a b).1.isArray = false ∨ (peel a b).2.isArray = false) ∧
      ∃ n, a = (peel a b).1.nested n ∧ b = (peel a b).2.nested n := by
  fun_induction peel a b with
  | case1 a b ih =>
      obtain ⟨hbare, n, ha, hb⟩ := ih
      exact ⟨hbare, n + 1, congrArg array ha, congrArg array hb⟩
  | case2 a b hnot =>
      refine ⟨?_, 0, rfl, rfl⟩
      cases a <;> cases b <;> simp_all [isArray]

/-- Peeling treats both types alike. -/
theorem peel_swap (a b : ValueType) : peel b a = (peel a b).swap := by
  fun_induction peel a b with
  | case1 a b ih => rw [peel, ih]
  | case2 a b hnot =>
      refine peel_of_bare ?_
      cases a <;> cases b <;> simp_all [isArray]

/-- A value is used as it is where its own type is expected and where everything is. -/
theorem fit_of_same (h : b.isOpen = true ∨ a = b) : a.fit b = .identical := by
  unfold fit
  rw [if_pos (by simpa using h)]

theorem fit_self (a : ValueType) : a.fit a = .identical := fit_of_same (.inr rfl)

/-- Arrays fit as their elements do. -/
theorem fit_array (a b : ValueType) : (array a).fit (array b) = a.fit b := by
  by_cases heq : a = b
  · rw [heq, fit_self, fit_self]
  · rw [fit, if_neg (by simp [isOpen, heq])]

/-- Two types fit as what is left of them when both are peeled. -/
theorem fit_peel (a b : ValueType) : a.fit b = (peel a b).1.fit (peel a b).2 := by
  fun_induction peel a b with
  | case1 a b ih => rw [fit_array, ih]
  | case2 => rfl

theorem fit_nested (a b : ValueType) (n : Nat) : (a.nested n).fit (b.nested n) = a.fit b := by
  induction n with
  | zero => rfl
  | succ n ih => rw [nested, nested, fit_array, ih]

/-- What fits where there are no arrays around both types. -/
theorem fit_of_bare (h : a.isArray = false ∨ b.isArray = false) :
    a.fit b =
      if b.isOpen = true ∨ a = b then .identical
      else if a.isOpen = true ∨ a.isScalar = true ∧ b.isScalar = true then .castable
      else .incompatible := by
  by_cases hsame : b.isOpen = true ∨ a = b
  · rw [fit_of_same hsame, if_pos hsame]
  · unfold fit
    rw [if_neg (by simpa using hsame), if_neg hsame]
    cases a with
    | unknown | any => rfl
    | array x =>
        cases b with
        | array y => simp [isArray] at h
        | _ => rfl
    | _ => simp [isOpen]

/-! ### Use as it is -/

theorem fit_open (a : ValueType) (h : b.isOpen = true) : a.fit b = .identical := fit_of_same (.inl h)

/-- A value is used as it is where everything is taken, where the types are equal, or in arrays of such. -/
theorem fit_eq_identical_iff : a.fit b = .identical ↔
    b.isOpen = true ∨ a = b ∨ ∃ x y, a = array x ∧ b = array y ∧ x.fit y = .identical := by
  constructor
  · intro h
    by_cases hbare : a.isArray = false ∨ b.isArray = false
    · rw [fit_of_bare hbare] at h
      split at h
      · rename_i hsame
        exact hsame.imp_right .inl
      · split at h <;> cases h
    · cases a <;> cases b <;> simp [isArray] at hbare
      rename_i x y
      exact .inr (.inr ⟨x, y, rfl, rfl, fit_array x y ▸ h⟩)
  · rintro (hopen | rfl | ⟨x, y, rfl, rfl, h⟩)
    · exact fit_open a hopen
    · exact fit_self a
    · rwa [fit_array]

/-- Being used as it is carries over from one type to the next. -/
theorem fit_identical_trans (h₁ : a.fit b = .identical) (h₂ : b.fit c = .identical) :
    a.fit c = .identical := by
  induction b generalizing a c with
  | array y ih =>
      rcases fit_eq_identical_iff.mp h₂ with hopen | rfl | ⟨y', z, heq, rfl, hz⟩
      · exact fit_open a hopen
      · exact h₁
      · obtain rfl := array.inj heq
        rcases fit_eq_identical_iff.mp h₁ with hopen | rfl | ⟨x, y', rfl, heq, hx⟩
        · cases hopen
        · exact h₂
        · obtain rfl := array.inj heq
          rw [fit_array]
          exact ih hx hz
  | _ =>
      -- Such a type is used as it is only where it is expected, or where everything is.
      rcases fit_eq_identical_iff.mp h₂ with hopen | rfl | ⟨y, z, heq, -, -⟩
      · exact fit_open a hopen
      · exact h₁
      · cases heq

/-! ### No use at all -/

/-- Two types that have nothing to do with each other. -/
def Clash (a b : ValueType) : Prop :=
  a.isOpen = false ∧ b.isOpen = false ∧ a ≠ b ∧ ¬ (a.isScalar = true ∧ b.isScalar = true)

theorem Clash.symm (h : Clash a b) : Clash b a :=
  ⟨h.2.1, h.1, h.2.2.1.symm, fun hscalar => h.2.2.2 hscalar.symm⟩

/-- A value cannot be used where the peeled types clash. -/
theorem fit_eq_incompatible_iff : a.fit b = .incompatible ↔ Clash (peel a b).1 (peel a b).2 := by
  rw [fit_peel, fit_of_bare (nested_peel a b).1]
  generalize (peel a b).1 = x
  generalize (peel a b).2 = y
  by_cases hsame : y.isOpen = true ∨ x = y
  · rw [if_pos hsame]
    refine iff_of_false (by decide) ?_
    rintro ⟨-, hy, hne, -⟩
    simp [hy, hne] at hsame
  · rw [if_neg hsame]
    by_cases hcast : x.isOpen = true ∨ x.isScalar = true ∧ y.isScalar = true
    · rw [if_pos hcast]
      refine iff_of_false (by decide) ?_
      rintro ⟨hx, -, -, hs⟩
      simp [hx, hs] at hcast
    · rw [if_neg hcast]
      obtain ⟨hy, hne⟩ := not_or.mp hsame
      obtain ⟨hx, hs⟩ := not_or.mp hcast
      exact iff_of_true rfl ⟨Bool.eq_false_iff.mpr hx, Bool.eq_false_iff.mpr hy, hne, hs⟩

/-- What cannot be used one way cannot be used the other way. -/
theorem fit_incompatible_symm (h : a.fit b = .incompatible) : b.fit a = .incompatible := by
  rw [fit_eq_incompatible_iff] at h ⊢
  rw [peel_swap a b]
  exact h.symm

/-- **Laws of fitting types.**

* To be used as it is, is reflexive and transitive, and every value is where the target is open.
* Not to be used at all is symmetric.
* Arrays fit as their elements do.
* Without the arrays around both, neither of two types that do not fit is open, they differ, and they are
  not both scalar; any such types do not fit.
* So an open type fits at any depth: a value that is not known is never refused. -/
theorem fit_laws :
    (∀ a : ValueType, a.fit a = .identical) ∧
    (∀ a b c : ValueType, a.fit b = .identical → b.fit c = .identical → a.fit c = .identical) ∧
    (∀ a : ValueType, a.fit .unknown = .identical ∧ a.fit .any = .identical) ∧
    (∀ a b : ValueType, a.fit b = .incompatible ↔ b.fit a = .incompatible) ∧
    (∀ a b : ValueType, (array a).fit (array b) = a.fit b) ∧
    (∀ a b : ValueType, ∃ n x y, a = nested x n ∧ b = nested y n ∧
      (x.isArray = false ∨ y.isArray = false) ∧
      (a.fit b = .incompatible ↔ x ≠ .unknown ∧ x ≠ .any ∧ y ≠ .unknown ∧ y ≠ .any ∧ x ≠ y ∧
        ¬ (x.isScalar = true ∧ y.isScalar = true))) ∧
    ∀ (n : Nat) (x b : ValueType), x = .unknown ∨ x = .any →
      (x.nested n).fit (b.nested n) ≠ .incompatible := by
  have hopen (x : ValueType) : x.isOpen = false ↔ x ≠ .unknown ∧ x ≠ .any := by
    cases x <;> simp [isOpen]
  refine ⟨fit_self, fun _ _ _ => fit_identical_trans, fun a => ⟨fit_open a rfl, fit_open a rfl⟩,
    fun a b => ⟨fit_incompatible_symm, fit_incompatible_symm⟩, fit_array, fun a b => ?_,
    fun n x b hx => ?_⟩
  · obtain ⟨hbare, n, ha, hb⟩ := nested_peel a b
    refine ⟨n, _, _, ha, hb, hbare, ?_⟩
    rw [fit_eq_incompatible_iff, Clash, hopen, hopen, and_assoc, and_assoc]
  · have hbare : x.isArray = false ∨ b.isArray = false := by
      rcases hx with rfl | rfl <;> exact .inl rfl
    rw [fit_nested, Ne, fit_eq_incompatible_iff, peel_of_bare hbare]
    rintro ⟨hclosed, -⟩
    rcases hx with rfl | rfl <;> cases hclosed

/-- Arrays of integers are arrays of anything, and these are anything; arrays of hashes are no arrays of
integers, nor these the former; and arrays of arrays of unknown values are not refused as such. -/
theorem fit_laws_nested :
    (array .int).fit .any = .identical ∧
      (array .int).fit (array .hash) = .incompatible ∧ (array .hash).fit (array .int) = .incompatible ∧
      (array (array .unknown)).fit (array (array .int)) ≠ .incompatible := by
  obtain ⟨-, htrans, -, hsymm, -, -, hopen⟩ := fit_laws
  exact ⟨htrans _ (array .any) _ (by decide) (by decide), by decide, (hsymm _ _).mp (by decide),
    hopen 2 .unknown .int (.inl rfl)⟩

end StackScript.ValueType
