import StackScript.Proofs.Growth

/-!
# Entries of the constant pool

A constant that is pooled gets the index of the first entry that equals it, or that of a new entry.  An
index has sixteen bits.  A new entry that would need more is refused, but the first entry that equals the
constant may stand behind the first 65536, and then its index loses the higher bits: it is the index of
another entry, which the constant does not equal.

* `Chunk.FirstAt`: where the first entry is that equals a constant.
* `Chunk.addConstant_of_firstAt`, `Chunk.addConstant_of_absent`: what pooling a constant does.
* `Chunk.size_pooling`: a pool that constants are only pooled in stays within the range of an index.
* `constant_pooled_iff`: the constants that get the index of an entry that equals them.
* `distant_constant_mistaken`: one that does not.
-/

namespace StackScript

namespace Constant

/-- The constant is a NaN. -/
def isNaN : Constant → Bool
  | .num x => x.isNaN
  | .str _ => false

/-- Every constant but a NaN equals itself. -/
theorem equals_self {v : Constant} (h : v.isNaN = false) : v.equals v = true := by
  cases v with
  | num x =>
      have hx : x.isNaN = false := h
      simp [equals, Double.equals, hx]
  | str s => simp [equals]

end Constant

namespace Chunk

variable {v : Constant} {c : Chunk} {n : Nat}

/-- The entry with number `n` equals `v`, and none before it does. -/
structure FirstAt (c : Chunk) (v : Constant) (n : Nat) : Prop where
  entry : ∃ w, c.constants[n]? = some w ∧ w.equals v = true
  before : ∀ m < n, ∀ w, c.constants[m]? = some w → w.equals v = false

/-- No entry equals `v`. -/
def Absent (c : Chunk) (v : Constant) : Prop := ∀ w ∈ c.constants, w.equals v = false

/-- Searching the pool finds the first entry that equals the constant. -/
theorem findIdx?_eq_some_iff : c.constants.findIdx? (·.equals v) = some n ↔ c.FirstAt v n := by
  rw [Array.findIdx?_eq_some_iff_getElem]
  constructor
  · rintro ⟨hn, hw, hbefore⟩
    refine ⟨⟨_, Array.getElem?_eq_getElem hn, hw⟩, fun m hm w hw => ?_⟩
    obtain ⟨-, rfl⟩ := Array.getElem?_eq_some_iff.mp hw
    simpa using hbefore m hm
  · rintro ⟨⟨w, hentry, hw⟩, hbefore⟩
    obtain ⟨hn, rfl⟩ := Array.getElem?_eq_some_iff.mp hentry
    refine ⟨hn, hw, fun m hm => ?_⟩
    simpa using hbefore m hm _ (Array.getElem?_eq_getElem (Nat.lt_trans hm hn))

theorem FirstAt.le {m : Nat} (h : c.FirstAt v m) (h' : c.FirstAt v n) : m ≤ n := by
  refine Nat.le_of_not_lt fun hlt => ?_
  obtain ⟨w, hentry, hw⟩ := h'.entry
  exact Bool.false_ne_true ((h.before n hlt w hentry).symm.trans hw)

/-- A constant has a first entry in the pool, or none. -/
theorem firstAt_or_absent (c : Chunk) (v : Constant) : (∃ n, c.FirstAt v n) ∨ c.Absent v := by
  cases hfind : c.constants.findIdx? (·.equals v) with
  | some n => exact .inl ⟨n, findIdx?_eq_some_iff.mp hfind⟩
  | none => exact .inr (Array.findIdx?_eq_none_iff.mp hfind)

/-! ### Pooling a constant -/

/-- A constant that is in the pool is found there, and the pool stays as it is. -/
theorem addConstant_of_firstAt (h : c.FirstAt v n) : addConstant v c = (.ok n.toUInt16, c) := by
  rw [addConstant, findIdx?_eq_some_iff.mpr h]

/-- A constant that is not in the pool is added, if there is room for it. -/
theorem addConstant_of_absent (h : c.Absent v) : addConstant v c =
    if c.constants.size < UInt16.size then
      (.ok c.constants.size.toUInt16, { c with constants := c.constants.push v })
    else (.error .tooManyConstants, c) := by
  rw [addConstant, Array.findIdx?_eq_none_iff.mpr h]

/-- The entry that the index of a distant entry leads to does not equal the constant. -/
theorem FirstAt.mistaken (h : c.FirstAt v n) (hn : UInt16.size ≤ n) :
    ∃ w, c.constants[n.toUInt16.toNat]? = some w ∧ w.equals v = false := by
  have hlt : n.toUInt16.toNat < n := Nat.lt_of_lt_of_le n.toUInt16.toNat_lt hn
  obtain ⟨w, hentry, -⟩ := h.entry
  have hsize : n.toUInt16.toNat < c.constants.size :=
    Nat.lt_trans hlt (Array.getElem?_eq_some_iff.mp hentry).1
  have hget := Array.getElem?_eq_getElem hsize
  exact ⟨_, hget, h.before _ hlt _ hget⟩

/-- The result of pooling `v` in `c` is as it should be.  An index leads to an entry that equals `v`, and the
pool is as it was or has `v` behind its last entry; or there is no room for `v`, which is not there. -/
def PooledProperly (c : Chunk) (v : Constant) : Except Fault UInt16 × Chunk → Prop
  | (.ok index, c') => (∃ w, c'.constants[index.toNat]? = some w ∧ w.equals v = true) ∧
      (c' = c ∨ c' = { c with constants := c.constants.push v })
  | (.error _, c') => c' = c ∧ c.Absent v ∧ UInt16.size ≤ c.constants.size

/-- A constant that is not in the pool is pooled properly: it is added, or there is no room. -/
theorem pooledProperly_of_absent (hv : v.isNaN = false) (h : c.Absent v) :
    c.PooledProperly v (addConstant v c) := by
  rw [addConstant_of_absent h]
  split
  · rename_i hroom
    have hindex : c.constants.size.toUInt16.toNat = c.constants.size := Nat.mod_eq_of_lt hroom
    exact ⟨⟨v, by simp [hindex], v.equals_self hv⟩, .inr rfl⟩
  · rename_i hroom
    exact ⟨rfl, h, Nat.not_lt.mp hroom⟩

/-- For a distant entry no result is as it should be: an index leads only to entries that do not equal the
constant, and an error would say that it is not there. -/
theorem FirstAt.not_pooledProperly (h : c.FirstAt v n) (hn : UInt16.size ≤ n)
    (result : Except Fault UInt16 × Chunk) : ¬ c.PooledProperly v result := by
  obtain ⟨result, c'⟩ := result
  obtain ⟨u, hentry, hu⟩ := h.entry
  cases result with
  | ok index =>
      rintro ⟨⟨w, hindex, hw⟩, hsame⟩
      have hlt : index.toNat < n := Nat.lt_of_lt_of_le index.toNat_lt hn
      have hsize : n < c.constants.size := (Array.getElem?_eq_some_iff.mp hentry).1
      have hold : c.constants[index.toNat]? = some w := by
        rcases hsame with rfl | rfl
        · exact hindex
        · rwa [Array.getElem?_push, if_neg (by omega)] at hindex
      exact Bool.false_ne_true ((h.before _ hlt w hold).symm.trans hw)
  | error f =>
      rintro ⟨-, habsent, -⟩
      exact Bool.false_ne_true ((habsent u (Array.mem_of_getElem? hentry)).symm.trans hu)

/-- An entry that was there is found if its index is. -/
theorem FirstAt.pooledProperly_iff (h : c.FirstAt v n) :
    c.PooledProperly v (addConstant v c) ↔ n < UInt16.size := by
  constructor
  · exact fun hproper => Nat.lt_of_not_le fun hn => h.not_pooledProperly hn _ hproper
  · intro hn
    rw [addConstant_of_firstAt h]
    have hindex : n.toUInt16.toNat = n := Nat.mod_eq_of_lt hn
    refine ⟨?_, .inl rfl⟩
    rw [hindex]
    exact h.entry

/-! ### Pools that constants are only pooled in -/

/-- A chunk without code in which the constants have been pooled one after the other. -/
def pooling (vs : List Constant) : Chunk := vs.foldl (fun c v => (addConstant v c).2) {}

theorem size_pooling (vs : List Constant) : (pooling vs).constants.size ≤ UInt16.size :=
  List.foldlRecOn (motive := fun c : Chunk => c.constants.size ≤ UInt16.size) vs _ (Nat.zero_le _)
    fun _ hsize _ _ => size_addConstant hsize

end Chunk

open Chunk

/-- **Which constants are pooled as they should be.**  For every constant but a NaN:

* In any chunk it is pooled as it should be exactly if the first entry that equals it, if there is one, is
  among the first 65536.
* Otherwise nothing is changed, and the index that is yielded leads to an entry that does not equal it.
  Behind the first 65536 entries no result would be as it should be, an error included: no index leads to an
  entry that equals the constant, and the constant is there.
* In a pool that constants have only been pooled in it is pooled as it should be. -/
theorem constant_pooled_iff {v : Constant} (hv : v.isNaN = false) :
    (∀ c : Chunk, c.PooledProperly v (addConstant v c) ↔ ∀ n, c.FirstAt v n → n < UInt16.size) ∧
    (∀ (c : Chunk) (n : Nat), c.FirstAt v n → UInt16.size ≤ n →
      addConstant v c = (.ok n.toUInt16, c) ∧
      (∃ w, c.constants[n.toUInt16.toNat]? = some w ∧ w.equals v = false) ∧
      ∀ result, ¬ c.PooledProperly v result) ∧
    ∀ vs : List Constant, (pooling vs).PooledProperly v (addConstant v (pooling vs)) := by
  have hiff (c : Chunk) : c.PooledProperly v (addConstant v c) ↔ ∀ n, c.FirstAt v n → n < UInt16.size := by
    constructor
    · intro hproper n hfirst
      exact hfirst.pooledProperly_iff.mp hproper
    · intro hnear
      rcases c.firstAt_or_absent v with ⟨n, hfirst⟩ | habsent
      · exact hfirst.pooledProperly_iff.mpr (hnear n hfirst)
      · exact pooledProperly_of_absent hv habsent
  refine ⟨hiff, fun c n hfirst hn => ⟨addConstant_of_firstAt hfirst, hfirst.mistaken hn,
    hfirst.not_pooledProperly hn⟩, fun vs => ?_⟩
  refine (hiff _).mpr fun n hfirst => ?_
  obtain ⟨w, hentry, -⟩ := hfirst.entry
  exact Nat.lt_of_lt_of_le (Array.getElem?_eq_some_iff.mp hentry).1 (size_pooling vs)

/-- A chunk with `k` zeros in its pool, and two equal strings behind them. -/
def stringsBehind (k : Nat) : Chunk where
  constants := (List.replicate k (Constant.num ⟨0⟩) ++ [Constant.str "x", Constant.str "x"]).toArray

theorem stringsBehind_size {k : Nat} : (stringsBehind k).constants.size = k + 2 := by
  simp [stringsBehind]

theorem stringsBehind_zero {k n : Nat} (h : n < k) :
    (stringsBehind k).constants[n]? = some (.num ⟨0⟩) := by
  rw [stringsBehind, List.getElem?_toArray, List.getElem?_append_left (by simpa using h)]
  simp [h]

theorem stringsBehind_firstAt (k : Nat) : (stringsBehind k).FirstAt (.str "x") k := by
  refine ⟨⟨.str "x", by simp [stringsBehind], rfl⟩, fun m hm w hw => ?_⟩
  obtain rfl := Option.some.inj ((stringsBehind_zero hm).symm.trans hw)
  rfl

/-- The last entry that has an index is found, though the pool goes on behind it. -/
theorem constant_pooled_iff_last :
    (Constant.str "x").isNaN = false ∧ (stringsBehind 65535).constants.size = 65537 ∧
      (stringsBehind 65535).PooledProperly (.str "x") (addConstant (.str "x") (stringsBehind 65535)) := by
  have hstring : (Constant.str "x").isNaN = false := rfl
  refine ⟨hstring, stringsBehind_size, ((constant_pooled_iff hstring).1 _).mpr fun n hfirst => ?_⟩
  exact Nat.lt_of_le_of_lt (hfirst.le (stringsBehind_firstAt 65535)) (by decide)

/-- **A distant constant is taken for another one.**  The string is in the pool behind 65536 zeros.  Pooling
it yields the index of the first zero. -/
theorem distant_constant_mistaken :
    addConstant (.str "x") (stringsBehind 65536) = (.ok 0, stringsBehind 65536) ∧
      (stringsBehind 65536).constants[(0 : UInt16).toNat]? = some (.num ⟨0⟩) ∧
      ¬ (stringsBehind 65536).PooledProperly (.str "x") (addConstant (.str "x") (stringsBehind 65536)) := by
  have hfirst := stringsBehind_firstAt 65536
  refine ⟨?_, stringsBehind_zero (by decide), ?_⟩
  · rw [addConstant_of_firstAt hfirst]
    rfl
  · rw [hfirst.pooledProperly_iff]
    decide

end StackScript
