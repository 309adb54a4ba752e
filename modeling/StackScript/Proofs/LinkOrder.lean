import Mathlib.Data.List.Nodup
import Mathlib.Logic.Equiv.Basic
import StackScript.Proofs.LinkErrors

/-!
# The order of units

The entry unit is laid out first; in which order the others are given makes no difference but to where
they are.  Every call goes to the same place of the same unit, every exported name stands for the same
place of the same unit, and where units do not fit together the same is wrong with them.

* `exists_renumbering`: how the units of one order are numbered in another.
* `linkErrors_perm`: what is wrong with units in one order is wrong with them in another.
* `Directed.same`: what a call means in one order it means in another.
* `link_rearranged`: linking does not depend on the order of units.
-/

namespace StackScript

/-! ### Numbering -/

/-- The renumbering that leaves the first in its place and renumbers the others. -/
def renumberBehind (f : Equiv.Perm Nat) : Equiv.Perm Nat where
  toFun k := k.casesOn 0 fun k => f k + 1
  invFun k := k.casesOn 0 fun k => f.symm k + 1
  left_inv k := by cases k <;> simp
  right_inv k := by cases k <;> simp

/-- Lists with the same members are numbered one by the other. -/
theorem exists_renumbering {α : Type} {l l' : List α} (h : l.Perm l') :
    ∃ f : Equiv.Perm Nat, ∀ k, l'[f k]? = l[k]? := by
  induction h with
  | nil => exact ⟨Equiv.refl Nat, fun k => rfl⟩
  | cons x _ ih =>
      obtain ⟨f, hf⟩ := ih
      refine ⟨renumberBehind f, fun k => ?_⟩
      cases k with
      | zero => rfl
      | succ k => simpa [renumberBehind] using hf k
  | swap x y l =>
      refine ⟨Equiv.swap 0 1, fun k => ?_⟩
      rcases k with _ | _ | k
      · simp
      · simp
      · rw [Equiv.swap_apply_of_ne_of_ne (by simp) (by simp)]
        rfl
  | trans _ _ ih₁ ih₂ =>
      obtain ⟨f, hf⟩ := ih₁
      obtain ⟨g, hg⟩ := ih₂
      exact ⟨f.trans g, fun k => (hg (f k)).trans (hf k)⟩

theorem find?_append_cons {α : Type} {P : α → Bool} {before after : List α} {a : α} (ha : P a = true)
    (hbefore : ∀ b ∈ before, P b = false) : (before ++ a :: after).find? P = some a :=
  List.find?_eq_some_iff_append.mpr ⟨ha, before, after, rfl, by simpa using hbefore⟩

/-- The layout of units has all of them, the entry unit first. -/
theorem entryFirst?_of_find? {entry : String} {units : List CompiledUnit} {first : CompiledUnit}
    (h : units.find? (·.name == entry) = some first) :
    ∃ rest, entryFirst? entry units = some (first :: rest) ∧ units.Perm (first :: rest) := by
  obtain ⟨hname, front, rest, rfl, hfront⟩ := List.find?_eq_some_iff_append.mp h
  exact ⟨front ++ rest, entryFirst?_append (by simpa using hname) (by simpa using hfront),
    List.perm_middle⟩

/-! ### What is wrong with units -/

/-- The order of the units does not matter for which names are exported. -/
theorem exportedNames_perm {us us' : List CompiledUnit} (h : us.Perm us') :
    (exportedNames us).Perm (exportedNames us') :=
  h.flatMap_right _

/-- A name is repeated once less than it is there. -/
theorem count_repeats {names : List String} {name : String} :
    (repeats names).count name = names.count name - 1 := by
  induction names using List.reverseRecOn with
  | nil => simp [repeats]
  | append_singleton names n ih =>
      rw [repeats_append_singleton, List.count_append, List.count_append, ih]
      by_cases hn : n = name
      · subst hn
        by_cases hmem : n ∈ names
        · have hpos : 0 < names.count n := List.count_pos_iff.mpr hmem
          simp only [hmem, if_true, List.count_singleton_self]
          exact Nat.sub_add_cancel hpos
        · simp [hmem, List.count_eq_zero_of_not_mem hmem]
      · by_cases hmem : n ∈ names <;> simp [hmem, hn]

/-- The order of names does not matter for which are repeated. -/
theorem repeats_perm {names names' : List String} (h : names.Perm names') :
    (repeats names).Perm (repeats names') := by
  rw [List.perm_iff_count]
  intro name
  rw [count_repeats, count_repeats, h.count_eq]

/-- The order of the units does not matter for which names a unit lacks. -/
theorem CompiledUnit.lacks_perm {us us' : List CompiledUnit} (h : us.Perm us') {u : CompiledUnit}
    {name : String} : u.Lacks us name ↔ u.Lacks us' name := by
  unfold CompiledUnit.Lacks
  simp only [(exportedNames_perm h).mem_iff]

/-- **What is wrong with units does not depend on their order.** -/
theorem linkErrors_perm {us us' : List CompiledUnit} (h : us.Perm us') :
    (linkErrors us).Perm (linkErrors us') := by
  have hmissing (u : CompiledUnit) : u.missing us = u.missing us' := by
    simp only [CompiledUnit.missing, h.mem_iff]
  have hdangling (u : CompiledUnit) : u.dangling us = u.dangling us' := by
    simp only [CompiledUnit.dangling, CompiledUnit.lacks_perm h]
  unfold linkErrors
  refine (((repeats_perm (exportedNames_perm h)).map _).append ?_).append ?_
  · simp only [hmissing]
    exact h.flatMap_right _
  · simp only [hdangling]
    exact h.flatMap_right _

/-! ### What calls mean -/

/-- A name that is exported once is exported by one unit, and once by that. -/
theorem export_unique {us : List CompiledUnit} (hnodup : (exportedNames us).Nodup) {k k' : Nat}
    {u u' : CompiledUnit} {x x' : Export} (hk : us[k]? = some u) (hk' : us[k']? = some u')
    (hx : x ∈ u.interface.exports) (hx' : x' ∈ u'.interface.exports) (hname : x'.name = x.name) :
    k' = k ∧ x' = x := by
  obtain ⟨hunits, hapart⟩ := List.nodup_flatMap.mp hnodup
  have hlt {m n : Nat} {v w : CompiledUnit} {y z : Export} (hm : us[m]? = some v)
      (hn : us[n]? = some w) (hy : y ∈ v.interface.exports) (hz : z ∈ w.interface.exports)
      (hyz : y.name = z.name) : ¬ m < n := by
    intro hmn
    obtain ⟨hmlt, rfl⟩ := List.getElem?_eq_some_iff.mp hm
    obtain ⟨hnlt, rfl⟩ := List.getElem?_eq_some_iff.mp hn
    have hdisjoint := List.pairwise_iff_getElem.mp hapart m n hmlt hnlt hmn
    exact hdisjoint (List.mem_map_of_mem hy) (hyz ▸ List.mem_map_of_mem hz)
  obtain rfl : k' = k := Nat.le_antisymm (Nat.le_of_not_lt (hlt hk hk' hx hx' hname.symm))
    (Nat.le_of_not_lt (hlt hk' hk hx' hx hname))
  obtain rfl := Option.some.inj (hk.symm.trans hk')
  exact ⟨rfl, List.inj_on_of_nodup_map (hunits u (List.mem_of_getElem? hk)) hx' hx hname⟩

/-- Offset `t` of the program that is made of `us` and offset `t'` of the one that is made of `us'` are
the same subroutine of the same unit, which has number `f k` there if it has number `k` here. -/
def SameSubroutine (us us' : List CompiledUnit) (f : Equiv.Perm Nat) (t t' : Nat) : Prop :=
  ∃ k u o, us[k]? = some u ∧ u.chunk.opens o = true ∧ t = codeBase us k + o ∧
    t' = codeBase us' (f k) + o

section

variable {us us' : List CompiledUnit} {f : Equiv.Perm Nat}

/-- A name that is exported once is the same subroutine in both orders. -/
theorem ExportedAt.same (hf : ∀ k, us'[f k]? = us[k]?) (hnodup : (exportedNames us').Nodup)
    (hopens : ∀ u ∈ us, ∀ x ∈ u.interface.exports, u.chunk.opens x.position = true) {name : String}
    {t t' : Nat} (h : ExportedAt us name t) (h' : ExportedAt us' name t') :
    SameSubroutine us us' f t t' := by
  obtain ⟨k, u, x, hk, hx, hname, rfl⟩ := h
  obtain ⟨k', u', x', hk', hx', hname', rfl⟩ := h'
  obtain ⟨rfl, rfl⟩ := export_unique hnodup ((hf k).trans hk) hk' hx hx' (hname'.trans hname.symm)
  exact ⟨k, u, x'.position, hk, hopens u (List.mem_of_getElem? hk) x' hx, rfl, rfl⟩

/-- **What a call means does not depend on the order of the units.** -/
theorem Directed.same (hf : ∀ k, us'[f k]? = us[k]?) (hperm : us.Perm us')
    (hnodup : (exportedNames us').Nodup)
    (hexports : ∀ u ∈ us, ∀ x ∈ u.interface.exports, u.chunk.opens x.position = true)
    (hsubs : ∀ u ∈ us, ∀ (name : String) o, u.subroutines[name]? = some o → u.chunk.opens o = true)
    {k t t' : Nat} {u : CompiledUnit} {name : String} (hk : us[k]? = some u)
    (h : Directed us k u name t) (h' : Directed us' (f k) u name t') : SameSubroutine us us' f t t' := by
  have hmem {n : String} : n ∈ exportedNames us ↔ n ∈ exportedNames us' :=
    (exportedNames_perm hperm).mem_iff
  have hown {o : Nat} (ho : u.subroutines[name]? = some o) : name ∈ u.subroutines :=
    Std.ExtTreeMap.mem_iff_isSome_getElem?.mpr (by simp [ho])
  cases h with
  | own ho =>
      cases h' with
      | own ho' =>
          obtain rfl := Option.some.inj (ho.symm.trans ho')
          exact ⟨k, u, _, hk, hsubs u (List.mem_of_getElem? hk) name _ ho, rfl, rfl⟩
      | exported hnot _ => exact absurd (hown ho) hnot
      | used hnot _ _ _ _ => exact absurd (hown ho) hnot
  | exported hnot hat =>
      cases h' with
      | own ho' => exact absurd (hown ho') hnot
      | exported _ hat' => exact hat.same hf hnodup hexports hat'
      | used _ hnone _ _ _ => exact absurd (hmem.mp (exists_exportedAt.mp ⟨t, hat⟩)) hnone
  | @used before after d t hnot hnone hsplit hbefore hat =>
      cases h' with
      | own ho' => exact absurd (hown ho') hnot
      | exported _ hat' => exact absurd (hmem.mpr (exists_exportedAt.mp ⟨t', hat'⟩)) hnone
      | @used before' after' d' t' _ _ hsplit' hbefore' hat' =>
          -- The first module that exports one is the same in both orders.
          have hfirst : u.interface.dependencies.find? (fun d => d ++ "::" ++ name ∈ exportedNames us) =
              some d := by
            rw [hsplit]
            exact find?_append_cons (by simpa using exists_exportedAt.mp ⟨t, hat⟩) (by simpa using hbefore)
          have hfirst' : u.interface.dependencies.find? (fun d => d ++ "::" ++ name ∈ exportedNames us) =
              some d' := by
            rw [hsplit']
            exact find?_append_cons (by simpa using hmem.mpr (exists_exportedAt.mp ⟨t', hat'⟩))
              (by simpa [hmem] using hbefore')
          obtain rfl := Option.some.inj (hfirst.symm.trans hfirst')
          exact hat.same hf hnodup hexports hat'

end

/-! ### Programs -/

/-- The programs are the same but for where the units are: `r` is made of `us` and `r'` of `us'`, where
the unit that has number `k` here has number `f k`. -/
structure LinkedProgram.Rearranges (r r' : LinkedProgram) (us us' : List CompiledUnit)
    (f : Equiv.Perm Nat) : Prop where
  units : ∀ {k u}, us[k]? = some u → r.units[k]? = some (u.name, codeBase us k) ∧
    r'.units[f k]? = some (u.name, codeBase us' (f k))
  /-- Each instruction stands in both programs.  What it refers to has moved with its unit, and a call
  left open goes to the same subroutine. -/
  code : ∀ {k u j i}, us[k]? = some u → u.chunk.instructions[j]? = some i →
    ∃ i₁ i₂ : Instruction, r.chunk.instructions[codeBase us k + j]? = some i₁ ∧
      r'.chunk.instructions[codeBase us' (f k) + j]? = some i₂ ∧
      i₁.opcode = i.opcode ∧ i₂.opcode = i.opcode ∧
      match i.operand with
      | some (.call .unresolved argc) => ∃ t t', i₁.operand = some (.call (.address t) argc) ∧
          i₂.operand = some (.call (.address t') argc) ∧ SameSubroutine us us' f t t'
      | operand => Placed.Moves ⟨u, codeBase us k, poolBase us k⟩ operand i₁.operand ∧
          Placed.Moves ⟨u, codeBase us' (f k), poolBase us' (f k)⟩ operand i₂.operand
  names : ∀ name, name ∈ r.exports ↔ name ∈ r'.exports
  exports : ∀ {name : String} {t t'}, r.exports[name]? = some t → r'.exports[name]? = some t' →
    SameSubroutine us us' f t t'

/-- What is needed of units for their order to make no difference: their calls and the subroutines they
have are listed. -/
structure CompiledUnit.Sound (u : CompiledUnit) : Prop where
  listed : u.Listed
  subroutines : ∀ (name : String) o, u.subroutines[name]? = some o → u.chunk.opens o = true
  exports : ∀ x ∈ u.interface.exports, u.chunk.opens x.position = true

theorem Program.sound_of_compile {p : Program} {name : String} {options : CompileOptions}
    {u : CompiledUnit} (h : compile name options p = .ok u) : u.Sound := by
  refine ⟨listed_of_compile h, fun x o ho => ?_, fun x hx => ?_⟩
  · obtain ⟨_, _, _, _, _, hsub, rfl⟩ := subroutine_of_compile h ho
    exact hsub.opens h
  · obtain ⟨_, _, _, _, _, hsub, hposition⟩ := export_of_compile h hx
    exact hposition ▸ hsub.opens h

/-- No two calls left open are in one place. -/
theorem CompiledUnit.Listed.eq_of_position {u : CompiledUnit} (h : u.Listed) {c c' : CallSite}
    (hc : c ∈ u.unresolved) (hc' : c' ∈ u.unresolved) (heq : c.position = c'.position) : c = c' :=
  List.inj_on_of_nodup_map (List.pairwise_map.mpr h.once) hc hc' heq

theorem LinkedProgram.Joins.rearranges {r r' : LinkedProgram} {us us' : List CompiledUnit}
    {f : Equiv.Perm Nat} (h : r.Joins us) (h' : r'.Joins us') (hf : ∀ k, us'[f k]? = us[k]?)
    (hperm : us.Perm us') (hnodup : (exportedNames us').Nodup) (hus : ∀ u ∈ us, u.Sound) :
    r.Rearranges r' us us' f := by
  have hexported (u : CompiledUnit) (hu : u ∈ us) := (hus u hu).exports
  have hmem {q : LinkedProgram} {vs : List CompiledUnit} (hq : q.Joins vs) (name : String) :
      name ∈ q.exports ↔ name ∈ exportedNames vs := by
    rw [← exists_exportedAt, Std.ExtTreeMap.mem_iff_isSome_getElem?, Option.isSome_iff_exists]
    exact exists_congr fun t => hq.exports
  refine ⟨fun {k u} hk => ⟨?_, ?_⟩, fun {k u j i} hk hi => ?_, fun name => ?_, fun {name t t'} ht ht' => ?_⟩
  · rw [h.units, hk]
    rfl
  · rw [h'.units, hf, hk]
    rfl
  · have hk' : us'[f k]? = some u := (hf k).trans hk
    obtain ⟨i₁, hi₁, hop₁, hr₁⟩ := h.instruction hk hi
    obtain ⟨i₂, hi₂, hop₂, hr₂⟩ := h'.instruction hk' hi
    refine ⟨i₁, i₂, hi₁, hi₂, hop₁, hop₂, ?_⟩
    split
    · rename_i argc heq
      simp only [heq] at hr₁ hr₂
      obtain ⟨c, hc, hcj, t, ht, ho₁⟩ := hr₁
      obtain ⟨c', hc', hcj', t', ht', ho₂⟩ := hr₂
      -- At one position of a unit only one call is left open, so both programs resolve the same one.
      obtain rfl := (hus u (List.mem_of_getElem? hk)).listed.eq_of_position hc hc'
        (hcj.trans hcj'.symm)
      refine ⟨t, t', ho₁, ho₂, ?_⟩
      exact (directed_of_target h.exports ht).same hf hperm hnodup hexported
        (fun v hv => (hus v hv).subroutines) hk (directed_of_target h'.exports ht')
    · rename_i hopen
      split at hr₁
      · rename_i argc heq
        exact absurd heq (hopen argc)
      · split at hr₂
        · rename_i argc heq
          exact absurd heq (hopen argc)
        · exact ⟨hr₁, hr₂⟩
  · rw [hmem h, hmem h', (exportedNames_perm hperm).mem_iff]
  · exact ExportedAt.same hf hnodup hexported (h.exports.mp ht) (h'.exports.mp ht')

/-- The errors found are those of the units. -/
theorem linkPlaced_eq_errors {us : List CompiledUnit} {es : List LinkError}
    (h : linkPlaced (place 0 0 us) = .error (.errors es)) : es = linkErrors us := by
  have hfault : ∀ f, linkPlaced (place 0 0 us) ≠ .error (.fault f) := by simp [h]
  obtain ⟨hok, herrors⟩ := linkPlaced_of_relocatable fun k u hk => relocatable_of_linkPlaced hfault hk
  by_cases hnone : linkErrors us = []
  · obtain ⟨r, hr⟩ := hok hnone
    simp [h] at hr
  · simpa [h] using herrors hnone

/-- **Linking does not depend on the order of units.**  Let compiled units be given in two orders with the
same entry unit.  If both can be linked, the programs are the same but for where the units are.  If there is
something wrong in both orders, the same is wrong with them. -/
theorem link_rearranged {units units' : List CompiledUnit} {entry : String}
    (hunits : ∀ u ∈ units, ∃ name options p, compile name options p = .ok u) (hperm : units.Perm units')
    (hentry : units.find? (·.name == entry) = units'.find? (·.name == entry)) :
    (∀ r r', link units entry = .ok r → link units' entry = .ok r' →
      ∃ us us' f, entryFirst? entry units = some us ∧ entryFirst? entry units' = some us' ∧
        (∀ k, us'[f k]? = us[k]?) ∧ r.Rearranges r' us us' f) ∧
    ∀ es es', link units entry = .error (.errors es) → link units' entry = .error (.errors es') →
      es.Perm es' := by
  unfold link
  cases hfind : units.find? (·.name == entry) with
  | none =>
      -- There is no entry unit in either order.
      have hnone : ∀ u ∈ units, u.name ≠ entry := by simpa using hfind
      have hnone' : ∀ u ∈ units', u.name ≠ entry := fun u hu => hnone u (hperm.mem_iff.mpr hu)
      rw [entryFirst?_eq_none hnone, entryFirst?_eq_none hnone']
      refine ⟨fun r r' h => (by cases h), fun es es' h h' => ?_⟩
      obtain rfl := LinkFailure.errors.inj (Except.error.inj h)
      obtain rfl := LinkFailure.errors.inj (Except.error.inj h')
      exact .refl _
  | some first =>
      obtain ⟨rest, hus, hlayout⟩ := entryFirst?_of_find? hfind
      obtain ⟨rest', hus', hlayout'⟩ := entryFirst?_of_find? (hentry.symm.trans hfind)
      have hboth : (first :: rest).Perm (first :: rest') := hlayout.symm.trans (hperm.trans hlayout')
      rw [hus, hus']
      refine ⟨fun r r' h h' => ?_, fun es es' h h' => ?_⟩
      · have hsound : ∀ u ∈ first :: rest, u.Sound := by
          intro u hu
          obtain ⟨name, options, p, hcompile⟩ := hunits u (hlayout.mem_iff.mpr hu)
          exact Program.sound_of_compile hcompile
        obtain ⟨f, hf⟩ := exists_renumbering hboth
        have hjoins := joins_of_listed (fun u hu => (hsound u hu).listed) h
        have hjoins' := joins_of_listed (fun u hu => (hsound u (hboth.mem_iff.mpr hu)).listed) h'
        exact ⟨_, _, f, rfl, rfl, hf, hjoins.rearranges hjoins' hf hboth (linkPlaced_directs h').1 hsound⟩
      · rw [linkPlaced_eq_errors h, linkPlaced_eq_errors h']
        exact linkErrors_perm hboth

/-- The two units of `greeting` can be linked in either order. -/
theorem link_rearranged_greeting :
    ∃ u v r r' us us' f, compile "text" {} shouting = .ok u ∧ compile "main" {} greeting = .ok v ∧
      link [u, v] "main" = .ok r ∧ link [v, u] "main" = .ok r' ∧ r.Rearranges r' us us' f := by
  have hrun : (do
      let u ← (compile "text" {} shouting).toOption
      let v ← (compile "main" {} greeting).toOption
      let _ ← (link [u, v] "main").toOption
      let _ ← (link [v, u] "main").toOption
      some (u.name, v.name)) = some ("text", "main") := by decide +kernel
  cases hu : compile "text" {} shouting with
  | error e => simp [hu, Except.toOption] at hrun
  | ok u =>
      cases hv : compile "main" {} greeting with
      | error e => simp [hu, hv, Except.toOption] at hrun
      | ok v =>
          cases hr : link [u, v] "main" with
          | error e => simp [hu, hv, hr, Except.toOption] at hrun
          | ok r =>
              cases hr' : link [v, u] "main" with
              | error e => simp [hu, hv, hr, hr', Except.toOption] at hrun
              | ok r' =>
                  have hnames : u.name = "text" ∧ v.name = "main" := by
                    simpa [hu, hv, hr, hr', Except.toOption] using hrun
                  have hunits : ∀ w ∈ [u, v], ∃ name options p, compile name options p = .ok w := by
                    intro w hw
                    rcases List.mem_cons.mp hw with rfl | hw
                    · exact ⟨"text", {}, shouting, hu⟩
                    · obtain rfl := List.mem_singleton.mp hw
                      exact ⟨"main", {}, greeting, hv⟩
                  obtain ⟨us, us', f, -, -, -, hsame⟩ := (link_rearranged hunits (.swap v u [])
                    (by simp [hnames.1, hnames.2])).1 r r' hr hr'
                  exact ⟨u, v, r, r', us, us', f, rfl, rfl, hr, hr', hsame⟩

end StackScript
