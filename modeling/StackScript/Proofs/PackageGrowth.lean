import StackScript.Proofs.Faults.Steps
import StackScript.Proofs.NameLookup

/-!
# Package trees along all their operations

A tree grows by two operations: a path is entered, or a subroutine is mentioned.  In whatever order they come,
the tree stays linked in both directions, a path leads where it has led since it was first entered, and a
subroutine keeps the label of its first mention, which no other has.

* `PackageTree.Grown`: one tree and draft come from others by such operations.
* `PackageTree.Grown.continues`: what the operations preserve, and what they only add to.
* `PackageTree.Extends.components`: what leads to a package stays the same.
* `PackageTree.enterComponents_of_descend`: what entering a path again does.
* `PackageTree.Grown.apart`: labels stay apart.
* `package_tree_grows`: all of this for the trees that come from the empty one.
-/

namespace StackScript

/-! ### Cutting a path -/

namespace Path

theorem componentChars_ne_nil (w : List Char) : componentChars w ≠ [] := by
  fun_cases componentChars w <;> simp

/-- Every path has components, if only one without a name. -/
theorem components_ne_nil (path : String) : components path ≠ [] := by
  simp [components, componentChars_ne_nil]

/-- A character that does not begin a `::` goes to the first component. -/
theorem componentChars_cons {c : Char} {rest v : List Char} {vs : List (List Char)}
    (hnot : ∀ r, c = ':' → rest = ':' :: r → False) (h : componentChars rest = v :: vs) :
    componentChars (c :: rest) = (c :: v) :: vs := by
  rw [componentChars]
  · rw [h]
  · exact hnot

/-- A first component that begins with a colon was cut from text that does. -/
theorem head_of_componentChars {rest w : List Char} {ws : List (List Char)}
    (h : componentChars rest = (':' :: w) :: ws) : ∃ r, rest = ':' :: r := by
  fun_cases componentChars rest with
  | case1 => simp [componentChars] at h
  | case2 rest => exact ⟨_, rfl⟩
  | case3 c rest hnot hnil => exact absurd hnil (componentChars_ne_nil rest)
  | case4 c rest hnot v vs heq =>
      rw [componentChars_cons hnot heq] at h
      obtain ⟨⟨rfl, -⟩, -⟩ := by simpa using h
      exact ⟨rest, rfl⟩

/-- No `::` is left in a component. -/
theorem componentChars_uncut {text w : List Char} (h : w ∈ componentChars text) :
    ¬ [':', ':'] <:+: w := by
  induction text using componentChars.induct generalizing w with
  | case1 =>
      obtain rfl := List.mem_singleton.mp h
      simp
  | case2 rest ih =>
      rcases List.mem_cons.mp h with rfl | h
      · simp
      · exact ih h
  | case3 c rest hnot hnil => exact absurd hnil (componentChars_ne_nil rest)
  | case4 c rest hnot v vs heq ih =>
      rw [componentChars_cons hnot heq] at h
      rw [heq] at ih
      rcases List.mem_cons.mp h with rfl | h
      · intro hinfix
        rcases List.infix_cons_iff.mp hinfix with hfirst | hlater
        · -- The two colons would have been a separator.
          obtain ⟨v', hv⟩ := hfirst
          obtain ⟨rfl, rfl⟩ : ':' = c ∧ ':' :: v' = v := by simpa using hv
          obtain ⟨r, hr⟩ := head_of_componentChars heq
          exact hnot r rfl hr
        · exact ih List.mem_cons_self hlater
      · exact ih (List.mem_cons_of_mem _ h)

/-- The characters of a path are those of its components with `::` between them. -/
theorem intercalate_componentChars (text : List Char) :
    [':', ':'].intercalate (componentChars text) = text := by
  induction text using componentChars.induct with
  | case1 => rfl
  | case2 rest ih =>
      rw [componentChars, List.intercalate_cons_of_ne_nil (componentChars_ne_nil rest), ih]
      rfl
  | case3 c rest hnot hnil => exact absurd hnil (componentChars_ne_nil rest)
  | case4 c rest hnot v vs heq ih =>
      rw [componentChars_cons hnot heq]
      rw [heq] at ih
      cases vs with
      | nil => simpa using ih
      | cons v' vs =>
          rw [List.intercalate_cons_cons] at ih ⊢
          simpa using ih

/-- **The components of a path, joined, are the path**, and there is no `::` in any of them. -/
theorem components_spec (path : String) :
    join (components path) = path ∧ ∀ x ∈ components path, ¬ [':', ':'] <:+: x.toList := by
  refine ⟨String.toList_injective ?_, fun x hx => ?_⟩
  · rw [join, String.toList_intercalate, components, List.map_map]
    simpa using intercalate_componentChars path.toList
  · obtain ⟨w, hw, rfl⟩ := List.mem_map.mp hx
    rw [String.toList_ofList]
    exact componentChars_uncut hw

end Path

namespace PackageTree

variable {t t' : PackageTree} {d d' : Draft} {id i : PackageId} {kind : PackageKind}

/-! ### The operations -/

/-- A tree and a draft come from `t₀` and `d₀`: paths are entered and subroutines are mentioned, each in a
package of the tree, and in between the draft gets labels for other things. -/
inductive Grown (t₀ : PackageTree) (d₀ : Draft) : PackageTree → Draft → Prop where
  | refl : Grown t₀ d₀ t₀ d₀
  | enter {t : PackageTree} {d : Draft} {id : PackageId} (path : String) (kind : PackageKind) :
      Grown t₀ d₀ t d → id < t.packages.size → Grown t₀ d₀ (t.enter id path kind).2 d
  | mention {t : PackageTree} {d : Draft} {id : PackageId} (name : String) : Grown t₀ d₀ t d →
      id < t.packages.size → Grown t₀ d₀ (t.mention id name d).2.1 (t.mention id name d).2.2
  | draft {t : PackageTree} {d d' : Draft} : Grown t₀ d₀ t d → d.labels.size ≤ d'.labels.size →
      Grown t₀ d₀ t d'

/-- The tree `t'` is linked and has what `t` has: its packages, its modules, and its subroutines as they
are known. -/
structure Continues (t t' : PackageTree) : Prop where
  closed : t'.Closed
  grows : t.Extends t'
  subs : ∀ {i x s}, t.sub? i x = some s → t'.sub? i x = some s

theorem Entered.continues {path : List String} {r : PackageId × PackageTree}
    (h : t.Entered id kind path r) : t.Continues r.2 :=
  ⟨h.closed, h.grows, fun hs => (h.subs _ _).trans hs⟩

theorem Continues.trans {t₁ t₂ t₃ : PackageTree} (h₁ : t₁.Continues t₂) (h₂ : t₂.Continues t₃) :
    t₁.Continues t₃ :=
  ⟨h₂.closed, h₁.grows.trans h₂.grows, fun hs => h₂.subs (h₁.subs hs)⟩

/-- **What the operations preserve**, and what they only add to. -/
theorem Grown.continues (h : Grown t d t' d') (ht : t.Closed) : t.Continues t' := by
  induction h with
  | refl => exact ⟨ht, .refl, fun hs => hs⟩
  | enter path kind _ hid ih => exact ih.trans (enter_spec ih.closed hid).continues
  | mention name _ hid ih => exact ih.trans ⟨ih.closed.mention, .mention, mention_keeps hid⟩
  | draft _ _ ih => exact ih

/-! ### Walking outward -/

theorem Closed.parent?_root (h : t.Closed) : t.parent? PackageTree.root = none := by
  cases hp : t.parent? PackageTree.root with
  | none => rfl
  | some p => exact absurd (h.lt hp) (Nat.not_lt_zero p)

/-- A package other than the root has a parent, which was there before it. -/
theorem Closed.exists_parent (h : t.Closed) (hid : id < t.packages.size) (hne : id ≠ PackageTree.root) :
    ∃ p, t.parent? id = some p ∧ p < id := by
  cases hp : t.parent? id with
  | none => exact absurd (h.root hid hp) hne
  | some p => exact ⟨p, rfl, h.lt hp⟩

/-- The walk outward from a package ends at the root. -/
theorem Closed.getLast?_outward (h : t.Closed) (hid : id < t.packages.size) :
    (t.outward id).getLast? = some PackageTree.root := by
  induction id using Nat.strongRecOn with
  | _ id ih =>
    cases hp : t.parent? id with
    | none => rw [outward, walk, hp, List.getLast?_singleton, h.root hid hp]
    | some p =>
        have hlt := h.lt hp
        rw [h.outward_of_some hp, List.getLast?_cons, ih p hlt (Nat.lt_trans hlt hid)]
        rfl

/-- **What leads to a package stays the same** as the tree is extended. -/
theorem Extends.components (h : t.Extends t') (ht : t.Closed) (ht' : t'.Closed)
    (hid : id < t.packages.size) : t'.components id = t.components id := by
  have hdown := h.descend? (ht.descend_components hid)
  rw [ht'.components_of_descend hdown, components_of_none ht'.parent?_root, List.nil_append]

/-! ### Entering a path again -/

/-- **Entering a path that leads somewhere** leads there, and at most makes a module of what is there. -/
theorem enterComponents_of_descend {path : List String} (hne : path ≠ [])
    (h : t.descend? id path = some i) :
    t.enterComponents id kind path = (i, if kind = .module then t.promote i else t) := by
  induction path generalizing id with
  | nil => exact absurd rfl hne
  | cons x rest ih =>
      simp only [descend?] at h
      cases hc : t.child? id x with
      | none => simp [hc] at h
      | some c =>
          rw [hc] at h
          cases rest with
          | nil =>
              obtain rfl := Option.some.inj h
              rw [enterComponents, enterChild_def, hc]
          | cons y rest =>
              -- On the way there are plain packages, so that nothing is made a module.
              rw [enterComponents, enterChild_def, hc]
              · exact ih (List.cons_ne_nil _ _) h
              · exact List.cons_ne_nil _ _

/-! ### Labels -/

/-- The labels of the subroutines of the tree are labels of the draft, and no two have the same. -/
structure OwnLabels (t : PackageTree) (d : Draft) : Prop where
  below : ∀ {i x s}, t.sub? i x = some s → s.label.id.toNat < d.labels.size
  apart : ∀ {i j x y s r}, t.sub? i x = some s → t.sub? j y = some r → s.label = r.label →
    i = j ∧ x = y

theorem OwnLabels.draft (h : t.OwnLabels d) (hd : d.labels.size ≤ d'.labels.size) : t.OwnLabels d' :=
  ⟨fun hs => Nat.lt_of_lt_of_le (h.below hs) hd, h.apart⟩

/-- Mentioning a subroutine takes no label away. -/
theorem size_labels_mention {name : String} :
    d.labels.size ≤ (t.mention id name d).2.2.labels.size := by
  rcases @mention_eq t id name d with ⟨-, heq⟩ | ⟨-, -, heq⟩
  · rw [heq]
  · rw [heq]
    simp [Draft.newLabel]

/-- A subroutine that is new gets a label that none has yet. -/
theorem OwnLabels.mention {name : String} (h : t.OwnLabels d)
    (hfew : (t.mention id name d).2.2.labels.size ≤ UInt32.size) :
    (t.mention id name d).2.1.OwnLabels (t.mention id name d).2.2 := by
  rcases @mention_eq t id name d with ⟨-, heq⟩ | ⟨-, -, heq⟩
  · rwa [heq]
  rw [heq] at hfew ⊢
  have hsize : d.newLabel.2.labels.size = d.labels.size + 1 := Array.size_push ..
  have hnext : d.nextLabel.id.toNat = d.labels.size := by
    refine Draft.nextLabel_toNat ?_
    rw [hsize] at hfew
    exact hfew
  have hfresh {j : PackageId} {y : String} {r : Subroutine} (hr : t.sub? j y = some r) :
      r.label ≠ d.nextLabel := by
    intro hlabel
    have hlt := h.below hr
    rw [hlabel, hnext] at hlt
    exact Nat.lt_irrefl _ hlt
  refine ⟨fun hs => ?_, fun hs hr hlabel => ?_⟩
  · rw [hsize]
    rcases sub?_of_setSub hs with ⟨-, -, -, rfl⟩ | ⟨-, hs⟩
    · exact hnext ▸ Nat.lt_succ_self _
    · exact Nat.lt_succ_of_lt (h.below hs)
  · rcases sub?_of_setSub hs with ⟨-, rfl, rfl, rfl⟩ | ⟨-, hs⟩
    · rcases sub?_of_setSub hr with ⟨-, rfl, rfl, -⟩ | ⟨-, hr⟩
      · exact ⟨rfl, rfl⟩
      · exact absurd hlabel.symm (hfresh hr)
    · rcases sub?_of_setSub hr with ⟨-, -, -, rfl⟩ | ⟨-, hr⟩
      · exact absurd hlabel (hfresh hs)
      · exact h.apart hs hr hlabel

/-- **Labels stay apart** as long as there are numbers for them. -/
theorem Grown.apart (h : Grown t d t' d') (ht : t.Closed) (hfew : d'.labels.size ≤ UInt32.size)
    (hstart : t.OwnLabels d) : t'.OwnLabels d' := by
  induction h with
  | refl => exact hstart
  | enter path kind h hid ih =>
      have hsubs := (@enter_spec _ _ path kind (h.continues ht).closed hid).subs
      have hapart := ih hfew
      refine ⟨fun hs => ?_, fun hs hr => ?_⟩
      · rw [hsubs] at hs
        exact hapart.below hs
      · rw [hsubs] at hs hr
        exact hapart.apart hs hr
  | mention name _ _ ih => exact (ih (Nat.le_trans size_labels_mention hfew)).mention hfew
  | draft _ hd ih => exact (ih (Nat.le_trans hd hfew)).draft hd

theorem apart_empty : ({} : PackageTree).OwnLabels d := by
  have hnone {i : PackageId} {x : String} {s : Subroutine} : ({} : PackageTree).sub? i x ≠ some s := by
    simp [sub?_empty]
  exact ⟨fun hs => absurd hs hnone, fun hs => absurd hs hnone⟩

end PackageTree

open PackageTree

/-- **Package trees as they grow.**  However paths are entered and subroutines mentioned from the empty tree
on:

* a package other than the root has a parent of a smaller number, so that walking outward ends at the root
  and no more steps than the number of the package and one more are ever taken;
* what a package has under a name is what has the package for its parent and the name for its name;
* no two packages are reached by the same names;
* entering a path from a package arrives at a package of the new tree that is reached by the names of the
  first package followed by the components of the path, what leads to the others is as before, and entering
  it once more at any later time arrives at the same package and changes nothing, but that the package
  becomes a module if one is wanted;
* what is a module remains one;
* a subroutine that is mentioned is known from then on, mentioning it again gives the same label and changes
  nothing, and no other subroutine has its label. -/
theorem package_tree_grows {d₀ d : Draft} {t : PackageTree} (h : Grown {} d₀ t d)
    (hfew : d.labels.size ≤ UInt32.size) :
    (t.parent? root = none ∧ ∀ id < t.packages.size,
      (id ≠ root → ∃ p, t.parent? id = some p ∧ p < id) ∧ (t.outward id).getLast? = some root ∧
        ∀ steps, id < steps → t.walk steps id = t.outward id) ∧
    (∀ p m c, t.child? p m = some c ↔ t.parent? c = some p ∧ (t.get c).name = m) ∧
    (∀ id i, id < t.packages.size → i < t.packages.size → t.components id = t.components i → id = i) ∧
    (∀ id path kind, id < t.packages.size →
      (Path.join (Path.components path) = path ∧
        ∀ x ∈ Path.components path, ¬ [':', ':'] <:+: x.toList) ∧
      (t.enter id path kind).1 < (t.enter id path kind).2.packages.size ∧
      (t.enter id path kind).2.components (t.enter id path kind).1 =
        t.components id ++ Path.components path ∧
      (∀ i < t.packages.size, (t.enter id path kind).2.components i = t.components i) ∧
      ∀ t' d' again, Grown (t.enter id path kind).2 d t' d' →
        t'.enter id path again =
          ((t.enter id path kind).1,
            if again = .module then t'.promote (t.enter id path kind).1 else t')) ∧
    (∀ t' d' id, Grown t d t' d' → t.kind id = .module → t'.kind id = .module) ∧
    (∀ id name t' d', id < t.packages.size →
      Grown (t.mention id name d).2.1 (t.mention id name d).2.2 t' d' →
        t'.sub? id name = some (t.mention id name d).1 ∧
          t'.mention id name d' = ((t.mention id name d).1, t', d')) ∧
    ∀ id i x y s r, t.sub? id x = some s → t.sub? i y = some r → s.label = r.label →
      id = i ∧ x = y := by
  have ht : t.Closed := (h.continues closed_empty).closed
  refine ⟨⟨ht.parent?_root, fun id hid => ⟨fun hne => ht.exists_parent hid hne,
      ht.getLast?_outward hid, fun steps hlt => ht.walk_eq hlt (Nat.lt_succ_self id)⟩⟩,
    fun p m c => ⟨fun hc => ht.up hc, fun hc => hc.2 ▸ ht.down hc.1⟩,
    fun id i hid hi heq => ht.eq_of_components hid hi heq, fun id path kind hid => ?entering,
    fun t' d' id hlater hk => (hlater.continues ht).grows.module hk,
    fun id name t' d' hid hlater => ?mentioning,
    fun id i x y s r hs hr => (h.apart closed_empty hfew apart_empty).apart hs hr⟩
  case entering =>
    have hspec := @enter_spec t id path kind ht hid
    refine ⟨Path.components_spec path, hspec.inside, ?_,
      fun i hi => hspec.grows.components ht hspec.closed hi, fun t' d' again hlater => ?_⟩
    · rw [hspec.closed.components_of_descend hspec.leads.descends,
        hspec.grows.components ht hspec.closed hid]
    · exact enterComponents_of_descend (Path.components_ne_nil path)
        ((hlater.continues hspec.closed).grows.descend? hspec.leads.descends)
  case mentioning =>
    have hkept := (hlater.continues ht.mention).subs (sub?_mention_self hid)
    refine ⟨hkept, ?_⟩
    rw [PackageTree.mention, hkept]

/-- A module below a package. -/
def discs : PackageTree := (({} : PackageTree).enter root "Shape::Disc" .module).2

/-- A subroutine of the same name has been mentioned in both, and the module entered once more, as a plain
package. -/
def regrown : PackageTree × Draft :=
  let r := discs.mention 2 "area" {}
  let r := r.2.1.mention 1 "area" r.2.2
  ((r.2.1.enter root "Shape::Disc" .package).2, r.2.2)

/-- The path leads to the same module, and the two subroutines have labels of their own. -/
theorem package_tree_grows_regrown :
    Grown {} {} regrown.1 regrown.2 ∧ regrown.2.labels.size ≤ UInt32.size ∧
      regrown.1.components 2 = ["Shape", "Disc"] ∧
      (regrown.1.enter root "Shape::Disc" .module).1 = 2 ∧ regrown.1.kind 2 = .module ∧
      (∃ p, regrown.1.parent? 2 = some p ∧ p < 2) ∧
      ∀ s r, regrown.1.sub? 2 "area" = some s → regrown.1.sub? 1 "area" = some r → s.label ≠ r.label := by
  have hdiscs : Grown {} {} discs {} := .enter "Shape::Disc" .module .refl (by decide +kernel)
  have hgrown {t : PackageTree} (h : Grown t {} discs {}) : Grown t {} regrown.1 regrown.2 := by
    refine .enter "Shape::Disc" .package (.mention "area" (.mention "area" h ?_) ?_) ?_
    all_goals decide +kernel
  have hfew : regrown.2.labels.size ≤ UInt32.size := by decide +kernel
  obtain ⟨⟨-, hparents⟩, -, -, -, -, -, hapart⟩ := package_tree_grows (hgrown hdiscs) hfew
  obtain ⟨-, -, -, -, hmodule, -, -⟩ := package_tree_grows hdiscs (by decide)
  obtain ⟨-, -, -, henter, -, -, -⟩ := @package_tree_grows {} {} {} .refl (by decide)
  obtain ⟨-, -, -, -, hagain⟩ := henter root "Shape::Disc" .module (by decide +kernel)
  refine ⟨hgrown hdiscs, hfew, by decide +kernel, ?_, hmodule _ _ 2 (hgrown .refl) (by decide +kernel),
    (hparents 2 (by decide +kernel)).1 (by decide), fun s r hs hr heq => ?_⟩
  · rw [hagain regrown.1 regrown.2 .module (hgrown .refl)]
    decide +kernel
  · exact absurd (hapart 2 1 "area" "area" s r hs hr heq).1 (by decide)

end StackScript
