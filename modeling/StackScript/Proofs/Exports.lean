import Mathlib.Data.List.Count
import StackScript.Proofs.LinkOrder
import StackScript.Proofs.SymbolTable

/-!
# What a unit offers and needs

A unit lists each module that it uses once, and each module that it declares.  Its exports are listed as
often as declarations ask for it: a subroutine with the trait twice is exported twice, and two
subroutines of the same absolute name are both exported under it.  A name that is listed twice is
reported when the unit is linked, be it with no other unit at all.

* `applyTraits_interface`: a declaration exports its subroutine once for each time it has the trait.
* `Runs.exporting`: what is exported while a piece is lowered is in the code of the piece, and no module
  is listed twice.
* `Visits.exporting`: so what a declaration exports is counted where it is lowered.
* `Program.exports_nodup_iff`: when no name is exported twice.
* `CompiledUnit.exports_nodup_iff`: it is then that linking reports no name of the unit.
* `compile_interface`: what this comes to.
* `twice_reports`: a unit by itself can export a name twice.
-/

namespace StackScript

/-! ### What a declaration exports -/

/-- How many times a declaration exports its subroutine. -/
def SubHead.offers (head : SubHead) : Nat :=
  if head.isPrivate then 0 else head.traits.count "export"

/-- Traits leave the modules alone that are used and declared, and they export no subroutine but the
one they are of. -/
theorem applyTraits_other {head : SubHead} {entry : Label} {names : List String} {σ σ' : Session}
    (h : Lower.applyTraits head entry names σ = (.ok (), σ')) :
    σ'.interface.dependencies = σ.interface.dependencies ∧
      σ'.interface.modules = σ.interface.modules ∧
      ∀ x : Export, σ.draft.offset? entry ≠ some x.position →
        σ'.interface.exports.count x = σ.interface.exports.count x := by
  induction names generalizing σ with
  | nil =>
      obtain ⟨_, rfl⟩ := Step.pure_eq_ok.mp h
      exact ⟨rfl, rfl, fun _ _ => rfl⟩
  | cons name names ih =>
      unfold Lower.applyTraits at h
      split at h
      · obtain ⟨_, τ, h₁, h₂⟩ := Step.bind_eq_ok.mp h
        obtain ⟨hdependencies, hmodules, hcount⟩ := ih h₂
        rw [hdependencies, hmodules]
        have hdraft : τ.draft = σ.draft := by rw [(exportSub_eq_ok h₁).1]
        rw [hdraft] at hcount
        rcases exportSub_cases h₁ with ⟨d, rfl⟩ | ⟨-, rfl⟩ | ⟨e, -, he, rfl⟩
        · exact ⟨rfl, rfl, hcount⟩
        · exact ⟨rfl, rfl, hcount⟩
        · refine ⟨rfl, rfl, fun x hx => (hcount x hx).trans ?_⟩
          have hne : (⟨σ.packages.qualify σ.package head.name, e⟩ : Export) ≠ x := by
            rintro rfl
            exact hx he
          simp [Interface.addExport, hne]
      · obtain ⟨_, τ, h₁, h₂⟩ := Step.bind_eq_ok.mp h
        obtain rfl := (Move.acts_report (K := fun _ _ _ _ => False)).mp h₁
        have hrest := ih h₂
        exact hrest

/-- **A declaration exports its subroutine once for each time it has the trait**, if nothing is
reported. -/
theorem applyTraits_interface {head : SubHead} {entry : Label} {names : List String} {e : Nat}
    {σ σ' : Session} (h : Lower.applyTraits head entry names σ = (.ok (), σ'))
    (hentry : σ.draft.offset? entry = some e) (hcount : σ'.report.count ≤ σ.report.count) :
    σ'.interface.exports = σ.interface.exports ++
      List.replicate (if head.isPrivate then 0 else names.count "export")
        ⟨σ.packages.qualify σ.package head.name, e⟩ := by
  induction names generalizing σ with
  | nil =>
      obtain ⟨_, rfl⟩ := Step.pure_eq_ok.mp h
      simp
  | cons name names ih =>
      unfold Lower.applyTraits at h
      split at h
      · rename_i hname
        obtain rfl : name = "export" := by simpa using hname
        obtain ⟨_, τ, h₁, h₂⟩ := Step.bind_eq_ok.mp h
        have hle := (applyTraits_eq_ok h₂).2
        rcases exportSub_cases h₁ with ⟨d, rfl⟩ | ⟨hprivate, rfl⟩ | ⟨e', hpublic, he', rfl⟩
        · simp only [Report.count_add] at hle
          omega
        · rw [ih h₂ hentry hcount]
          simp [hprivate]
        · obtain rfl := Option.some.inj (he'.symm.trans hentry)
          rw [ih h₂ hentry hcount]
          simp [hpublic, Interface.addExport, List.replicate_succ]
      · obtain ⟨_, τ, h₁, h₂⟩ := Step.bind_eq_ok.mp h
        have hle := (applyTraits_eq_ok h₂).2
        obtain rfl := (Move.acts_report (K := fun _ _ _ _ => False)).mp h₁
        simp only [Report.count_add] at hle
        omega

/-! ### What lowering exports -/

/-- From `σ` to `σ'` subroutines are exported only if their entries are in the code between, and no
module comes to be listed twice. -/
structure Session.Exporting (σ σ' : Session) : Prop where
  position : σ.draft.position ≤ σ'.draft.position
  tidy : σ.interface.Tidy → σ'.interface.Tidy
  count : ∀ x : Export, ¬ (σ.draft.position < x.position ∧ x.position ≤ σ'.draft.position) →
    σ'.interface.exports.count x = σ.interface.exports.count x

namespace Session.Exporting

variable {σ σ₁ σ₂ σ₃ σ' : Session}

theorem of_exports (hposition : σ.draft.position ≤ σ'.draft.position)
    (h : σ'.interface.exports = σ.interface.exports ∧ (σ.interface.Tidy → σ'.interface.Tidy)) :
    σ.Exporting σ' :=
  ⟨hposition, h.2, fun x _ => by rw [h.1]⟩

theorem of_interface (hposition : σ.draft.position ≤ σ'.draft.position)
    (h : σ'.interface = σ.interface) : σ.Exporting σ' :=
  of_exports hposition (by rw [h]; exact ⟨rfl, id⟩)

theorem refl : σ.Exporting σ := of_interface (Nat.le_refl _) rfl

theorem trans (h₁ : σ₁.Exporting σ₂) (h₂ : σ₂.Exporting σ₃) : σ₁.Exporting σ₃ := by
  refine ⟨Nat.le_trans h₁.position h₂.position, fun h => h₂.tidy (h₁.tidy h), fun x hx => ?_⟩
  have hp₁ := h₁.position
  have hp₂ := h₂.position
  rw [h₂.count x (by omega), h₁.count x (by omega)]

end Session.Exporting

section Moves

variable {K : Piece → Bool → Session → Session → Prop} {ms : List Move} {σ σ' : Session}

/-- Moves that neither lower a piece nor change the interface. -/
theorem Along.interface_flat (h : Along K ms σ σ') (hpieces : Move.pieces ms = [])
    (hms : ms.all (!·.onInterface) = true) : σ'.interface = σ.interface := by
  have hdoes := h.does hpieces
  clear h hpieces
  induction ms generalizing σ with
  | nil =>
      obtain rfl : σ = σ' := hdoes
      rfl
  | cons m ms ih =>
      obtain ⟨σ₁, hm, hdoes⟩ := hdoes
      simp only [List.all_cons, Bool.and_eq_true, Bool.not_eq_true'] at hms
      rw [ih hms.2 hdoes]
      refine (Move.Does.spares hm).interface ?_ ?_
      · rintro f rfl
        cases hms.1
      · rintro head entry rfl
        cases hms.1

theorem Along.exporting (hK : ∀ {p b σ σ'}, K p b σ σ' → σ.Exporting σ')
    (hms : ∀ m ∈ ms, m.Unexported) (h : Along K ms σ σ') : σ.Exporting σ' :=
  h.keeps (I := σ.Exporting)
    (fun hm hd hτ => hτ.trans (.of_exports hd.grows.position_le (hd.interface (hms _ hm))))
    (fun _ hp hτ => hτ.trans (hK hp)) .refl

end Moves

section Sub

variable {K : Piece → Bool → Session → Session → Prop} {head : SubHead} {type : ValueType}
  {ps : List SubParam} {sub sub' : Subroutine} {skip : Label} {slot : Slot} {uses ends : Bool}
  {params locals : UInt16} {close : List Move} {A B : Session → Prop}
  {σ σ₁ σ₂ σ₃ σ₄ σ₅ σ' : Session}

/-- Before the body of a subroutine nothing is exported. -/
theorem SubRun.interface_params
    (h₁ : Along K [.mention head.name sub, .setSub head.name sub', .sees A, .sees B, .newLabel skip,
      .enter (.subroutine type)] σ σ₁)
    (h₂ : Along K [.emit (.jump skip), .mark sub.label, .emit (.pushFrame params locals)] σ₁ σ₂)
    (h₃ : Along K (Move.argListSlot uses slot ++ [Move.params ps]) σ₂ σ₃) :
    σ₃.interface = σ.interface := by
  rw [h₃.interface_flat (by simp [Move.pieces]) (by cases uses <;> rfl), h₂.interface_flat rfl rfl,
    h₁.interface_flat rfl rfl]

/-- Behind the body the traits are applied. -/
theorem SubRun.traits_behind (hentry : σ₄.draft.offset? sub.label = some (σ.draft.position + 1))
    (hclose : Closes head.span ends close) (h₅ : Along K close σ₄ σ₅)
    (h₆ : Along K [.leave, .mark skip, .traits head sub.label] σ₅ σ') :
    ∃ ρ, ρ.interface = σ₄.interface ∧ ρ.draft.offset? sub.label = some (σ.draft.position + 1) ∧
      ρ.draft = σ'.draft ∧ σ₄.draft.position ≤ ρ.draft.position ∧
      Lower.applyTraits head sub.label head.traits ρ = (.ok (), σ') := by
  obtain ⟨ρ, hleave, _, htraits, rfl⟩ := (@along_append K [.leave, .mark skip] _ _ _).mp h₆
  have g₅ : σ₄.draft.Grows ρ.draft := (h₅.grows_flat hclose.pieces).trans (hleave.grows_flat rfl)
  refine ⟨ρ, ?_, g₅.offset hentry, ?_, g₅.position_le, htraits⟩
  · rw [hleave.interface_flat rfl rfl, h₅.interface_flat hclose.pieces hclose.interfaceless]
  · rw [(applyTraits_eq_ok htraits).1]

end Sub

theorem SubRun.exporting {K : Piece → Bool → Session → Session → Prop} {head : SubHead}
    {body : List Stmt} {σ σ' : Session} (h : SubRun K head body σ σ')
    (hK : ∀ {p b σ σ'}, K p b σ σ' → σ.draft.Grows σ'.draft ∧ σ.Exporting σ') : σ.Exporting σ' := by
  cases h with
  | @intro ps sub skip slot ends close σ₁ σ₂ σ₃ σ₄ σ₅ _ _ hclose h₁ h₂ h₃ hbody h₅ h₆ =>
  have hsame := SubRun.interface_params h₁ h₂ h₃
  obtain ⟨hposition, hentry⟩ := SubRun.entry_params h₁ h₂ h₃
  obtain ⟨hgrows, hexporting⟩ := hK hbody
  obtain ⟨ρ, hρ, hρentry, hdraft, hle, htraits⟩ :=
    SubRun.traits_behind (hgrows.offset hentry) hclose h₅ h₆
  obtain ⟨hdependencies, hmodules, hcount⟩ := applyTraits_other htraits
  have hρ' : ρ.draft.position = σ'.draft.position := by rw [hdraft]
  have hbehind := hexporting.position
  refine ⟨by omega, fun h => ?_, fun x hx => ?_⟩
  · have htidy := hρ ▸ hexporting.tidy (hsame ▸ h)
    exact ⟨hdependencies ▸ htidy.dependencies, hmodules ▸ htidy.modules⟩
  · have hne : ρ.draft.offset? sub.label ≠ some x.position := by
      intro heq
      have := Option.some.inj (hρentry.symm.trans heq)
      omega
    rw [hcount x hne, hρ, hexporting.count x (by omega), hsame]

/-- **What is exported while a piece is lowered is in the code of the piece**, and no module comes to be
listed twice. -/
theorem Runs.exporting {p : Piece} {b : Bool} {σ σ' : Session} (h : Runs Quiet p b σ σ') :
    σ.Exporting σ' := by
  refine h.ind (P := fun _ _ σ σ' => σ.Exporting σ') ?_
  intro p b ms σ σ' hu hq ha
  rcases p.other_or_sub with hp | ⟨head, body, rfl⟩
  · exact ha.exporting And.right fun m hm => hu.unexported hp hm
  · exact (hu.subRun hq ha).exporting fun h => ⟨h.1.grows, h.2⟩

/-- Where a part of a piece is lowered, what has its entry there has not been exported yet, and it is not
exported again behind. -/
theorem Part.exporting {p q : Piece} {b e : Bool} {σ σ' τ τ' : Session}
    (h : Part p b σ σ' q e τ τ') (hcount : σ'.report.count = 0) :
    σ.Exporting τ ∧ ∀ x : Export, τ.draft.position < x.position → x.position ≤ τ'.draft.position →
      σ'.interface.exports.count x = τ'.interface.exports.count x := by
  rcases p.other_or_sub with hp | ⟨head, body, rfl⟩
  · obtain ⟨ms, ns, hu, h₁, hq, h₂⟩ := h
    obtain ⟨-, r₁, -, r₂⟩ := hq.quiet_around h₁ h₂ hcount
    have hbefore := r₁.exporting Runs.exporting fun m hm =>
      hu.unexported hp (List.mem_append_left _ hm)
    have hbehind := r₂.exporting Runs.exporting fun m hm =>
      hu.unexported hp (List.mem_append_right _ (List.mem_cons_of_mem _ hm))
    exact ⟨hbefore, fun x _ hx => hbehind.count x (by omega)⟩
  · obtain ⟨-, hrun⟩ := h.subRun hcount
    cases hrun with
    | @intro ps sub skip slot ends close σ₁ σ₂ σ₃ σ₄ σ₅ _ _ hclose h₁ h₂ h₃ hbody h₅ h₆ =>
    obtain ⟨hq, rfl, rfl⟩ := hbody
    have hsame := SubRun.interface_params h₁ h₂ h₃
    obtain ⟨hposition, hentry⟩ := SubRun.entry_params h₁ h₂ h₃
    obtain ⟨ρ, hρ, hρentry, -, -, htraits⟩ :=
      SubRun.traits_behind (hq.grows.offset hentry) hclose h₅ h₆
    refine ⟨.of_interface (by omega) hsame, fun x hlt _ => ?_⟩
    have hne : ρ.draft.offset? sub.label ≠ some x.position := by
      intro heq
      have := Option.some.inj (hρentry.symm.trans heq)
      omega
    rw [(applyTraits_other htraits).2.2 x hne, hρ]

theorem Visits.exporting {p q : Piece} {b e : Bool} {σ σ' τ τ' : Session}
    (h : Visits p b σ σ' q e τ τ') (hp : Lowers p b σ σ') (hcount : σ'.report.count = 0) :
    σ.Exporting τ ∧ ∀ x : Export, τ.draft.position < x.position → x.position ≤ τ'.draft.position →
      σ'.interface.exports.count x = τ'.interface.exports.count x := by
  induction h with
  | self => exact ⟨.refl, fun _ _ _ => rfl⟩
  | part hv hpart ih =>
      obtain ⟨hbefore, hbehind⟩ := ih
      obtain ⟨-, -, hwithin⟩ := hv.within hp
      obtain ⟨hfront, hrest⟩ := hpart.exporting (hwithin.count_eq_zero hcount)
      refine ⟨hbefore.trans hfront, fun x hlt hle => ?_⟩
      obtain ⟨ms, ns, -, -, -, h₂⟩ := hpart
      have hfirst := hfront.position
      have hlast := h₂.before.grows.position_le
      rw [hbehind x (by omega) (by omega), hrest x hlt hle]

/-- **What a declaration exports**: of all that could have its entry, its subroutine under its absolute
name, once for each time it has the trait. -/
theorem Lowers.offers {head : SubHead} {body : List Stmt} {b : Bool} {σ σ' : Session}
    (h : Lowers (.stmt (.sub head body)) b σ σ') (hcount : σ'.report.count = 0) :
    σ.draft.position + 1 ≤ σ'.draft.position ∧
      ∀ x : Export, x.position = σ.draft.position + 1 →
        σ'.interface.exports.count x = σ.interface.exports.count x +
          if x.name = σ'.packages.qualify σ'.package head.name then head.offers else 0 := by
  obtain ⟨ms, hu, hq, ha⟩ := (h.quiet hcount).unfolds
  cases hu.subRun hq ha with
  | @intro ps sub skip slot ends close σ₁ σ₂ σ₃ σ₄ σ₅ _ _ hclose h₁ h₂ h₃ hbody h₅ h₆ =>
  have hsame := SubRun.interface_params h₁ h₂ h₃
  obtain ⟨hposition, hentry⟩ := SubRun.entry_params h₁ h₂ h₃
  obtain ⟨ρ, hρ, hρentry, hdraft, hle, htraits⟩ :=
    SubRun.traits_behind (hbody.grows.offset hentry) hclose h₅ h₆
  have hbehind := hbody.exporting
  have hlast := hbehind.position
  have hρ' : ρ.draft.position = σ'.draft.position := by rw [hdraft]
  have hexports := applyTraits_interface htraits hρentry (hcount ▸ Nat.zero_le _)
  have hkept := (applyTraits_eq_ok htraits).1
  refine ⟨by omega, ?_⟩
  rintro ⟨name, position⟩ rfl
  have hqualify : σ'.packages.qualify σ'.package head.name =
      ρ.packages.qualify ρ.package head.name := by
    rw [hkept]
  rw [hexports, List.count_append, hρ, hbehind.count _ (by simp only; omega), hsame, hqualify,
    List.count_replicate]
  by_cases hname : ρ.packages.qualify ρ.package head.name = name
  · rw [if_pos (by simp [hname]), if_pos hname.symm, SubHead.offers]
  · rw [if_neg (by simp [hname]), if_neg (Ne.symm hname)]

/-! ### What a unit exports -/

namespace Program

/-- Compiling the program lowers the declaration of a subroutine, which has this absolute name and this
entry and is to be exported so many times. -/
inductive Offers (p : Program) (name : String) (options : CompileOptions) : Export → Nat → Prop where
  | intro {head : SubHead} {body : List Stmt} {b : Bool} {τ τ' : Session} :
      p.Lowered name options (.stmt (.sub head body)) b τ τ' →
      Offers p name options ⟨τ.packages.qualify τ.package head.name, τ.draft.position + 1⟩ head.offers

variable {p : Program} {name : String} {options : CompileOptions} {u : CompiledUnit} {σ : Session}
  {x : Export} {k : Nat}

theorem Offers.emits (hx : p.Offers name options x k) :
    ∃ a, p.Emits name options a ∧ a.absolute = x.name ∧ a.entry = x.position := by
  obtain ⟨hlowered⟩ := hx
  exact ⟨_, .intro hlowered, rfl, rfl⟩

/-- **How often a unit exports what has its entry where a declaration is lowered.** -/
theorem Lowered.exports_count {head : SubHead} {body : List Stmt} {b : Bool} {τ τ' : Session}
    (hq : p.Lowered name options (.stmt (.sub head body)) b τ τ')
    (h : compile name options p = .ok u) (hx : x.position = τ.draft.position + 1) :
    u.interface.exports.count x =
      if x.name = τ.packages.qualify τ.package head.name then head.offers else 0 := by
  obtain ⟨σ, hl, hcount, -, -, hinterface⟩ := tables_of_compile h
  obtain ⟨hsame, hsame'⟩ := hq.same_both hl hcount
  obtain ⟨σ', hl', hv⟩ := hq
  obtain rfl : σ = σ' := (Prod.mk.inj (Eq.trans hl.symm hl')).2
  obtain ⟨hlow, -, hbehind⟩ := hv.within hl
  obtain ⟨hbefore, hafter⟩ := hv.exporting hl hcount
  obtain ⟨hposition, hoffers⟩ := hlow.offers (hbehind.count_eq_zero hcount)
  have hpackage : τ'.package = τ.package := (hlow.settled (hv.homed entry_known.1).1).package
  rw [hinterface, hafter x (by omega) (by omega), hoffers x hx, hbefore.count x (by omega),
    entry_interface, hpackage, ← hsame'.qualify, hsame.qualify]
  simp

/-- **A subroutine is exported as often as its declaration asks for it.** -/
theorem Offers.count (hx : p.Offers name options x k) (h : compile name options p = .ok u) :
    u.interface.exports.count x = k := by
  obtain ⟨hlowered⟩ := hx
  rw [hlowered.exports_count h rfl, if_pos rfl]

/-- What is exported is a subroutine of the unit, under its absolute name. -/
theorem exists_offers (h : compile name options p = .ok u) (hx : x ∈ u.interface.exports) :
    ∃ k, p.Offers name options x k := by
  obtain ⟨head, body, e, τ, τ', hlowered, hposition⟩ := export_of_compile h hx
  have hcount := hlowered.exports_count h hposition
  obtain ⟨y, position⟩ := x
  by_cases hname : y = τ.packages.qualify τ.package head.name
  · subst hname
    obtain rfl : position = τ.draft.position + 1 := hposition
    exact ⟨head.offers, .intro hlowered⟩
  · rw [if_neg hname] at hcount
    exact absurd hx (List.count_eq_zero.mp hcount)

/-- **When no name is exported twice**: no declaration exports its subroutine twice, and subroutines that
are exported have different absolute names. -/
theorem exports_nodup_iff (h : compile name options p = .ok u) :
    (u.interface.exports.map (·.name)).Nodup ↔
      (∀ x k, p.Offers name options x k → k ≤ 1) ∧
        ∀ x y j k, p.Offers name options x (j + 1) → p.Offers name options y (k + 1) →
          x.name = y.name → x = y := by
  have hmem {x : Export} {k : Nat} (hx : p.Offers name options x (k + 1)) :
      x ∈ u.interface.exports := by
    rw [← List.count_pos_iff, hx.count h]
    exact Nat.succ_pos k
  constructor
  · intro hnodup
    refine ⟨fun x k hx => ?_, fun x y j k hx hy hname => ?_⟩
    · rw [← hx.count h]
      exact List.nodup_iff_count_le_one.mp hnodup.of_map x
    · exact List.inj_on_of_nodup_map hnodup (hmem hx) (hmem hy) hname
  · rintro ⟨honce, hdifferent⟩
    -- What is exported is offered at least once.
    have hoffered {x : Export} (hx : x ∈ u.interface.exports) :
        ∃ k, p.Offers name options x (k + 1) := by
      obtain ⟨k, hk⟩ := exists_offers h hx
      have hpos := List.count_pos_iff.mpr hx
      rw [hk.count h] at hpos
      exact ⟨k - 1, by rwa [Nat.sub_add_cancel hpos]⟩
    have hexports : u.interface.exports.Nodup := by
      refine List.nodup_iff_count_le_one.mpr fun x => ?_
      by_cases hx : x ∈ u.interface.exports
      · obtain ⟨k, hk⟩ := hoffered hx
        rw [hk.count h]
        exact honce x _ hk
      · rw [List.count_eq_zero_of_not_mem hx]
        exact Nat.zero_le 1
    refine hexports.map_on fun x hx y hy hname => ?_
    obtain ⟨j, hj⟩ := hoffered hx
    obtain ⟨k, hk⟩ := hoffered hy
    exact hdifferent x y j k hj hk hname

/-- If absolute names are different then only a trait that is there twice exports a name twice. -/
theorem Unambiguous.exports_nodup_iff (hp : p.Unambiguous name options)
    (h : compile name options p = .ok u) :
    (u.interface.exports.map (·.name)).Nodup ↔ ∀ x k, p.Offers name options x k → k ≤ 1 := by
  rw [Program.exports_nodup_iff h, and_iff_left]
  intro x y j k hx hy hname
  obtain ⟨a, ha, habs, hentry⟩ := hx.emits
  obtain ⟨b, hb, habs', hentry'⟩ := hy.emits
  obtain rfl := hp a b ha hb (habs.trans (hname.trans habs'.symm))
  obtain ⟨_, _⟩ := x
  obtain ⟨_, _⟩ := y
  rw [Export.mk.injEq]
  exact ⟨hname, hentry.symm.trans hentry'⟩

theorem interface_tidy (h : compile name options p = .ok u) : u.interface.Tidy := by
  obtain ⟨σ, hl, hcount, -, -, hinterface⟩ := tables_of_compile h
  rw [hinterface]
  refine (hl.quiet hcount).exporting.tidy ?_
  rw [entry_interface]
  exact ⟨List.nodup_nil, List.nodup_nil⟩

end Program

/-! ### What linking reports -/

/-- A name that only one of the units exports is reported once less than it exports it. -/
theorem count_duplicateExport {before after : List CompiledUnit} {u : CompiledUnit}
    {entry x : String} {es : List LinkError}
    (hothers : ∀ v ∈ before ++ after, ∀ y ∈ v.interface.exports, y.name ≠ x)
    (hentry : ∃ v ∈ before ++ u :: after, v.name = entry)
    (h : link (before ++ u :: after) entry = .error (.errors es)) :
    es.count (.duplicateExport x) = (u.interface.exports.map (·.name)).count x - 1 := by
  unfold link at h
  obtain ⟨first, hfirst⟩ : ∃ first, (before ++ u :: after).find? (·.name == entry) = some first := by
    rw [← Option.isSome_iff_exists, List.find?_isSome]
    simpa using hentry
  obtain ⟨rest, hus, hperm⟩ := entryFirst?_of_find? hfirst
  rw [hus] at h
  have hnone : (exportedNames (before ++ after)).count x = 0 := by
    refine List.count_eq_zero.mpr fun hx => ?_
    obtain ⟨v, hv, hx⟩ := List.mem_flatMap.mp hx
    obtain ⟨y, hy, rfl⟩ := List.mem_map.mp hx
    exact hothers v hv y hy rfl
  -- The order of the units does not matter for counting.
  have hnames : (exportedNames (first :: rest)).count x =
      (u.interface.exports.map (·.name)).count x := by
    have hfront := exportedNames_perm (hperm.symm.trans List.perm_middle)
    rw [hfront.count_eq, exportedNames, List.flatMap_cons, List.count_append]
    simpa [exportedNames] using hnone
  rw [linkPlaced_eq_errors h, linkErrors, List.count_append, List.count_append,
    List.count_map_of_injective _ _ (fun a b hab => LinkError.duplicateExport.inj hab), count_repeats,
    hnames]
  have hmissing : ((first :: rest).flatMap (·.missing (first :: rest))).count
      (.duplicateExport x) = 0 := by
    refine List.count_eq_zero.mpr fun hx => ?_
    obtain ⟨v, -, hx⟩ := List.mem_flatMap.mp hx
    simp [CompiledUnit.missing] at hx
  have hdangling : ((first :: rest).flatMap (·.dangling (first :: rest))).count
      (.duplicateExport x) = 0 := by
    refine List.count_eq_zero.mpr fun hx => ?_
    obtain ⟨v, -, hx⟩ := List.mem_flatMap.mp hx
    simp [CompiledUnit.dangling] at hx
  rw [hmissing, hdangling, Nat.add_zero]

/-- A unit by itself can be moved to its place. -/
theorem CompiledUnit.Listed.relocatable {u v : CompiledUnit} {k : Nat} (h : u.Listed)
    (hk : [u][k]? = some v) : v.Relocatable [u] k := by
  obtain ⟨hlt, hv⟩ := List.getElem?_eq_some_iff.mp hk
  obtain rfl : k = 0 := by simpa using hlt
  obtain rfl : u = v := hv
  have hpool : poolBase [u] 0 = 0 := rfl
  refine ⟨by rw [hpool]; decide, fun i _ index _ => ?_, fun c hc _ => ?_⟩
  · rw [hpool, Nat.zero_add]
    exact index.toNat_lt
  · obtain ⟨argc, hi⟩ := h.unresolved c hc
    exact ⟨_, _, argc, hi⟩

/-- **It is when no name is exported twice that linking reports no name of the unit**, whatever other
units it is linked with that export none of its names. -/
theorem CompiledUnit.exports_nodup_iff {u : CompiledUnit} (hu : u.Listed) :
    (u.interface.exports.map (·.name)).Nodup ↔ ∀ before after entry es,
      (∀ v ∈ before ++ after, ∀ y ∈ v.interface.exports, ∀ x ∈ u.interface.exports,
        y.name ≠ x.name) →
      link (before ++ u :: after) entry = .error (.errors es) →
      ∀ x ∈ u.interface.exports, .duplicateExport x.name ∉ es := by
  constructor
  · intro hnodup before after entry es hothers hlink x hx
    by_cases hentry : ∃ v ∈ before ++ u :: after, v.name = entry
    · have hcount := count_duplicateExport (fun v hv y hy => hothers v hv y hy x hx) hentry hlink
      have hone := List.nodup_iff_count_le_one.mp hnodup x.name
      exact List.count_eq_zero.mp (by omega)
    · have hnone : ∀ v ∈ before ++ u :: after, v.name ≠ entry := fun v hv heq => hentry ⟨v, hv, heq⟩
      unfold link at hlink
      rw [entryFirst?_eq_none hnone] at hlink
      obtain rfl := LinkFailure.errors.inj (Except.error.inj hlink)
      simp
  · intro hall
    have hlink : link [u] u.name = linkPlaced (place 0 0 [u]) := by
      unfold link
      rw [show entryFirst? u.name [u] = some [u] by simp [entryFirst?]]
    refine List.nodup_iff_count_le_one.mpr fun x => ?_
    by_cases hx : x ∈ u.interface.exports.map (·.name)
    · obtain ⟨y, hy, rfl⟩ := List.mem_map.mp hx
      obtain ⟨hok, herrors⟩ := linkPlaced_of_relocatable fun k v hk => hu.relocatable hk
      by_cases hnone : linkErrors [u] = []
      · obtain ⟨r, hr⟩ := hok hnone
        have hnodup := (linkPlaced_directs hr).1
        simp only [exportedNames, List.flatMap_cons, List.flatMap_nil, List.append_nil] at hnodup
        exact List.nodup_iff_count_le_one.mp hnodup y.name
      · have hfails := hlink.trans (herrors hnone)
        have hcount := @count_duplicateExport [] [] u u.name y.name _ (by simp) ⟨u, by simp, rfl⟩ hfails
        have hzero := List.count_eq_zero.mpr (hall [] [] u.name _ (by simp) hfails y hy)
        omega
    · rw [List.count_eq_zero_of_not_mem hx]
      exact Nat.zero_le 1

/-- **What a unit offers and needs.**  It lists no module twice, neither among those that it uses nor
among those that it declares.  It exports subroutines of its own under their absolute names, each as
often as its declaration asks for it.  So no name is exported twice exactly if no declaration asks for it
twice and subroutines that are exported have different absolute names, which they have if packages and
subroutines are named by identifiers.  And it is exactly then that linking the unit with others that
export none of its names never reports one of them. -/
theorem compile_interface {p : Program} {name : String} {options : CompileOptions}
    {u : CompiledUnit} (h : compile name options p = .ok u) :
    u.interface.dependencies.Nodup ∧ u.interface.modules.Nodup ∧
      (∀ x k, p.Offers name options x k → u.interface.exports.count x = k) ∧
      (∀ x ∈ u.interface.exports, ∃ k, p.Offers name options x k) ∧
      ((u.interface.exports.map (·.name)).Nodup ↔
        (∀ x k, p.Offers name options x k → k ≤ 1) ∧
          ∀ x y j k, p.Offers name options x (j + 1) → p.Offers name options y (k + 1) →
            x.name = y.name → x = y) ∧
      ((∀ x ∈ Stmt.allNames p.body, Path.isIdentifier x = true) →
        ((u.interface.exports.map (·.name)).Nodup ↔ ∀ x k, p.Offers name options x k → k ≤ 1)) ∧
      ((u.interface.exports.map (·.name)).Nodup ↔ ∀ before after entry es,
        (∀ v ∈ before ++ after, ∀ y ∈ v.interface.exports, ∀ x ∈ u.interface.exports,
          y.name ≠ x.name) →
        link (before ++ u :: after) entry = .error (.errors es) →
        ∀ x ∈ u.interface.exports, .duplicateExport x.name ∉ es) := by
  obtain ⟨hdependencies, hmodules⟩ := Program.interface_tidy h
  exact ⟨hdependencies, hmodules, fun x k hx => hx.count h, fun x hx => Program.exists_offers h hx,
    Program.exports_nodup_iff h,
    fun hnames => (Program.unambiguous_of_identifiers h hnames).exports_nodup_iff h,
    CompiledUnit.exports_nodup_iff (Program.listed_of_compile h)⟩

/-- A module that is opened twice and used twice, with a subroutine exported each time. -/
def library : Program where
  body := [
    .use "Text",
    .package .module "Maths" [
      .use "Text",
      .sub { name := "half", params := [⟨.var "$n" {}, false⟩], traits := ["export"] } [
        .ret (some (.var "$n" {})) {}]],
    .package .module "Maths" [
      .sub { name := "zero", params := [], traits := ["export"] } [.ret (some (.integer 0 {})) {}],
      .sub { name := "#one", params := [], traits := ["export"] } [.ret (some (.integer 1 {})) {}]]]

theorem compile_interface_library :
    ∃ u, compile "main" {} library = .ok u ∧
      u.interface = ⟨["Text"], [⟨"Maths::half", 2⟩, ⟨"Maths::zero", 8⟩], ["Maths"]⟩ ∧
      u.interface.dependencies.Nodup ∧ u.interface.modules.Nodup ∧
      (∀ x k, library.Offers "main" {} x k → k ≤ 1) ∧
      ∀ before after entry es,
        (∀ v ∈ before ++ after, ∀ y ∈ v.interface.exports, ∀ x ∈ u.interface.exports,
          y.name ≠ x.name) →
        link (before ++ u :: after) entry = .error (.errors es) →
        ∀ x ∈ u.interface.exports, .duplicateExport x.name ∉ es := by
  have hok : (compile "main" {} library).toOption.any (·.interface ==
      ⟨["Text"], [⟨"Maths::half", 2⟩, ⟨"Maths::zero", 8⟩], ["Maths"]⟩) = true := by
    decide +kernel
  cases h : compile "main" {} library with
  | error e => simp [h, Except.toOption] at hok
  | ok u =>
      have hinterface : u.interface =
          ⟨["Text"], [⟨"Maths::half", 2⟩, ⟨"Maths::zero", 8⟩], ["Maths"]⟩ := by
        simpa [h, Except.toOption] using hok
      have hnodup : (u.interface.exports.map (·.name)).Nodup := by
        rw [hinterface]
        decide
      obtain ⟨hdependencies, hmodules, -, -, honce, -, hlinks⟩ := compile_interface h
      exact ⟨u, rfl, hinterface, hdependencies, hmodules, (honce.mp hnodup).1, hlinks.mp hnodup⟩

/-- A subroutine with the trait twice. -/
def twice : Program where
  body := [
    .package .module "M" [.sub { name := "f", params := [], traits := ["export", "export"] } []]]

/-- The unit exports one subroutine twice, and linking it with no other unit reports the name. -/
theorem twice_reports :
    ∃ u, compile "main" {} twice = .ok u ∧ u.interface.exports = [⟨"M::f", 2⟩, ⟨"M::f", 2⟩] ∧
      ∃ es, link [u] "main" = .error (.errors es) ∧ es = [.duplicateExport "M::f"] := by
  have hrun : (compile "main" {} twice).toOption.any (fun u =>
      u.interface.exports == [⟨"M::f", 2⟩, ⟨"M::f", 2⟩] &&
        match link [u] "main" with
        | .error (.errors es) => es == [.duplicateExport "M::f"]
        | _ => false) = true := by
    decide +kernel
  cases h : compile "main" {} twice with
  | error e => simp [h, Except.toOption] at hrun
  | ok u =>
      rw [h] at hrun
      simp only [Except.toOption, Option.any_some, Bool.and_eq_true, beq_iff_eq] at hrun
      refine ⟨u, rfl, hrun.1, ?_⟩
      cases hlink : link [u] "main" with
      | ok r => simp [hlink] at hrun
      | error f =>
          cases f with
          | fault f => simp [hlink] at hrun
          | errors es => exact ⟨es, rfl, by simpa [hlink] using hrun.2⟩

end StackScript
