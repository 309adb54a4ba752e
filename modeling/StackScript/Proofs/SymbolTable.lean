import Mathlib.Data.List.Induction
import StackScript.Proofs.AbsoluteNames

/-!
# The table of a unit's subroutines

A unit lists the subroutines that are emitted in it by their absolute names.  Nothing keeps two of them
from having the same absolute name: a package without a name has the empty path, as the root has, and
names may hold colons.  Then one entry stands for both, that of the package made last, while calls go
where they are meant to.

* `foldlM_insert`: of the entries of one key the last stays.
* `PackageTree.subroutines_pairwise`: where absolute names coincide, packages follow in their order.
* `Runs.entriesApart`: each subroutine that is emitted has an entry of its own.
* `Program.Emits.known`, `Program.emits_of_known`: the subroutines emitted are those that count as such.
* `Program.subroutines_iff`: what the table says.
* `Program.unambiguous_iff`: when nothing is missing in it.
* `Program.target_of_use`: where calls go.
* `Program.unambiguous_of_identifiers`: if all names are identifiers then absolute names are different.
* `compile_symbol_table`: what this comes to.
* `nameless_lists_one`: a subroutine can be missing.
-/

namespace StackScript

/-! ### Tables made of entries -/

/-- **Of the entries of one key the last stays**, which is the one of the highest rank. -/
theorem foldlM_insert {α ε : Type} {key : α → String} {rank : α → Nat} {value : α → Option Nat}
    {failure : α → ε} {l : List α} {table : NameMap Nat} {x : String} {o : Nat}
    (hl : l.Pairwise fun a b => key a = key b → rank a < rank b)
    (h : l.foldlM (fun (t : NameMap Nat) a =>
      match value a with
      | some v => Except.ok (t.insert (key a) v)
      | none => Except.error (failure a)) ∅ = .ok table) :
    table[x]? = some o ↔
      ∃ a ∈ l, key a = x ∧ value a = some o ∧ ∀ b ∈ l, key b = x → rank b ≤ rank a := by
  -- From the end, since the last entry of a key is the one that stays.
  induction l using List.reverseRecOn generalizing table with
  | nil =>
      obtain rfl : ∅ = table := Except.ok.inj h
      simp
  | append_singleton l a ih =>
      obtain ⟨hl', -, hlast⟩ := List.pairwise_append.mp hl
      have hlast : ∀ b ∈ l, key b = key a → rank b < rank a :=
        fun b hb => hlast b hb a (List.mem_singleton_self a)
      simp only [List.foldlM_append, List.foldlM_cons, List.foldlM_nil, bind, Except.bind] at h
      split at h
      · cases h
      rename_i t hfold
      cases hv : value a with
      | none => simp [hv] at h
      | some v =>
      obtain rfl : t.insert (key a) v = table := by simpa [hv, pure, Except.pure] using h
      rw [Std.ExtTreeMap.getElem?_insert]
      by_cases hx : key a = x
      · subst hx
        rw [if_pos (by simp)]
        constructor
        · intro ho
          refine ⟨a, by simp, rfl, hv.trans ho, fun b hb hkey => ?_⟩
          rcases List.mem_append.mp hb with hb | hb
          · exact Nat.le_of_lt (hlast b hb hkey)
          · rw [List.mem_singleton.mp hb]
        · rintro ⟨b, hb, hkey, ho, hmax⟩
          rcases List.mem_append.mp hb with hb | hb
          · exact absurd (hmax a (by simp) rfl) (Nat.not_le.mpr (hlast b hb hkey))
          · rw [← hv, ← List.mem_singleton.mp hb]
            exact ho
      · rw [if_neg (by simpa using hx), ih hl' hfold]
        constructor
        · rintro ⟨b, hb, hkey, ho, hmax⟩
          refine ⟨b, List.mem_append_left _ hb, hkey, ho, fun c hc hkeyc => ?_⟩
          rcases List.mem_append.mp hc with hc | hc
          · exact hmax c hc hkeyc
          · rw [List.mem_singleton.mp hc] at hkeyc
            exact absurd hkeyc hx
        · rintro ⟨b, hb, hkey, ho, hmax⟩
          rcases List.mem_append.mp hb with hb | hb
          · exact ⟨b, hb, hkey, ho, fun c hc => hmax c (List.mem_append_left _ hc)⟩
          · rw [List.mem_singleton.mp hb] at hkey
            exact absurd hkey hx

namespace PackageTree

variable {t : PackageTree} {id : PackageId} {x : String} {s : Subroutine}

theorem mem_subroutines_of_sub? (h : t.sub? id x = some s) : (id, s) ∈ t.subroutines := by
  refine List.mem_flatMap.mpr ⟨id, List.mem_range.mpr (lt_size_of_sub? h), ?_⟩
  exact List.mem_map.mpr ⟨(x, s), Std.ExtTreeMap.mem_toList_iff_getElem?_eq_some.mpr h, rfl⟩

/-- **Where absolute names coincide, packages follow in their order.** -/
theorem subroutines_pairwise (hnamed : ∀ id x s, t.sub? id x = some s → s.name = x) :
    t.subroutines.Pairwise fun a b =>
      t.qualify a.1 a.2.name = t.qualify b.1 b.2.name → a.1 < b.1 := by
  refine List.pairwise_flatMap.mpr ⟨fun id _ => ?_, ?_⟩
  · -- In one package the names are different, and so are the absolute names.
    refine List.pairwise_map.mpr ?_
    refine (Std.ExtTreeMap.distinct_keys_toList (t := (t.get id).subs)).imp_of_mem ?_
    intro a b ha hb hne heq
    have hnames := qualify_right_injective heq
    rw [hnamed id a.1 a.2 (Std.ExtTreeMap.mem_toList_iff_getElem?_eq_some.mp ha),
      hnamed id b.1 b.2 (Std.ExtTreeMap.mem_toList_iff_getElem?_eq_some.mp hb)] at hnames
    exact absurd (by simp [hnames]) hne
  · refine List.pairwise_lt_range.imp ?_
    intro i j hlt a ha b hb _
    obtain ⟨_, _, rfl⟩ := List.mem_map.mp ha
    obtain ⟨_, _, rfl⟩ := List.mem_map.mp hb
    exact hlt

end PackageTree

/-- **What the table of a session says**, where subroutines are listed by their names. -/
theorem Session.entryPoints_iff {σ : Session} {table : NameMap Nat} {x : String} {o : Nat}
    (h : σ.entryPoints = .ok table)
    (hnamed : ∀ id y s, σ.packages.sub? id y = some s → s.name = y) :
    table[x]? = some o ↔ ∃ id y s, σ.packages.sub? id y = some s ∧ s.marked = true ∧
      σ.packages.qualify id y = x ∧ σ.draft.offset? s.label = some o ∧
      ∀ i z r, σ.packages.sub? i z = some r → r.marked = true → σ.packages.qualify i z = x →
        i ≤ id := by
  have hmem {e : PackageId × Subroutine} :
      e ∈ σ.packages.subroutines.filter (fun e => e.2.marked) ↔
        σ.packages.sub? e.1 e.2.name = some e.2 ∧ e.2.marked = true := by
    rw [List.mem_filter]
    refine and_congr_left fun _ => ⟨fun he => ?_, PackageTree.mem_subroutines_of_sub?⟩
    obtain ⟨y, hy⟩ := PackageTree.mem_subroutines he
    rwa [hnamed _ _ _ hy]
  have hpairwise := (PackageTree.subroutines_pairwise hnamed).filter fun e => e.2.marked
  rw [foldlM_insert (x := x) (o := o) hpairwise h]
  constructor
  · rintro ⟨e, he, hkey, ho, hmax⟩
    obtain ⟨hs, hm⟩ := hmem.mp he
    refine ⟨e.1, e.2.name, e.2, hs, hm, hkey, ho, fun i z r hr hrm hz => ?_⟩
    have hname := hnamed _ _ _ hr
    exact hmax (i, r) (hmem.mpr ⟨hname ▸ hr, hrm⟩) (hname ▸ hz)
  · rintro ⟨id, y, s, hs, hm, hkey, ho, hmax⟩
    have hname := hnamed _ _ _ hs
    refine ⟨(id, s), hmem.mpr ⟨hname ▸ hs, hm⟩, hname ▸ hkey, ho, fun e he hkey' => ?_⟩
    obtain ⟨hr, hrm⟩ := hmem.mp he
    exact hmax _ _ _ hr hrm hkey'

/-! ### Entries -/

/-- The subroutines that count as emitted have their entries behind, each its own. -/
def Session.EntriesApart (σ : Session) : Prop :=
  ∀ id x s, σ.packages.sub? id x = some s → s.marked = true →
    ∃ e, σ.draft.offset? s.label = some e ∧ e < σ.draft.position ∧
      ∀ i y r, σ.packages.sub? i y = some r → r.marked = true → σ.draft.offset? r.label = some e →
        i = id ∧ y = x

theorem Session.EntriesApart.of_subs {σ σ' : Session} (h : σ.EntriesApart)
    (hsubs : ∀ id x, σ'.packages.sub? id x = σ.packages.sub? id x)
    (hgrows : σ.draft.Grows σ'.draft) : σ'.EntriesApart := by
  intro id x s hs hm
  rw [hsubs] at hs
  obtain ⟨e, he, hlt, hown⟩ := h id x s hs hm
  refine ⟨e, hgrows.offset he, Nat.lt_of_lt_of_le hlt hgrows.position_le, fun i y r hr hrm hre => ?_⟩
  rw [hsubs] at hr
  obtain ⟨e', he', -⟩ := h i y r hr hrm
  obtain rfl := Option.some.inj (hre.symm.trans (hgrows.offset he'))
  exact hown i y r hr hrm he'

/-- Moves that lower no piece, enter no package and declare no subroutine. -/
theorem Along.packages_flat {K : Piece → Bool → Session → Session → Prop} {ms : List Move}
    {σ σ' : Session} (h : Along K ms σ σ') (hpieces : Move.pieces ms = [])
    (htravels : ms.all (!·.travels) = true) (hsubs : ms.all (!·.subject?.isSome) = true) :
    σ'.packages = σ.packages :=
  ((h.does hpieces).packages_eq (fun _ => False.elim) htravels hsubs).1

theorem Session.EntriesApart.along_flat {K : Piece → Bool → Session → Session → Prop} {ms : List Move}
    {σ σ' : Session} (hσ : σ.EntriesApart) (h : Along K ms σ σ') (hpieces : Move.pieces ms = [])
    (htravels : ms.all (!·.travels) = true) (hsubs : ms.all (!·.subject?.isSome) = true) :
    σ'.EntriesApart := by
  have hpackages := h.packages_flat hpieces htravels hsubs
  exact hσ.of_subs (fun id x => by rw [hpackages]) (h.grows_flat hpieces)

theorem Along.entriesApart {K : Piece → Bool → Session → Session → Prop} {ms : List Move}
    {σ σ' : Session}
    (hK : ∀ {p b σ σ'}, K p b σ σ' → σ.Homed → σ.Settled σ' ∧ (σ.EntriesApart → σ'.EntriesApart))
    (htravels : ms.all (!·.travels) = true) (hsubs : ms.all (!·.subject?.isSome) = true)
    (h : Along K ms σ σ') (hσ : σ.Homed) (ha : σ.EntriesApart) : σ'.EntriesApart := by
  refine (h.keeps (I := fun τ => τ.Homed ∧ τ.EntriesApart) (fun {m τ τ'} hm hd hτ => ?_)
    (fun _ hp hτ => ?_) ⟨hσ, ha⟩).2
  · have htravels : m.travels = false := by simpa using List.all_eq_true.mp htravels m hm
    have hsub : m.subject? = none := by simpa using List.all_eq_true.mp hsubs m hm
    exact ⟨(hd.settled htravels hτ.1).homed,
      hτ.2.of_subs (fun id x => hd.subs hτ.1 (by simp [hsub])) hd.grows⟩
  · obtain ⟨hsettled, hapart⟩ := hK hp hτ.1
    exact ⟨hsettled.homed, hapart hτ.2⟩

/-- Where the body of a subroutine begins, its frame is behind and no other subroutine has it. -/
theorem SubRun.entriesApart_params {K : Piece → Bool → Session → Session → Prop} {head : SubHead}
    {type : ValueType} {ps : List SubParam} {sub sub' : Subroutine} {skip : Label} {slot : Slot}
    {uses : Bool} {params locals : UInt16} {σ σ₁ σ₂ σ₃ : Session} {A B : Session → Prop}
    (h₁ : Along K [.mention head.name sub, .setSub head.name sub', .sees A, .sees B, .newLabel skip,
      .enter (.subroutine type)] σ σ₁)
    (hlabel : sub'.label = sub.label)
    (h₂ : Along K [.emit (.jump skip), .mark sub.label, .emit (.pushFrame params locals)] σ₁ σ₂)
    (h₃ : Along K (Move.argListSlot uses slot ++ [Move.params ps]) σ₂ σ₃) (hσ : σ.Homed)
    (ha : σ.EntriesApart) : σ₃.EntriesApart := by
  obtain ⟨-, -, hsubs⟩ := SubRun.subs h₁ hσ
  have g₁ : σ.draft.Grows σ₁.draft := h₁.grows_flat rfl
  have g₂ : σ₁.draft.Grows σ₂.draft := h₂.grows_flat rfl
  have g₃ : σ.draft.Grows σ₃.draft := g₁.trans (g₂.trans (h₃.grows_flat (by simp [Move.pieces])))
  have hpackages : σ₃.packages = σ₁.packages :=
    (h₃.packages_flat (by simp [Move.pieces]) (by cases uses <;> rfl) (by cases uses <;> rfl)).trans
      (h₂.packages_flat rfl rfl rfl)
  obtain ⟨hposition, hentry⟩ := SubRun.entry_params h₁ h₂ h₃
  -- The entries of the others are before the jump over the body.
  have hothers {i : PackageId} {y : String} {r : Subroutine}
      (hr : σ.packages.sub? i y = some r) (hrm : r.marked = true) :
      σ₃.draft.offset? r.label ≠ some (σ.draft.position + 1) := by
    intro heq
    obtain ⟨e, he, hlt, -⟩ := ha i y r hr hrm
    have := Option.some.inj (heq.symm.trans (g₃.offset he))
    omega
  intro id x s hs hm
  rw [hpackages, hsubs] at hs
  split at hs
  · rename_i hkey
    obtain rfl := Option.some.inj hs
    refine ⟨σ.draft.position + 1, hlabel ▸ hentry, by omega, fun i y r hr hrm hre => ?_⟩
    rw [hpackages, hsubs] at hr
    split at hr
    · rename_i hkey'
      exact ⟨hkey'.1.trans hkey.1.symm, hkey'.2.trans hkey.2.symm⟩
    · exact absurd hre (hothers hr hrm)
  · obtain ⟨e, he, hlt, hown⟩ := ha id x s hs hm
    have he₃ := g₃.offset he
    refine ⟨e, he₃, by omega, fun i y r hr hrm hre => ?_⟩
    rw [hpackages, hsubs] at hr
    split at hr
    · obtain rfl := Option.some.inj hr
      rw [hlabel, hentry] at hre
      exact absurd (he₃.trans hre.symm) (hothers hs hm)
    · obtain ⟨e', he', -⟩ := ha i y r hr hrm
      obtain rfl := Option.some.inj (hre.symm.trans (g₃.offset he'))
      exact hown i y r hr hrm he'

/-- **Each subroutine that is emitted has an entry of its own.** -/
theorem Runs.entriesApart {p : Piece} {b : Bool} {σ σ' : Session} (h : Runs Quiet p b σ σ')
    (hσ : σ.Homed) (ha : σ.EntriesApart) : σ'.EntriesApart := by
  refine h.ind (P := fun _ _ σ σ' => σ.Homed → σ.EntriesApart → σ'.EntriesApart) ?_ hσ ha
  clear h hσ ha
  intro p b ms σ σ' hu hq h hσ ha
  rcases p.other_or_package with hpackage | ⟨kind, name, body, rfl⟩
  · rcases p.other_or_sub with hsub | ⟨head, body, rfl⟩
    · exact h.entriesApart (fun h hσ => ⟨h.1.settled hσ, h.2 hσ⟩) (hu.stays hpackage)
        (hu.subless hsub) hσ ha
    · cases hu.subRun hq h with
      | @intro ps sub _ _ _ _ _ _ σ₃ _ _ _ hmarked hclose h₁ h₂ h₃ hbody h₅ h₆ =>
      obtain ⟨s₃, -⟩ := SubRun.advances_params hmarked h₁ rfl rfl h₂ h₃ hσ
      have a₄ := hbody.2 s₃.homed (SubRun.entriesApart_params h₁ rfl h₂ h₃ hσ ha)
      have a₅ := a₄.along_flat h₅ hclose.pieces hclose.stays hclose.subless
      exact a₅.along_flat h₆ rfl rfl rfl
  · have hmem : .stmts body ∈ Move.pieces ms := by
      cases hu
      simp [Move.pieces, Move.block]
    obtain ⟨ms₁, e, ms₂, τ, τ', rfl, h₁, hbody, h₂⟩ := h.exists_piece hmem
    obtain ⟨id, outer, path, -, rfl, rfl⟩ := hu.package_split
    have hspec := @PackageTree.enter_spec _ _ name kind hσ.closed hσ.home
    obtain ⟨-, hτ, -, hpackages⟩ := h₁.entered hσ
    have a₁ : τ.EntriesApart := ha.of_subs (fun i x => by rw [hpackages, hspec.subs])
      (h₁.grows_flat (by cases kind <;> rfl))
    obtain ⟨_, rfl, _, rfl, rfl⟩ := h₂
    exact (hbody.2 hτ a₁).of_subs (fun _ _ => rfl) .refl

/-! ### Subroutines that are emitted -/

/-- A subroutine of a unit: the package that holds it and its name there, its absolute name, and where
its frame is opened. -/
structure Symbol where
  owner : PackageId
  name : String
  absolute : String
  entry : Nat

namespace Program

/-- Compiling the program lowers a declaration of the subroutine: its frame is behind the jump over its
body. -/
inductive Emits (p : Program) (name : String) (options : CompileOptions) : Symbol → Prop where
  | intro {head : SubHead} {body : List Stmt} {b : Bool} {τ τ' : Session} :
      p.Lowered name options (.stmt (.sub head body)) b τ τ' →
      Emits p name options
        ⟨τ.package, head.name, τ.packages.qualify τ.package head.name, τ.draft.position + 1⟩

/-- No two subroutines that are emitted have the same absolute name. -/
def Unambiguous (p : Program) (name : String) (options : CompileOptions) : Prop :=
  ∀ a b, p.Emits name options a → p.Emits name options b → a.absolute = b.absolute → a = b

variable {p : Program} {name : String} {options : CompileOptions} {u : CompiledUnit} {σ : Session}
  {a b : Symbol}

/-- Behind a program that compiles the subroutine counts as emitted, and its label stands for its
frame. -/
theorem Emits.known (ha : p.Emits name options a)
    (hl : Lowers (.stmts p.body) true (p.entry name options) σ) (hcount : σ.report.count = 0) :
    a.absolute = σ.packages.qualify a.owner a.name ∧
      ∃ s, σ.packages.sub? a.owner a.name = some s ∧ s.marked = true ∧ s.declared = true ∧
        σ.halted.draft.offset? s.label = some a.entry := by
  obtain ⟨hlowered⟩ := ha
  have hsame := hlowered.same hl hcount
  obtain ⟨-, -, hbehind⟩ := hlowered.within hl
  obtain ⟨s, hem, hs⟩ := hlowered.emitted hl hcount
  exact ⟨hsame.qualify.symm, s, hs, hem.marked, hem.declared, hem.entry (hbehind.grows.trans .emit)⟩

/-- A subroutine that counts as emitted behind the program is emitted. -/
theorem emits_of_known {id : PackageId} {x : String} {s : Subroutine}
    (hl : Lowers (.stmts p.body) true (p.entry name options) σ) (hcount : σ.report.count = 0)
    (hs : σ.packages.sub? id x = some s) (hm : s.marked = true) :
    ∃ e, σ.halted.draft.offset? s.label = some e ∧
      p.Emits name options ⟨id, x, σ.packages.qualify id x, e⟩ := by
  obtain ⟨head, body, e, τ, τ', hlowered, rfl, rfl, hem⟩ := lowered_of_marked hl hcount hs hm
  refine ⟨τ.draft.position + 1, hem.entry ((hlowered.within hl).2.2.grows.trans .emit), ?_⟩
  rw [(hlowered.same hl hcount).qualify]
  exact .intro hlowered

/-- A subroutine of a package is emitted once. -/
theorem Emits.eq_of_name (ha : p.Emits name options a) (hb : p.Emits name options b)
    (h : compile name options p = .ok u) (howner : a.owner = b.owner) (hname : a.name = b.name) :
    a = b := by
  obtain ⟨σ, hl, hcount, -⟩ := lowers_of_compile h
  obtain ⟨habs, s, hs, -, -, hentry⟩ := ha.known hl hcount
  obtain ⟨habs', s', hs', -, -, hentry'⟩ := hb.known hl hcount
  rw [howner, hname] at hs habs
  obtain rfl := Option.some.inj (hs.symm.trans hs')
  obtain ⟨_, _, _, _⟩ := a
  obtain ⟨_, _, _, _⟩ := b
  cases howner
  cases hname
  cases habs.trans habs'.symm
  cases Option.some.inj (hentry.symm.trans hentry')
  rfl

/-- Different subroutines have different entries. -/
theorem Emits.eq_of_entry (ha : p.Emits name options a) (hb : p.Emits name options b)
    (h : compile name options p = .ok u) (heq : a.entry = b.entry) : a = b := by
  obtain ⟨σ, hl, hcount, -⟩ := lowers_of_compile h
  obtain ⟨hentry, hknown⟩ := @entry_known p name options
  have hnone : (p.entry name options).EntriesApart := by
    intro id x s hs hm
    rw [hknown.unmarked hs] at hm
    cases hm
  have hgrows : σ.draft.Grows σ.halted.draft := .emit
  have hapart : σ.halted.EntriesApart :=
    ((hl.quiet hcount).entriesApart hentry hnone).of_subs (fun _ _ => rfl) hgrows
  obtain ⟨-, s, hs, hm, -, he⟩ := ha.known hl hcount
  obtain ⟨-, r, hr, hrm, -, hre⟩ := hb.known hl hcount
  obtain ⟨e, he', -, hown⟩ := hapart _ _ s hs hm
  obtain rfl := Option.some.inj (he.symm.trans he')
  obtain ⟨howner, hname⟩ := hown _ _ r hr hrm (heq ▸ hre)
  exact ha.eq_of_name hb h howner.symm hname.symm

/-- The frames of a unit are that of the program itself and those of the subroutines emitted. -/
theorem opens_iff {n : Nat} (h : compile name options p = .ok u) :
    u.chunk.opens n = true ↔ n = 0 ∨ ∃ a, p.Emits name options a ∧ a.entry = n := by
  constructor
  · intro hn
    obtain ⟨r, σ, hbody⟩ := exists_body_of_opens h hn
    cases hbody with
    | top => exact .inl rfl
    | sub hlowered => exact .inr ⟨_, .intro hlowered, rfl⟩
  · rintro (rfl | ⟨a, ⟨hlowered⟩, rfl⟩)
    · exact entry_opens h
    · exact hlowered.opens h

/-! ### What the table says -/

theorem named_of_compile (hl : Lowers (.stmts p.body) true (p.entry name options) σ)
    (hcount : σ.report.count = 0) (id : PackageId) (x : String) (s : Subroutine)
    (hs : σ.packages.sub? id x = some s) : s.name = x := by
  obtain ⟨s₀, hs₀, heq⟩ := (entry_same hl hcount).symm.sub?_eq_some hs
  have hname : s₀.name = x := entry_known.2.named hs₀
  have hkept : s₀.unmarked.name = s.unmarked.name := by rw [heq]
  exact hkept.symm.trans hname

/-- **Under each absolute name stands the subroutine of that name whose package was made last.** -/
theorem subroutines_iff {x : String} {e : Nat} (h : compile name options p = .ok u) :
    u.subroutines[x]? = some e ↔ ∃ a, p.Emits name options a ∧ a.absolute = x ∧ a.entry = e ∧
      ∀ b, p.Emits name options b → b.absolute = x → b.owner ≤ a.owner := by
  obtain ⟨σ, hl, hcount, -, htable, -⟩ := tables_of_compile h
  rw [Session.entryPoints_iff htable fun id y s hs => named_of_compile hl hcount id y s hs]
  constructor
  · rintro ⟨id, y, s, hs, hm, hkey, ho, hmax⟩
    obtain ⟨e', ho', hemits⟩ := emits_of_known hl hcount hs hm
    obtain rfl := Option.some.inj (ho.symm.trans ho')
    refine ⟨_, hemits, hkey, rfl, fun b hb hbx => ?_⟩
    obtain ⟨habs, r, hr, hrm, -⟩ := hb.known hl hcount
    exact hmax _ _ r hr hrm (habs.symm.trans hbx)
  · rintro ⟨a, ha, rfl, rfl, hmax⟩
    obtain ⟨habs, s, hs, hm, -, hentry⟩ := ha.known hl hcount
    refine ⟨_, _, s, hs, hm, habs.symm, hentry, fun i z r hr hrm hz => ?_⟩
    obtain ⟨e, -, hemits⟩ := emits_of_known hl hcount hr hrm
    exact hmax _ hemits hz

/-- If absolute names are different, every subroutine is listed under its own. -/
theorem Unambiguous.subroutines_iff {x : String} {e : Nat} (hp : p.Unambiguous name options)
    (h : compile name options p = .ok u) :
    u.subroutines[x]? = some e ↔ ∃ a, p.Emits name options a ∧ a.absolute = x ∧ a.entry = e := by
  rw [Program.subroutines_iff h]
  constructor
  · rintro ⟨a, ha, hx, he, -⟩
    exact ⟨a, ha, hx, he⟩
  · rintro ⟨a, ha, hx, he⟩
    refine ⟨a, ha, hx, he, fun b hb hbx => ?_⟩
    rw [hp b a hb ha (hbx.trans hx.symm)]

/-- **Every subroutine is listed under its own name exactly if absolute names are different.** -/
theorem unambiguous_iff (h : compile name options p = .ok u) : p.Unambiguous name options ↔
    ∀ a, p.Emits name options a → u.subroutines[a.absolute]? = some a.entry := by
  constructor
  · intro hp a ha
    exact (hp.subroutines_iff h).mpr ⟨a, ha, rfl, rfl⟩
  · intro hall a b ha hb heq
    have hentries := (hall a ha).symm.trans ((congrArg (u.subroutines[·]?) heq).trans (hall b hb))
    exact ha.eq_of_entry hb h (Option.some.inj hentries)

/-- **A call goes to a subroutine whose absolute name is recorded with it.** -/
theorem target_of_use {c : CallSite} (h : compile name options p = .ok u) (hc : c ∈ u.uses)
    (hr : c.resolved = true) : ∃ a argc, p.Emits name options a ∧ a.absolute = c.name ∧
      u.chunk.instructions[c.position]? = some ⟨.call, some (.call (.address a.entry) argc)⟩ := by
  obtain ⟨σ, hl, hcount, hfin⟩ := lowers_of_compile h
  obtain ⟨x, args, front, i, e, τ, τ', τ₁, hq, hcall, hfront, ⟨ρ, huse, _, hemit, rfl⟩, hpos⟩ :=
    use_of_compile h hc
  obtain ⟨⟨op, operand⟩, hj, hres⟩ :=
    Move.acts_emit_at hemit ((hq.within hl).2.2.grows.trans .emit) hfin
  rw [Move.Does.position (m := .use _ _ _) huse, ← hpos] at hj
  rw [hr] at hcall
  cases hcall with
  | @call _ _ sub =>
  obtain ⟨rfl, t, ht, rfl⟩ := Draft.resolveInstruction_eq_ok hres
  obtain ⟨_, ⟨hmeans, rfl⟩, _, ⟨hname, rfl⟩, -⟩ := hfront
  obtain ⟨head, body, f, υ, υ', hsub, rfl, hbase, -, hentry, -⟩ :=
    hq.emitted_of_resolveSub? h hl hcount hmeans
  refine ⟨_, (args.length + sub.usesArgList.toNat).toUInt8, .intro hsub, ?_, ?_⟩
  · rw [← hname, hbase, ← (hsub.same hl hcount).qualify, (hq.same hl hcount).qualify]
  · have hgrows : σ.draft.Grows σ.halted.draft := .emit
    obtain rfl := Option.some.inj (ht.symm.trans (hgrows.offset hentry))
    exact hj

/-- **If all names are identifiers then absolute names are different.** -/
theorem unambiguous_of_identifiers (h : compile name options p = .ok u)
    (hnames : ∀ x ∈ Stmt.allNames p.body, Path.isIdentifier x = true) :
    p.Unambiguous name options := by
  obtain ⟨σ, hl, hcount, -⟩ := lowers_of_compile h
  have hclosed := (hl.settled entry_known.1).homed.closed
  have hroot : σ.packages.components PackageTree.root = [] := by
    refine PackageTree.components_of_none ?_
    cases hp : σ.packages.parent? PackageTree.root with
    | none => rfl
    | some i => exact absurd (hclosed.lt hp) (Nat.not_lt_zero i)
  have hidents {a : Symbol} (ha : p.Emits name options a) :
      a.absolute = σ.packages.qualify a.owner a.name ∧ a.owner < σ.packages.packages.size ∧
        Path.isIdentifier a.name = true ∧
        ∀ x ∈ σ.packages.components a.owner, Path.isIdentifier x = true := by
    obtain ⟨habs, s, hs, -, hdeclared, -⟩ := ha.known hl hcount
    obtain ⟨D, hD, howner, hname⟩ := (declared_iff hl hcount).mp ⟨s, hs, hdeclared⟩
    have hnamed := Stmt.allDeclarations_names hclosed p.body PackageTree.root D hD
    obtain ⟨path, hpath, hmem⟩ := hnamed.path
    rw [howner, hroot, List.nil_append] at hpath
    refine ⟨habs, PackageTree.lt_size_of_sub? hs, hname ▸ hnames _ hnamed.name, fun x hx => ?_⟩
    exact hnames x (hmem x (hpath ▸ hx))
  intro a b ha hb heq
  obtain ⟨habs, hsize, hname, hpath⟩ := hidents ha
  obtain ⟨habs', hsize', hname', hpath'⟩ := hidents hb
  rw [habs, habs'] at heq
  obtain ⟨howner, hsame⟩ := hclosed.qualify_injective hsize hsize' hname hname' hpath hpath' heq
  exact ha.eq_of_name hb h howner hsame

end Program

/-- **The table of a unit's subroutines.**  The frames of a unit, but for its own, are those of the
subroutines emitted; a subroutine is emitted once, and it has a frame of its own.  The names listed are
the absolute names of the subroutines emitted, and where two have the same the one whose package was
made last is listed.  A call that is resolved goes to a subroutine of the absolute name that is recorded
for it.  So every subroutine is listed under its name exactly if no two have the same absolute name, and
then calls go where the table says.  It is so if packages and subroutines are named by identifiers. -/
theorem compile_symbol_table {p : Program} {name : String} {options : CompileOptions}
    {u : CompiledUnit} (h : compile name options p = .ok u) :
    (∀ n, u.chunk.opens n = true ↔ n = 0 ∨ ∃ a, p.Emits name options a ∧ a.entry = n) ∧
      (∀ a b, p.Emits name options a → p.Emits name options b →
        (a.owner = b.owner ∧ a.name = b.name) ∨ a.entry = b.entry → a = b) ∧
      (∀ x e, u.subroutines[x]? = some e ↔
        ∃ a, p.Emits name options a ∧ a.absolute = x ∧ a.entry = e ∧
          ∀ b, p.Emits name options b → b.absolute = x → b.owner ≤ a.owner) ∧
      (∀ c ∈ u.uses, c.resolved = true → ∃ a argc, p.Emits name options a ∧ a.absolute = c.name ∧
        u.chunk.instructions[c.position]? = some ⟨.call, some (.call (.address a.entry) argc)⟩) ∧
      (p.Unambiguous name options ↔
        ∀ a, p.Emits name options a → u.subroutines[a.absolute]? = some a.entry) ∧
      (p.Unambiguous name options →
        ∀ c ∈ u.uses, c.resolved = true → ∃ t argc, u.subroutines[c.name]? = some t ∧
          u.chunk.instructions[c.position]? = some ⟨.call, some (.call (.address t) argc)⟩) ∧
      ((∀ x ∈ Stmt.allNames p.body, Path.isIdentifier x = true) → p.Unambiguous name options) := by
  refine ⟨fun n => Program.opens_iff h, fun a b ha hb heq => ?_, fun x e => Program.subroutines_iff h,
    fun c hc hr => Program.target_of_use h hc hr, Program.unambiguous_iff h, fun hp c hc hr => ?_,
    Program.unambiguous_of_identifiers h⟩
  · rcases heq with ⟨howner, hname⟩ | hentry
    · exact ha.eq_of_name hb h howner hname
    · exact ha.eq_of_entry hb h hentry
  · obtain ⟨a, argc, ha, hname, hi⟩ := Program.target_of_use h hc hr
    exact ⟨a.entry, argc, hname ▸ (Program.unambiguous_iff h).mp hp a ha, hi⟩

/-- Three subroutines of one name, in three packages. -/
def shapes : Program where
  body := [
    .sub { name := "area", params := [] } [.ret (some (.integer 0 {})) {}],
    .package .package "Circle" [
      .sub { name := "area", params := [] } [.ret (some (.integer 3 {})) {}],
      .expr (.call "area" [] {})],
    .package .package "Square::Unit" [
      .sub { name := "area", params := [] } [.ret (some (.integer 1 {})) {}]],
    .expr (.call "area" [] {}),
    .expr (.call "Square::Unit::area" [] {})]

theorem compile_symbol_table_shapes :
    ∃ u, compile "main" {} shapes = .ok u ∧
      u.subroutines.toList = [("Circle::area", 8), ("Square::Unit::area", 16), ("area", 2)] ∧
      (∀ x ∈ Stmt.allNames shapes.body, Path.isIdentifier x = true) ∧
      (∀ a, shapes.Emits "main" {} a → u.subroutines[a.absolute]? = some a.entry) ∧
      ∀ c ∈ u.uses, c.resolved = true → ∃ t argc, u.subroutines[c.name]? = some t ∧
        u.chunk.instructions[c.position]? = some ⟨.call, some (.call (.address t) argc)⟩ := by
  have hok : (compile "main" {} shapes).toOption.any (·.subroutines.toList ==
      [("Circle::area", 8), ("Square::Unit::area", 16), ("area", 2)]) = true := by
    decide +kernel
  have hnames : ∀ x ∈ Stmt.allNames shapes.body, Path.isIdentifier x = true := by decide +kernel
  cases h : compile "main" {} shapes with
  | error e => simp [h, Except.toOption] at hok
  | ok u =>
      obtain ⟨-, -, -, -, hlisted, hcalls, hidents⟩ := compile_symbol_table h
      exact ⟨u, rfl, by simpa [h, Except.toOption] using hok, hnames, hlisted.mp (hidents hnames),
        hcalls (hidents hnames)⟩

/-- A subroutine of the root, and one of the same name in a package whose path is empty. -/
def nameless : Program where
  body := [
    .sub { name := "f", params := [] } [.ret (some (.integer 1 {})) {}],
    .package .package "" [.sub { name := "f", params := [] } [.ret (some (.integer 2 {})) {}]],
    .expr (.call "f" [] {})]

/-- There are two subroutines besides the program itself, and one of them is missing in the table: the
call is recorded under the name that is listed, and it does not go where the table says. -/
theorem nameless_lists_one :
    ∃ u, compile "main" {} nameless = .ok u ∧ u.chunk.opens 2 = true ∧ u.chunk.opens 8 = true ∧
      u.subroutines.toList = [("f", 8)] ∧
      u.uses.toList.map (fun c => (c.name, c.resolved, u.chunk.instructions[c.position]?)) =
        [("f", true, some ⟨.call, some (.call (.address 2) 0)⟩)] := by
  have hrun : (compile "main" {} nameless).toOption.any (fun u =>
      u.chunk.opens 2 && u.chunk.opens 8 && u.subroutines.toList == [("f", 8)] &&
        u.uses.toList.map (fun c => (c.name, c.resolved, u.chunk.instructions[c.position]?)) ==
          [("f", true, some ⟨.call, some (.call (.address 2) 0)⟩)]) = true := by
    decide +kernel
  cases h : compile "main" {} nameless with
  | error e => simp [h, Except.toOption] at hrun
  | ok u =>
      rw [h] at hrun
      simp only [Except.toOption, Option.any_some, Bool.and_eq_true, beq_iff_eq] at hrun
      obtain ⟨⟨⟨h₁, h₂⟩, h₃⟩, h₄⟩ := hrun
      exact ⟨u, rfl, h₁, h₂, h₃, h₄⟩

end StackScript
