import StackScript.Proofs.Sealed

/-!
# Units that are ready to be linked

What a unit refers to is there: branches stay in its code, constants are in its pool, and calls go to
frames.  Each call that is left open is recorded once, at its own offset, and nothing else is recorded
as open.  The subroutines listed, for itself and for other units, are frames.

* `Runs.recorded`: calls are recorded in the order of their offsets.
* `Lowers.visits_of_use`: a call is recorded where it is lowered.
* `Program.use_of_compile`, `Program.use_of_instruction`: the calls recorded are the calls of the code.
* `Program.subroutine_of_compile`, `Program.export_of_compile`: the subroutines listed are frames.
* `Program.listed_of_compile`: the calls left open are those recorded as open.
* `Program.wellFormed_of_compile`: all this holds of every unit that is compiled.
-/

namespace StackScript

/-! ### Recorded calls -/

/-- The calls recorded are in the order of their offsets, and all are behind. -/
structure Session.Recorded (σ : Session) : Prop where
  ordered : σ.uses.toList.Pairwise fun c c' => c.position < c'.position
  behind : ∀ c ∈ σ.uses, c.position < σ.draft.position

/-- The calls recorded stay in order while the code grows. -/
theorem Session.Recorded.of_uses {σ σ' : Session} (h : σ.Recorded) (huses : σ'.uses = σ.uses)
    (hpos : σ.draft.position ≤ σ'.draft.position) : σ'.Recorded :=
  ⟨huses ▸ h.ordered, fun c hc => Nat.lt_of_lt_of_le (h.behind c (huses ▸ hc)) hpos⟩

/-- The move records a call. -/
def Move.records : Move → Bool
  | .use _ _ _ => true
  | _ => false

/-- Moves that record no call keep the calls in order, if the pieces among them do. -/
theorem Along.recorded {K : Piece → Bool → Session → Session → Prop} {ms : List Move}
    {σ σ' : Session} (hK : ∀ {p b σ σ'}, K p b σ σ' → σ.Recorded → σ'.Recorded)
    (hms : ms.all (!·.records) = true) (h : Along K ms σ σ') (hσ : σ.Recorded) : σ'.Recorded := by
  refine h.keeps (fun hm hd hτ => hτ.of_uses (hd.spares.uses ?_) hd.grows.position_le) (fun _ => hK) hσ
  rintro name span resolved rfl
  cases List.all_eq_true.mp hms _ hm

theorem Move.records_of_common {m : Move} (h : m.common = true) : m.records = false := by
  cases m with
  | use => cases h
  | _ => rfl

/-- **Calls are recorded in the order of their offsets.** -/
theorem Runs.recorded {Q : List Move → Prop} {p : Piece} {b : Bool} {σ σ' : Session}
    (h : Runs Q p b σ σ') (hσ : σ.Recorded) : σ'.Recorded := by
  refine h.ind (P := fun _ _ σ σ' => σ.Recorded → σ'.Recorded) ?_ hσ
  intro p b ms σ σ' hu _ ha hσ
  have hcommon {ns : List Move} (h : ∀ m ∈ ns, m.common = true) : ns.all (!·.records) = true :=
    List.all_eq_true.mpr fun m hm => by simp [Move.records_of_common (h m hm)]
  rcases hu.calling_or_common with
    ⟨name, args, s, front, x, i, r, rfl, rfl, hc⟩ | ⟨head, body, rfl⟩ | hall
  · obtain ⟨σ₁, h₁, _, huse, _, hemit, rfl⟩ := along_append.mp ha
    have hσ₁ := h₁.recorded And.right (hcommon (List.all_eq_true.mp hc.common)) hσ
    obtain rfl := Move.acts_use.mp huse
    obtain rfl := Move.acts_emit.mp hemit
    refine ⟨?_, fun c hc => ?_⟩
    · simpa [List.pairwise_append] using ⟨hσ₁.ordered, fun c hc => hσ₁.behind c (by simpa using hc)⟩
    · have hpos : σ₁.draft.position < (σ₁.draft.emit i).position := by
        simp [Draft.position, Draft.emit, Chunk.emit, Chunk.size]
      rcases Array.mem_push.mp hc with hc | rfl
      · exact Nat.lt_trans (hσ₁.behind c hc) hpos
      · exact hpos
  · refine ha.recorded And.right (List.all_eq_true.mpr fun m hm => ?_) hσ
    rcases hu.sub_common hm with hm | ⟨params, locals, rfl⟩
    · simp [Move.records_of_common hm]
    · rfl
  · exact ha.recorded And.right (hcommon (List.all_eq_true.mp hall)) hσ

/-- **A call is recorded where it is lowered.** -/
theorem Lowers.visits_of_use {p : Piece} {b : Bool} {σ σ' : Session} {c : CallSite}
    (h : Lowers p b σ σ') (hσ : c ∉ σ.uses) (hσ' : c ∈ σ'.uses) :
    ∃ q e τ τ' υ υ', Visits p b σ σ' q e τ τ' ∧
      Makes q e τ τ' (.use c.name c.span c.resolved) υ υ' ∧ c.position = υ.draft.position := by
  obtain ⟨q, e, τ, τ', m, υ, υ', hv, hmakes, hυ, hυ'⟩ :=
    h.exists_change (A := fun σ => c ∈ σ.uses) hσ hσ'
  obtain ⟨-, -, -, -, hdoes, -⟩ := id hmakes
  cases m with
  | use name span resolved =>
      obtain rfl := Move.acts_use.mp hdoes
      rcases Array.mem_push.mp hυ' with hc | rfl
      · exact absurd hc hυ
      · exact ⟨q, e, τ, τ', υ, _, hv, hmakes, rfl⟩
  | _ =>
      rw [hdoes.spares.uses (by simp)] at hυ'
      exact absurd hυ' hυ

/-! ### Exported subroutines -/

/-- An export that is new has the offset of its entry. -/
theorem exportSub_exports {head : SubHead} {entry : Label} {σ σ' : Session} {x : Export}
    (h : Lower.exportSub head entry σ = (.ok (), σ')) (hx : x ∈ σ'.interface.exports) :
    x ∈ σ.interface.exports ∨ σ.draft.offset? entry = some x.position := by
  rcases exportSub_cases h with ⟨d, rfl⟩ | ⟨-, rfl⟩ | ⟨e, -, he, rfl⟩
  · exact .inl hx
  · exact .inl hx
  · rcases List.mem_append.mp hx with hx | hx
    · exact .inl hx
    · obtain rfl := List.mem_singleton.mp hx
      exact .inr he

/-- Traits export the entry of the subroutine. -/
theorem applyTraits_exports {head : SubHead} {entry : Label} {names : List String} {σ σ' : Session}
    {x : Export} (h : Lower.applyTraits head entry names σ = (.ok (), σ'))
    (hx : x ∈ σ'.interface.exports) :
    x ∈ σ.interface.exports ∨ σ.draft.offset? entry = some x.position := by
  induction names generalizing σ with
  | nil =>
      obtain ⟨_, rfl⟩ := Step.pure_eq_ok.mp h
      exact .inl hx
  | cons name names ih =>
      unfold Lower.applyTraits at h
      split at h
      · obtain ⟨_, τ, h₁, h₂⟩ := Step.bind_eq_ok.mp h
        have hτ : τ.draft = σ.draft := by rw [(exportSub_eq_ok h₁).1]
        rcases ih h₂ with hx | hx
        · exact exportSub_exports h₁ hx
        · exact .inr (hτ ▸ hx)
      · obtain ⟨_, τ, h₁, h₂⟩ := Step.bind_eq_ok.mp h
        obtain rfl := (Move.acts_report (K := fun _ _ _ _ => False)).mp h₁
        have := ih h₂
        exact this

/-- No module is listed twice, among those that are used or among those that are declared. -/
structure Interface.Tidy (i : Interface) : Prop where
  dependencies : i.dependencies.Nodup
  modules : i.modules.Nodup

namespace Interface.Tidy

variable {i : Interface} {name : String}

/-- A module that is used again is not listed again. -/
theorem addDependency (h : i.Tidy) : (i.addDependency name).Tidy := by
  unfold Interface.addDependency
  split
  · exact h
  · rename_i hname
    refine ⟨List.nodup_append.mpr ⟨h.dependencies, by simp, ?_⟩, h.modules⟩
    rintro d hd _ hmem rfl
    exact hname (List.mem_singleton.mp hmem ▸ hd)

/-- A module that is declared again is not listed again. -/
theorem addModule (h : i.Tidy) : (i.addModule name).Tidy := by
  unfold Interface.addModule
  split
  · exact h
  · rename_i hname
    refine ⟨h.dependencies, List.nodup_append.mpr ⟨h.modules, by simp, ?_⟩⟩
    rintro d hd _ hmem rfl
    exact hname (List.mem_singleton.mp hmem ▸ hd)

end Interface.Tidy

namespace Move

/-- The moves that change the interface. -/
def onInterface : Move → Bool
  | .interface _ | .traits _ _ => true
  | _ => false

/-- The move exports nothing, and it lists no module twice. -/
def Unexported (m : Move) : Prop :=
  m.onInterface = true →
    ∃ f, m = .interface f ∧ ∀ i, (f i).exports = i.exports ∧ (i.Tidy → (f i).Tidy)

/-- A move that exports nothing leaves the exports as they are, and lists no module twice. -/
theorem Does.interface {m : Move} {σ σ' : Session} (h : m.Does σ σ') (hm : m.Unexported) :
    σ'.interface.exports = σ.interface.exports ∧ (σ.interface.Tidy → σ'.interface.Tidy) := by
  cases m with
  | interface f =>
      obtain ⟨_, heq, hf⟩ := hm rfl
      cases heq
      obtain rfl := acts_interface.mp h
      exact hf σ.interface
  | traits =>
      obtain ⟨_, hf, -⟩ := hm rfl
      cases hf
  | piece => exact h.elim
  | _ =>
      rw [h.spares.interface (by simp) (by simp)]
      exact ⟨rfl, id⟩

theorem Does.exports {m : Move} {σ σ' : Session} (h : m.Does σ σ') (hm : m.Unexported) :
    σ'.interface.exports = σ.interface.exports :=
  (h.interface hm).1

theorem unexported_of_all {ms : List Move} {m : Move} (h : ms.all (!·.onInterface) = true)
    (hm : m ∈ ms) : m.Unexported := by
  intro hon
  have := List.all_eq_true.mp h m hm
  rw [hon] at this
  cases this

end Move

section Enforced

variable {e : Expr} {type : ValueType} {role : Role} {cs ms : List Move} {ok ends : Bool} {s : Span}

theorem Enforces.interfaceless (h : Enforces e type role cs ok) :
    cs.all (!·.onInterface) = true := by
  cases h <;> rfl

theorem ReturnsUndef.interfaceless (h : ReturnsUndef s ms) : ms.all (!·.onInterface) = true := by
  obtain ⟨hc⟩ := h
  simp only [List.all_cons, List.all_append, hc.interfaceless]
  rfl

theorem Closes.interfaceless (h : Closes s ends ms) : ms.all (!·.onInterface) = true := by
  cases h with
  | returned => rfl
  | fallen h => exact h.interfaceless

end Enforced

/-- Only the declaration of a subroutine exports anything. -/
theorem Unfolds.unexported {p : Piece} {ms : List Move} {b : Bool} {m : Move} (h : Unfolds p ms b)
    (hp : ∀ head body, p ≠ .stmt (.sub head body)) (hm : m ∈ ms) : m.Unexported := by
  cases h with
  | sub | subParameter | subRedeclared => exact absurd rfl (hp _ _)
  | use =>
      obtain rfl := List.mem_singleton.mp hm
      refine fun _ => ⟨_, rfl, fun i => ⟨?_, fun h => h.addDependency⟩⟩
      unfold Interface.addDependency
      split <;> rfl
  | @package kind =>
      cases kind with
      | package => exact Move.unexported_of_all rfl hm
      | module =>
          simp only [Move.declareModule, Move.block, List.mem_cons, List.not_mem_nil, or_false,
            List.cons_append, List.nil_append] at hm
          rcases hm with rfl | rfl | rfl | hm
          · intro h; cases h
          · intro h; cases h
          · refine fun _ => ⟨_, rfl, fun i => ⟨?_, fun h => h.addModule⟩⟩
            unfold Interface.addModule
            split <;> rfl
          · intro h
            rcases hm with rfl | rfl | rfl | rfl | rfl | rfl <;> cases h
  | assignVar hc | assignVarMismatch hc | assignDeclare hc | assignDeclareMismatch hc | ret hc
  | bodyExpr hc =>
      refine Move.unexported_of_all ?_ hm
      simp only [List.all_cons, List.all_append, hc.interfaceless]
      rfl
  | @argsHeld _ _ p _ _ _ hc =>
      refine Move.unexported_of_all ?_ hm
      simp only [List.all_append, hc.interfaceless]
      cases p.copy <;> rfl
  | retUndef h => exact Move.unexported_of_all h.interfaceless hm
  | @next _ control => cases control <;> exact Move.unexported_of_all rfl hm
  | @checkpoint _ on => cases on <;> exact Move.unexported_of_all rfl hm
  | @call _ _ _ _ _ sub =>
      refine Move.unexported_of_all ?_ hm
      cases sub.usesArgList <;> rfl
  | @cond _ _ _ rest => cases rest <;> exact Move.unexported_of_all rfl hm
  | @loop init condition step =>
      cases init <;> cases condition <;> cases step <;> exact Move.unexported_of_all rfl hm
  | _ => exact Move.unexported_of_all rfl hm

/-- The declaration of a subroutine exports the place of its frame. -/
theorem Makes.exports {head : SubHead} {body : List Stmt} {b : Bool} {m : Move}
    {σ σ' τ τ' : Session} {x : Export} (h : Makes (.stmt (.sub head body)) b σ σ' m τ τ')
    (hτ : x ∉ τ.interface.exports) (hτ' : x ∈ τ'.interface.exports) :
    x.position = σ.draft.position + 1 := by
  obtain ⟨ms, ns, hu, h₁, hdoes, -⟩ := h
  have hon : m.onInterface = true := by
    cases hon : m.onInterface with
    | true => rfl
    | false =>
        rw [hdoes.exports fun h => by rw [hon] at h; cases h] at hτ'
        exact absurd hτ' hτ
  generalize hall : ms ++ m :: ns = all at hu
  have hmem : m ∈ all := by simp [← hall]
  cases hu with
  | subParameter | subRedeclared =>
      obtain ⟨f, rfl, hf⟩ := Move.unexported_of_all rfl hmem hon
      rw [hdoes.exports fun _ => ⟨f, rfl, hf⟩] at hτ'
      exact absurd hτ' hτ
  | @sub _ _ ps sub skip slot _ close _ _ hclose =>
      -- It is the last move, and the label has been marked by then.
      obtain ⟨rfl, rfl, rfl⟩ := split_unique (P := Move.onInterface) (D := [])
        (hall.trans (List.append_assoc _ [_, _] [_]).symm) hon
        (by
          simp only [List.all_append, hclose.interfaceless]
          cases mentionsArgList body <;> rfl) rfl
      obtain ⟨σ₃, h₁, hbehind⟩ := along_append.mp h₁
      obtain ⟨σ₂, h₁, hclosing⟩ := along_append.mp h₁
      obtain ⟨σ₁, h₁, hbody⟩ := along_append.mp h₁
      obtain ⟨σ₀, h₁, hslot⟩ := along_append.mp h₁
      obtain ⟨ρ₁, hfirst, ρ₂, hjump, ρ₃, hmark, ρ₄, hframe, rfl⟩ :=
        (@along_append Lowers [_, _, _, _, _, _] _ _ _).mp h₁
      have hgrow : ρ₃.draft.Grows τ.draft :=
        (Move.Does.grows (m := .emit _) hframe).trans (hslot.before.grows.trans
          (hbody.before.grows.trans (hclosing.before.grows.trans hbehind.before.grows)))
      have hentry := Move.acts_mark_at hmark hgrow
      have e₁ : ρ₁.draft.position = σ.draft.position := hfirst.position rfl
      have e₂ : ρ₂.draft.position = ρ₁.draft.position + 1 := Move.Does.position (m := .emit _) hjump
      rcases applyTraits_exports hdoes hτ' with hx | hx
      · exact absurd hx hτ
      · rw [hentry] at hx
        rw [← Option.some.inj hx, e₂, e₁]

/-- A subroutine is exported where its declaration is lowered. -/
theorem Lowers.visits_of_export {p : Piece} {b : Bool} {σ σ' : Session} {x : Export}
    (h : Lowers p b σ σ') (hσ : x ∉ σ.interface.exports) (hσ' : x ∈ σ'.interface.exports) :
    ∃ head body e τ τ', Visits p b σ σ' (.stmt (.sub head body)) e τ τ' ∧
      x.position = τ.draft.position + 1 := by
  obtain ⟨q, e, τ, τ', m, υ, υ', hv, hmakes, hυ, hυ'⟩ :=
    h.exists_change (A := fun σ => x ∈ σ.interface.exports) hσ hσ'
  rcases q.other_or_sub with hq | ⟨head, body, rfl⟩
  · obtain ⟨ms, ns, hu, -, hdoes, -⟩ := hmakes
    rw [hdoes.exports (hu.unexported hq (by simp))] at hυ'
    exact absurd hυ' hυ
  · exact ⟨head, body, e, τ, τ', hv, hmakes.exports hυ hυ'⟩

/-! ### The table of subroutines -/

/-- A subroutine in the table is known under a name. -/
theorem PackageTree.mem_subroutines {t : PackageTree} {id : PackageId} {sub : Subroutine}
    (h : (id, sub) ∈ t.subroutines) : ∃ name, t.sub? id name = some sub := by
  obtain ⟨i, -, h⟩ := List.mem_flatMap.mp h
  obtain ⟨⟨name, s⟩, hs, heq⟩ := List.mem_map.mp h
  obtain ⟨rfl, rfl⟩ := Prod.mk.inj heq
  exact ⟨name, Std.ExtTreeMap.mem_toList_iff_getElem?_eq_some.mp hs⟩

/-- What each step of a fold keeps, the fold keeps. -/
theorem foldlM_keeps {α β ε : Type} {f : β → α → Except ε β} {P : β → Prop} {l : List α}
    (h : ∀ a ∈ l, ∀ {b c}, f b a = .ok c → P b → P c) {b c : β} (hl : l.foldlM f b = .ok c) (hb : P b) :
    P c := by
  induction l generalizing b with
  | nil =>
      obtain rfl : b = c := Except.ok.inj hl
      exact hb
  | cons a l ih =>
      rw [List.foldlM_cons] at hl
      cases hf : f b a with
      | error e => simp [hf, bind, Except.bind] at hl
      | ok b' =>
          rw [hf] at hl
          exact ih (fun a ha => h a (List.mem_cons_of_mem _ ha)) hl (h a List.mem_cons_self hf hb)

/-- The offsets listed are those of subroutines that have been emitted. -/
theorem Session.entryPoints_ok {σ : Session} {table : NameMap Nat} {name : String} {o : Nat}
    (h : σ.entryPoints = .ok table) (ho : table[name]? = some o) :
    ∃ id x sub, σ.packages.sub? id x = some sub ∧ sub.marked = true ∧
      σ.draft.offset? sub.label = some o := by
  unfold entryPoints at h
  refine foldlM_keeps (P := fun t : NameMap Nat => t[name]? = some o → ∃ id x sub,
    σ.packages.sub? id x = some sub ∧ sub.marked = true ∧ σ.draft.offset? sub.label = some o)
    (fun e he {t t'} ht h₀ hname => ?_) h (fun h => by simp at h) ho
  obtain ⟨he, hm⟩ := List.mem_filter.mp he
  obtain ⟨x, hx⟩ := PackageTree.mem_subroutines he
  cases hoff : σ.draft.offset? e.2.label with
  | none => simp [hoff] at ht
  | some offset =>
      obtain rfl : t.insert (σ.packages.qualify e.1 e.2.name) offset = t' := by simpa [hoff] using ht
      rw [Std.ExtTreeMap.getElem?_insert] at hname
      split at hname
      · obtain rfl := Option.some.inj hname
        exact ⟨e.1, x, e.2, hx, hm, hoff⟩
      · exact h₀ hname

/-! ### Units -/

namespace CompiledUnit

/-- What the operand of the instruction at `n` refers to is in the unit; a call left open is recorded. -/
def Has (u : CompiledUnit) (n : Nat) : Operand → Prop
  | .offset m => m < u.chunk.size
  | .constant index => index.toNat < u.chunk.constants.size
  | .call (.address t) _ => u.chunk.opens t = true
  | .call .unresolved _ => ∃ c ∈ u.unresolved, c.position = n
  | .label _ | .call (.label _) _ => False
  | _ => True

/-- A unit that is ready to be linked. -/
structure WellFormed (u : CompiledUnit) : Prop where
  operand : ∀ {n i o}, u.chunk.instructions[n]? = some i → i.operand = some o → u.Has n o
  unresolved : ∀ c ∈ u.unresolved,
    ∃ argc, u.chunk.instructions[c.position]? = some (.placeholderCall argc)
  once : u.unresolved.Pairwise fun c c' => c.position ≠ c'.position
  subroutine : ∀ {name : String} {o}, u.subroutines[name]? = some o → u.chunk.opens o = true
  exported : ∀ x ∈ u.interface.exports, u.chunk.opens x.position = true

/-- The calls left open are those recorded as open, each recorded once. -/
structure Listed (u : CompiledUnit) : Prop where
  complete : ∀ {n i argc}, u.chunk.instructions[n]? = some i →
    i.operand = some (.call .unresolved argc) → ∃ c ∈ u.unresolved, c.position = n
  unresolved : ∀ c ∈ u.unresolved,
    ∃ argc, u.chunk.instructions[c.position]? = some (.placeholderCall argc)
  once : u.unresolved.Pairwise fun c c' => c.position ≠ c'.position

/-- A unit that is ready to be linked lists the calls that it leaves open. -/
theorem WellFormed.listed {u : CompiledUnit} (h : u.WellFormed) : u.Listed :=
  ⟨fun hi ho => h.operand hi ho, h.unresolved, h.once⟩

end CompiledUnit

namespace Program

variable {p : Program} {name : String} {options : CompileOptions} {u : CompiledUnit}

/-- Behind the jump over a subroutine its frame is opened. -/
theorem Lowered.opens {head : SubHead} {body : List Stmt} {b : Bool} {τ τ' : Session}
    (hsub : p.Lowered name options (.stmt (.sub head body)) b τ τ')
    (h : compile name options p = .ok u) : u.chunk.opens (τ.draft.position + 1) = true := by
  obtain ⟨⟨ps, -, hframe⟩, -⟩ := hsub.layout h
  simp [Chunk.opens, hframe, Instruction.pushFrame]

theorem entry_uses : (p.entry name options).uses = #[] :=
  (@Session.declareStmts_knows p.body (Session.start name options) PackageTree.root).uses

theorem entry_interface : (p.entry name options).interface = {} :=
  (@Session.declareStmts_knows p.body (Session.start name options) PackageTree.root).interface

/-- Where a call that a unit records comes from: it was lowered, recorded and emitted. -/
theorem use_of_compile {c : CallSite} (h : compile name options p = .ok u) (hc : c ∈ u.uses) :
    ∃ x args front i e τ τ' τ₁, p.Lowered name options (.expr (.call x args c.span)) e τ τ' ∧
      Calling x args front c.name i c.resolved ∧ Along Lowers front τ τ₁ ∧
      Along Lowers [.use c.name c.span c.resolved, .emit i] τ₁ τ' ∧
      c.position = τ₁.draft.position := by
  obtain ⟨σ, hl, -, huses, -⟩ := tables_of_compile h
  obtain ⟨q, e, τ, τ', υ, υ', hv, hmakes, hposition⟩ :=
    hl.visits_of_use (by simp [entry_uses]) (huses ▸ hc)
  obtain ⟨x, args, s, front, y, i, τ₁, rfl, hcall, h₁, h₂, hm, hpos⟩ := hmakes.calling rfl
  rcases hm with hm | hm
  · obtain ⟨rfl, rfl⟩ : c.name = y ∧ c.span = s := by simpa using hm
    exact ⟨x, args, front, i, e, τ, τ', τ₁, ⟨σ, hl, hv⟩, hcall, h₁, h₂, hposition.trans hpos⟩
  · cases hm

/-- A call that is lowered is recorded in the unit. -/
theorem Lowered.recorded {x y : String} {args : List Expr} {s : Span} {r e : Bool} {i : Instruction}
    {τ τ' τ₁ : Session} (hq : p.Lowered name options (.expr (.call x args s)) e τ τ')
    (h : compile name options p = .ok u) (h₂ : Along Lowers [.use y s r, .emit i] τ₁ τ') :
    ⟨y, s, τ₁.draft.position, r⟩ ∈ u.uses := by
  obtain ⟨σ, hl, -, huses, -⟩ := tables_of_compile h
  obtain ⟨ρ, huse, hemit⟩ := h₂
  obtain rfl := Move.acts_use.mp huse
  rw [huses]
  exact (hq.within hl).2.2.uses (hemit.before.uses (Array.mem_push.mpr (.inr rfl)))

/-- The subroutines listed are the frames of declarations. -/
theorem subroutine_of_compile {x : String} {o : Nat} (h : compile name options p = .ok u)
    (ho : u.subroutines[x]? = some o) :
    ∃ head body e τ τ', p.Lowered name options (.stmt (.sub head body)) e τ τ' ∧
      o = τ.draft.position + 1 := by
  obtain ⟨σ, hl, hcount, -, htable, -⟩ := tables_of_compile h
  obtain ⟨id, y, sub, hsub, hm, hoff⟩ := Session.entryPoints_ok htable ho
  obtain ⟨head, body, e, τ, τ', hlowered, -, -, hem⟩ := lowered_of_marked hl hcount hsub hm
  have hentry := hem.entry (d := σ.halted.draft) ((hlowered.within hl).2.2.grows.trans .emit)
  exact ⟨head, body, e, τ, τ', hlowered, Option.some.inj (hoff.symm.trans hentry)⟩

/-- So are the subroutines listed for other units. -/
theorem export_of_compile {x : Export} (h : compile name options p = .ok u)
    (hx : x ∈ u.interface.exports) :
    ∃ head body e τ τ', p.Lowered name options (.stmt (.sub head body)) e τ τ' ∧
      x.position = τ.draft.position + 1 := by
  obtain ⟨σ, hl, -, -, -, hinterface⟩ := tables_of_compile h
  rw [hinterface] at hx
  obtain ⟨head, body, e, τ, τ', hv, hpos⟩ := hl.visits_of_export (by simp [entry_interface]) hx
  exact ⟨head, body, e, τ, τ', ⟨σ, hl, hv⟩, hpos⟩

/-- Calls are recorded in the order of their offsets. -/
theorem uses_ordered (h : compile name options p = .ok u) :
    u.uses.toList.Pairwise fun c c' => c.position < c'.position := by
  obtain ⟨σ, hl, -, huses, -⟩ := tables_of_compile h
  rw [huses]
  refine (hl.runs.recorded ⟨?_, fun c hc => ?_⟩).ordered
  · simp [entry_uses]
  · simp [entry_uses] at hc

/-- Where a call is recorded its instruction stands: to an address if its subroutine is in the unit,
and left open if it is not. -/
theorem instruction_of_use {c : CallSite} (h : compile name options p = .ok u) (hc : c ∈ u.uses) :
    (c.resolved = true ∧ ∃ t argc,
        u.chunk.instructions[c.position]? = some ⟨.call, some (.call (.address t) argc)⟩) ∨
      (c.resolved = false ∧
        ∃ argc, u.chunk.instructions[c.position]? = some (.placeholderCall argc)) := by
  obtain ⟨σ, hl, -, hfin⟩ := lowers_of_compile h
  obtain ⟨x, args, front, i, e, τ, τ', τ₁, hq, hcall, -, ⟨ρ, huse, _, hemit, rfl⟩, hpos⟩ :=
    use_of_compile h hc
  obtain ⟨⟨op, operand⟩, hj, hr⟩ := Move.acts_emit_at hemit ((hq.within hl).2.2.grows.trans .emit) hfin
  rw [Move.Does.position (m := .use _ _ _) huse, ← hpos] at hj
  generalize hresolved : c.resolved = r at hcall
  cases hcall with
  | call =>
      obtain ⟨rfl, t, -, rfl⟩ := Draft.resolveInstruction_eq_ok hr
      exact .inl ⟨rfl, t, _, hj⟩
  | external =>
      obtain ⟨rfl, rfl⟩ := Draft.resolveInstruction_eq_ok hr
      exact .inr ⟨rfl, _, hj⟩

/-- Every call of a unit is recorded. -/
theorem use_of_instruction {n : Nat} {i : Instruction} (h : compile name options p = .ok u)
    (hi : u.chunk.instructions[n]? = some i) (hop : i.opcode = .call) :
    ∃ c ∈ u.uses, c.position = n := by
  obtain ⟨σ, hl, -⟩ := lowers_of_compile h
  rcases emitter_of_instruction h hl hi with
    ⟨-, _, rfl⟩ | ⟨-, rfl⟩ | ⟨_, rfl, -⟩ | ⟨q, e, τ, τ', j, υ, υ', hq, hmakes, rfl, hr⟩
  · cases hop
  · cases hop
  · cases hop
  · rw [(Draft.resolveInstruction_eq_ok hr).1] at hop
    have hcallee : ∃ r, (Move.emit j).callee? = some r := by
      obtain ⟨ms, ns, hu, -⟩ := hmakes
      rcases hu.emits (i := j) (by simp) with hseeks | ⟨_, _, _, _, -, rfl⟩ | ⟨_, _, rfl⟩ | ⟨_, rfl⟩
      · simp [Instruction.seeks, Instruction.settled, Instruction.branches, hop] at hseeks
      · cases hop
      · exact ⟨true, rfl⟩
      · exact ⟨false, rfl⟩
    obtain ⟨r, hr⟩ := hcallee
    obtain ⟨x, args, s, front, y, i', τ₁, rfl, -, -, h₂, -, hpos⟩ := hmakes.calling hr
    exact ⟨_, hq.recorded h h₂, hpos.symm⟩

/-- Only calls have the operand of a call. -/
theorem opcode_of_call {n : Nat} {i : Instruction} {target : CallTarget} {argc : UInt8}
    (h : compile name options p = .ok u) (hi : u.chunk.instructions[n]? = some i)
    (ho : i.operand = some (.call target argc)) : i.opcode = .call := by
  obtain ⟨σ, hl, -⟩ := lowers_of_compile h
  rcases emitter_of_instruction h hl hi with
    ⟨-, _, rfl⟩ | ⟨-, rfl⟩ | ⟨_, rfl, -⟩ | ⟨q, e, τ, τ', j, υ, υ', -, hmakes, -, hr⟩
  · cases ho
  · cases ho
  · cases ho
  · obtain ⟨ms, ns, hu, -⟩ := hmakes
    rcases hu.emits (i := j) (by simp) with hseeks | ⟨_, _, _, _, -, rfl⟩ | ⟨_, _, rfl⟩ | ⟨_, rfl⟩
    · rcases Draft.resolves_of_seeks hseeks hr with ⟨m, -, hm⟩ | ⟨rfl, hs⟩
      · cases hm.symm.trans ho
      · simp [Instruction.settled, ho] at hs
    · obtain rfl : Instruction.pushFrame _ _ = i := Except.ok.inj hr
      cases ho
    · exact (Draft.resolveInstruction_eq_ok hr).1
    · exact (Draft.resolveInstruction_eq_ok hr).1

/-- **The calls that a unit leaves open are those it records as open.** -/
theorem listed_of_compile (h : compile name options p = .ok u) : u.Listed := by
  have hopen {c : CallSite} : c ∈ u.unresolved ↔ c ∈ u.uses ∧ c.resolved = false := by
    simp [CompiledUnit.unresolved]
  refine ⟨fun {n i argc} hi ho => ?_, fun c hc => ?_,
    ((uses_ordered h).sublist List.filter_sublist).imp Nat.ne_of_lt⟩
  · obtain ⟨c, hc, rfl⟩ := use_of_instruction h hi (opcode_of_call h hi ho)
    rcases instruction_of_use h hc with ⟨-, t, _, hi'⟩ | ⟨hr, -⟩
    · obtain rfl := Option.some.inj (hi.symm.trans hi')
      cases ho
    · exact ⟨c, hopen.mpr ⟨hc, hr⟩, rfl⟩
  · obtain ⟨hmem, hr⟩ := hopen.mp hc
    rcases instruction_of_use h hmem with ⟨hr', -⟩ | ⟨-, hi⟩
    · cases hr.symm.trans hr'
    · exact hi

/-- **Every unit that is compiled is ready to be linked.** -/
theorem wellFormed_of_compile (h : compile name options p = .ok u)
    (hlabels : p.labelCount name options < UInt32.size) : u.WellFormed := by
  obtain ⟨σ, hl, -⟩ := lowers_of_compile h
  have hlisted := listed_of_compile h
  refine ⟨fun {n i o} hi ho => ?_, hlisted.unresolved, hlisted.once, fun {x o} ho => ?_, fun x hx => ?_⟩
  -- Every operand comes from what emitted it: the frame of the main body, its halt, a constant, or a
  -- move of some template.
  · rcases emitter_of_instruction h hl hi with
      ⟨-, _, rfl⟩ | ⟨-, rfl⟩ | ⟨index, rfl, hindex⟩ | ⟨q, e, τ, τ', j, υ, υ', hq, hmakes, rfl, hr⟩
    · obtain rfl := Option.some.inj ho
      trivial
    · cases ho
    · obtain rfl := Option.some.inj ho
      exact hindex
    · obtain ⟨ms, ns, hu, -⟩ := id hmakes
      rcases hu.emits (i := j) (by simp) with hseeks | ⟨_, _, _, _, -, rfl⟩ | ⟨l, c, rfl⟩ | ⟨c, rfl⟩
      · rcases Draft.resolves_of_seeks hseeks hr with ⟨m, hb, hm⟩ | ⟨rfl, hs⟩
        · obtain rfl := Option.some.inj (ho.symm.trans hm)
          obtain ⟨t, ht⟩ := Chunk.exists_inBody (entry_opens h) (Array.getElem?_eq_some_iff.mp hi).1
          obtain ⟨m', hm', hin⟩ := branch_interior h hlabels ht hi hb
          obtain ⟨⟩ := Option.some.inj (ho.symm.trans hm')
          exact Nat.lt_of_lt_of_le hin.inBody.2.2.1 (bodyEnd_of_opens h ht.1).2
        · rw [Instruction.settled, ho] at hs
          cases o with
          | label | offset | call | constant => simp at hs
          | _ => trivial
      · obtain rfl : Instruction.pushFrame _ _ = i := Except.ok.inj hr
        obtain rfl := Option.some.inj ho
        trivial
      · obtain ⟨-, offset, -, hoperand⟩ := Draft.resolveInstruction_eq_ok hr
        obtain rfl := Option.some.inj (ho.symm.trans hoperand)
        obtain ⟨op, operand⟩ := i
        obtain rfl : operand = _ := ho
        obtain ⟨head, body, b, ρ, ρ', hsub, rfl⟩ := call_resolved h hi
        exact hsub.opens h
      · obtain rfl : Instruction.placeholderCall c = i := Except.ok.inj hr
        obtain rfl := Option.some.inj ho
        exact hlisted.complete hi rfl
  · obtain ⟨head, body, e, τ, τ', hsub, rfl⟩ := subroutine_of_compile h ho
    exact hsub.opens h
  · obtain ⟨head, body, e, τ, τ', hsub, hpos⟩ := export_of_compile h hx
    exact hpos ▸ hsub.opens h

end Program

end StackScript
