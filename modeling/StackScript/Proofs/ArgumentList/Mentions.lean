import StackScript.Proofs.DeclaredTypes
import StackScript.Proofs.Sessions

/-!
# Mentions of the argument list

Whether a subroutine has a slot for the argument list is told from its body before it is lowered.  Lowering
looks a variable up only where it is mentioned, so the slot is there wherever it is looked for.

* `Expr.Mentions`, `Stmt.Mentions`: a variable stands somewhere in a tree, subroutines in it apart.
* `mentionsArgList_iff`: this is what is told of a body.
* `Move.sight`: where the argument list can be seen along a template.
* `Unfolds.sight`: a template looks for it, and lowers pieces that mention it, only where it can be seen.
* `Piece.clear`: so it is never reported as undeclared, however lowering a piece ends.
-/

namespace StackScript

open Lower Scopes

/-! ### Variables in a tree -/

namespace Expr

/-- The expressions directly in an expression. -/
def parts : Expr → List Expr
  | .typed _ pattern _ => [pattern]
  | .list items _ => items
  | .binary _ left right _ => [left, right]
  | .unary _ operand _ => [operand]
  | .assign target value _ => [target, value]
  | .index target position _ => [target, position]
  | .call _ args _ => args
  | .integer _ _ | .float _ _ | .str _ _ | .bool _ _ | .undefined _ | .var _ _ | .declare _ _ _ => []

/-- The variable stands in the expression, to be read or to be assigned to. -/
inductive Mentions (x : String) : Expr → Prop where
  | var {s : Span} : Mentions x (.var x s)
  | part {e e' : Expr} : e' ∈ e.parts → Mentions x e' → Mentions x e

/-- A variable stands in an expression as the expression itself, or in a part of it. -/
theorem mentions_iff {x : String} {e : Expr} :
    e.Mentions x ↔ (∃ s, e = .var x s) ∨ ∃ e' ∈ e.parts, e'.Mentions x := by
  constructor
  · intro h
    cases h with
    | var => exact .inl ⟨_, rfl⟩
    | part he h => exact .inr ⟨_, he, h⟩
  · rintro (⟨s, rfl⟩ | ⟨e', he, h⟩)
    · exact .var
    · exact .part he h

mutual

/-- What is told of an expression is whether the argument list stands in it. -/
theorem mentionsArgList_iff (e : Expr) : e.mentionsArgList = true ↔ e.Mentions argList := by
  rw [mentions_iff]
  cases e with
  | list items | call _ items =>
      rw [mentionsArgList, anyMentionsArgList_iff items]
      simp [parts]
  | binary _ left right | assign left right | index left right =>
      have hleft := mentionsArgList_iff left
      have hright := mentionsArgList_iff right
      simp [mentionsArgList, parts, hleft, hright]
  | unary _ operand | typed _ operand =>
      have hoperand := mentionsArgList_iff operand
      simp [mentionsArgList, parts, hoperand]
  | _ => simp [mentionsArgList, parts]

theorem anyMentionsArgList_iff (es : List Expr) :
    anyMentionsArgList es = true ↔ ∃ e ∈ es, e.Mentions argList := by
  cases es with
  | nil => simp [anyMentionsArgList]
  | cons e es =>
      have hfirst := mentionsArgList_iff e
      have hrest := anyMentionsArgList_iff es
      simp [anyMentionsArgList, hfirst, hrest]

end

end Expr

namespace Stmt

/-- The expressions directly in a statement. -/
def exprs : Stmt → List Expr
  | .expr e => [e]
  | .ret value _ => value.toList
  | .cond condition _ elsifs _ => condition :: elsifs.map (·.1)
  | .whileLoop condition _ => [condition]
  | .forEach _ iterable _ => [iterable]
  | .loop init condition step _ => init.toList ++ condition.toList ++ step.toList
  | .block _ | .sub _ _ | .use _ | .package _ _ _ => []

/-- The bodies directly in a statement, that of a subroutine apart. -/
def bodies : Stmt → List (List Stmt)
  | .block body | .whileLoop _ body | .forEach _ _ body | .loop _ _ _ body | .package _ _ body => [body]
  | .cond _ body elsifs otherwise => body :: elsifs.map (·.2) ++ otherwise.toList
  | .expr _ | .sub _ _ | .ret _ _ | .use _ => []

/-- The variable stands in the statement, and not in a subroutine in it. -/
inductive Mentions (x : String) : Stmt → Prop where
  | expr {s : Stmt} {e : Expr} : e ∈ s.exprs → e.Mentions x → Mentions x s
  | inner {s t : Stmt} {body : List Stmt} : body ∈ s.bodies → t ∈ body → Mentions x t → Mentions x s

/-- A variable stands in a statement in one of its expressions, or in one of its bodies. -/
theorem mentions_iff {x : String} {s : Stmt} :
    s.Mentions x ↔ (∃ e ∈ s.exprs, e.Mentions x) ∨ ∃ body ∈ s.bodies, ∃ t ∈ body, t.Mentions x := by
  constructor
  · intro h
    cases h with
    | expr he h => exact .inl ⟨_, he, h⟩
    | inner hbody ht h => exact .inr ⟨_, hbody, _, ht, h⟩
  · rintro (⟨e, he, h⟩ | ⟨body, hbody, t, ht, h⟩)
    · exact .expr he h
    · exact .inner hbody ht h

theorem any_mentionsArgList_iff {value : Option Expr} :
    value.any Expr.mentionsArgList = true ↔ ∃ e ∈ value, e.Mentions argList := by
  cases value <;> simp [Expr.mentionsArgList_iff]

mutual

/-- What is told of a statement is whether the argument list stands in it. -/
theorem mentionsArgList_iff (s : Stmt) : s.mentionsArgList = true ↔ s.Mentions argList := by
  rw [mentions_iff]
  cases s with
  | block body | package _ _ body =>
      rw [mentionsArgList, anyMentionsArgList_iff body]
      simp [exprs, bodies]
  | whileLoop condition body | forEach _ condition body =>
      have hbody := anyMentionsArgList_iff body
      simp [mentionsArgList, exprs, bodies, Expr.mentionsArgList_iff, hbody]
  | loop init condition step body =>
      have hbody := anyMentionsArgList_iff body
      simp [mentionsArgList, exprs, bodies, any_mentionsArgList_iff, hbody, or_and_right, exists_or, or_assoc]
  | cond condition body elsifs otherwise =>
      have hbody := anyMentionsArgList_iff body
      have helsifs := branchMentionsArgList_iff elsifs
      have hcondition := Expr.mentionsArgList_iff condition
      cases otherwise with
      | none =>
          simp only [mentionsArgList, Bool.or_eq_true, hcondition, hbody, helsifs, exprs, bodies,
            Option.toList_none, List.append_nil, List.mem_cons, exists_eq_or_imp, Bool.false_eq_true,
            or_false]
          exact or_or_or_comm
      | some rest =>
          have hrest := anyMentionsArgList_iff rest
          simp only [mentionsArgList, Bool.or_eq_true, hcondition, hbody, helsifs, hrest, exprs, bodies,
            Option.toList_some, List.cons_append, List.mem_cons, List.mem_append, or_and_right, exists_or,
            List.not_mem_nil, or_false, exists_eq_left]
          rw [or_or_or_comm]
          simp only [or_assoc]
  | expr e => simp [mentionsArgList, exprs, bodies, Expr.mentionsArgList_iff]
  | ret value => simp [mentionsArgList, exprs, bodies, any_mentionsArgList_iff]
  | sub | use => simp [mentionsArgList, exprs, bodies]

theorem anyMentionsArgList_iff (body : List Stmt) :
    anyMentionsArgList body = true ↔ ∃ s ∈ body, s.Mentions argList := by
  cases body with
  | nil => simp [anyMentionsArgList]
  | cons s rest =>
      have hfirst := mentionsArgList_iff s
      have hrest := anyMentionsArgList_iff rest
      simp [anyMentionsArgList, hfirst, hrest]

/-- What is told of branches is whether the argument list stands in a condition or in a body. -/
theorem branchMentionsArgList_iff (elsifs : List (Expr × List Stmt)) :
    branchMentionsArgList elsifs = true ↔
      (∃ e ∈ elsifs.map (·.1), e.Mentions argList) ∨
        ∃ body ∈ elsifs.map (·.2), ∃ s ∈ body, s.Mentions argList := by
  cases elsifs with
  | nil => simp [branchMentionsArgList]
  | cons branch rest =>
      have hbody := anyMentionsArgList_iff branch.2
      have hrest := branchMentionsArgList_iff rest
      simp only [branchMentionsArgList, Bool.or_eq_true, Expr.mentionsArgList_iff, hbody, hrest,
        List.map_cons, List.mem_cons, exists_eq_or_imp]
      exact or_or_or_comm

end

/-- The variable stands in one of the statements, and not in a subroutine in them. -/
def AnyMentions (x : String) (body : List Stmt) : Prop := ∃ s ∈ body, s.Mentions x

end Stmt

/-- **What is told of a body is whether the argument list is mentioned in it.** -/
theorem mentionsArgList_iff {body : List Stmt} :
    mentionsArgList body = true ↔ Stmt.AnyMentions argList body :=
  Stmt.anyMentionsArgList_iff body

instance {body : List Stmt} : Decidable (Stmt.AnyMentions argList body) :=
  decidable_of_iff _ mentionsArgList_iff

/-- The argument list is mentioned in the piece. -/
def Piece.mentions : Piece → Bool
  | .expr e => e.mentionsArgList
  | .each es | .backward es | .args es _ => Expr.anyMentionsArgList es
  | .stmt s => s.mentionsArgList
  | .stmts ss | .body _ ss => mentionsArgList ss
  | .branches _ elsifs => Stmt.branchMentionsArgList elsifs

/-! ### Diagnostics about a variable -/

/-- What is wrong is that the variable is not declared. -/
def Problem.misses (x : String) : Problem → Bool
  | .undeclaredRead name | .undeclaredWrite name => name == x
  | _ => false

/-- The diagnostic says that the variable is not declared. -/
def Diagnostic.Misses (x : String) (d : Diagnostic) : Prop :=
  ∃ p span, p.misses x = true ∧ d = .ofProblem p span

/-- A quoted name is known by the name. -/
theorem Problem.quote_injective {x y : String} (h : quote x = quote y) : x = y := by
  have hchars := congrArg String.toList h
  simp only [quote, String.toList_append, List.append_cancel_left_eq, List.append_cancel_right_eq] at hchars
  exact String.toList_injective hchars

/-- A text in front of a quoted name can be taken off. -/
theorem Problem.quoted_injective {text x y : String} (h : text ++ quote x = text ++ quote y) : x = y := by
  have hchars := congrArg String.toList h
  simp only [String.toList_append, List.append_cancel_left_eq] at hchars
  exact quote_injective (String.toList_injective hchars)

/-- The texts for reading and for assigning begin differently. -/
theorem Problem.message_read_ne_write {x y : String} :
    message (.undeclaredRead x) ≠ message (.undeclaredWrite y) := by
  have hhead {text rest : String} {c : Char} (h : text.toList.head? = some c) :
      (text ++ rest).toList.head? = some c := by
    rw [String.toList_append, List.head?_append, h, Option.some_or]
  intro h
  have hread : (message (.undeclaredRead x)).toList.head? = some 'u' :=
    @hhead "use of undeclared variable " (quote x) 'u' (by decide +kernel)
  have hwrite : (message (.undeclaredWrite y)).toList.head? = some 'a' :=
    @hhead "assignment to undeclared variable " (quote y) 'a' (by decide +kernel)
  rw [h, hwrite] at hread
  exact absurd hread (by decide)

/-- What a diagnostic says is what it was made of. -/
theorem Diagnostic.misses_ofProblem {x : String} {p : Problem} {span : Span} :
    (Diagnostic.ofProblem p span).Misses x ↔ p.misses x = true := by
  refine ⟨?_, fun h => ⟨p, span, h, rfl⟩⟩
  rintro ⟨q, span', hq, heq⟩
  obtain ⟨hkind, hmessage, -⟩ := Diagnostic.mk.inj heq
  cases q with
  | undeclaredRead y =>
      cases p with
      | undeclaredRead z => rwa [← Problem.quoted_injective hmessage] at hq
      | undeclaredWrite z => exact absurd hmessage.symm Problem.message_read_ne_write
      | _ => cases hkind
  | undeclaredWrite y =>
      cases p with
      | undeclaredRead z => exact absurd hmessage Problem.message_read_ne_write
      | undeclaredWrite z => rwa [← Problem.quoted_injective hmessage] at hq
      | _ => cases hkind
  | _ => cases hq

/-- Diagnostics have been added, and none of them says that the variable is not declared. -/
def Report.Clear (x : String) (r r' : Report) : Prop :=
  ∃ found, r'.items = r.items ++ found ∧ ∀ d ∈ found, ¬ d.Misses x

namespace Report.Clear

variable {x : String} {r r' r'' : Report}

theorem refl : r.Clear x r := ⟨[], by simp, by simp⟩

theorem trans (h : r.Clear x r') (h' : r'.Clear x r'') : r.Clear x r'' := by
  obtain ⟨found, heq, hall⟩ := h
  obtain ⟨found', heq', hall'⟩ := h'
  refine ⟨found ++ found', by rw [heq', heq, List.append_assoc], fun d hd => ?_⟩
  exact (List.mem_append.mp hd).elim (hall d) (hall' d)

/-- A problem of another kind, or with another variable, is added or left out. -/
theorem add {p : Problem} {span : Span} (h : p.misses x = false) :
    r.Clear x (r.add (.ofProblem p span)) := by
  unfold Report.add
  split
  · exact .refl
  · refine ⟨[_], rfl, fun d hd => ?_⟩
    obtain rfl := List.mem_singleton.mp hd
    simp [Diagnostic.misses_ofProblem, h]

end Report.Clear

/-- An export that is refused says nothing of variables. -/
theorem clear_exportSub {x : String} {head : SubHead} {entry : Label} {σ σ' : Session}
    (h : exportSub head entry σ = (.ok (), σ')) : σ.report.Clear x σ'.report := by
  unfold exportSub at h
  rw [Step.view_bind] at h
  cases hm : σ.packages.enclosingModule? σ.package with
  | none =>
      simp only [hm] at h
      obtain rfl := (Move.acts_report (K := fun _ _ _ _ => False)).mp h
      exact .add rfl
  | some module =>
      simp only [hm] at h
      split at h
      · obtain ⟨_, rfl⟩ := Step.pure_eq_ok.mp h
        exact .refl
      · rw [Step.view_bind] at h
        cases ho : σ.draft.offset? entry with
        | none =>
            simp only [ho] at h
            exact absurd h Step.fail_ne_ok
        | some position =>
            simp only [ho, Step.view_bind] at h
            cases h
            exact .refl

/-- What is wrong with traits is not about variables. -/
theorem clear_applyTraits {x : String} {head : SubHead} {entry : Label} {names : List String}
    {σ σ' : Session} (h : applyTraits head entry names σ = (.ok (), σ')) :
    σ.report.Clear x σ'.report := by
  induction names generalizing σ with
  | nil =>
      obtain ⟨_, rfl⟩ := Step.pure_eq_ok.mp h
      exact .refl
  | cons name names ih =>
      unfold applyTraits at h
      split at h
      · obtain ⟨_, τ, hexport, hrest⟩ := Step.bind_eq_ok.mp h
        exact (clear_exportSub hexport).trans (ih hrest)
      · obtain ⟨_, τ, hreport, hrest⟩ := Step.bind_eq_ok.mp h
        obtain rfl := (Move.acts_report (K := fun _ _ _ _ => False)).mp hreport
        exact .trans (.add rfl) (ih hrest)

/-! ### Where the argument list can be seen -/

namespace Scopes

/-- What the name stands for in some of the scopes it stands for something later. -/
def Reveals (x : String) (s s' : List Scope) : Prop :=
  ∀ i, (resolve?.go x (s.drop i)).isSome = true → (resolve?.go x (s'.drop i)).isSome = true

namespace Reveals

variable {x : String} {s s' s'' : List Scope}

theorem refl : Reveals x s s := fun _ h => h

theorem trans (h : Reveals x s s') (h' : Reveals x s' s'') : Reveals x s s'' :=
  fun i hi => h' i (h i hi)

/-- Names are bound in the innermost scope. -/
theorem head {a a' : Scope} {r r' : List Scope} (hkind : a'.kind = a.kind)
    (hbound : (a.binding? x).isSome = true → (a'.binding? x).isSome = true) (hr : Below r r') :
    Reveals x (a :: r) (a' :: r') := by
  intro i
  cases i with
  | zero =>
      have houter : resolve?.go x r' = resolve?.go x r := @Below.resolve? ⟨r⟩ ⟨r'⟩ hr x
      have hsub : a'.isSubroutine = a.isSubroutine := by rw [Scope.isSubroutine, hkind, Scope.isSubroutine]
      simp only [List.drop_zero, resolve?.go, houter, hsub]
      cases ha : a.binding? x with
      | some b =>
          obtain ⟨b', hb'⟩ := Option.isSome_iff_exists.mp (hbound (by simp [ha]))
          simp [hb']
      | none =>
          cases a'.binding? x with
          | some b' => simp
          | none => exact id
  | succ i =>
      have houter : resolve?.go x (r'.drop i) = resolve?.go x (r.drop i) :=
        @Below.resolve? ⟨r.drop i⟩ ⟨r'.drop i⟩ (hr.drop i) x
      simp [houter]

end Reveals

/-- A name that stays bound stays in sight. -/
theorem Retained.reveals {x : String} {s s' : List Scope} (h : Retained s s') : Reveals x s s' := by
  have hnames := @h.names
  cases h.kept with
  | nil => exact .refl
  | scope _ hkind hr =>
      refine .head hkind (fun hb => ?_) hr
      obtain ⟨b, hb⟩ := Option.isSome_iff_exists.mp hb
      exact Option.isSome_iff_exists.mpr ⟨b, hnames rfl rfl hb⟩
  | sub _ hkind _ =>
      refine .head hkind (fun hb => ?_) .refl
      obtain ⟨b, hb⟩ := Option.isSome_iff_exists.mp hb
      exact Option.isSome_iff_exists.mpr ⟨b, hnames rfl rfl hb⟩

/-- A parameter hides no name. -/
theorem reveals_bindArgument {x name : String} {type : ValueType} {slot : Slot} {s s' : Scopes}
    (h : bindArgument name type s = (.ok slot, s')) : Reveals x s.stack s'.stack := by
  obtain ⟨a, r, hs, -, -, hs'⟩ := bindArgument_ok h
  rw [hs, hs']
  refine .head rfl (fun hb => ?_) .refl
  rw [binding?_bindArgument]
  split
  · rfl
  · exact hb

/-- Parameters hide no names. -/
theorem reveals_bindParams {x : String} {ps : List SubParam} {σ σ' : Session}
    (h : bindParams ps σ = (.ok (), σ')) : Reveals x σ.scopes.stack σ'.scopes.stack := by
  induction ps generalizing σ with
  | nil =>
      obtain ⟨_, rfl⟩ := Step.pure_eq_ok.mp h
      exact .refl
  | cons p ps ih =>
      obtain ⟨slot, τ, hfirst, hrest⟩ := Step.bind_eq_ok.mp h
      obtain ⟨s, hs, rfl⟩ := Move.onScopes_eq_ok.mp hfirst
      exact (reveals_bindArgument hs).trans (ih hrest)

end Scopes

/-- A move that neither opens nor closes a scope hides no name. -/
theorem Move.Does.reveals {m : Move} {x : String} {σ σ' : Session} (h : m.Does σ σ')
    (henter : ∀ k, m ≠ .enter k) (hleave : m ≠ .leave) :
    Reveals x σ.scopes.stack σ'.scopes.stack := by
  cases m with
  | argument name type slot =>
      obtain ⟨s, hs, rfl⟩ := acts_argument.mp h
      exact reveals_bindArgument hs
  | params ps => exact reveals_bindParams h
  | bind name slot type =>
      obtain ⟨s, hs, rfl⟩ := acts_bind.mp h
      obtain ⟨a, r, hs, hs'⟩ := bind_ok hs
      rw [hs, hs']
      refine .head rfl (fun hb => ?_) .refl
      rw [binding?_bind]
      split
      · rfl
      · exact hb
  | _ => exact (h.retained_here henter hleave rfl).reveals

/-- Where the argument list can be seen, in the middle of a template. -/
structure Sight where
  /-- Whether it can be seen from the innermost scope, from the one around, and so on. -/
  seen : List Bool
  /-- It has been looked for in vain. -/
  missed : Bool := false

/-- It can be seen from the innermost scope. -/
def Sight.here (s : Sight) : Bool := s.seen.headD false

/-- What comes of the sight by a move; nothing if the move needs the argument list where it cannot be seen,
or reports it as undeclared though it has been found. -/
def Move.sight (s : Sight) : Move → Option Sight
  | .enter kind => some { s with seen := (!kind.isSubroutine && s.here) :: s.seen }
  | .leave => some { s with seen := s.seen.tail }
  | .argument name _ _ => some { s with seen := (name == argList || s.here) :: s.seen.tail }
  | .lookup name found =>
    if name = argList → s.here = true then
      some { s with missed := s.missed || (name == argList && found.isNone) }
    else none
  | .report p _ => if p.misses argList = true → s.missed = true then some s else none
  | .piece q _ => if q.mentions = true → s.here = true then some s else none
  | _ => some s

/-- What the sight says is so, and the argument list has been found wherever it was looked for. -/
structure Sight.Holds (s : Sight) (σ : Session) : Prop where
  seen : ∀ i, s.seen[i]? = some true → (resolve?.go argList (σ.scopes.stack.drop i)).isSome = true
  found : s.missed = false

namespace Sight.Holds

variable {s s' : Sight} {σ σ' : Session}

/-- What can be seen from the innermost scope is found there. -/
theorem here (h : s.Holds σ) (hs : s.here = true) : (σ.scopes.resolve? argList).isSome = true := by
  refine h.seen 0 ?_
  rw [← List.head?_eq_getElem?]
  cases hseen : s.seen with
  | nil => simp [Sight.here, hseen] at hs
  | cons f fs => simpa [Sight.here, hseen] using hs

theorem reveals (h : s.Holds σ) (hr : Reveals argList σ.scopes.stack σ'.scopes.stack) : s.Holds σ' :=
  ⟨fun i hi => hr i (h.seen i hi), h.found⟩

end Sight.Holds

/-- **A move keeps the argument list in sight**, and does not report it as undeclared. -/
theorem Move.Does.sight {m : Move} {s s' : Sight} {σ σ' : Session} (h : m.Does σ σ')
    (hs : m.sight s = some s') (hσ : s.Holds σ) :
    s'.Holds σ' ∧ σ.report.Clear argList σ'.report := by
  -- Moves that neither open or close a scope nor report keep all that is in sight.
  have hplain (henter : ∀ k, m ≠ .enter k) (hleave : m ≠ .leave) (hreport : ∀ p span, m ≠ .report p span)
      (htraits : ∀ head entry, m ≠ .traits head entry) (heq : s = s') :
      s'.Holds σ' ∧ σ.report.Clear argList σ'.report := by
    refine ⟨heq ▸ hσ.reveals (h.reveals henter hleave), ?_⟩
    rw [h.spares.report hreport htraits]
    exact .refl
  cases m with
  | enter kind =>
      obtain rfl := Option.some.inj hs
      obtain rfl := h
      refine ⟨⟨fun i hi => ?_, hσ.found⟩, .refl⟩
      cases i with
      | zero =>
          obtain ⟨hkind, hhere⟩ : kind.isSubroutine = false ∧ s.here = true := by simpa using hi
          have hscope : ({ kind } : Scope).isSubroutine = false := hkind
          have hnone : ({ kind } : Scope).binding? argList = none := by simp [Scope.binding?]
          have houter := hσ.here hhere
          simpa [Scopes.enter, resolve?.go, hnone, hscope, Scopes.resolve?] using houter
      | succ i => exact hσ.seen i (by simpa using hi)
  | leave =>
      obtain rfl := Option.some.inj hs
      obtain rfl := h
      refine ⟨⟨fun i hi => ?_, hσ.found⟩, .refl⟩
      have hi := hσ.seen (i + 1) (by simpa [List.getElem?_tail] using hi)
      simpa [Scopes.leave] using hi
  | argument name type slot =>
      obtain rfl := Option.some.inj hs
      have hrest := hσ.reveals (h.reveals (by simp) (by simp))
      obtain ⟨t, ht, rfl⟩ := acts_argument.mp h
      refine ⟨⟨fun i hi => ?_, hσ.found⟩, .refl⟩
      cases i with
      | zero =>
          by_cases hname : name = argList
          · subst hname
            obtain ⟨a, r, -, -, -, ht'⟩ := bindArgument_ok ht
            simp [ht', resolve?.go, binding?_bindArgument]
          · exact hrest.here (by simpa [hname] using hi)
      | succ i => exact hrest.seen (i + 1) (by simpa [List.getElem?_tail] using hi)
  | lookup name found =>
      obtain ⟨hfound, rfl⟩ := h
      simp only [Move.sight, Option.ite_none_right_eq_some, Option.some.injEq] at hs
      obtain ⟨hhere, rfl⟩ := hs
      refine ⟨⟨hσ.seen, ?_⟩, .refl⟩
      by_cases hname : name = argList
      · obtain ⟨b, hb⟩ := Option.isSome_iff_exists.mp (hσ.here (hhere hname))
        rw [← hname, hfound] at hb
        simp [hσ.found, hb]
      · simp [hσ.found, hname]
  | report p span =>
      obtain rfl := acts_report.mp h
      simp only [Move.sight, hσ.found, Option.ite_none_right_eq_some, Option.some.injEq] at hs
      obtain ⟨hmisses, rfl⟩ := hs
      exact ⟨⟨hσ.seen, hσ.found⟩, .add (by simpa using hmisses)⟩
  | traits head entry =>
      obtain rfl := Option.some.inj hs
      exact ⟨hσ.reveals (h.reveals (by simp) (by simp)), clear_applyTraits h⟩
  | piece q b => exact h.elim
  | _ => exact hplain (by simp) (by simp) (by simp) (by simp) (Option.some.inj hs)

/-- A parameter that is refused is not refused for want of a variable. -/
theorem Param.resolve_misses {p : Param} {problem : Problem} {span : Span} {x : String}
    (h : p.resolve = .error (problem, span)) : problem.misses x = false := by
  unfold Param.resolve at h
  split at h
  · cases h
  · cases h
  · cases h
    rfl
  · cases h
    rfl

/-- What is wrong with parameters is not about variables. -/
theorem Param.mapM_resolve_misses {params : List Param} {problem : Problem} {span : Span} {x : String}
    (h : params.mapM Param.resolve = .error (problem, span)) : problem.misses x = false := by
  induction params with
  | nil => cases h
  | cons p params ih =>
      rw [List.mapM_cons] at h
      cases hp : p.resolve with
      | error e =>
          obtain rfl : e = (problem, span) := by simpa [hp, Bind.bind, Except.bind] using h
          exact resolve_misses hp
      | ok q =>
          cases hps : params.mapM Param.resolve with
          | error e =>
              obtain rfl : e = (problem, span) := by simpa [hp, hps, Bind.bind, Except.bind] using h
              exact ih hps
          | ok qs => simp [hp, hps, Bind.bind, Except.bind, Pure.pure, Except.pure] at h

section Templates

variable {s : Sight}

attribute [local simp] Move.sight Sight.here Piece.mentions Expr.mentionsArgList Expr.anyMentionsArgList
  Stmt.mentionsArgList Stmt.anyMentionsArgList Stmt.branchMentionsArgList mentionsArgList Problem.misses
  Move.op Move.block Move.increment Move.when Move.effect Move.guarded Move.otherwise Move.declareModule
  Move.argListSlot ScopeKind.isSubroutine ScopeKind.tag

theorem Enforces.sight {e : Expr} {type : ValueType} {role : Role} {cs : List Move} {ok : Bool}
    (h : Enforces e type role cs ok) : cs.foldlM Move.sight s = some s := by
  cases h <;> simp

theorem ReturnsUndef.sight {span : Span} {ms : List Move} (h : ReturnsUndef span ms) :
    ms.foldlM Move.sight s = some s := by
  obtain ⟨hc⟩ := h
  simp [hc.sight]

theorem Closes.sight {span : Span} {ends : Bool} {ms : List Move} (h : Closes span ends ms) :
    ms.foldlM Move.sight s = some s := by
  cases h with
  | returned => simp
  | fallen h => exact h.sight

/-- What mentions the argument list may look for it anywhere, as it opens no subroutine. -/
theorem Unfolds.sight_seen {p : Piece} {ms : List Move} {b : Bool} (h : Unfolds p ms b)
    (hp : p.mentions = true) : ∃ s, ms.foldlM Move.sight { seen := [true] } = some s := by
  cases h with
  | sub | subParameter | subRedeclared => cases hp
  | assignVar hc | assignVarMismatch hc | assignDeclare hc | assignDeclareMismatch hc | ret hc
  | bodyExpr hc => simp [hc.sight]
  | @argsHeld _ _ p _ _ _ hc => cases p.copy <;> simp [hc.sight]
  | retUndef h => exact ⟨_, h.sight⟩
  | @next _ control => cases control <;> exact ⟨_, rfl⟩
  | @checkpoint _ on => cases on <;> exact ⟨_, rfl⟩
  | @call _ _ _ _ _ sub => cases sub.usesArgList <;> simp
  | @cond _ _ _ rest => cases rest <;> simp
  | @loop init condition step => cases init <;> cases condition <;> cases step <;> simp
  | @package kind => cases kind <;> simp
  | _ => simp

/-- What does not mention the argument list does not look for it, nor does anything in it.  A subroutine does
not mention what its body does, and the body sees the argument that has been bound for it. -/
theorem Unfolds.sight_unseen {p : Piece} {ms : List Move} {b : Bool} (h : Unfolds p ms b)
    (hp : p.mentions = false) : ∃ s, ms.foldlM Move.sight { seen := [false] } = some s := by
  cases h with
  | @sub _ body _ _ _ _ _ _ _ _ hc => cases hm : Stmt.anyMentionsArgList body <;> simp [hm, hc.sight]
  | subParameter hps => simp [-Problem.misses, Param.mapM_resolve_misses hps]
  | assignVar hc | assignVarMismatch hc | assignDeclare hc | assignDeclareMismatch hc | ret hc
  | bodyExpr hc =>
      simp at hp
      simp [hp, hc.sight]
  | @argsHeld _ _ p _ _ _ hc =>
      simp at hp
      cases p.copy <;> simp [hp, hc.sight]
  | retUndef h => exact ⟨_, h.sight⟩
  | @next _ control => cases control <;> exact ⟨_, rfl⟩
  | @checkpoint _ on => cases on <;> exact ⟨_, rfl⟩
  | @call _ _ _ _ _ sub =>
      simp at hp
      cases sub.usesArgList <;> simp [hp]
  | @cond _ _ _ rest => cases rest <;> simp at hp <;> simp [hp]
  | @loop init condition step =>
      cases init <;> cases condition <;> cases step <;> simp at hp <;> simp [hp]
  | @package kind =>
      simp at hp
      cases kind <;> simp [hp]
  | _ =>
      simp at hp
      simp [hp]

/-- **A template needs the argument list only where it can be seen**, if it can be seen from where a piece
begins that mentions it. -/
theorem Unfolds.sight {p : Piece} {ms : List Move} {b : Bool} (h : Unfolds p ms b) :
    ∃ s, ms.foldlM Move.sight { seen := [p.mentions] } = some s := by
  cases hp : p.mentions with
  | true => exact h.sight_seen hp
  | false => exact h.sight_unseen hp

end Templates

/-! ### Whatever is lowered -/

/-- If the piece mentions the argument list, it can be seen. -/
def Session.Shows (σ : Session) (q : Piece) : Prop :=
  q.mentions = true → (σ.scopes.resolve? argList).isSome = true

/-- Where a piece begins, its own mention says what can be seen. -/
theorem Session.Shows.holds {σ : Session} {q : Piece} (h : σ.Shows q) :
    ({ seen := [q.mentions] } : Sight).Holds σ := by
  refine ⟨fun i hi => ?_, rfl⟩
  cases i with
  | zero => exact h (by simpa using hi)
  | succ i => simp at hi

/-- Along the first moves of a template the argument list stays in sight. -/
theorem Along.sight {K : Piece → Bool → Session → Session → Prop} {ms : List Move} {s s' : Sight}
    {σ υ : Session} (h : Along K ms σ υ)
    (hK : ∀ {q b τ τ'}, K q b τ τ' → Retained τ.scopes.stack τ'.scopes.stack ∧
      (τ.Shows q → τ.report.Clear argList τ'.report))
    (hs : ms.foldlM Move.sight s = some s') (hσ : s.Holds σ) :
    s'.Holds υ ∧ σ.report.Clear argList υ.report := by
  refine h.interpret (R := fun s τ => s.Holds τ ∧ σ.report.Clear argList τ.report) ?_ ?_ hs ⟨hσ, .refl⟩
  · intro m _ s s' τ τ' hm _ hs hτ
    obtain ⟨hholds, hclear⟩ := hm.sight hs hτ.1
    exact ⟨hholds, hτ.2.trans hclear⟩
  · intro q b _ s s' τ τ' hq _ hs hτ
    simp only [Move.sight, Option.ite_none_right_eq_some, Option.some.injEq] at hs
    obtain ⟨hhere, rfl⟩ := hs
    obtain ⟨hretained, hclear⟩ := hK hq
    exact ⟨hτ.1.reveals hretained.reveals, hτ.2.trans (hclear fun hm => hτ.1.here (hhere hm))⟩

/-- What comes next in a template is shown what it mentions. -/
theorem Sight.Holds.shows {s s' : Sight} {q : Piece} {c : Bool} {ns : List Move} {υ : Session}
    (h : s.Holds υ) (hs : (Move.piece q c :: ns).foldlM Move.sight s = some s') : υ.Shows q := by
  obtain ⟨s₁, hs₁, -⟩ := Move.foldlM_cons.mp hs
  simp only [Move.sight, Option.ite_none_right_eq_some] at hs₁
  exact fun hm => h.here (hs₁.1 hm)

/-- A piece that is lowered to its end does not report the argument list as undeclared. -/
theorem Runs.clear {Q : List Move → Prop} {q : Piece} {b : Bool} {σ σ' : Session} (h : Runs Q q b σ σ')
    (hσ : σ.Shows q) : σ.report.Clear argList σ'.report := by
  refine h.ind (P := fun q _ σ σ' => σ.Shows q → σ.report.Clear argList σ'.report) ?_ hσ
  intro q b ms σ σ' hu _ ha hσ
  obtain ⟨s, hs⟩ := hu.sight
  exact (ha.sight (fun hr => ⟨hr.1.retained, hr.2⟩) hs hσ.holds).2

/-- What holds of whole templates holds of their first moves. -/
theorem Unfolds.sight_along {q : Piece} {ms ns : List Move} {b : Bool} {σ υ : Session}
    (hu : Unfolds q (ms ++ ns) b) (ha : Along Lowers ms σ υ) (hσ : σ.Shows q) :
    ∃ s s', s.Holds υ ∧ ns.foldlM Move.sight s = some s' ∧ σ.report.Clear argList υ.report := by
  obtain ⟨s', hs'⟩ := hu.sight
  rw [List.foldlM_append] at hs'
  obtain ⟨s, hs, hrest⟩ := Option.bind_eq_some_iff.mp hs'
  obtain ⟨hholds, hclear⟩ := ha.sight (fun hl => ⟨hl.runs.retained, hl.runs.clear⟩) hs hσ.holds
  exact ⟨s, s', hholds, hrest, hclear⟩

/-- **However lowering a piece ends, it does not report the argument list as undeclared.** -/
theorem Piece.clear {q : Piece} {σ : Session} (hσ : σ.Shows q) :
    σ.report.Clear argList (q.lower σ).2.report := by
  rcases hr : q.lower σ with ⟨f | b, υ⟩
  · have hh := Piece.halts hr
    clear hr
    induction hh with
    | move hu ha =>
        obtain ⟨s, s', -, -, hclear⟩ := hu.sight_along ha hσ
        exact hclear
    | begun hu ha hm =>
        obtain ⟨s, s', -, -, hclear⟩ := hu.sight_along ha hσ
        refine hclear.trans ?_
        cases hm with
        | params hps =>
            rw [bindParams_scopes hps]
            exact .refl
        | traits _ hnames => exact clear_applyTraits hnames
    | @piece r b c ms ns τ υ hu ha hr =>
        obtain ⟨s, s', hholds, hrest, hclear⟩ := hu.sight_along ha hσ
        have hsize : r.size < q.size := hu.smaller r (by simp [Move.pieces])
        have hpart := @Piece.clear r τ (hholds.shows hrest)
        rw [hr] at hpart
        exact hclear.trans hpart
    | closing _ ih => exact ih
  · exact Runs.clear (Lowers.runs hr) hσ
termination_by q.size

end StackScript
