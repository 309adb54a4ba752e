import StackScript.Proofs.ArgumentList.Mentions
import StackScript.Proofs.Convention
import StackScript.Proofs.Slots.Reserved

/-!
# The slot of the argument list

The argument list has the first slot of a subroutine that mentions it, and no slot of one that does not.
Where it is looked up in the body it is found, in that slot unless a parameter, a loop variable or a `my` has
taken its name.

* `Move.shades`: in which of the open scopes the name has been taken.
* `Scopes.Shaded`: what this says of the scopes.
* `Progress.shaded`: a lowering finds the argument list where it looks for it, as far as it goes.
* `Progress.unmentioned`: it does not look for one that is not mentioned.
* `EntersBody`: lowering a subroutine comes to its body.
* `argument_list_available`: the argument list in any subroutine.
-/

namespace StackScript

open Lower Scopes

/-! ### Taking the name -/

namespace Move

/-- For the innermost scope, the one around, and so on: whether a `my` or a loop variable has taken the name
of the argument list there. -/
def shades (env : List Bool) : Move → List Bool
  | .enter _ => false :: env
  | .leave => env.tail
  | .declare name _ _ | .bind name _ _ => if name = argList then true :: env.tail else env
  | _ => env

/-- The move opens no subroutine and binds no arguments. -/
def unframed : Move → Bool
  | .enter kind => !kind.isSubroutine
  | .argument _ _ _ | .params _ => false
  | _ => true

end Move

/-- Which scopes are shaded when these moves have been made. -/
def Made.shades (env : List Bool) (es : List Made) : List Bool :=
  (es.map (·.move)).foldl Move.shades env

theorem Made.shades_append {env : List Bool} {es es' : List Made} :
    Made.shades env (es ++ es') = Made.shades (Made.shades env es) es' := by
  simp [Made.shades]

section Templates

theorem Enforces.unframed {e : Expr} {type : ValueType} {role : Role} {cs : List Move} {ok : Bool}
    (h : Enforces e type role cs ok) : cs.all Move.unframed = true := by
  cases h <;> rfl

theorem ReturnsUndef.unframed {s : Span} {ms : List Move} (h : ReturnsUndef s ms) :
    ms.all Move.unframed = true := by
  obtain ⟨hc⟩ := h
  simp [Move.unframed, Move.op, hc.unframed]

/-- Only a subroutine opens the scope of one. -/
theorem Unfolds.unframed {p : Piece} {ms : List Move} {b : Bool} (h : Unfolds p ms b)
    (hp : p.isSub = false) : ms.all Move.unframed = true := by
  cases h with
  | sub | subParameter | subRedeclared => cases hp
  | assignVar hc | assignVarMismatch hc | assignDeclare hc | assignDeclareMismatch hc | ret hc
  | bodyExpr hc =>
      simp only [List.all_cons, List.all_append, hc.unframed]
      rfl
  | @argsHeld _ _ p _ _ _ hc =>
      simp only [List.all_append, hc.unframed]
      cases p.copy <;> rfl
  | retUndef h => exact h.unframed
  | @next _ control => cases control <;> rfl
  | @checkpoint _ on => cases on <;> rfl
  | @call _ _ _ _ _ sub => cases sub.usesArgList <;> rfl
  | @cond _ _ _ rest => cases rest <;> rfl
  | @loop init condition step => cases init <;> cases condition <;> cases step <;> rfl
  | @package kind => cases kind <;> rfl
  | _ => rfl

end Templates

/-! ### Shaded scopes -/

namespace Scopes

/-- Nothing is found beyond the scope of a subroutine. -/
theorem resolve?_subroutine {a : Scope} {r : List Scope} {x : String} (ha : a.isSubroutine = true) :
    resolve?.go x (a :: r) = a.binding? x := by
  rw [resolve?.go]
  cases a.binding? x <;> simp [ha]

/-- The innermost scopes, one for each flag.  The last of them binds the argument list to `b`.  The others
are of the same subroutine, and bind the name only where the flag is set. -/
inductive Shaded (b : Binding) : List Bool → List Scope → Prop where
  | home {f : Bool} {a : Scope} {r : List Scope} : a.binding? argList = some b → Shaded b [f] (a :: r)
  | inner {f : Bool} {env : List Bool} {a : Scope} {r : List Scope} : a.isSubroutine = false →
      (f = false → a.binding? argList = none) → Shaded b env r → Shaded b (f :: env) (a :: r)

namespace Shaded

variable {b : Binding} {env : List Bool} {s s' : List Scope}

/-- **The argument list is found**, and where the name has not been taken it is itself that is found. -/
theorem resolve? (h : Shaded b env s) :
    ∃ c, resolve?.go argList s = some c ∧ (true ∉ env → c = b) := by
  induction h with
  | home hb => exact ⟨b, by rw [resolve?.go, hb], fun _ => rfl⟩
  | @inner f env a r hsub hnone _ ih =>
      cases ha : a.binding? argList with
      | some c =>
          refine ⟨c, by rw [resolve?.go, ha], fun hfree => ?_⟩
          obtain ⟨hf, -⟩ : f = false ∧ true ∉ env := by simpa using hfree
          rw [hnone hf] at ha
          cases ha
      | none =>
          obtain ⟨c, hc, heq⟩ := ih
          refine ⟨c, by rw [resolve?.go, ha, if_neg (by simp [hsub]), hc], fun hfree => heq ?_⟩
          exact fun hmem => hfree (List.mem_cons_of_mem _ hmem)

theorem of_below (h : Shaded b env s) (hs : Below s s') : Shaded b env s' := by
  induction h generalizing s' with
  | home hb =>
      cases hs with
      | scope => exact .home hb
      | sub => exact .home hb
  | inner hsub hnone _ ih =>
      cases hs with
      | scope _ hr => exact .inner hsub hnone (ih hr)
      | sub hsub' => cases hsub.symm.trans hsub'

/-- A flag more says less. -/
theorem shade (h : Shaded b env s) : Shaded b (true :: env.tail) s := by
  cases h with
  | home hb => exact .home hb
  | inner hsub _ hr => exact .inner hsub (by simp) hr

/-- Another name is bound in the innermost scope. -/
theorem bind_other {a : Scope} {r : List Scope} {x : String} {c : Binding} (h : Shaded b env (a :: r))
    (hx : x ≠ argList) : Shaded b env (a.bind x c :: r) := by
  have hsame : (a.bind x c).binding? argList = a.binding? argList := by rw [binding?_bind, if_neg hx]
  cases h with
  | home hb => exact .home (hsame.trans hb)
  | inner hsub hnone hr => exact .inner hsub (fun hf => hsame.trans (hnone hf)) hr

/-- The name is taken in the innermost scope, if that is not where the argument list is bound. -/
theorem bind_name {a : Scope} {r : List Scope} {c : Binding} (h : Shaded b env (a :: r))
    (hhome : env.length = 1 → a.binding? argList = none) :
    Shaded b (true :: env.tail) (a.bind argList c :: r) := by
  cases h with
  | home hb => cases (hhome rfl).symm.trans hb
  | inner hsub _ hr => exact .inner hsub (by simp) hr

/-- A name is bound in the innermost scope. -/
theorem bind {a : Scope} {r : List Scope} {x : String} {c : Binding} (h : Shaded b env (a :: r))
    (hhome : x = argList → env.length = 1 → a.binding? argList = none) :
    Shaded b (if x = argList then true :: env.tail else env) (a.bind x c :: r) := by
  by_cases hx : x = argList
  · subst hx
    rw [if_pos rfl]
    exact h.bind_name (hhome rfl)
  · rw [if_neg hx]
    exact h.bind_other hx

/-- A `my` takes the name in an inner scope only: in that of the argument list the name keeps its slot. -/
theorem declare {name : String} {type : ValueType} {slot : Slot} {t t' : Scopes}
    (h : Shaded b env t.stack) (hd : Scopes.declare name type t = (.ok slot, t')) :
    Shaded b (if name = argList then true :: env.tail else env) t'.stack := by
  obtain ⟨a, r, hstack, ⟨c, -, -, rfl⟩ | ⟨t₁, hnone, halloc, hbind⟩⟩ := declare_ok hd
  · split
    · exact h.shade
    · exact h
  · obtain ⟨a₁, r₁, hstack₁, hstack'⟩ := bind_ok hbind
    have hbelow : Below t.stack t₁.stack := (alloc_ok halloc).2.1 ▸ .bump
    have hnone₁ : a₁.binding? name = none := by
      obtain ⟨a₂, ha₂, -, hbindings⟩ := hbelow.scope_at (k := 0) (a := a) (by rw [hstack]; rfl)
      obtain rfl : a₁ = a₂ := by simpa [hstack₁] using ha₂
      rwa [Scope.binding?, hbindings]
    rw [hstack']
    exact (hstack₁ ▸ h.of_below hbelow).bind fun hname _ => hname ▸ hnone₁

end Shaded

end Scopes

/-! ### Along a lowering -/

variable {b : Binding}

/-- **A move keeps track of who has the name.** -/
theorem Move.Does.shaded {m : Move} {env : List Bool} {k k' : Nat} {σ σ' : Session} (h : m.Does σ σ')
    (hk : m.within k = some k') (hunframed : m.unframed = true) (hlt : k < env.length)
    (hs : Shaded b env σ.scopes.stack) :
    Shaded b (m.shades env) σ'.scopes.stack ∧ (m.shades env).length + k = env.length + k' := by
  have hne : env ≠ [] := List.ne_nil_of_length_pos (Nat.zero_lt_of_lt hlt)
  have htail {f : Bool} : (f :: env.tail).length = env.length := by
    cases env with
    | nil => exact absurd rfl hne
    | cons => rfl
  cases m with
  | enter kind =>
      obtain rfl := Option.some.inj hk
      obtain rfl := h
      have hkind : kind.isSubroutine = false := by simpa [Move.unframed] using hunframed
      refine ⟨.inner hkind (fun _ => by simp [Scope.binding?]) hs, ?_⟩
      simp only [Move.shades, List.length_cons]
      omega
  | leave =>
      obtain rfl := h
      cases k with
      | zero => cases hk
      | succ k =>
          obtain rfl := Option.some.inj hk
          -- There is a scope left, so the innermost one is not the last.
          cases hstack : σ.scopes.stack with
          | nil =>
              rw [hstack] at hs
              cases hs
          | cons a r =>
              rw [hstack] at hs
              cases hs with
              | home => simp at hlt
              | inner _ _ hr =>
                  refine ⟨by simpa [Move.shades, Scopes.leave, hstack] using hr, ?_⟩
                  simp only [Move.shades, List.tail_cons, List.length_cons]
                  omega
  | declare name type slot =>
      obtain rfl := Option.some.inj hk
      obtain ⟨t, ht, rfl⟩ := acts_declare.mp h
      refine ⟨hs.declare ht, ?_⟩
      simp only [Move.shades]
      split
      · rw [htail]
      · rfl
  | bind name slot type =>
      cases k with
      | zero => cases hk
      | succ k =>
          obtain rfl := Option.some.inj hk
          obtain ⟨t, ht, rfl⟩ := acts_bind.mp h
          obtain ⟨a, r, hstack, hstack'⟩ := bind_ok ht
          rw [hstack] at hs
          refine ⟨?_, ?_⟩
          · show Shaded b _ t.stack
            rw [hstack']
            exact hs.bind fun _ hone => by omega
          · simp only [Move.shades]
            split
            · rw [htail]
            · rfl
  | alloc slot =>
      obtain rfl := Option.some.inj hk
      obtain ⟨t, ht, rfl⟩ := acts_alloc.mp h
      exact ⟨hs.of_below ((alloc_ok ht).2.1 ▸ .bump), rfl⟩
  | argument | params => cases hunframed
  | piece q c => exact h.elim
  | _ =>
      obtain rfl := Option.some.inj hk
      rw [h.spares.scopes rfl]
      exact ⟨hs, rfl⟩

/-- The argument list is found wherever these moves look for it, and where nothing has taken the name what is
found is `b`. -/
def Made.Find (b : Binding) : List Bool → List Made → Prop
  | _, [] => True
  | env, e :: es => (∀ found, e.move = .lookup argList found → ∃ c, found = some c ∧ (true ∉ env → c = b)) ∧
      Find b (e.move.shades env) es

theorem Made.find_append {env : List Bool} {es es' : List Made} :
    Made.Find b env (es ++ es') ↔ Made.Find b env es ∧ Made.Find b (Made.shades env es) es' := by
  induction es generalizing env with
  | nil => simp [Made.Find, Made.shades]
  | cons e es ih => simp [Made.Find, ih, Made.shades, and_assoc]

/-- A subroutine that is lowered on the way leaves the scopes around it alone. -/
theorem Lowers.below_of_isSub {q : Piece} {c : Bool} {σ σ' : Session} (h : Lowers q c σ σ')
    (hq : q.isSub = true) : Below σ.scopes.stack σ'.scopes.stack := by
  unfold Piece.isSub at hq
  split at hq
  · rename_i head body
    obtain ⟨hl, -⟩ := Lowers.stmt_iff.mp h
    obtain ⟨-, hbelow⟩ := Entry.below (e := .stmt (.sub head body)) rfl σ
    rwa [Entry.lower, hl] at hbelow
  · cases hq

/-- **A lowering finds the argument list wherever it looks for it**, as far as it goes. -/
theorem Progress.shaded {p : Piece} {d : Bool} {ms : List Move} {es : List Made} {σ₀ σ τ : Session}
    (h : Progress p σ₀ d ms σ es τ) {env : List Bool} {k k' : Nat} (hs : Shaded b env σ.scopes.stack)
    (hlt : k < env.length) (hk : ms.foldlM Move.within k = some k')
    (hunframed : ms.all Move.unframed = true) :
    Made.Find b env es ∧ (d = true → Shaded b (Made.shades env es) τ.scopes.stack ∧
      (Made.shades env es).length + k = env.length + k') := by
  induction h generalizing env k k' with
  | stop => exact ⟨trivial, by simp⟩
  | done =>
      obtain rfl : k = k' := by simpa using hk
      exact ⟨trivial, fun _ => ⟨hs, rfl⟩⟩
  | @act p d m ms es σ₀ σ σ₁ τ hm hrest ih =>
      obtain ⟨k₁, hk₁, hk⟩ := Move.foldlM_cons.mp hk
      obtain ⟨hm', hunframed⟩ : m.unframed = true ∧ ms.all Move.unframed = true := by
        rwa [List.all_cons, Bool.and_eq_true] at hunframed
      obtain ⟨hs₁, hlen⟩ := hm.shaded hk₁ hm' hlt hs
      obtain ⟨hfind, hend⟩ := ih hs₁ (by omega) hk hunframed
      refine ⟨⟨fun found hfound => ?_, hfind⟩, fun hd => ?_⟩
      · obtain rfl : m = .lookup argList found := hfound
        obtain ⟨c, hc, heq⟩ := hs.resolve?
        exact ⟨c, hm.1.symm.trans hc, heq⟩
      · obtain ⟨hs', hlen'⟩ := hend hd
        refine ⟨hs', ?_⟩
        show (Made.shades (m.shades env) es).length + k = _
        omega
  | @sub p q c d ms es σ₀ σ σ₁ τ hq hl hrest ih =>
      obtain ⟨k₁, hk₁, hk⟩ := Move.foldlM_cons.mp hk
      obtain rfl := Option.some.inj hk₁
      rw [List.all_cons, Bool.and_eq_true] at hunframed
      obtain ⟨hfind, hend⟩ := ih (hs.of_below (hl.below_of_isSub hq)) hlt hk hunframed.2
      refine ⟨⟨fun found hfound => ?_, hfind⟩, hend⟩
      cases hfound
  | @piece p q c d ms ns es es' σ₀ σ σ₁ τ hq hu hp hrest ih₁ ih₂ =>
      obtain ⟨k₁, hk₁, hk⟩ := Move.foldlM_cons.mp hk
      obtain rfl := Option.some.inj hk₁
      rw [List.all_cons, Bool.and_eq_true] at hunframed
      -- The piece is lowered by a template of its own, which closes the scopes it opens.
      obtain ⟨hfind₁, hend₁⟩ := ih₁ hs (Nat.zero_lt_of_lt hlt) hu.within (hu.unframed hq)
      obtain ⟨hs₁, hlen₁⟩ := hend₁ rfl
      obtain ⟨hfind₂, hend₂⟩ := ih₂ hs₁ (by omega) hk hunframed.2
      refine ⟨Made.find_append.mpr ⟨hfind₁, hfind₂⟩, fun hd => ?_⟩
      obtain ⟨hs₂, hlen₂⟩ := hend₂ hd
      rw [Made.shades_append]
      exact ⟨hs₂, by omega⟩
  | inside hq hu hp ih =>
      obtain ⟨hfind, -⟩ := ih hs (Nat.zero_lt_of_lt hlt) hu.within (hu.unframed hq)
      exact ⟨hfind, by simp⟩

/-! ### Bodies without a mention -/

theorem Sight.here_eq_false {s : Sight} (h : true ∉ s.seen) : s.here = false := by
  cases hseen : s.seen with
  | nil => simp [Sight.here, hseen]
  | cons f fs =>
      rw [hseen, List.mem_cons, not_or] at h
      simpa [Sight.here, hseen] using Ne.symm h.1

/-- Only an argument brings the argument list in sight. -/
theorem Move.sight_unseen {m : Move} {s s' : Sight} (hm : m.unframed = true) (h : m.sight s = some s')
    (hs : true ∉ s.seen) : true ∉ s'.seen := by
  have hhere := Sight.here_eq_false hs
  cases m with
  | enter kind =>
      obtain rfl := Option.some.inj h
      simp [hhere, hs]
  | leave =>
      obtain rfl := Option.some.inj h
      exact fun hmem => hs (List.mem_of_mem_tail hmem)
  | argument | params => cases hm
  | lookup | report | piece =>
      simp only [Move.sight, Option.ite_none_right_eq_some, Option.some.injEq] at h
      obtain ⟨-, rfl⟩ := h
      exact hs
  | _ =>
      obtain rfl := Option.some.inj h
      exact hs

/-- Out of sight nothing is lowered that mentions the argument list. -/
theorem Move.sight_piece_unseen {q : Piece} {c : Bool} {s s' : Sight}
    (h : Move.sight s (.piece q c) = some s') (hs : true ∉ s.seen) : true ∉ [q.mentions] := by
  simp only [Move.sight, Sight.here_eq_false hs, Option.ite_none_right_eq_some] at h
  exact fun hmem => Bool.false_ne_true (h.1 (List.mem_singleton.mp hmem).symm)

/-- **A lowering does not look for an argument list that is not mentioned.** -/
theorem Progress.unmentioned {p : Piece} {d : Bool} {ms : List Move} {es : List Made} {σ₀ σ τ : Session}
    (h : Progress p σ₀ d ms σ es τ) {s s' : Sight} (hs : true ∉ s.seen)
    (hsight : ms.foldlM Move.sight s = some s') (hunframed : ms.all Move.unframed = true) {e : Made}
    (he : e ∈ es) (found : Option Binding) : e.move ≠ .lookup argList found := by
  induction h generalizing s s' with
  | stop | done => cases he
  | @act p d m ms es σ₀ σ σ₁ τ hm hrest ih =>
      obtain ⟨t, ht, hsight⟩ := Move.foldlM_cons.mp hsight
      rw [List.all_cons, Bool.and_eq_true] at hunframed
      rcases List.mem_cons.mp he with rfl | he
      · rintro rfl
        simp [Move.sight, Sight.here_eq_false hs] at ht
      · exact ih (Move.sight_unseen hunframed.1 ht hs) hsight hunframed.2 he
  | @sub p q c d ms es σ₀ σ σ₁ τ hq hl hrest ih =>
      obtain ⟨t, ht, hsight⟩ := Move.foldlM_cons.mp hsight
      rw [List.all_cons, Bool.and_eq_true] at hunframed
      rcases List.mem_cons.mp he with rfl | he
      · simp
      · exact ih (Move.sight_unseen hunframed.1 ht hs) hsight hunframed.2 he
  | @piece p q c d ms ns es es' σ₀ σ σ₁ τ hq hu hp hrest ih₁ ih₂ =>
      obtain ⟨t, ht, hsight⟩ := Move.foldlM_cons.mp hsight
      rw [List.all_cons, Bool.and_eq_true] at hunframed
      rcases List.mem_append.mp he with he | he
      · obtain ⟨t', ht'⟩ := hu.sight
        exact ih₁ (Move.sight_piece_unseen ht hs) ht' (hu.unframed hq) he
      · exact ih₂ (Move.sight_unseen hunframed.1 ht hs) hsight hunframed.2 he
  | inside hq hu hp ih =>
      obtain ⟨t, ht, -⟩ := Move.foldlM_cons.mp hsight
      obtain ⟨t', ht'⟩ := hu.sight
      exact ih (Move.sight_piece_unseen ht hs) ht' (hu.unframed hq) he

/-! ### The body of a subroutine -/

theorem Closes.flat {s : Span} {ends : Bool} {ms : List Move} (h : Closes s ends ms) :
    ms.all (!Move.isPiece ·) = true := by
  cases h with
  | returned => rfl
  | fallen h =>
      obtain ⟨hc⟩ := h
      cases hc <;> rfl

/-- Lowering the subroutine from `σ` has come to its body. -/
def EntersBody (head : SubHead) (body : List Stmt) (σ υ : Session) : Prop :=
  ∃ ms ns b c, Unfolds (.stmt (.sub head body)) (ms ++ .piece (.body head.returnType body) c :: ns) b ∧
    Along Lowers ms σ υ

namespace EntersBody

variable {head : SubHead} {body : List Stmt} {σ υ : Session}

/-- What has been done when lowering comes to the body: the frame has been opened, and the argument list and
the parameters have been bound. -/
theorem opened (h : EntersBody head body σ υ) : ∃ ps sub sub' skip slot σ₁ σ₂,
    head.params.mapM Param.resolve = .ok ps ∧
    Along Lowers [.mention head.name sub, .setSub head.name sub',
      .sees fun _ => ps.length + (mentionsArgList body).toNat < UInt16.size,
      .sees fun _ => slotsNeeded body < UInt16.size,
      .newLabel skip, .enter (.subroutine head.returnType)] σ σ₁ ∧
    Along Lowers [.emit (.jump skip), .mark sub.label,
      .emit (.pushFrame (ps.length + (mentionsArgList body).toNat).toUInt16
        (slotsNeeded body).toUInt16)] σ₁ σ₂ ∧
    Along Lowers (Move.argListSlot (mentionsArgList body) slot ++ [Move.params ps]) σ₂ υ := by
  obtain ⟨ms, ns, b, c, hu, ha⟩ := h
  generalize htemplate : ms ++ .piece (.body head.returnType body) c :: ns = template at hu
  have hmem : .piece (.body head.returnType body) c ∈ template := by simp [← htemplate]
  cases hu with
  | subParameter | subRedeclared => simp at hmem
  | @sub _ _ ps sub skip slot ends close hps hmarked hclose =>
      obtain ⟨rfl, -, -⟩ := split_unique (P := Move.isPiece)
        (C := [_, _, _, _, _, _, _, _, _] ++
          (Move.argListSlot (mentionsArgList body) slot ++ [Move.params ps]))
        (n := .piece (.body head.returnType body) ends)
        (D := close ++ [.leave, .mark skip, .traits head sub.label])
        (htemplate.trans (by simp only [List.append_assoc]; rfl)) rfl
        (by cases mentionsArgList body <;> rfl) (by rw [List.all_append, hclose.flat]; rfl)
      obtain ⟨σ₂, h₁, h₃⟩ := along_append.mp ha
      obtain ⟨σ₁, h₁, h₂⟩ := (@along_append Lowers [_, _, _, _, _, _] _ _ _).mp h₁
      exact ⟨ps, sub, _, skip, slot, σ₁, σ₂, hps, h₁, h₂, h₃⟩

/-- The frame of the subroutine binds the argument list, if the body mentions it, and the parameters. -/
theorem frame (h : EntersBody head body σ υ) :
    Frame ((if mentionsArgList body then [argList] else []) ++ head.params.filterMap Param.name?)
      υ.scopes := by
  obtain ⟨ps, sub, sub', skip, slot, σ₁, σ₂, hps, h₁, h₂, h₃⟩ := h.opened
  rw [Param.names_of_resolve hps]
  exact SubRun.frame h₁ h₂ h₃

/-- The last thing emitted is the frame, with room for the parameters and the argument list. -/
theorem pushed (h : EntersBody head body σ υ) : ∃ params locals,
    υ.draft.chunk.instructions.back? = some (.pushFrame params locals) ∧
    params.toNat = head.params.length + (mentionsArgList body).toNat ∧ υ.scopes.taken = params.toNat ∧
    locals.toNat = slotsNeeded body := by
  obtain ⟨ps, sub, sub', skip, slot, σ₁, σ₂, hps, h₁, h₂, h₃⟩ := h.opened
  obtain ⟨_, -, _, -, _, ⟨hfit, rfl⟩, _, ⟨hfit', rfl⟩, -⟩ := h₁
  obtain ⟨hlength, -⟩ := mapM_eq_ok hps
  have hdraft : υ.draft = σ₂.draft := by
    obtain ⟨ρ, hlist, _, hparams, rfl⟩ := along_append.mp h₃
    rw [bindParams_scopes hparams]
    cases hm : mentionsArgList body with
    | false =>
        rw [hm] at hlist
        obtain rfl : σ₂ = ρ := hlist
        rfl
    | true =>
        rw [hm] at hlist
        obtain ⟨_, hbind, rfl⟩ := hlist
        obtain ⟨s, -, rfl⟩ := Move.acts_argument.mp hbind
        rfl
  have htaken : υ.scopes.taken = ps.length + (mentionsArgList body).toNat := by
    rw [h.frame.taken, Param.names_of_resolve hps]
    cases mentionsArgList body <;> simp
  have hparams : (ps.length + (mentionsArgList body).toNat).toUInt16.toNat =
      ps.length + (mentionsArgList body).toNat := Nat.mod_eq_of_lt hfit
  obtain ⟨_, -, _, -, _, hemit, rfl⟩ := h₂
  refine ⟨(ps.length + (mentionsArgList body).toNat).toUInt16, (slotsNeeded body).toUInt16, ?_,
    hlength ▸ hparams, htaken.trans hparams.symm, Nat.mod_eq_of_lt hfit'⟩
  rw [hdraft, Move.acts_emit.mp hemit]
  simp [Draft.emit, Chunk.emit]

/-- Only what the frame binds is found. -/
theorem resolve_isSome (h : EntersBody head body σ υ) {x : String} :
    (υ.scopes.resolve? x).isSome = true ↔
      x ∈ (if mentionsArgList body then [argList] else []) ++ head.params.filterMap Param.name? := by
  obtain ⟨a, r, hstack, hsub, htracks⟩ := h.frame.top
  rw [Scopes.resolve?, hstack, resolve?_subroutine hsub, htracks x]
  simp

/-- The argument list has the first slot, unless a parameter has its name. -/
theorem resolve_argList (h : EntersBody head body σ υ) (hm : mentionsArgList body = true)
    (hx : argList ∉ head.params.filterMap Param.name?) :
    υ.scopes.resolve? argList = some ⟨0, .array .unknown⟩ := by
  obtain ⟨ps, sub, sub', skip, slot, σ₁, σ₂, hps, h₁, h₂, h₃⟩ := h.opened
  rw [Param.names_of_resolve hps] at hx
  have htaken : σ₂.scopes.taken = 0 := by
    rw [h₂.scopes rfl rfl, SubRun.entered h₁]
    rfl
  obtain ⟨ρ, hlist, ρ', hparams, hρ'⟩ := along_append.mp h₃
  obtain rfl : ρ' = υ := hρ'
  rw [hm] at hlist
  obtain ⟨_, hbind, rfl⟩ := hlist
  obtain ⟨s, hs, rfl⟩ := Move.acts_argument.mp hbind
  obtain ⟨hslot, -, hresolve⟩ := Scopes.bindArgument_resolve hs
  obtain rfl : slot = 0 := UInt16.toNat_inj.mp (hslot.trans htaken)
  have hfree : ∀ q ∈ ps, q.name ≠ argList := fun q hq hname => hx (List.mem_map.mpr ⟨q, hq, hname⟩)
  rw [(allocates_of_bindParams hparams).resolve_of_not_mem hfree]
  exact (hresolve argList).trans (if_pos rfl)

/-- The scopes in which the body of a subroutine that mentions the argument list is lowered. -/
theorem shaded (h : EntersBody head body σ υ) (hm : mentionsArgList body = true) :
    ∃ b, Shaded b [false] υ.scopes.stack ∧ (argList ∉ head.params.filterMap Param.name? → b.slot = 0) := by
  obtain ⟨b, hb⟩ := Option.isSome_iff_exists.mp (h.resolve_isSome.mpr (by simp [hm] : argList ∈ _))
  obtain ⟨a, r, hstack, hsub, -⟩ := h.frame.top
  refine ⟨b, ?_, fun hx => ?_⟩
  · rw [Scopes.resolve?, hstack, resolve?_subroutine hsub] at hb
    exact hstack ▸ .home hb
  · rw [h.resolve_argList hm hx] at hb
    rw [← Option.some.inj hb]

end EntersBody

theorem Piece.lower_stmt {s : Stmt} {σ : Session} : ((Piece.stmt s).lower σ).2 = (lowerStmt s σ).2 := by
  show (Step.bind (lowerStmt s) _ σ).2 = _
  rw [Step.bind]
  rcases lowerStmt s σ with ⟨f | a, υ⟩ <;> rfl

/-- **The argument list is available exactly in the subroutines that mention it.**

* Lowering a subroutine never reports it as undeclared.
* The frame has a slot for it if the body, without the subroutines in it, mentions it, and only then.
* In the body it is found if it is mentioned there, or is the name of a parameter, and only then.
* Wherever the body looks it up it is found, and in the first slot unless a parameter has its name, or a `my`
  or a loop variable of a scope that is still open. -/
theorem argument_list_available (head : SubHead) (body : List Stmt) (σ : Session) :
    σ.report.Clear argList (lowerStmt (.sub head body) σ).2.report ∧
    ∀ υ, EntersBody head body σ υ →
      (∃ params locals, υ.draft.chunk.instructions.back? = some (.pushFrame params locals) ∧
        params.toNat = head.params.length + (if Stmt.AnyMentions argList body then 1 else 0) ∧
        υ.scopes.taken = params.toNat ∧ locals.toNat = slotsNeeded body) ∧
      ((υ.scopes.resolve? argList).isSome = true ↔
        Stmt.AnyMentions argList body ∨ argList ∈ head.params.filterMap Param.name?) ∧
      ∀ ms c d es τ, Unfolds (.body head.returnType body) ms c →
        Progress (.body head.returnType body) υ d ms υ es τ →
        ∀ pre e post found, es = pre ++ e :: post → e.move = .lookup argList found →
          ∃ b, found = some b ∧ (argList ∉ head.params.filterMap Param.name? →
            true ∉ Made.shades [false] pre → b.slot = 0) := by
  refine ⟨?_, fun υ hυ => ⟨?_, ?_, ?_⟩⟩
  · rw [← Piece.lower_stmt]
    exact Piece.clear fun hm => by cases hm
  · obtain ⟨params, locals, hpush, hparams, hrest⟩ := hυ.pushed
    refine ⟨params, locals, hpush, hparams.trans ?_, hrest⟩
    simp only [← mentionsArgList_iff]
    cases mentionsArgList body <;> rfl
  · simp only [hυ.resolve_isSome, ← mentionsArgList_iff]
    cases mentionsArgList body <;> simp
  · intro ms c d es τ hu hp pre e post found hes he
    cases hm : mentionsArgList body with
    | true =>
        obtain ⟨b, hs, hslot⟩ := hυ.shaded hm
        obtain ⟨hfind, -⟩ := hp.shaded hs Nat.one_pos hu.within (hu.unframed rfl)
        rw [hes, Made.find_append] at hfind
        obtain ⟨b', hfound, heq⟩ := hfind.2.1 found he
        exact ⟨b', hfound, fun hx hfree => heq hfree ▸ hslot hx⟩
    | false =>
        obtain ⟨s, hsight⟩ := hu.sight
        have hunseen : true ∉ [(Piece.body head.returnType body).mentions] := by
          simp [Piece.mentions, hm]
        exact absurd he (hp.unmentioned hunseen hsight (hu.unframed rfl) (by simp [hes]) found)

/-- A body in which the argument list is mentioned in a block. -/
def nestedMention : List Stmt := [.block [.expr (.var argList {})], .ret none {}]

/-- With a parameter there are two slots, of which the mention in the block has the first. -/
theorem argument_list_available_nested :
    let head : SubHead := { name := "count", params := [⟨.var "$first" {}, false⟩] }
    ∃ υ ms es τ pre e post b, EntersBody head nestedMention (Session.start "main" {}) υ ∧
      υ.scopes.taken = 2 ∧
      Unfolds (.body head.returnType nestedMention) ms true ∧
      Progress (.body head.returnType nestedMention) υ false ms υ es τ ∧ es = pre ++ e :: post ∧
      true ∉ Made.shades [false] pre ∧ e.move = .lookup argList (some b) ∧ b.slot = 0 := by
  intro head
  have hmentions : Stmt.AnyMentions argList nestedMention := by decide +kernel
  obtain ⟨σ, hok, hcount⟩ : ∃ σ, lowerStmt (.sub head nestedMention) (Session.start "main" {}) =
      (.ok (), σ) ∧ σ.report.count = 0 :=
    ⟨_, Step.eq_ok_of_isOk (by decide +kernel), by decide +kernel⟩
  obtain ⟨ms, hu, ha⟩ := (Lowers.stmt_iff.mpr ⟨hok, rfl⟩).unfolds
  have hpieces := hu.sub_pieces (ha.quiet_of_lowers hcount)
  obtain ⟨ms, ends, ns, υ, υ', rfl, ha, -, -⟩ :=
    ha.exists_piece (q := .body head.returnType nestedMention) (by simp [hpieces])
  have henters : EntersBody head nestedMention _ υ := ⟨ms, ns, _, _, hu, ha⟩
  obtain ⟨⟨params, locals, -, hparams, htaken, -⟩, hsome, hfind⟩ :=
    (argument_list_available head nestedMention _).2 υ henters
  obtain ⟨b, hb⟩ := Option.isSome_iff_exists.mp (hsome.mpr (.inl hmentions))
  have hlookup : (υ.scopes.enter .block).resolve? argList = some b := hb
  have hbody : Unfolds (.body head.returnType nestedMention) _ true := .bodyCons (.inl (by simp))
  -- The lowering is followed into the block and as far as the mention.
  have hprogress : Progress (.body head.returnType nestedMention) υ false
      [.piece (.stmt (.block [.expr (.var argList {})])) true,
        .piece (.body head.returnType [.ret none {}]) true] υ _ _ :=
    .inside rfl .block (.act rfl (.inside rfl .stmtsCons (.inside rfl .exprStmt
      (.inside rfl .var (.act ⟨hlookup, rfl⟩ .stop)))))
  obtain ⟨b', hb', hslot⟩ := hfind _ _ _ _ _ hbody hprogress [_] _ [] _ rfl rfl
  obtain rfl := Option.some.inj hb'
  have hfree : true ∉ Made.shades [false] [⟨.stmt (.block [.expr (.var argList {})]), υ, .enter .block,
      [.piece (.stmts [.expr (.var argList {})]) true, .leave], υ⟩] := by
    simp [Made.shades, Move.shades]
  exact ⟨υ, _, _, _, [_], _, [], b, henters, by simp [htaken, hparams, hmentions, head], hbody, hprogress,
    rfl, hfree, rfl, hslot (by decide +kernel) hfree⟩

end StackScript
