import StackScript.Proofs.Slots.Counting

/-!
# Who stores to the slot of a loop

The slot in which a `for` loop counts belongs to the loop alone: within the subroutine, it is stored to
where the loop starts, where it goes on to the next element, and by the `next`s that mean this loop.

* `Past`: what holds of the loops and of the stores among the moves that have been made.
* `Progress.past`: it holds as far as a lowering has come.
* `slots_unaliased`: variables never alias, and no one but the loop itself stores to its slot.
-/

namespace StackScript

open Scopes

namespace Made

/-- The move gives the loop the slot in which it is going to count. -/
def Opens (e : Made) (c : LoopControl) (index : Slot) : Prop :=
  c.index? = some index ∧ e.move = .alloc index ∧ .enter (.loop c) ∈ e.rest

/-- The ways in which the slot of a loop is stored to, if `e` is the move that gave it to the loop. -/
inductive Counts (e : Made) (c : LoopControl) : Made → Prop where
  /-- The loop begins to count, before its list is computed. -/
  | starts {i : Slot} {iterable : Expr} {ms : List Move} {υ : Session} :
      Counts e c ⟨e.piece, e.start, .emit (.store i), .piece (.expr iterable) true :: ms, υ⟩
  /-- The loop goes on, behind its body. -/
  | goesOn {i : Slot} {ms : List Move} {υ : Session} :
      Counts e c ⟨e.piece, e.start, .emit (.store i), .emit (.jump c.next) :: ms, υ⟩
  /-- A `next` whose loop it is. -/
  | next {i : Slot} {s : Span} {ms : List Move} {τ υ : Session} :
      τ.scopes.innermostLoop? = some c →
      Counts e c ⟨.expr (.call "next" [] s), τ, .emit (.store i), ms, υ⟩

/-- A move that opens no loop opens no loop that counts. -/
theorem not_opens {e : Made} {c : LoopControl} {i : Slot} (he : e.move.Harmless) : ¬ e.Opens c i :=
  fun ho => (he i).1 ho.2.1

end Made

/-! ### What has happened so far -/

/-- The slot has been given out, and the loops among the moves made so far that count in it are as `A`
says. -/
structure Meant (hist : List Made) (σ : Session) (i : Slot) (A : Made → LoopControl → Prop) : Prop where
  given : i.toNat < σ.scopes.taken
  opened : ∀ {e c}, e ∈ hist → e.Opens c i → A e c

/-- The slots of loops opened so far have been given out, and belong to no name and to no other loop
that is open.  Stores have been to slots given out, and to those of loops only as they count. -/
structure Past (hist : List Made) (σ : Session) : Prop where
  opened : ∀ {e c i}, e ∈ hist → e.Opens c i → i.toNat < σ.scopes.taken ∧
    ¬ Bound σ.scopes.stack i.toNat ∧ ∀ c' ∈ loops σ.scopes.stack, c'.index? = some i → c' = c
  stored : ∀ {e s}, e ∈ hist → e.move = .emit (.store s) → s.toNat < σ.scopes.taken
  counts : ∀ {e e' c i}, e ∈ hist → e' ∈ hist → e.Opens c i → e'.move = .emit (.store i) →
    e.Counts c e'

variable {hist es : List Made} {σ σ' : Session} {i : Slot} {A : Made → LoopControl → Prop}

/-- Loops that are opened later count in slots that have been given out since. -/
theorem Meant.append (h : Meant hist σ i A) (ht : σ.scopes.taken ≤ σ'.scopes.taken)
    (hes : ∀ {e c i}, e ∈ es → e.Opens c i → σ.scopes.taken ≤ i.toNat) :
    Meant (hist ++ es) σ' i A := by
  refine ⟨Nat.lt_of_lt_of_le h.given ht, fun {e c} he ho => ?_⟩
  rcases List.mem_append.mp he with he | he
  · exact h.opened he ho
  · exact absurd h.given (Nat.not_lt.mpr (hes he ho))

theorem Meant.mono {B : Made → LoopControl → Prop} (h : Meant hist σ i A)
    (hA : ∀ {e c}, e.Opens c i → A e c → B e c) : Meant hist σ i B :=
  ⟨h.given, fun he ho => hA ho (h.opened he ho)⟩

namespace Past

theorem nil : Past [] σ := ⟨by simp, by simp, by simp⟩

/-- The past stays as it is while no slot of it is bound and no other loop counts in one. -/
theorem mono (h : Past hist σ) (ht : σ.scopes.taken ≤ σ'.scopes.taken)
    (hb : ∀ {e c i}, e ∈ hist → e.Opens c i → Bound σ'.scopes.stack i.toNat →
      Bound σ.scopes.stack i.toNat)
    (hl : ∀ {e c i c'}, e ∈ hist → e.Opens c i → c' ∈ loops σ'.scopes.stack → c'.index? = some i →
      c' ∈ loops σ.scopes.stack ∨ c' = c) : Past hist σ' := by
  refine ⟨fun {e c i} he ho => ?_, fun he hs => Nat.lt_of_lt_of_le (h.stored he hs) ht, h.counts⟩
  obtain ⟨hlt, hfree, hloops⟩ := h.opened he ho
  refine ⟨Nat.lt_of_lt_of_le hlt ht, fun hbound => hfree (hb he ho hbound), fun c' hc' hi => ?_⟩
  rcases hl he ho hc' hi with hc' | rfl
  · exact hloops c' hc' hi
  · rfl

/-- Names that get new slots leave the past alone. -/
theorem kept (h : Past hist σ) (hk : Kept σ.scopes.stack σ'.scopes.stack)
    (hf : Fresh σ.scopes.stack σ'.scopes.stack) : Past hist σ' := by
  refine h.mono hk.taken (fun {e c i} he ho hb => ?_) fun {e c i c'} _ _ hc' _ => ?_
  · rcases hf _ hb with hb | hle
    · exact hb
    · exact absurd (h.opened he ho).1 (Nat.not_lt.mpr hle)
  · exact .inl (loops_congr hk.kinds ▸ hc')

/-- One more move. -/
theorem snoc {e : Made} (h : Past hist σ)
    (ho : ∀ {c i}, e.Opens c i → i.toNat < σ.scopes.taken ∧ ¬ Bound σ.scopes.stack i.toNat ∧
      ¬ Counted σ.scopes.stack i.toNat ∧ ∀ {e'}, e' ∈ hist → e'.move ≠ .emit (.store i))
    (hs : ∀ {s}, e.move = .emit (.store s) → Meant hist σ s fun e' c => e'.Counts c e) :
    Past (hist ++ [e]) σ := by
  have hmem {e'} (he' : e' ∈ hist ++ [e]) : e' ∈ hist ∨ e' = e := by simpa using he'
  refine ⟨fun {e' c i} he' ho' => ?_, fun {e' s} he' hs' => ?_, fun {e₁ e₂ c i} h₁ h₂ ho' hs' => ?_⟩
  · rcases hmem he' with he' | rfl
    · exact h.opened he' ho'
    · obtain ⟨hlt, hfree, hcount, -⟩ := ho ho'
      exact ⟨hlt, hfree, fun c' hc' hi => absurd ⟨c', hc', i, hi, rfl⟩ hcount⟩
  · rcases hmem he' with he' | rfl
    · exact h.stored he' hs'
    · exact (hs hs').given
  · rcases hmem h₁ with hin₁ | rfl
    · rcases hmem h₂ with hin₂ | rfl
      · exact h.counts hin₁ hin₂ ho' hs'
      · exact (hs hs').opened hin₁ ho'
    · rcases hmem h₂ with hin₂ | rfl
      · exact absurd hs' ((ho ho').2.2.2 hin₂)
      · obtain ⟨-, hm, -⟩ := ho'
        cases hm.symm.trans hs'

/-- One more move that is harmless. -/
theorem harmless {e : Made} (h : Past hist σ) (he : e.move.Harmless) : Past (hist ++ [e]) σ :=
  h.snoc (fun ho => absurd ho (Made.not_opens he)) fun hs => absurd hs (he _).2

/-- The slot of a name is no loop's. -/
theorem bound (h : Past hist σ) (ha : Apart σ.scopes.stack) (hb : Bound σ.scopes.stack i.toNat) :
    Meant hist σ i fun _ _ => False :=
  ⟨ha.bound_lt hb, fun he ho => (h.opened he ho).2.1 hb⟩

end Past

/-! ### In the middle of a template -/

/-- What holds in the middle of the template `L` of a piece, when the moves `hist` have been made. -/
structure Watch (hist : List Made) (p : Piece) (σ₀ : Session) (L : List Move) (T : Tally)
    (σ : Session) : Prop where
  kept : Kept σ₀.scopes.stack (σ.scopes.stack.drop T.opened)
  inner : Inner T.opened σ.scopes.stack
  sound : T.Sound σ.scopes.stack
  past : Past hist σ
  index : ∀ {i}, T.index = some i → T.own = some i
  own : ∀ {i}, T.own = some i →
    Meant hist σ i fun e _ => e.piece = p ∧ e.start = σ₀ ∧ e.rest <:+ L
  item : ∀ {i}, T.item = some i → Meant hist σ i fun _ _ => False
  named : ∀ {i}, i ∈ T.named → Meant hist σ i fun _ _ => False
  found : ∀ {c i}, T.found = some c → c.index? = some i →
    σ₀.scopes.innermostLoop? = some c ∧ Meant hist σ i fun _ c' => c' = c

namespace Watch

variable {p : Piece} {b : Bool} {L ms ms₀ : List Move} {T T' : Tally} {σ₀ : Session} {m : Move}

theorem start (hp : Past hist σ) (ht : Tidy σ.scopes.stack) : Watch hist p σ L {} σ where
  kept := .refl
  inner := .zero
  sound := .start ht
  past := hp
  index := by simp
  own := by simp
  item := by simp
  named := by simp
  found := by simp

theorem taken (h : Watch hist p σ₀ L T σ) : σ₀.scopes.taken ≤ σ.scopes.taken :=
  Nat.le_trans h.kept.taken (Nat.le_of_eq h.inner.taken_drop)

/-- A harmless move opens no loop in a slot given out before. -/
theorem unopened {e e' : Made} {c : LoopControl} {n : Nat} (he : e.move.Harmless) (hin : e' ∈ [e])
    (ho : e'.Opens c i) : n ≤ i.toNat := by
  obtain rfl := List.mem_singleton.mp hin
  exact absurd ho (Made.not_opens he)

/-- What more moves leave true, whatever becomes of the scopes. -/
theorem move (h : Watch hist p σ₀ L T σ) (ht : σ.scopes.taken ≤ σ'.scopes.taken)
    (hes : ∀ {e c i}, e ∈ es → e.Opens c i → σ.scopes.taken ≤ i.toNat)
    (hkept : Kept σ₀.scopes.stack (σ'.scopes.stack.drop T'.opened))
    (hinner : Inner T'.opened σ'.scopes.stack) (hsound : T'.Sound σ'.scopes.stack)
    (hpast : Past (hist ++ es) σ') (hindex : T'.index = T.index ∨ T'.index = none)
    (hown : T'.own = T.own) (hitem : T'.item = T.item ∨ T'.item = none)
    (hnamed : ∀ {i}, i ∈ T'.named → i ∈ T.named ∨ Bound σ'.scopes.stack i.toNat)
    (hfound : T'.found = T.found) : Watch (hist ++ es) p σ₀ L T' σ' where
  kept := hkept
  inner := hinner
  sound := hsound
  past := hpast
  index {i} hi := by
    rcases hindex with he | he
    · rw [hown]
      exact h.index (he ▸ hi)
    · rw [he] at hi
      cases hi
  own hi := (h.own (hown ▸ hi)).append ht hes
  item {i} hi := by
    rcases hitem with he | he
    · exact (h.item (he ▸ hi)).append ht hes
    · rw [he] at hi
      cases hi
  named {i} hi := by
    rcases hnamed hi with hi | hb
    · exact (h.named hi).append ht hes
    · exact hpast.bound hsound.tidy.apart hb
  found hc hi :=
    ⟨(h.found (hfound ▸ hc) hi).1, (h.found (hfound ▸ hc) hi).2.append ht hes⟩

/-- What opens and closes no scopes and gives names new slots only. -/
theorem append (h : Watch hist p σ₀ L T σ) (hk : Kept σ.scopes.stack σ'.scopes.stack)
    (ha : Apart σ'.scopes.stack ∧ Fresh σ.scopes.stack σ'.scopes.stack) (hp : Past (hist ++ es) σ')
    (hes : ∀ {e c i}, e ∈ es → e.Opens c i → σ.scopes.taken ≤ i.toNat) :
    Watch (hist ++ es) p σ₀ L T σ' :=
  h.move hk.taken hes (h.kept.trans (hk.drop _)) (h.inner.kept hk) (h.sound.kept hk ha) hp (.inl rfl)
    rfl (.inl rfl) .inl rfl

/-- Moves that have to do with no slot but those of new names. -/
theorem plain (h : Watch hist p σ₀ L T σ) (hm : m.Does σ σ') (henter : ∀ k, m ≠ .enter k)
    (hleave : m ≠ .leave) (hbind : ∀ x s t, m ≠ .bind x s t) (hharm : m.Harmless) :
    Watch (hist ++ [⟨p, σ₀, m, ms, σ⟩]) p σ₀ L T σ' := by
  have hk := hm.kept henter hleave
  have ha := hm.apart henter hleave hbind h.sound.tidy.apart
  exact h.append hk ha ((h.past.kept hk ha.2).harmless hharm) (unopened hharm)

/-- The slot of a name may be stored to. -/
theorem name {s : Slot} (h : Watch hist p σ₀ L T σ) (hb : Bound σ.scopes.stack s.toNat) :
    Watch hist p σ₀ L { T with named := s :: T.named } σ := by
  refine ⟨h.kept, h.inner, ⟨h.sound.tidy, h.sound.index, h.sound.item⟩, h.past, h.index, h.own, h.item,
    fun {i} hi => ?_, h.found⟩
  rcases List.mem_cons.mp hi with rfl | hi
  · exact h.past.bound h.sound.tidy.apart hb
  · exact h.named hi

/-- The loop around a piece, found before it has opened scopes of its own. -/
theorem find {c : LoopControl} (h : Watch hist p σ₀ L T σ) (hT : T.opened = 0)
    (hc : σ.scopes.innermostLoop? = some c) :
    Watch hist p σ₀ L { T with found := some c } σ := by
  refine ⟨h.kept, h.inner, ⟨h.sound.tidy, h.sound.index, h.sound.item⟩, h.past, h.index, h.own, h.item,
    h.named, fun {c' i} hc' hi => ?_⟩
  obtain rfl := Option.some.inj hc'
  have hkept : Kept σ₀.scopes.stack σ.scopes.stack := by simpa [hT] using h.kept
  have hmem := mem_loops_of_innermost hc
  refine ⟨(innermostLoop?_congr hkept.kinds).symm.trans hc,
    (h.sound.tidy.hidden.counted ⟨c, hmem, i, hi, rfl⟩).1, fun he ho => ?_⟩
  exact ((h.past.opened he ho).2.2 c hmem hi).symm

/-- A store to a slot that the template may store to. -/
theorem store {s : Slot} (h : Watch hist p σ₀ L T σ) (hu : Unfolds p L b)
    (hL : L = ms₀ ++ .emit (.store s) :: ms) (hT₀ : ms₀.foldlM Move.tally {} = some T)
    (hs : T.stores s = true) (hm : (Move.emit (.store s)).Does σ σ') :
    Watch (hist ++ [⟨p, σ₀, .emit (.store s), ms, σ⟩]) p σ₀ L T σ' := by
  have hmeant : Meant hist σ s fun e c => e.Counts c ⟨p, σ₀, .emit (.store s), ms, σ⟩ := by
    by_cases hname : s ∈ T.named
    · exact (h.named hname).mono fun _ => False.elim
    · rcases Tally.stores_iff.mp hs with hs | hs | ⟨c, hc, hi⟩
      · exact absurd hs hname
      · refine (h.own hs).mono fun {e c} ho hown => ?_
        obtain ⟨rfl, rfl, hrest⟩ := hown
        have hc : .enter (.loop c) ∈ L := hrest.subset ho.2.2
        subst hL
        rcases hu.store_counting hT₀ hc ho.1 with hs | ⟨iterable, ns, rfl⟩ | ⟨ns, rfl⟩
        · exact absurd hs hname
        · exact .starts
        · exact .goesOn
      · obtain ⟨hloop, hmeant⟩ := h.found hc hi
        refine hmeant.mono fun {e c'} ho he => ?_
        subst he
        have hmem := Tally.found_mem hT₀ rfl hc
        obtain ⟨span, rfl⟩ := hu.next_of_store (c := c') (s := s) (by simp [hL, hmem]) (by simp [hL])
        exact .next hloop
  have hk := hm.kept (by simp) (by simp)
  have ha := hm.apart (by simp) (by simp) (by simp) h.sound.tidy.apart
  refine h.append hk ha ((h.past.kept hk ha.2).snoc (fun ho => absurd ho.2.1 (by simp))
    fun {s'} hs' => ?_) fun {e c i} he ho => ?_
  · obtain rfl : s = s' := by simpa [Instruction.store] using hs'
    exact ⟨Nat.lt_of_lt_of_le hmeant.given hk.taken, hmeant.opened⟩
  · obtain rfl := List.mem_singleton.mp he
    cases ho.2.1

/-- A slot for the template itself. -/
theorem alloc {s : Slot} (h : Watch hist p σ₀ L T σ) (hu : Unfolds p L b)
    (hL : L = ms₀ ++ .alloc s :: ms) (hT₀ : ms₀.foldlM Move.tally {} = some T)
    (hT : Move.tally T (.alloc s) = some T') (hm : (Move.alloc s).Does σ σ') :
    Watch (hist ++ [⟨p, σ₀, .alloc s, ms, σ⟩]) p σ₀ L T' σ' := by
  have hk := hm.kept (by simp) (by simp)
  have ha := hm.apart (by simp) (by simp) (by simp) h.sound.tidy.apart
  obtain ⟨scopes, hs, rfl⟩ := Move.acts_alloc.mp hm
  have hslot : s.toNat = σ.scopes.taken := (alloc_ok hs).1
  have hfree := Free.alloc h.sound.tidy hs
  have hsound := h.sound.alloc hs hT
  have hopens {c : LoopControl} {i : Slot}
      (ho : (⟨p, σ₀, .alloc s, ms, σ⟩ : Made).Opens c i) : s = i := Move.alloc.inj ho.2.1
  -- No loop that has been opened before counts in the new slot.
  have hnew {e : Made} {c : LoopControl} (he : e ∈ hist) (ho : e.Opens c s) : False := by
    have := (h.past.opened he ho).1
    omega
  have hpast := (h.past.kept hk ha.2).snoc (e := ⟨p, σ₀, .alloc s, ms, σ⟩) (fun {c i} ho => by
    obtain rfl := hopens ho
    refine ⟨hfree.given, hfree.unbound, hfree.uncounted, fun he hs => ?_⟩
    have := h.past.stored he hs
    omega) fun hs => by cases hs
  have hw := h.append hk ha hpast fun {e c i} he ho => by
    obtain rfl := List.mem_singleton.mp he
    obtain rfl := hopens ho
    exact Nat.le_of_eq hslot.symm
  simp only [Move.tally] at hT
  split at hT
  · simp only [Option.ite_none_right_eq_some, Option.some.injEq] at hT
    obtain ⟨-, rfl⟩ := hT
    refine ⟨hw.kept, hw.inner, hsound, hpast, id, fun {i} hi => ?_, hw.item, hw.named, hw.found⟩
    obtain rfl := Option.some.inj hi
    refine ⟨hfree.given, fun {e c} he ho => ?_⟩
    rcases List.mem_append.mp he with he | he
    · exact (hnew he ho).elim
    · obtain rfl := List.mem_singleton.mp he
      exact ⟨rfl, rfl, ms₀ ++ [Move.alloc s], by simp [hL]⟩
  · rename_i hidle
    simp only [Option.ite_none_right_eq_some, Option.some.injEq] at hT
    obtain ⟨hitem, rfl⟩ := hT
    refine ⟨hw.kept, hw.inner, hsound, hpast, hw.index, hw.own, fun {i} hi => ?_, hw.named, hw.found⟩
    obtain rfl := Option.some.inj hi
    refine ⟨hfree.given, fun {e c} he ho => ?_⟩
    rcases List.mem_append.mp he with he | he
    · exact hnew he ho
    · obtain rfl := List.mem_singleton.mp he
      -- The loop counts in the first slot, which has been given out before.
      obtain ⟨j, hj⟩ : ∃ j, T.index = some j := by
        cases hindex : T.index with
        | none => simp [Tally.idle, hindex, hitem] at hidle
        | some j => exact ⟨j, rfl⟩
      obtain ⟨T'', hrest⟩ := hu.tally_rest hL hT₀
      obtain ⟨T₁, hT₁, hrest⟩ := Move.foldlM_cons.mp hrest
      have hown : T.own = some j := h.index hj
      obtain ⟨hown₁, hindex₁⟩ := Move.tally_own hT₁ hown
      obtain rfl : s = j := Tally.own_index hrest hown₁ (fun {k} hk => by
        rcases hindex₁ with he | he
        · exact Option.some.inj (hk.symm.trans (he.trans hj))
        · rw [he] at hk
          cases hk) ho.2.2 ho.1
      have hlt : s.toNat < σ.scopes.taken := (h.sound.index hj).given
      omega

/-- A slot is bound that was waiting, and no loop of the past counts in it. -/
theorem bind {x : String} {s : Slot} {t : ValueType} (h : Watch hist p σ₀ L T σ)
    (hT : Move.tally T (.bind x s t) = some T') (hm : (Move.bind x s t).Does σ σ') :
    Watch (hist ++ [⟨p, σ₀, .bind x s t, ms, σ⟩]) p σ₀ L T' σ' := by
  have hk := hm.kept (by simp) (by simp)
  obtain ⟨scopes, hb, rfl⟩ := Move.acts_bind.mp hm
  simp only [Move.tally, Option.ite_none_right_eq_some, Option.some.injEq] at hT
  obtain ⟨⟨hindex, hitem⟩, rfl⟩ := hT
  obtain ⟨htidy, hbound⟩ := h.sound.tidy.bind (h.sound.item hitem).1 hb
  have hharm : (Move.bind x s t).Harmless := by simp [Move.Harmless]
  refine h.move hk.taken (unopened hharm) (h.kept.trans (hk.drop _)) (h.inner.kept hk)
    (.of_idle htidy (by simp [Tally.idle, hindex])) ?_ (.inl rfl) rfl (.inr rfl) (fun {i} hi => ?_) rfl
  · refine .harmless (h.past.mono hk.taken (fun {e c i} he ho hi => ?_) fun _ _ hc' _ => ?_) hharm
    · rcases hbound hi with hi | hi
      · exact hi
      · obtain rfl := UInt16.toNat_inj.mp hi
        exact ((h.item hitem).opened he ho).elim
    · exact .inl (loops_congr hk.kinds ▸ hc')
  · rcases List.mem_cons.mp hi with rfl | hi
    · exact .inr (bound_bind hb)
    · exact .inl hi

/-- A scope is opened, and its loop counts in the slot that was waiting. -/
theorem enter {kind : ScopeKind} (h : Watch hist p σ₀ L T σ) (hu : Unfolds p L b)
    (hp : p.isSub = false) (hL : .enter kind ∈ L) (hT : Move.tally T (.enter kind) = some T')
    (hm : (Move.enter kind).Does σ σ') :
    Watch (hist ++ [⟨p, σ₀, .enter kind, ms, σ⟩]) p σ₀ L T' σ' := by
  have hkind : kind.isSubroutine = false := by
    cases kind with
    | subroutine type => exact absurd (hu.enters_subroutine hL) (by simp [hp])
    | _ => rfl
  have hsound := h.sound.enter hT
  obtain rfl := hm
  have ht : (σ.scopes.enter kind).taken = σ.scopes.taken := taken_enter hkind
  have hpast : Past hist { σ with scopes := σ.scopes.enter kind } := by
    refine h.past.mono (Nat.le_of_eq ht.symm) (fun _ _ hb => (bound_enter.mp hb).2)
      fun {e c i c'} he ho hc' hi => ?_
    rcases mem_loops_enter hc' with rfl | hc'
    · obtain ⟨-, -, hrest⟩ := (h.own (h.index (Move.tally_loop hT hi))).opened he ho
      exact .inr (hu.counting_unique hL (hrest.subset ho.2.2) hi ho.1)
    · exact .inl hc'
  obtain ⟨index, rfl, hindex⟩ := Move.tally_enter hT
  have hharm : (Move.enter kind).Harmless := by simp [Move.Harmless]
  exact h.move (Nat.le_of_eq ht.symm) (unopened hharm) h.kept (h.inner.enter hkind) hsound
    (hpast.harmless hharm) hindex rfl (.inl rfl) .inl rfl

/-- A scope is left, and what was opened before it is as it was. -/
theorem leave (h : Watch hist p σ₀ L T σ) (hT : Move.tally T .leave = some T')
    (hm : Move.leave.Does σ σ') : Watch (hist ++ [⟨p, σ₀, .leave, ms, σ⟩]) p σ₀ L T' σ' := by
  simp only [Move.tally, Option.ite_none_right_eq_some, Option.some.injEq] at hT
  obtain ⟨⟨hidle, hopened⟩, rfl⟩ := hT
  obtain ⟨k, hk⟩ := Nat.exists_eq_succ_of_ne_zero hopened
  obtain rfl := hm
  have hinner := h.inner
  have hkept := h.kept
  rw [hk] at hinner hkept
  obtain ⟨ht, hinner'⟩ := hinner.leave
  have hharm : Move.leave.Harmless := by simp [Move.Harmless]
  refine h.move (Nat.le_of_eq ht.symm) (unopened hharm) ?_ ?_ (.of_idle h.sound.tidy.leave hidle) ?_
    (.inl rfl) rfl (.inl rfl) (by simp) rfl
  · simpa [hk, Scopes.leave] using hkept
  · simpa [hk] using hinner'
  · refine .harmless (h.past.mono (Nat.le_of_eq ht.symm) ?_ ?_) hharm
    · exact fun _ _ hb => hinner.bound_leave hb
    · exact fun _ _ hc' _ => .inl (hinner.loops_leave hc')

/-- **What one move leaves true.** -/
theorem act (h : Watch hist p σ₀ L T σ) (hu : Unfolds p L b) (hp : p.isSub = false)
    (hL : L = ms₀ ++ m :: ms) (hT₀ : ms₀.foldlM Move.tally {} = some T)
    (hT : Move.tally T m = some T') (hm : m.Does σ σ') :
    Watch (hist ++ [⟨p, σ₀, m, ms, σ⟩]) p σ₀ L T' σ' := by
  cases m with
  | alloc s => exact h.alloc hu hL hT₀ hT hm
  | bind x s t => exact h.bind hT hm
  | enter kind => exact h.enter hu hp (by simp [hL]) hT hm
  | leave => exact h.leave hT hm
  | emit i =>
      simp only [Move.tally, Option.ite_none_right_eq_some, Option.some.injEq] at hT
      obtain ⟨hi, rfl⟩ := hT
      by_cases hs : ∃ s, i = .store s
      · obtain ⟨s, rfl⟩ := hs
        exact h.store hu hL hT₀ (by simpa [Instruction.stored?, Instruction.store] using hi) hm
      · exact h.plain hm (by simp) (by simp) (by simp) fun s =>
          ⟨by simp, fun he => hs ⟨s, Move.emit.inj he⟩⟩
  | declare x t s =>
      obtain rfl := Option.some.inj hT
      have hw : Watch (hist ++ [⟨p, σ₀, .declare x t s, ms, σ⟩]) p σ₀ L T σ' :=
        h.plain hm (by simp) (by simp) (by simp) (by simp [Move.Harmless])
      obtain ⟨scopes, hd, rfl⟩ := Move.acts_declare.mp hm
      exact hw.name (bound_declare hd)
  | lookup x found =>
      have hw : Watch (hist ++ [⟨p, σ₀, .lookup x found, ms, σ⟩]) p σ₀ L T σ' :=
        h.plain hm (by simp) (by simp) (by simp) (by simp [Move.Harmless])
      obtain ⟨hfound, rfl⟩ := hm
      cases found with
      | none =>
          cases hT
          exact hw
      | some bnd =>
          obtain rfl := Option.some.inj hT
          exact hw.name (bound_of_resolve hfound)
  | innermost found =>
      have hw : Watch (hist ++ [⟨p, σ₀, .innermost found, ms, σ⟩]) p σ₀ L T σ' :=
        h.plain hm (by simp) (by simp) (by simp) (by simp [Move.Harmless])
      obtain ⟨hfound, rfl⟩ := hm
      cases found with
      | none =>
          cases hT
          exact hw
      | some c =>
          simp only [Move.tally, Option.ite_none_right_eq_some, Option.some.injEq] at hT
          obtain ⟨hopened, rfl⟩ := hT
          exact hw.find hopened hfound
  | piece q c => exact hm.elim
  | _ =>
      obtain rfl := Option.some.inj hT
      exact h.plain hm (by simp) (by simp) (by simp) (by simp [Move.Harmless])

end Watch

/-- **As far as a lowering has come, its stores are accounted for.**  The loops it has opened count in
slots that have been given out since it began. -/
theorem Progress.past {p : Piece} {b d : Bool} {L ms₀ ms : List Move} {T : Tally} {σ₀ σ τ : Session}
    (h : Progress p σ₀ d ms σ es τ) (hu : Unfolds p L b) (hp : p.isSub = false)
    (hL : L = ms₀ ++ ms) (hT : ms₀.foldlM Move.tally {} = some T)
    (hw : Watch hist p σ₀ L T σ) :
    Past (hist ++ es) τ ∧ ∀ {e c i}, e ∈ es → e.Opens c i → σ₀.scopes.taken ≤ i.toNat := by
  -- The watch is carried along: each move makes one, and a piece on the way starts its own with the
  -- history so far.
  induction h generalizing hist L ms₀ T b with
  | stop | done => exact ⟨by simpa using hw.past, by simp⟩
  | @act p _ m ms es σ₀ σ σ₁ _ hm _ ih =>
      obtain ⟨T', hrest⟩ := hu.tally_rest hL hT
      obtain ⟨T₁, hT₁, -⟩ := Move.foldlM_cons.mp hrest
      obtain ⟨hpast, hnew⟩ := ih hu hp (show L = ms₀ ++ [m] ++ ms by simp [hL])
        (by simp [List.foldlM_append, hT, hT₁]) (hw.act hu hp hL hT hT₁ hm)
      refine ⟨by simpa using hpast, fun {e c i} he ho => ?_⟩
      rcases List.mem_cons.mp he with rfl | he
      · obtain ⟨-, rfl, -⟩ := id ho
        obtain ⟨scopes, hs, -⟩ := Move.acts_alloc.mp hm
        rw [(alloc_ok hs).1]
        exact hw.taken
      · exact hnew he ho
  | @sub p q c _ ms es σ₀ σ σ₁ _ hq hl _ ih =>
      have hk := hl.runs.kept
      have ha := hl.runs.apart hw.sound.tidy.apart
      have hharm : (Move.piece q c).Harmless := by simp [Move.Harmless]
      have hpast : Past (hist ++ [⟨p, σ₀, .piece q c, ms, σ⟩]) σ₁ := (hw.past.kept hk ha.2).harmless hharm
      have hw₁ := hw.append hk ha hpast (Watch.unopened hharm)
      obtain ⟨hpast, hnew⟩ := ih hu hp (show L = ms₀ ++ [Move.piece q c] ++ ms by simp [hL])
        (by simp [List.foldlM_append, hT, Move.tally]) hw₁
      refine ⟨by simpa using hpast, fun {e c' i} he ho => ?_⟩
      rcases List.mem_cons.mp he with rfl | he
      · exact absurd ho (Made.not_opens hharm)
      · exact hnew he ho
  | @piece p q c _ ms ns es es' σ₀ σ σ₁ _ hq huq hrun _ ih₁ ih₂ =>
      obtain ⟨hpast₁, hnew₁⟩ := ih₁ huq hq (List.nil_append _).symm rfl (.start hw.past hw.sound.tidy)
      have hruns : Runs (fun _ => True) q c σ σ₁ := ⟨ns, huq, trivial, hrun.follows⟩
      have hw₁ := hw.append hruns.kept (hruns.apart hw.sound.tidy.apart) hpast₁ hnew₁
      obtain ⟨hpast, hnew⟩ := ih₂ hu hp (show L = ms₀ ++ [Move.piece q c] ++ ms by simp [hL])
        (by simp [List.foldlM_append, hT, Move.tally]) hw₁
      refine ⟨by simpa using hpast, fun {e c' i} he ho => ?_⟩
      rcases List.mem_append.mp he with he | he
      · exact Nat.le_trans hw.taken (hnew₁ he ho)
      · exact hnew he ho
  | inside hq huq _ ih =>
      obtain ⟨hpast, hnew⟩ := ih huq hq (List.nil_append _).symm rfl (.start hw.past hw.sound.tidy)
      exact ⟨hpast, fun he ho => Nat.le_trans hw.taken (hnew he ho)⟩

/-! ### Whole subroutines -/

namespace Progress

variable {p : Piece} {b d : Bool} {L ms : List Move} {T T' : Tally} {σ₀ τ : Session} {c : LoopControl}
  {e e' : Made}

/-- Where there are no pieces, the moves are made one by one. -/
theorem bare (h : Progress p σ₀ d ms σ es τ) (hms : Move.pieces ms = []) (he : e ∈ es) :
    e.move ∈ ms := by
  induction h with
  | stop | done => cases he
  | @act _ _ m _ _ _ _ _ _ hm _ ih =>
      rcases List.mem_cons.mp he with rfl | he
      · exact List.mem_cons_self
      · refine List.mem_cons_of_mem _ (ih ?_ he)
        cases m with
        | piece => cases hms
        | _ => exact hms
  | sub | piece | inside => cases hms

/-- Moves made from tidy scopes on give the slots of loops to nothing else. -/
theorem past_of_tidy (h : Progress p σ d L σ es τ) (hu : Unfolds p L b) (hp : p.isSub = false)
    (ht : Tidy σ.scopes.stack) : Past es τ :=
  (h.past hu hp (List.nil_append L).symm rfl (.start .nil ht)).1

/-- In a template without such moves, the stores and the loops are those of its piece. -/
theorem counts_frame (h : Progress p σ₀ d ms σ es τ)
    (hms : ∀ m ∈ ms, m.Harmless) (hone : (Move.pieces ms).length ≤ 1)
    (hT : ms.foldlM Move.tally T = some T') (hs : T.Sound σ.scopes.stack) (he : e ∈ es) (he' : e' ∈ es)
    (ho : e.Opens c i) (hstore : e'.move = .emit (.store i)) : e.Counts c e' := by
  -- Neither is a move of the template itself.
  have hopens : ¬ e.move.Harmless := fun hm => Made.not_opens hm ho
  have hstores : ¬ e'.move.Harmless := fun hm => (hm i).2 hstore
  induction h generalizing T with
  | stop | done => cases he
  | @act _ _ m ms _ _ _ _ _ hm _ ih =>
      obtain ⟨hm₀, hms⟩ := List.forall_mem_cons.mp hms
      obtain ⟨T₁, hT₁, hT⟩ := Move.foldlM_cons.mp hT
      have hone : (Move.pieces ms).length ≤ 1 := by
        cases m with
        | piece => exact hm.elim
        | _ => exact hone
      rcases List.mem_cons.mp he with rfl | he
      · exact absurd hm₀ hopens
      · rcases List.mem_cons.mp he' with rfl | he'
        · exact absurd hm₀ hstores
        · exact ih hms hone hT (hm.tally hT₁ hs) he he'
  | sub _ hl _ ih =>
      obtain ⟨hm₀, hms⟩ := List.forall_mem_cons.mp hms
      have hone := Nat.le_of_succ_le hone
      have hs := hs.kept hl.runs.kept (hl.runs.apart hs.tidy.apart)
      rcases List.mem_cons.mp he with rfl | he
      · exact absurd hm₀ hopens
      · rcases List.mem_cons.mp he' with rfl | he'
        · exact absurd hm₀ hstores
        · exact ih hms hone hT hs he he'
  | piece hq hu h₁ h₂ _ _ =>
      obtain ⟨-, hms⟩ := List.forall_mem_cons.mp hms
      -- Behind its only piece, there are moves of the template only.
      have hnone : Move.pieces _ = [] :=
        List.eq_nil_of_length_eq_zero (Nat.le_zero.mp (Nat.le_of_succ_le_succ hone))
      have hback {e : Made} (he : e ∈ _) := hms _ (h₂.bare hnone he)
      rcases List.mem_append.mp he with he | he
      · rcases List.mem_append.mp he' with he' | he'
        · exact (h₁.past_of_tidy hu hq hs.tidy).counts he he' ho hstore
        · exact absurd (hback he') hstores
      · exact absurd (hback he) hopens
  | inside hq hu h _ => exact (h.past_of_tidy hu hq hs.tidy).counts he he' ho hstore

/-- **The slot of a loop is stored to only as the loop counts.** -/
theorem counts (h : Progress p σ d L σ es τ) (hu : Unfolds p L b) (ht : Tidy σ.scopes.stack)
    (he : e ∈ es) (he' : e' ∈ es) (ho : e.Opens c i) (hstore : e'.move = .emit (.store i)) :
    e.Counts c e' := by
  cases hp : p.isSub with
  | false => exact (h.past_of_tidy hu hp ht).counts he he' ho hstore
  | true =>
      obtain ⟨hms, hone⟩ := hu.frame hp
      obtain ⟨T', hT⟩ := hu.tally
      exact h.counts_frame hms hone hT (.start ht) he he' ho hstore

end Progress

/-- **Variables never alias.**  Wherever lowering a program goes, in each subroutine whose scopes are
open two names that are bound in its scopes have different slots unless they are one name of one scope,
and no name has the hidden slot in which a `for` loop of the subroutine counts.  However lowering the
program or a piece of it ends, by a fault or not, it ends in such a session.

Of the stores that lowering a piece has emitted so far, be it a whole subroutine, those to the slot of a
`for` loop in it are the one before its list, the one behind its body and those of the `next`s that mean
this loop.  Those of subroutines declared inside are to slots of their own. -/
theorem slots_unaliased (p : Program) (name : String) (options : CompileOptions) :
    (∀ {υ}, p.GoesThrough name options υ → Unaliased υ.scopes.stack) ∧
    p.GoesThrough name options ((Lower.lowerProgram p).run (Session.start name options)).2 ∧
    ∀ {q τ}, p.Meets name options q τ →
      p.GoesThrough name options (q.lower τ).2 ∧
      (∀ {b υ}, Lowers q b τ υ → ∃ L es, Unfolds q L b ∧ Progress q τ true L τ es υ) ∧
      ∀ {b d L es υ}, Unfolds q L b → Progress q τ d L τ es υ →
        ∀ {e control index n}, e ∈ es → e.Opens control index → τ.draft.position ≤ n →
          υ.draft.chunk.instructions[n]? = some (.store index) →
          (∃ e' ∈ es, e'.spot.draft.position = n ∧ e'.move = .emit (.store index) ∧
            e.Counts control e') ∨ ∃ e' ∈ es, e'.Nests n := by
  refine ⟨fun h => h.tidy.unaliased, .run, fun {q τ} hq => ⟨hq.goesThrough, Lowers.exists_progress, ?_⟩⟩
  intro b d L es υ hu hes e control index n he ho hn hi
  obtain ⟨e', he', hnests | ⟨hspot, hmove | ⟨_, hconst⟩⟩⟩ := hes.covers hn hi
  · exact .inr ⟨e', he', hnests⟩
  · exact .inl ⟨e', he', hspot, hmove, hes.counts hu hq.tidy he he' ho hmove⟩
  · cases hconst

/-- A loop whose body goes on to the next element at once. -/
def skipping : Program where
  body := [.forEach "$x" (.integer 3 {}) [.expr (.call "next" [] {})]]

/-- The loop is open when its variable is bound, and the slot in which it counts is stored to at three
places: before its list, by the `next` in its body and behind its body. -/
theorem slots_unaliased_skipping :
    (∃ υ, skipping.GoesThrough "main" {} υ ∧ (∃ c ∈ loops υ.scopes.stack, c.index? = some 0) ∧
      Unaliased υ.scopes.stack) ∧
    ∃ υ L es e control, Lowers (.stmts skipping.body) true (skipping.entry "main" {}) υ ∧
      Progress (.stmts skipping.body) (skipping.entry "main" {}) true L (skipping.entry "main" {}) es υ ∧
      e ∈ es ∧ e.Opens control 0 ∧
      ∀ n ∈ [2, 16, 23], υ.draft.chunk.instructions[n]? = some (.store 0) ∧
        ((∃ e' ∈ es, e'.spot.draft.position = n ∧ e'.move = .emit (.store 0) ∧
          e.Counts control e') ∨ ∃ e' ∈ es, e'.Nests n) := by
  obtain ⟨hunaliased, -, hpieces⟩ := slots_unaliased skipping "main" {}
  constructor
  · have htop : Unfolds (.stmts skipping.body) ([] ++ [.piece (.stmt (.forEach "$x" (.integer 3 {})
        [.expr (.call "next" [] {})])) true, .piece (.stmts []) true]) true := .stmtsCons
    have hu := @Unfolds.forEach "$x" (.integer 3 {}) [.expr (.call "next" [] {})] 0 1 ⟨0⟩ ⟨1⟩
    rw [← List.take_append_drop 11 (_ ++ _ ++ _)] at hu
    have hthrough : skipping.GoesThrough "main" {} _ := .piece (.part .top htop rfl) hu
      ⟨_, rfl, _, rfl, _, rfl, _, rfl, _, rfl, _, rfl, _,
        Lowers.expr_iff.mpr ⟨by rw [Lower.lowerExpr]; rfl, rfl⟩, _, rfl, _, rfl, _, rfl, _, rfl, rfl⟩
    exact ⟨_, hthrough, ⟨_, List.mem_cons_self, rfl⟩, hunaliased hthrough⟩
  · have hok : (Lower.lowerStmts skipping.body (skipping.entry "main" {})).1.toBool = true := by
      decide +kernel
    have hcode : ∀ n ∈ [2, 16, 23], (Lower.lowerStmts skipping.body
        (skipping.entry "main" {})).2.draft.chunk.instructions[n]? = some (.store 0) := by
      decide +kernel
    rcases hυ : Lower.lowerStmts skipping.body (skipping.entry "main" {}) with ⟨f | ⟨⟩, υ⟩
    · rw [hυ] at hok
      cases hok
    rw [hυ] at hcode
    have hl : Lowers (.stmts skipping.body) true (skipping.entry "main" {}) υ :=
      Lowers.stmts_iff.mpr ⟨hυ, rfl⟩
    obtain ⟨-, hprogress, hstores⟩ := hpieces .top
    obtain ⟨L, es, hu, hes⟩ := hprogress hl
    obtain ⟨e, control, he, ho⟩ : ∃ e control, e ∈ es ∧ e.Opens control 0 := by
      cases hu
      cases hes with
      | act hm => exact hm.elim
      | sub hq => cases hq
      | piece _ hu h₁ _ =>
          cases hu with
          | @forEach _ _ _ index item done top =>
              cases h₁ with
              | act hm _ =>
                  obtain rfl : 0 = index := Except.ok.inj (congrArg Prod.fst hm)
                  exact ⟨_, .forEach done top 0 item, List.mem_append_left _ List.mem_cons_self, rfl,
                    rfl, by simp⟩
    refine ⟨υ, L, es, e, control, hl, hes, he, ho, fun n hn => ⟨hcode n hn, ?_⟩⟩
    have hentry : (skipping.entry "main" {}).draft.position = 1 := by decide +kernel
    have hn' : 1 ≤ n := by
      simp only [List.mem_cons, List.not_mem_nil, or_false] at hn
      omega
    exact hstores hu hes he ho (hentry ▸ hn') (hcode n hn)

end StackScript
