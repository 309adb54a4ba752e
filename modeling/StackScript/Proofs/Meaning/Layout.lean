import StackScript.Proofs.Bodies
import StackScript.Proofs.Meaning.Agreement

/-!
# How pieces lie in the code

The sessions between the moves of a template are of use no longer when it has been followed.  What is
left of them are places in the code, with the scopes that were open there: each instruction stands at
one, each label is marked at one, and each smaller piece lies between two.

* `Lies`: the moves of a template lie between two places.
* `Laid`: a piece lies between two places.
* `Laid.unfolds`: then so does one of its templates.
-/

namespace StackScript

open Scopes

/-! ### Definitions -/

/-- The code of the piece, which has been lowered without errors, lies between two places. -/
inductive Laid (d : Draft) (p : Piece) : Spot → Spot → Prop where
  | intro {r : Bool} {σ σ' : Session} : Runs Quiet p r σ σ' → σ.Sane → σ'.draft.Grows d →
      Laid d p σ.spot σ'.spot

/-- What a move leaves between two places. -/
def Move.Lies (d : Draft) : Move → Spot → Spot → Prop
  | .emit i, a, b => d.chunk.instructions[a.pc]? = some i ∧ b = ⟨a.scopes, a.pc + 1⟩
  | .constant v, a, b => (∃ index w, d.chunk.instructions[a.pc]? = some (.loadConst index) ∧
      d.chunk.constants[index.toNat]? = some w ∧ (w.equals v = true ∨ w = v)) ∧
      b = ⟨a.scopes, a.pc + 1⟩
  | .mark l, a, b | .newMarkedLabel l, a, b => d.offset? l = some a.pc ∧ a = b
  | .enter kind, a, b => b = ⟨a.scopes.enter kind, a.pc⟩
  | .leave, a, b => b = ⟨a.scopes.leave, a.pc⟩
  | .alloc slot, a, b => Scopes.alloc a.scopes = (.ok slot, b.scopes) ∧ b.pc = a.pc
  | .declare x type slot, a, b =>
    Scopes.declare x type a.scopes = (.ok slot, b.scopes) ∧ b.pc = a.pc
  | .bind x slot type, a, b => Scopes.bind x slot type a.scopes = (.ok (), b.scopes) ∧ b.pc = a.pc
  | .lookup x found, a, b => a.scopes.resolve? x = found ∧ a = b
  | .innermost found, a, b => a.scopes.innermostLoop? = found ∧ a = b
  | .sees P, a, b => (∃ σ, P σ) ∧ a = b
  | .piece p _, a, b => Laid d p a b
  | .argument _ _ _, a, b | .params _, a, b => b.pc = a.pc
  | _, a, b => a = b

/-- What moves leave between two places, one after the other. -/
def Lies (d : Draft) : List Move → Spot → Spot → Prop
  | [], a, b => a = b
  | m :: ms, a, b => ∃ a₁, m.Lies d a a₁ ∧ Lies d ms a₁ b

/-- Code in two parts lies one behind the other. -/
theorem lies_append {d : Draft} {ms ns : List Move} {a b : Spot} :
    Lies d (ms ++ ns) a b ↔ ∃ a₁, Lies d ms a a₁ ∧ Lies d ns a₁ b := by
  induction ms generalizing a with
  | nil => simp [Lies]
  | cons m ms ih =>
      simp only [List.cons_append, Lies, ih]
      constructor
      · rintro ⟨a₁, h₁, a₂, h₂, h₃⟩
        exact ⟨a₂, ⟨a₁, h₁, h₂⟩, h₃⟩
      · rintro ⟨a₂, ⟨a₁, h₁, h₂⟩, h₃⟩
        exact ⟨a₁, h₁, a₂, h₂, h₃⟩

/-! ### From sessions to places -/

/-- A move that neither emits anything nor is about the scopes stays where it is. -/
theorem Move.Does.spot {m : Move} {σ σ' : Session} (h : m.Does σ σ') (hw : m.width = 0)
    (hs : m.onScopes = false) : σ.spot = σ'.spot := by
  have hpos := h.position
  rw [hw] at hpos
  have hscopes := h.spares.scopes hs
  rw [Session.spot, Session.spot, hpos, hscopes]
  rfl

/-- A constant is loaded from the pool, which may hold an equal one. -/
theorem Move.acts_constant_pooled {K : Piece → Bool → Session → Session → Prop} {v : Constant}
    {σ σ' : Session} {d : Draft} (h : (constant v).Acts K σ σ')
    (hpool : σ'.draft.chunk.constants.size ≤ UInt16.size) (hd : σ'.draft.Grows d) :
    ∃ index w, d.chunk.instructions[σ.draft.position]? = some (.loadConst index) ∧
      d.chunk.constants[index.toNat]? = some w ∧ (w.equals v = true ∨ w = v) := by
  obtain ⟨d', hd', rfl⟩ := acts_constant.mp h
  obtain ⟨index, c, hc, rfl⟩ := Draft.emitConstant_eq_ok.mp hd'
  obtain ⟨hcode, -, n, w, rfl, hw, heq⟩ := Chunk.addConstant_ok hc
  have hn : n.toUInt16.toNat = n := by
    have hlt : n < c.constants.size := (Array.getElem?_eq_some_iff.mp hw).1
    exact Nat.mod_eq_of_lt (Nat.lt_of_lt_of_le hlt hpool)
  refine ⟨n.toUInt16, w, hd.instruction ?_, ?_, heq⟩
  · simp [Chunk.emit, Draft.position, Chunk.size, hcode]
  · rw [hn]
    exact hd.constant hw

/-- What a move emits lies in the code of the draft that it grows into. -/
theorem Move.Does.lies {m : Move} {σ σ' : Session} {d : Draft} (h : m.Does σ σ')
    (hpool : σ'.draft.chunk.constants.size ≤ UInt16.size) (hd : σ'.draft.Grows d)
    (hfew : d.labels.size ≤ UInt32.size) : m.Lies d σ.spot σ'.spot := by
  cases m with
  | emit i =>
      obtain rfl := acts_emit.mp h
      refine ⟨hd.instruction ?_, ?_⟩
      · simp [Session.spot, Draft.emit, Chunk.emit, Draft.position, Chunk.size]
      · simp [Session.spot, Draft.emit, Chunk.emit, Draft.position, Chunk.size]
  | constant v =>
      have hspot : σ'.spot = ⟨σ.scopes, σ.draft.position + 1⟩ := by
        rw [Session.spot, h.spares.scopes rfl, h.position]
        rfl
      exact ⟨acts_constant_pooled h hpool hd, hspot⟩
  | mark l => exact ⟨acts_mark_at h hd, h.spot rfl rfl⟩
  | newMarkedLabel l => exact ⟨acts_newMarkedLabel_at h hd hfew, h.spot rfl rfl⟩
  | enter kind | leave =>
      obtain rfl := h
      rfl
  | alloc slot =>
      obtain ⟨s, hs, rfl⟩ := acts_alloc.mp h
      exact ⟨hs, rfl⟩
  | declare x type slot =>
      obtain ⟨s, hs, rfl⟩ := acts_declare.mp h
      exact ⟨hs, rfl⟩
  | bind x slot type =>
      obtain ⟨s, hs, rfl⟩ := acts_bind.mp h
      exact ⟨hs, rfl⟩
  | lookup x found | innermost found =>
      obtain ⟨hfound, rfl⟩ := h
      exact ⟨hfound, rfl⟩
  | sees P =>
      obtain ⟨hP, rfl⟩ := h
      exact ⟨⟨_, hP⟩, rfl⟩
  | piece p b => exact h.elim
  | argument | params => exact h.position
  | _ => exact h.spot rfl rfl

/-- What a row of moves emits lies in the code, piece by piece. -/
theorem Along.lies {ms : List Move} {S S' : Nat × List Slot} {σ τ τ' : Session} {d : Draft}
    (h : Along (Runs Quiet) ms τ τ') (hfold : ms.foldlM Move.holds S = some S') (hh : Held σ S τ)
    (hpool : τ.draft.chunk.constants.size ≤ UInt16.size) (hd : τ'.draft.Grows d)
    (hfew : d.labels.size ≤ UInt32.size) : Lies d ms τ.spot τ'.spot := by
  induction ms generalizing τ S with
  | nil =>
      obtain rfl : τ = τ' := h
      rfl
  | cons m ms ih =>
      obtain ⟨τ₁, hm, h⟩ := h
      rw [List.foldlM_cons] at hfold
      obtain ⟨S₁, hS₁, hfold⟩ := Option.bind_eq_some_iff.mp hfold
      have hd₁ : τ₁.draft.Grows d := h.grows.trans hd
      rcases hm.does_or_piece with hdoes | ⟨q, r, rfl, hq⟩
      · have hpool₁ := hdoes.pool hpool
        exact ⟨_, hdoes.lies hpool₁ hd₁ hfew, ih h hfold (hdoes.held hS₁ hh) hpool₁⟩
      · obtain rfl : S = S₁ := by
          obtain ⟨k, held⟩ := S
          cases k <;> simpa [Move.holds] using hS₁
        obtain ⟨hapart, hfresh⟩ := hq.apart hh.apart
        exact ⟨_, .intro hq ⟨hh.apart, hpool⟩ hd₁,
          ih h hfold (hh.step hq.kept hapart hfresh) (hq.pool hpool)⟩

namespace Laid

variable {d : Draft} {p : Piece} {a b : Spot}

/-- **A piece that lies between two places does so by one of its templates.** -/
theorem unfolds (h : Laid d p a b) (hfew : d.labels.size ≤ UInt32.size) :
    ∃ ms r, Unfolds p ms r ∧ Quiet ms ∧ Lies d ms a b := by
  obtain ⟨hrun, hsane, hd⟩ := h
  obtain ⟨ms, hu, hq, ha⟩ := hrun.unfolds
  obtain ⟨held, hfold⟩ := hu.holds
  exact ⟨ms, _, hu, hq, ha.lies hfold ⟨.refl, hsane.apart, .refl, by simp⟩ hsane.pool hd hfew⟩

/-- The scopes around a piece stay as they are. -/
theorem kept (h : Laid d p a b) : Kept a.scopes.stack b.scopes.stack := by
  obtain ⟨hrun, -, -⟩ := h
  exact hrun.kept

theorem apart (h : Laid d p a b) : Apart a.scopes.stack := by
  obtain ⟨-, hsane, -⟩ := h
  exact hsane.apart

theorem apart_behind (h : Laid d p a b) : Apart b.scopes.stack := by
  obtain ⟨hrun, hsane, -⟩ := h
  exact (hrun.apart hsane.apart).1

theorem fresh (h : Laid d p a b) : Fresh a.scopes.stack b.scopes.stack := by
  obtain ⟨hrun, hsane, -⟩ := h
  exact (hrun.apart hsane.apart).2

/-- A simple piece declares the names it is said to, and no others. -/
theorem grown (h : Laid d p a b) (hs : p.simple = true) :
    Grown p.declares a.scopes.stack b.scopes.stack := by
  obtain ⟨hrun, -, -⟩ := h
  exact hrun.grown hs

end Laid

end StackScript
