import StackScript.Proofs.Compositional

/-!
# The limit on diagnostics only truncates

Lowering goes on behind an error in the script, and what it does then does not depend on how many errors
were found before.  So a limit on the diagnostics changes nothing but how many of them are kept: the
session with a limit is, all the way, the session without one, its report truncated.

* `Report.truncate`, `Session.truncate`: what is left under a limit.
* `Lower.limitless`: the single steps of lowering commute with truncating the report.
* `compile_truncates`: what this comes to.
-/

namespace StackScript

/-! ### Truncated reports -/

namespace Report

/-- Nothing is left out of the report. -/
structure Unlimited (r : Report) : Prop where
  limit : r.limit = 0
  dropped : r.dropped = 0

/-- What is left of a full report if only the first `k` diagnostics are kept; all are if `k` is zero. -/
def truncate (k : Nat) (r : Report) : Report :=
  if k = 0 then r else { items := r.items.take k, limit := k, dropped := r.items.length - k }

variable {r : Report} {k : Nat} {d : Diagnostic}

theorem Unlimited.add_eq (h : r.Unlimited) : r.add d = { r with items := r.items ++ [d] } := by
  simp [add, h.limit]

theorem Unlimited.add (h : r.Unlimited) : (r.add d).Unlimited := by
  rw [h.add_eq]
  exact ⟨h.limit, h.dropped⟩

/-- A diagnostic beyond the limit is counted, and any other is kept. -/
theorem Unlimited.truncate_add (h : r.Unlimited) : (r.add d).truncate k = (r.truncate k).add d := by
  by_cases hk : k = 0
  · simp [truncate, hk]
  rw [h.add_eq]
  by_cases hfull : k ≤ r.items.length
  · have hlength : (r.items.take k).length = k := List.length_take_of_le hfull
    have hitems : (r.items ++ [d]).take k = r.items.take k := List.take_append_of_le_length hfull
    have hdropped : r.items.length + 1 - k = r.items.length - k + 1 := Nat.sub_add_comm hfull
    simp [truncate, Report.add, hk, hlength, hitems, hdropped]
  · have hlength : r.items.length + 1 ≤ k := Nat.lt_of_not_le hfull
    have hitems : r.items.take k = r.items := List.take_of_length_le (Nat.le_of_succ_le hlength)
    have hadded : (r.items ++ [d]).take k = r.items ++ [d] := List.take_of_length_le (by simpa using hlength)
    simp [truncate, Report.add, hk, hitems, hadded, hfull, Nat.sub_eq_zero_of_le hlength,
      Nat.sub_eq_zero_of_le (Nat.le_of_succ_le hlength)]

/-- Whether there is any diagnostic can be told under every limit. -/
theorem Unlimited.isEmpty_truncate (h : r.Unlimited) : (r.truncate k).isEmpty = r.isEmpty := by
  by_cases hk : k = 0
  · simp [truncate, hk]
  · cases hitems : r.items with
    | nil => simp [truncate, isEmpty, hk, hitems, h.dropped]
    | cons d ds =>
        obtain ⟨n, rfl⟩ := Nat.exists_eq_succ_of_ne_zero hk
        simp [truncate, isEmpty, hitems]

end Report

/-! ### Truncated sessions -/

/-- The session as it would be under a limit of `k` diagnostics. -/
def Session.truncate (k : Nat) (σ : Session) : Session :=
  { σ with options := { σ.options with maxErrors := k }, report := σ.report.truncate k }

namespace Lower

/-- A step that does the same under every limit. -/
abbrev Limitless (k : Nat) {α : Type} (x : Lower α) : Prop :=
  Step.Commutes (·.report.Unlimited) (Session.truncate k) x

variable {k : Nat}

/-- A step that neither reads nor changes the report and its limit. -/
theorem limitless_of_report {α : Type} {x : Lower α}
    (htruncate : ∀ σ, x (σ.truncate k) = ((x σ).1, (x σ).2.truncate k) := by intro σ; rfl)
    (hreport : ∀ σ, (x σ).2.report = σ.report := by intro σ; rfl) : Limitless k x :=
  ⟨fun {σ} _ => htruncate σ, fun {σ} hσ => by rwa [hreport]⟩

theorem limitless_report {p : Problem} {span : Span} : Limitless k (report p span) := by
  refine ⟨fun {σ} hσ => ?_, fun hσ => hσ.add⟩
  have hadd := hσ.truncate_add (k := k) (d := .ofProblem p span)
  exact congrArg (fun r => (Except.ok (), { σ.truncate k with report := r })) hadd.symm

/-- The single steps of lowering do the same under every limit, and so does what they are put together
to. -/
theorem limitless : Compositional (Limitless k) where
  pure := .pure
  bind := .bind
  fail := .fail
  view hg := .view fun _ => hg rfl rfl rfl
  report := limitless_report
  emit _ := limitless_of_report
  emitConstant := limitless_of_report
  newLabel := limitless_of_report
  newMarkedLabel := limitless_of_report
  mark := limitless_of_report
  recordUse := limitless_of_report
  alloc := limitless_of_report
  declare := limitless_of_report
  bindArgument := limitless_of_report
  bindSlot := limitless_of_report
  inScope {_ kind x} hx := by
    refine ⟨fun {σ} hσ => ?_, fun {σ} hσ => hx.keeps (s := { σ with scopes := σ.scopes.enter kind }) hσ⟩
    have hinner := hx.commutes (s := { σ with scopes := σ.scopes.enter kind }) hσ
    exact congrArg (fun r => (r.1, { r.2 with scopes := r.2.scopes.leave })) hinner
  inPackage {_ id x} hx := by
    refine ⟨fun {σ} hσ => ?_, fun {σ} hσ => hx.keeps (s := { σ with package := id }) hσ⟩
    have hinner := hx.commutes (s := { σ with package := id }) hσ
    exact congrArg (fun r => (r.1, { r.2 with package := σ.package })) hinner
  onPackages := limitless_of_report
  mentionIn := limitless_of_report
  addDependency := limitless_of_report
  addModule := limitless_of_report
  addExport hname := by
    refine .bind (.view fun _ => rfl) fun found => ?_
    cases found with
    | none => exact .fail
    | some position =>
        exact .bind (.view fun _ => hname rfl rfl rfl) fun absolute => limitless_of_report
  checkpoint hx := by
    refine .bind (.view fun _ => rfl) fun on => ?_
    cases on with
    | false => exact hx
    | true => exact .bind limitless_of_report fun _ => hx

end Lower

/-! ### Compilations -/

/-- The error with the first `k` diagnostics only; with all of them if `k` is zero. -/
def CompileError.truncate (k : Nat) : CompileError → CompileError
  | .rejected diagnostics => .rejected (if k = 0 then diagnostics else diagnostics.take k)
  | .fault f => .fault f

theorem Session.start_truncate {name : String} {checkpoints : Bool} {k : Nat} :
    (Session.start name { checkpoints, maxErrors := 0 }).truncate k =
      Session.start name { checkpoints, maxErrors := k } := by
  by_cases hk : k = 0 <;> simp [Session.start, Session.truncate, Report.truncate, hk]

theorem Session.finish_truncate {k : Nat} {σ : Session} (hσ : σ.report.Unlimited) :
    (σ.truncate k).finish = σ.finish.mapError (CompileError.truncate k) := by
  have hempty : (σ.truncate k).report.isEmpty = σ.report.isEmpty := hσ.isEmpty_truncate
  -- The tables of the unit are drawn up from what truncating leaves alone.
  have hentry : (σ.truncate k).entryPoints = σ.entryPoints := rfl
  have hdraft : (σ.truncate k).draft = σ.draft := rfl
  unfold Session.finish
  rw [hempty, hentry, hdraft]
  split
  · cases σ.entryPoints with
    | error f => rfl
    | ok subroutines => cases σ.draft.finish <;> rfl
  · show Except.error (CompileError.rejected _) = .error (CompileError.truncate k (.rejected _))
    by_cases hk : k = 0 <;> simp [CompileError.truncate, Session.truncate, Report.truncate, hk]

/-- A compilation under a limit is the one without a limit, its diagnostics truncated. -/
theorem compile_limited (name : String) (checkpoints : Bool) (k : Nat) (p : Program) :
    compile name { checkpoints, maxErrors := k } p =
      (compile name { checkpoints, maxErrors := 0 } p).mapError (CompileError.truncate k) := by
  have hprogram : Lower.Limitless k (Lower.lowerProgram p) := Lower.limitless.self.program
  have hstart : (Session.start name { checkpoints, maxErrors := 0 }).report.Unlimited := ⟨rfl, rfl⟩
  have hrun := hprogram.commutes hstart
  have hkept := hprogram.keeps hstart
  rw [Session.start_truncate] at hrun
  unfold compile Step.run
  rw [hrun]
  rcases hr : Lower.lowerProgram p (Session.start name { checkpoints, maxErrors := 0 }) with ⟨f | ⟨⟩, σ⟩
  · rfl
  · rw [hr] at hkept
    exact Session.finish_truncate hkept

/-- **The limit on diagnostics only truncates.**  Under every limit the same programs have units, and the
same ones; the same programs end in faults, and the same ones; and of the other programs the diagnostics
are the first of those there are without a limit, in the same order and as many as the limit allows. -/
theorem compile_truncates (name : String) (checkpoints : Bool) (k : Nat) (p : Program) :
    (∀ u, compile name { checkpoints, maxErrors := k } p = .ok u ↔
      compile name { checkpoints, maxErrors := 0 } p = .ok u) ∧
    (∀ f, compile name { checkpoints, maxErrors := k } p = .error (.fault f) ↔
      compile name { checkpoints, maxErrors := 0 } p = .error (.fault f)) ∧
    (∀ ds, compile name { checkpoints, maxErrors := k } p = .error (.rejected ds) ↔
      ∃ found, compile name { checkpoints, maxErrors := 0 } p = .error (.rejected found) ∧
        ds = found.take (if k = 0 then found.length else min k found.length)) := by
  rw [compile_limited name checkpoints k p]
  cases hall : compile name { checkpoints, maxErrors := 0 } p with
  | ok u =>
      have hunit : (Except.ok u).mapError (CompileError.truncate k) = .ok u := rfl
      simp [hunit]
  | error e =>
      have herror : (Except.error e : Except CompileError CompiledUnit).mapError (CompileError.truncate k) =
          .error (e.truncate k) := rfl
      rw [herror]
      cases e with
      | fault f => simp [CompileError.truncate]
      | rejected found =>
          refine ⟨by simp, by simp [CompileError.truncate], fun ds => ?_⟩
          have htake : (if k = 0 then found else found.take k) =
              found.take (if k = 0 then found.length else min k found.length) := by
            by_cases hk : k = 0
            · simp [hk]
            · simp [hk, List.take_eq_take_min]
          simp [CompileError.truncate, htake, eq_comm]

end StackScript
