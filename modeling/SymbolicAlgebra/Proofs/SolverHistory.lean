import SymbolicAlgebra.Proofs.Compilation
import SymbolicAlgebra.Proofs.SolverSetup

/-!
# Histories of a solver

A solver is set up, generated and run in any order and any number of times. It keeps the compiled
equations of the last generation and the answer of the last run that converged; neither a new system
nor a run without an answer clears them. So a run is refused only as long as nothing was generated, and
runs on the equations of the last generation whatever was set since.

Results:
* `iterate_ends`: how an iteration ends and what it changes, by induction on the steps that are left.
* `Records.perform`: what one call does to the compiled equations and the answer.
* `History.records`: the compiled equations are those of the last generation, and the answer is that of
  the last run that converged, after every history.
* `run_of_history`: when a run is refused, what it runs on otherwise, and what a failed run leaves.
-/

namespace SymbolicAlgebra.Numeric.Newton

/-! ## Calls and histories -/

/-- What is done with a solver. -/
inductive Call where
  | setSystem (system unknowns : List Expr) (guess : Array Float) (tolerance : Float)
      (maxIterations : Nat)
  | setParameters (tolerance : Option Float) (maxIterations : Option Nat) (logLevel : Option String)
  | generate (ctx : Context)
  | run

/-- The solver after a call. -/
def Call.perform : Call → Newton → Newton
  | setSystem system unknowns guess tolerance maxIterations, s =>
    (s.setSystem system unknowns guess tolerance maxIterations).2
  | setParameters tolerance maxIterations logLevel, s =>
    (s.setParameters tolerance maxIterations logLevel).2
  | generate ctx, s => (s.generate ctx).2
  | run, s => s.runFromGuess.2

/-- A new solver after a list of calls, the last one first, each with the solver it was made on. -/
inductive History : Newton → List (Newton × Call) → Prop
  | new : History new []
  | call {s : Newton} {h : List (Newton × Call)} (c : Call) :
      History s h → History (c.perform s) ((s, c) :: h)

/-- The equations that a call compiled: those of a generation that succeeded. -/
def compiled? : Newton × Call → Option (List Compiled)
  | (s, .generate ctx) =>
    match s.generate ctx with
    | (.ok (), s') => some s'.residuals
    | (.error _, _) => none
  | _ => none

/-- The answer that a call gave: that of a run that converged. -/
def answer? : Newton × Call → Option (Array Float)
  | (s, .run) => s.runFromGuess.1.toOption
  | _ => none

/-! ## What a run changes -/

/-- A change that leaves the system, the compiled equations and the last answer alone. -/
structure Keeps (s t : Newton) : Prop where
  system : t.system = s.system
  residuals : t.residuals = s.residuals
  result : t.result = s.result

theorem Keeps.refl (s : Newton) : Keeps s s := ⟨rfl, rfl, rfl⟩

theorem Keeps.trans {s t u : Newton} (hst : Keeps s t) (htu : Keeps t u) : Keeps s u :=
  ⟨htu.system.trans hst.system, htu.residuals.trans hst.residuals, htu.result.trans hst.result⟩

theorem keeps_evaluateAt (s : Newton) (x : Array Float) : Keeps s (s.evaluateAt x).2 := by
  unfold evaluateAt
  split
  · exact .refl s
  · dsimp only
    split <;> exact ⟨rfl, rfl, rfl⟩

/-- How an iteration ends: with an answer, which becomes the result, or with a failure that is no bad
argument and leaves the last result. -/
inductive Ends (s : Newton) : Step (Array Float) → Prop
  | converged {t : Newton} (x : Array Float) : Keeps s t → Ends s (t.converged x)
  | failed {t : Newton} {cause : AlgebraError} : Keeps s t → (∀ c, cause ≠ .invalidArgument c) →
      Ends s (.error cause, t)

theorem Keeps.ends {s t : Newton} (h : Keeps s t) {p : Step (Array Float)} (hp : Ends t p) :
    Ends s p := by
  cases hp with
  | converged x hkeeps => exact .converged x (h.trans hkeeps)
  | failed hkeeps hcause => exact .failed (h.trans hkeeps) hcause

theorem evaluateAt_error {s : Newton} {x : Array Float} {cause : AlgebraError}
    (h : (s.evaluateAt x).1 = .error cause) : cause = .outOfShape := by
  unfold evaluateAt at h
  split at h
  · exact (Except.error.inj h).symm
  · dsimp only at h
    split at h
    · cases h
    · rename_i hresidual
      unfold residualAt at hresidual
      split at hresidual
      · cases hresidual
      · exact (Except.error.inj h).symm.trans (Except.error.inj hresidual).symm

theorem direction?_error {s : Newton} {cause : AlgebraError} (h : s.direction? = .error cause) :
    cause = .outOfShape := by
  unfold direction? at h
  dsimp only at h
  split at h
  · exact (Except.error.inj h).symm
  · split at h
    · cases h
    · split at h
      · cases h
      · exact (Except.error.inj h).symm

theorem advance_error {s : Newton} {x : Array Float} {cause : AlgebraError}
    (h : s.advance x = .error cause) : ∀ c, cause ≠ .invalidArgument c := by
  rintro c rfl
  unfold advance at h
  cases hdirection : s.direction? with
  | error cause =>
    rw [hdirection] at h
    cases (direction?_error hdirection).symm.trans (Except.error.inj h)
  | ok dx? =>
    rw [hdirection] at h
    cases dx? with
    | none => cases h
    | some dx =>
      change (if _ then _ else if _ then _ else _) = _ at h
      split at h
      · cases h
      · split at h
        · cases h
        · cases h

/-- What follows the evaluation at a point starts from a solver with the same system, compiled equations
and answer. -/
theorem ends_evaluateAt {s : Newton} {x : Array Float} {next : Unit → Newton → Step (Array Float)}
    (h : ∀ t, Keeps s t → Ends s (next () t)) : Ends s (andThen (s.evaluateAt x) next) := by
  have hkeeps := keeps_evaluateAt s x
  have herror := @evaluateAt_error s x
  generalize s.evaluateAt x = p at hkeeps herror ⊢
  obtain ⟨cause | _, t⟩ := p
  · exact .failed hkeeps fun c hc => by cases (herror rfl).symm.trans hc
  · exact h t hkeeps

/-- **How an iteration ends**, by induction on the steps that are left. -/
theorem iterate_ends (left : Nat) (s : Newton) (x : Array Float) : Ends s (iterate left s x) := by
  induction left generalizing s x with
  | zero =>
    refine ends_evaluateAt fun t ht => ?_
    split
    · exact .converged x ht
    · exact .failed ht fun c hc => by cases hc
  | succ left ih =>
    refine ends_evaluateAt fun t ht => ?_
    split
    · exact .failed ht fun c hc => by cases hc
    · split
      · exact .converged x ht
      · split
        · have hnext : Keeps t { t with iterations := t.iterations + 1 } := ⟨rfl, rfl, rfl⟩
          exact (ht.trans hnext).ends (ih _ _)
        · rename_i hadvance
          exact .failed ht (advance_error hadvance)

/-- A run without compiled equations is refused; any other one is an iteration. -/
theorem runFromGuess_cases (s : Newton) :
    (s.residuals = [] ∧ s.runFromGuess = (refuse .notGenerated, s)) ∨
      (s.residuals ≠ [] ∧ Ends s s.runFromGuess) := by
  unfold runFromGuess
  split
  · rename_i hempty
    exact Or.inl ⟨List.isEmpty_iff.mp hempty, rfl⟩
  · rename_i hempty
    have hstart : Keeps s { s with iterations := 0 } := ⟨rfl, rfl, rfl⟩
    exact Or.inr ⟨fun h => hempty (List.isEmpty_iff.mpr h),
      hstart.ends (iterate_ends s.maxIterations _ s.guess)⟩

/-! ## What the other calls change -/

theorem keeps_andThen {α β : Type} {s : Newton} {first : Step α} {next : α → Newton → Step β}
    (hfirst : Keeps s first.2) (hnext : ∀ a t, Keeps t (next a t).2) :
    Keeps s (andThen first next).2 := by
  obtain ⟨_ | a, t⟩ := first
  · exact hfirst
  · exact hfirst.trans (hnext a t)

theorem keeps_setTolerance (s : Newton) (tolerance : Option Float) :
    Keeps s (s.setTolerance tolerance).2 := by
  by_cases h : ToleranceAccepted tolerance
  · rw [setTolerance_accepted h]
    exact ⟨rfl, rfl, rfl⟩
  · rw [setTolerance_refused h]
    exact .refl s

theorem keeps_setMaxIterations (s : Newton) (maxIterations : Option Nat) :
    Keeps s (s.setMaxIterations maxIterations).2 := by
  by_cases h : maxIterations = some 0
  · subst h
    exact .refl s
  · rw [setMaxIterations_accepted h]
    exact ⟨rfl, rfl, rfl⟩

theorem keeps_setLogLevel (s : Newton) (logLevel : Option String) :
    Keeps s (s.setLogLevel logLevel).2 := by
  cases logLevel with
  | none => exact .refl s
  | some level =>
    unfold setLogLevel
    dsimp only
    split <;> exact ⟨rfl, rfl, rfl⟩

theorem keeps_setParameters (s : Newton) (tolerance : Option Float) (maxIterations : Option Nat)
    (logLevel : Option String) : Keeps s (s.setParameters tolerance maxIterations logLevel).2 :=
  keeps_andThen (keeps_setTolerance s tolerance) fun _ t =>
    keeps_andThen (keeps_setMaxIterations t maxIterations) fun _ u => keeps_setLogLevel u logLevel

/-- A system, once there is one, is only replaced by another that has equations. -/
theorem setSystem_changes (s : Newton) (system unknowns : List Expr) (guess : Array Float)
    (tolerance : Float) (maxIterations : Nat) :
    let t := (s.setSystem system unknowns guess tolerance maxIterations).2
    t.residuals = s.residuals ∧ t.result = s.result ∧ (t.system = [] → s.system = []) := by
  intro t
  by_cases hposed : WellPosed system unknowns guess
  · have hkeeps : Keeps (s.withSystem system unknowns guess) t := by
      simp only [t, setSystem_wellPosed hposed]
      exact keeps_setParameters _ _ _ _
    exact ⟨hkeeps.residuals, hkeeps.result, fun h =>
      absurd (hkeeps.system.symm.trans h) hposed.system_ne_nil⟩
  · have ht : t = s := setSystem_not_wellPosed hposed tolerance maxIterations
    rw [ht]
    exact ⟨rfl, rfl, id⟩

/-- There is code exactly where there are equations. -/
theorem compileResiduals_eq_nil_iff {s : Newton} {ctx : Context} {residuals : List Compiled}
    (h : s.compileResiduals ctx = .ok residuals) : residuals = [] ↔ s.system = [] := by
  unfold compileResiduals at h
  cases hsystem : s.system with
  | nil =>
    rw [hsystem] at h
    exact ⟨fun _ => rfl, fun _ => (Except.ok.inj h).symm⟩
  | cons f fs =>
    refine ⟨fun hnil => ?_, fun hcons => by cases hcons⟩
    rw [hsystem, List.mapM_cons, hnil] at h
    obtain ⟨code, -, h⟩ := Compiler.exists_of_bind_eq_ok h
    obtain ⟨codes, -, h⟩ := Compiler.exists_of_bind_eq_ok h
    cases h

/-- A generation that succeeds replaces the compiled equations by those of the system, and one that
fails leaves them. -/
theorem generate_cases (s : Newton) (ctx : Context) :
    (∃ cause t, s.generate ctx = (.error cause, t) ∧ Keeps s t) ∨
    ∃ t, s.generate ctx = (.ok (), t) ∧ s.compileResiduals ctx = .ok t.residuals ∧
      t.system = s.system ∧ t.result = s.result := by
  unfold generate
  cases s.compileDerivatives ctx with
  | error cause => exact Or.inl ⟨cause, s, rfl, .refl s⟩
  | ok derivatives =>
    have hresiduals : compileResiduals { s with derivatives := derivatives } ctx =
        s.compileResiduals ctx := rfl
    simp only [hresiduals]
    cases s.compileResiduals ctx with
    | error cause => exact Or.inl ⟨cause, _, rfl, rfl, rfl, rfl⟩
    | ok residuals => exact Or.inr ⟨_, rfl, rfl, rfl, rfl⟩

/-! ## What a solver records -/

/-- The records of a solver after a history: its compiled equations are those of the last generation
that succeeded, its result is the answer of the last run that converged, and where there are compiled
equations there is a system. -/
structure Records (s : Newton) (h : List (Newton × Call)) : Prop where
  residuals : s.residuals = (h.findSome? compiled?).getD []
  result : s.result = h.findSome? answer?
  posed : s.system = [] → s.residuals = []

/-- A call that compiles nothing and answers nothing leaves the records as they are. -/
theorem Records.cons {s t : Newton} {h : List (Newton × Call)} {e : Newton × Call}
    (hs : Records s h) (hcompiled : compiled? e = none) (hanswer : answer? e = none)
    (hresiduals : t.residuals = s.residuals) (hresult : t.result = s.result)
    (hsystem : t.system = [] → s.system = []) : Records t (e :: h) where
  residuals := by rw [hresiduals, hs.residuals, List.findSome?_cons_of_isNone (by simp [hcompiled])]
  result := by rw [hresult, hs.result, List.findSome?_cons_of_isNone (by simp [hanswer])]
  posed h := hresiduals.trans (hs.posed (hsystem h))

/-- **The records after one more call.** -/
theorem Records.perform {s : Newton} {h : List (Newton × Call)} (hs : Records s h) (c : Call) :
    Records (c.perform s) ((s, c) :: h) := by
  cases c with
  | setSystem system unknowns guess tolerance maxIterations =>
    obtain ⟨hresiduals, hresult, hsystem⟩ :=
      setSystem_changes s system unknowns guess tolerance maxIterations
    exact hs.cons rfl rfl hresiduals hresult hsystem
  | setParameters tolerance maxIterations logLevel =>
    have hkeeps := keeps_setParameters s tolerance maxIterations logLevel
    exact hs.cons rfl rfl hkeeps.residuals hkeeps.result hkeeps.system.symm.trans
  | generate ctx =>
    obtain ⟨cause, t, heq, hkeeps⟩ | ⟨t, heq, hcode, hsystem, hresult⟩ := generate_cases s ctx
    · have hperform : (Call.generate ctx).perform s = t := congrArg Prod.snd heq
      rw [hperform]
      exact hs.cons (by simp only [compiled?, heq]) rfl hkeeps.residuals hkeeps.result
        hkeeps.system.symm.trans
    · have hperform : (Call.generate ctx).perform s = t := congrArg Prod.snd heq
      have hcompiled : compiled? (s, .generate ctx) = some t.residuals := by
        simp only [compiled?, heq]
      rw [hperform]
      refine ⟨?_, ?_, fun hnil => (compileResiduals_eq_nil_iff hcode).mpr (hsystem.symm.trans hnil)⟩
      · rw [List.findSome?_cons, hcompiled]
        rfl
      · rw [hresult, hs.result]
        rfl
  | run =>
    have hanswer : answer? (s, Call.run) = s.runFromGuess.1.toOption := rfl
    have hperform : Call.run.perform s = s.runFromGuess.2 := rfl
    obtain ⟨-, heq⟩ | ⟨-, hends⟩ := runFromGuess_cases s
    · rw [heq] at hanswer hperform
      rw [hperform]
      exact hs.cons rfl hanswer rfl rfl id
    · generalize s.runFromGuess = p at hends hanswer hperform
      rw [hperform]
      cases hends with
      | converged x hkeeps =>
        refine ⟨hkeeps.residuals.trans hs.residuals, ?_, fun hnil =>
          hkeeps.residuals.trans (hs.posed (hkeeps.system.symm.trans hnil))⟩
        rw [List.findSome?_cons, hanswer]
        rfl
      | failed hkeeps _ =>
        exact hs.cons rfl hanswer hkeeps.residuals hkeeps.result hkeeps.system.symm.trans

/-- **The records after every history**, by induction on its calls. -/
theorem History.records {s : Newton} {h : List (Newton × Call)} (hs : History s h) :
    Records s h := by
  induction hs with
  | new => exact ⟨rfl, rfl, fun _ => rfl⟩
  | call c _ ih => exact ih.perform c

/-! ## When a run is refused -/

/-- Some generation succeeded on a system with equations. -/
def Generated (h : List (Newton × Call)) : Prop :=
  ∃ t ctx, (t, Call.generate ctx) ∈ h ∧ (t.generate ctx).1 = .ok () ∧ t.system ≠ []

theorem generated_cons {s : Newton} {c : Call} {h : List (Newton × Call)} :
    Generated ((s, c) :: h) ↔
      (∃ ctx, c = .generate ctx ∧ (s.generate ctx).1 = .ok () ∧ s.system ≠ []) ∨ Generated h := by
  constructor
  · rintro ⟨t, ctx, hmem, hok, hne⟩
    rcases List.mem_cons.mp hmem with heq | hmem
    · obtain ⟨rfl, rfl⟩ := Prod.mk.inj heq
      exact Or.inl ⟨ctx, rfl, hok, hne⟩
    · exact Or.inr ⟨t, ctx, hmem, hok, hne⟩
  · rintro (⟨ctx, rfl, hok, hne⟩ | ⟨t, ctx, hmem, hok, hne⟩)
    · exact ⟨s, ctx, List.mem_cons_self, hok, hne⟩
    · exact ⟨t, ctx, List.mem_cons_of_mem _ hmem, hok, hne⟩

/-- Equations are compiled by a generation that succeeds, and are none where the system has none. -/
theorem compiled?_cases (s : Newton) (c : Call) :
    (compiled? (s, c) = none ∧ ∀ ctx, c = .generate ctx → (s.generate ctx).1 ≠ .ok ()) ∨
    ∃ ctx code, c = .generate ctx ∧ (s.generate ctx).1 = .ok () ∧ compiled? (s, c) = some code ∧
      (code = [] ↔ s.system = []) := by
  cases c with
  | generate ctx =>
    obtain ⟨cause, t, heq, -⟩ | ⟨t, heq, hcode, -, -⟩ := generate_cases s ctx
    · refine Or.inl ⟨by simp only [compiled?, heq], fun ctx' hctx => ?_⟩
      rw [← Call.generate.inj hctx, heq]
      intro h
      cases h
    · exact Or.inr ⟨ctx, t.residuals, rfl, by rw [heq], by simp only [compiled?, heq],
        compileResiduals_eq_nil_iff hcode⟩
  | _ => exact Or.inl ⟨rfl, fun ctx hctx => by cases hctx⟩

/-- **There are compiled equations once a generation succeeded on a system with equations**, by
induction on the history. -/
theorem History.residuals_ne_nil_iff {s : Newton} {h : List (Newton × Call)} (hs : History s h) :
    s.residuals ≠ [] ↔ Generated h := by
  induction hs with
  | new => exact ⟨fun h => absurd rfl h, fun ⟨_, _, hmem, _⟩ => by cases hmem⟩
  | @call s h c hs ih =>
    have hbefore := hs.records
    have hafter := (hbefore.perform c).residuals
    rw [List.findSome?_cons] at hafter
    rw [generated_cons, ← ih]
    obtain ⟨hnone, hgenerate⟩ | ⟨ctx, code, rfl, hok, hsome, hcode⟩ := compiled?_cases s c
    · rw [hnone] at hafter
      have hsame : (c.perform s).residuals = s.residuals := hafter.trans hbefore.residuals.symm
      rw [hsame]
      exact ⟨Or.inr, fun h => h.resolve_left fun ⟨ctx, hc, hok, _⟩ => hgenerate ctx hc hok⟩
    · rw [hsome] at hafter
      have hsame : ((Call.generate ctx).perform s).residuals = code := hafter
      rw [hsame, Ne, hcode]
      refine ⟨fun hne => Or.inl ⟨ctx, rfl, hok, hne⟩, fun h => ?_⟩
      rcases h with ⟨_, -, -, hne⟩ | hne
      · exact hne
      · exact fun hnil => hne (hbefore.posed hnil)

theorem Ends.ne_refuse {s : Newton} {p : Step (Array Float)} (h : Ends s p) (cause : BadArgument) :
    p.1 ≠ refuse cause := by
  cases h with
  | converged x _ => exact fun h => by cases h
  | failed _ hcause => exact fun h => hcause cause (Except.error.inj h)

theorem Ends.result_of_error {s : Newton} {p : Step (Array Float)} (h : Ends s p)
    {cause : AlgebraError} (hp : p.1 = .error cause) : p.2.result = s.result := by
  cases h with
  | converged x _ => cases hp
  | failed hkeeps _ => exact hkeeps.result

/-- **What a run does after any history.** It is refused iff no generation succeeded so far on a system
with equations. Otherwise it runs on the equations of the last generation that succeeded, whatever
system was set since. The result is the answer of the last run that converged, and a run that fails
leaves it. -/
theorem run_of_history {s : Newton} {h : List (Newton × Call)} (hs : History s h) :
    ((∃ cause, s.runFromGuess.1 = refuse cause) ↔ ¬ Generated h) ∧
      s.residuals = (h.findSome? compiled?).getD [] ∧
      s.result = h.findSome? answer? ∧
      ∀ cause, s.runFromGuess.1 = .error cause → s.runFromGuess.2.result = s.result := by
  refine ⟨?_, hs.records.residuals, hs.records.result, fun cause hcause => ?_⟩
  · rw [← hs.residuals_ne_nil_iff]
    obtain ⟨hnil, heq⟩ | ⟨hne, hends⟩ := runFromGuess_cases s
    · rw [heq]
      exact ⟨fun _ h => h hnil, fun _ => ⟨_, rfl⟩⟩
    · exact ⟨fun ⟨cause, hcause⟩ => absurd hcause (hends.ne_refuse cause), fun h => absurd hne h⟩
  · obtain ⟨-, heq⟩ | ⟨-, hends⟩ := runFromGuess_cases s
    · rw [heq]
    · exact hends.result_of_error hcause

/-- A system is set, a run is tried, and another system is set: nothing was generated, so a second run
is refused like the first, and there is no result. -/
theorem run_of_history_ungenerated :
    let x : Expr := .symbol "x"
    let first := (Call.setSystem [x] [x] #[0] 1 10).perform new
    let s := (Call.setSystem [x * x] [x] #[1] 1 10).perform (Call.run.perform first)
    (∃ cause, s.runFromGuess.1 = refuse cause) ∧ s.runFromGuess.2.result = none := by
  intro x first s
  have hfirst : History first [(new, .setSystem [x] [x] #[0] 1 10)] := History.new.call _
  have hs : History s [(Call.run.perform first, .setSystem [x * x] [x] #[1] 1 10), (first, .run),
      (new, .setSystem [x] [x] #[0] 1 10)] := (hfirst.call .run).call _
  obtain ⟨_, hanswer⟩ := (run_of_history hfirst).1.mpr fun ⟨_, _, hmem, _⟩ => by simp at hmem
  obtain ⟨hrefused, -, hresult, hfailed⟩ := run_of_history hs
  obtain ⟨cause, hcause⟩ := hrefused.mpr fun ⟨_, _, hmem, _⟩ => by simp at hmem
  refine ⟨⟨cause, hcause⟩, (hfailed _ hcause).trans ?_⟩
  have hnone : answer? (first, .run) = none := by
    simp only [answer?, hanswer]
    rfl
  rw [hresult, List.findSome?_cons_of_isNone rfl, List.findSome?_cons_of_isNone (by rw [hnone]; rfl)]
  rfl

end SymbolicAlgebra.Numeric.Newton
