import SymbolicAlgebra.Numeric.Newton

/-!
# Setting up a solver

A setup checks its arguments one after the other and assigns what it has checked before it looks at
the next argument. A refusal therefore leaves whatever was assigned up to there: a system is in place
when its parameters are refused, and a tolerance when the limit of iterations is.

Results:
* `setParameters_error`, `setSystem_error`: the ways in which a setup is refused, with the solver that
  each of them leaves.
* `refused_setup_unchanged_iff`: a refused setup changes nothing iff nothing new was accepted before the
  refusal; the log level and everything that is no argument of the setup stay in any case.
-/

namespace SymbolicAlgebra.Numeric.Newton

/-! ## What a setup accepts -/

/-- The tolerance that is given, if any, is a number that is not negative. -/
def ToleranceAccepted (tolerance : Option Float) : Prop :=
  ∀ t ∈ tolerance, t ≥ 0

/-- The log level that is given, if any, is the name of one. -/
def LogLevelAccepted (logLevel : Option String) : Prop :=
  ∀ level ∈ logLevel, ∃ filter, LogLevel.parse (some level) = .ok filter

/-- A system that a solver takes: there are equations, and a guess for each of the variables. -/
structure WellPosed (system unknowns : List Expr) (guess : Array Float) : Prop where
  system_ne_nil : system ≠ []
  unknowns_ne_nil : unknowns ≠ []
  size_guess : guess.size = unknowns.length
  isVar : ∀ u ∈ unknowns, u.isVar = true

/-- The solver with another system. -/
def withSystem (s : Newton) (system unknowns : List Expr) (guess : Array Float) : Newton :=
  { s with
    system := system
    unknowns := unknowns
    guess := guess
    shift := Array.replicate system.length 0 }

/-- The solver with the tolerance that is given, if any. -/
def withTolerance (s : Newton) (tolerance : Option Float) : Newton :=
  { s with tolerance := tolerance.getD s.tolerance }

/-- The solver with the limit of iterations that is given, if any. -/
def withMaxIterations (s : Newton) (maxIterations : Option Nat) : Newton :=
  { s with maxIterations := maxIterations.getD s.maxIterations }

section Refusals

variable (s : Newton)

/-- How setting the parameters is refused, with the solver that is left. -/
inductive ParametersRefused (tolerance : Option Float) (maxIterations : Option Nat)
    (logLevel : Option String) : Newton → Prop
  | tolerance : ¬ ToleranceAccepted tolerance → ParametersRefused tolerance maxIterations logLevel s
  | maxIterations : ToleranceAccepted tolerance → maxIterations = some 0 →
      ParametersRefused tolerance maxIterations logLevel (s.withTolerance tolerance)
  | logLevel : ToleranceAccepted tolerance → maxIterations ≠ some 0 → ¬ LogLevelAccepted logLevel →
      ParametersRefused tolerance maxIterations logLevel
        ((s.withTolerance tolerance).withMaxIterations maxIterations)

/-- How setting a system is refused, with the solver that is left. -/
inductive SystemRefused (system unknowns : List Expr) (guess : Array Float) (tolerance : Float)
    (maxIterations : Nat) : Newton → Prop
  | system : ¬ WellPosed system unknowns guess →
      SystemRefused system unknowns guess tolerance maxIterations s
  | tolerance : WellPosed system unknowns guess → ¬ tolerance ≥ 0 →
      SystemRefused system unknowns guess tolerance maxIterations (s.withSystem system unknowns guess)
  | maxIterations : WellPosed system unknowns guess → tolerance ≥ 0 → maxIterations = 0 →
      SystemRefused system unknowns guess tolerance maxIterations
        ((s.withSystem system unknowns guess).withTolerance (some tolerance))

end Refusals

/-! ## The checks one by one -/

section Checks

variable {s : Newton}

theorem toleranceAccepted_some {t : Float} : ToleranceAccepted (some t) ↔ t ≥ 0 :=
  ⟨fun h => h t rfl, fun h _ ht => Option.some.inj ht ▸ h⟩

theorem logLevelAccepted_none : LogLevelAccepted none := fun _ h => by cases h

theorem setTolerance_accepted {tolerance : Option Float} (h : ToleranceAccepted tolerance) :
    s.setTolerance tolerance = (.ok (), s.withTolerance tolerance) := by
  cases tolerance with
  | none => rfl
  | some t => exact if_pos (toleranceAccepted_some.mp h)

theorem setTolerance_refused {tolerance : Option Float} (h : ¬ ToleranceAccepted tolerance) :
    s.setTolerance tolerance = (refuse .negativeTolerance, s) := by
  cases tolerance with
  | none => exact absurd (fun _ ht => by cases ht) h
  | some t => exact if_neg fun ht => h (toleranceAccepted_some.mpr ht)

theorem setMaxIterations_accepted {maxIterations : Option Nat} (h : maxIterations ≠ some 0) :
    s.setMaxIterations maxIterations = (.ok (), s.withMaxIterations maxIterations) := by
  cases maxIterations with
  | none => rfl
  | some n => exact if_neg fun hn => h (congrArg some hn)

theorem setLogLevel_accepted {logLevel : Option String} (h : LogLevelAccepted logLevel) :
    (s.setLogLevel logLevel).1 = .ok () := by
  cases logLevel with
  | none => rfl
  | some level =>
    obtain ⟨filter, hparse⟩ := h level rfl
    simp only [setLogLevel, hparse]

theorem setLogLevel_refused {logLevel : Option String} (h : ¬ LogLevelAccepted logLevel) :
    (s.setLogLevel logLevel).2 = s := by
  cases logLevel with
  | none => rfl
  | some level =>
    cases hparse : LogLevel.parse (some level) with
    | ok filter => exact absurd (fun _ hl => Option.some.inj hl ▸ ⟨filter, hparse⟩) h
    | error cause => simp only [setLogLevel, hparse]

theorem find?_notVar_eq_none {unknowns : List Expr} :
    (unknowns.find? fun u => !u.isVar) = none ↔ ∀ u ∈ unknowns, u.isVar = true := by
  simp

theorem setSystem_wellPosed {system unknowns : List Expr} {guess : Array Float}
    (h : WellPosed system unknowns guess) (tolerance : Float) (maxIterations : Nat) :
    s.setSystem system unknowns guess tolerance maxIterations =
      (s.withSystem system unknowns guess).setParameters (some tolerance) (some maxIterations)
        none := by
  have hempty : ¬ (system.isEmpty || unknowns.isEmpty) = true := by
    simp [h.system_ne_nil, h.unknowns_ne_nil]
  rw [setSystem, if_neg hempty, if_neg (Decidable.not_not.mpr h.size_guess),
    find?_notVar_eq_none.mpr h.isVar]
  rfl

theorem setSystem_not_wellPosed {system unknowns : List Expr} {guess : Array Float}
    (h : ¬ WellPosed system unknowns guess) (tolerance : Float) (maxIterations : Nat) :
    (s.setSystem system unknowns guess tolerance maxIterations).2 = s := by
  unfold setSystem
  split
  · rfl
  · rename_i hempty
    split
    · rfl
    · rename_i hsize
      split
      · rfl
      · rename_i hfind
        simp only [Bool.or_eq_true, List.isEmpty_iff, not_or] at hempty
        exact absurd ⟨hempty.1, hempty.2, Decidable.not_not.mp hsize, find?_notVar_eq_none.mp hfind⟩ h

end Checks

/-! ## Whole setups -/

section Setups

variable {s : Newton} {cause : AlgebraError}

/-- **The ways in which parameters are refused.** -/
theorem setParameters_error {tolerance : Option Float} {maxIterations : Option Nat}
    {logLevel : Option String}
    (h : (s.setParameters tolerance maxIterations logLevel).1 = .error cause) :
    ParametersRefused s tolerance maxIterations logLevel
      (s.setParameters tolerance maxIterations logLevel).2 := by
  unfold setParameters at h ⊢
  by_cases htol : ToleranceAccepted tolerance
  · rw [setTolerance_accepted htol] at h ⊢
    by_cases hmax : maxIterations = some 0
    · subst hmax
      exact .maxIterations htol rfl
    · rw [andThen, setMaxIterations_accepted hmax, andThen] at h ⊢
      by_cases hlevel : LogLevelAccepted logLevel
      · rw [setLogLevel_accepted hlevel] at h
        cases h
      · rw [setLogLevel_refused hlevel]
        exact .logLevel htol hmax hlevel
  · rw [setTolerance_refused htol]
    exact .tolerance htol

/-- **The ways in which a system is refused.** -/
theorem setSystem_error {system unknowns : List Expr} {guess : Array Float} {tolerance : Float}
    {maxIterations : Nat}
    (h : (s.setSystem system unknowns guess tolerance maxIterations).1 = .error cause) :
    SystemRefused s system unknowns guess tolerance maxIterations
      (s.setSystem system unknowns guess tolerance maxIterations).2 := by
  by_cases hposed : WellPosed system unknowns guess
  · rw [setSystem_wellPosed hposed] at h ⊢
    have hrefused := setParameters_error h
    generalize ((s.withSystem system unknowns guess).setParameters _ _ _).2 = s' at hrefused ⊢
    cases hrefused with
    | tolerance htol => exact .tolerance hposed fun ht => htol (toleranceAccepted_some.mpr ht)
    | maxIterations htol hmax =>
      exact .maxIterations hposed (toleranceAccepted_some.mp htol) (Option.some.inj hmax)
    | logLevel _ _ hlevel => exact absurd logLevelAccepted_none hlevel
  · rw [setSystem_not_wellPosed hposed]
    exact .system hposed

end Setups

/-! ## What a refusal leaves -/

section Unchanged

variable {s s' : Newton}

theorem withTolerance_eq_self {tolerance : Option Float} :
    s.withTolerance tolerance = s ↔ tolerance.getD s.tolerance = s.tolerance :=
  ⟨congrArg Newton.tolerance, fun h => by rw [withTolerance, h]⟩

theorem withMaxIterations_eq_self {maxIterations : Option Nat} :
    s.withMaxIterations maxIterations = s ↔
      maxIterations.getD s.maxIterations = s.maxIterations :=
  ⟨congrArg Newton.maxIterations, fun h => by rw [withMaxIterations, h]⟩

/-- Refused parameters leave the solver as it was iff nothing new came before the one that is refused. -/
theorem ParametersRefused.eq_self_iff {tolerance : Option Float} {maxIterations : Option Nat}
    {logLevel : Option String} (h : ParametersRefused s tolerance maxIterations logLevel s') :
    s' = s ↔ ¬ ToleranceAccepted tolerance ∨
      (tolerance.getD s.tolerance = s.tolerance ∧
        (maxIterations = some 0 ∨ maxIterations.getD s.maxIterations = s.maxIterations)) := by
  cases h with
  | tolerance htol => exact ⟨fun _ => Or.inl htol, fun _ => rfl⟩
  | maxIterations htol hmax =>
    rw [withTolerance_eq_self]
    exact ⟨fun h => Or.inr ⟨h, Or.inl hmax⟩, fun h => (h.resolve_left (not_not_intro htol)).1⟩
  | logLevel htol hmax hlevel =>
    constructor
    · intro h
      exact Or.inr ⟨congrArg Newton.tolerance h, Or.inr (congrArg Newton.maxIterations h)⟩
    · intro h
      obtain ⟨htol', hmax'⟩ := h.resolve_left (not_not_intro htol)
      rw [withTolerance_eq_self.mpr htol']
      exact withMaxIterations_eq_self.mpr (hmax'.resolve_left hmax)

/-- A refused system leaves the solver as it was iff the system itself is refused, or it is the one
that the solver has, and nothing new came before the parameter that is refused. -/
theorem SystemRefused.eq_self_iff {system unknowns : List Expr} {guess : Array Float}
    {tolerance : Float} {maxIterations : Nat}
    (h : SystemRefused s system unknowns guess tolerance maxIterations s') :
    s' = s ↔ ¬ WellPosed system unknowns guess ∨
      (s.withSystem system unknowns guess = s ∧ (¬ tolerance ≥ 0 ∨ tolerance = s.tolerance)) := by
  cases h with
  | system hposed => exact ⟨fun _ => Or.inl hposed, fun _ => rfl⟩
  | tolerance hposed htol =>
    exact ⟨fun h => Or.inr ⟨h, Or.inl htol⟩, fun h => (h.resolve_left (not_not_intro hposed)).1⟩
  | maxIterations hposed htol hmax =>
    constructor
    · intro h
      have htol' : tolerance = s.tolerance := congrArg Newton.tolerance h
      -- with the tolerance it has already, the solver is the one with the other system
      have hsame : (s.withSystem system unknowns guess).withTolerance (some tolerance) =
          s.withSystem system unknowns guess := withTolerance_eq_self.mpr htol'
      exact Or.inr ⟨hsame.symm.trans h, Or.inr htol'⟩
    · intro h
      obtain ⟨hsystem, htol'⟩ := h.resolve_left (not_not_intro hposed)
      rw [hsystem]
      exact withTolerance_eq_self.mpr (htol'.resolve_left (not_not_intro htol))

theorem ParametersRefused.frame {tolerance : Option Float} {maxIterations : Option Nat}
    {logLevel : Option String} (h : ParametersRefused s tolerance maxIterations logLevel s') :
    s' = { s with tolerance := s'.tolerance, maxIterations := s'.maxIterations } := by
  cases h <;> rfl

theorem SystemRefused.frame {system unknowns : List Expr} {guess : Array Float} {tolerance : Float}
    {maxIterations : Nat} (h : SystemRefused s system unknowns guess tolerance maxIterations s') :
    s' = { s with
      system := s'.system
      unknowns := s'.unknowns
      guess := s'.guess
      shift := s'.shift
      tolerance := s'.tolerance } := by
  cases h <;> rfl

end Unchanged

/-- **When a refused setup changes nothing.** A refused system leaves the solver as it was iff the
system is refused itself, or is the one the solver has and the tolerance is refused or not new. Refused
parameters leave it as it was iff the tolerance is refused, or is not new and the limit of iterations
is refused or not new. The log level, the compiled functions and the last result stay in any case. -/
theorem refused_setup_unchanged_iff (s : Newton) :
    (∀ system unknowns guess tolerance maxIterations cause,
      (s.setSystem system unknowns guess tolerance maxIterations).1 = .error cause →
      let s' := (s.setSystem system unknowns guess tolerance maxIterations).2
      (s' = s ↔ ¬ WellPosed system unknowns guess ∨
        (s.withSystem system unknowns guess = s ∧ (¬ tolerance ≥ 0 ∨ tolerance = s.tolerance))) ∧
      s' = { s with
        system := s'.system
        unknowns := s'.unknowns
        guess := s'.guess
        shift := s'.shift
        tolerance := s'.tolerance }) ∧
    (∀ tolerance maxIterations logLevel cause,
      (s.setParameters tolerance maxIterations logLevel).1 = .error cause →
      let s' := (s.setParameters tolerance maxIterations logLevel).2
      (s' = s ↔ ¬ ToleranceAccepted tolerance ∨
        (tolerance.getD s.tolerance = s.tolerance ∧
          (maxIterations = some 0 ∨ maxIterations.getD s.maxIterations = s.maxIterations))) ∧
      s' = { s with tolerance := s'.tolerance, maxIterations := s'.maxIterations }) :=
  ⟨fun _ _ _ _ _ _ h => ⟨(setSystem_error h).eq_self_iff, (setSystem_error h).frame⟩,
    fun _ _ _ _ h => ⟨(setParameters_error h).eq_self_iff, (setParameters_error h).frame⟩⟩

/-- A system without equations is refused and changes nothing. A limit of 5 iterations beside a log
level that does not exist is refused and stays. -/
theorem refused_setup_unchanged_iff_new :
    (new.setSystem [] [] #[] 1 10).2 = new ∧
      (new.setParameters none (some 5) (some "loud")).2 ≠ new := by
  obtain ⟨hsystem, hparameters⟩ := refused_setup_unchanged_iff new
  refine ⟨(hsystem [] [] #[] 1 10 _ rfl).1.mpr (Or.inl fun h => h.system_ne_nil rfl), fun h => ?_⟩
  obtain htol | ⟨-, hmax⟩ := (hparameters none (some 5) (some "loud") _ rfl).1.mp h
  · exact htol fun _ ht => by cases ht
  · exact absurd hmax (by decide)

/-- A system that is refused for its limit of iterations is in place all the same. -/
theorem setSystem_noIterations :
    let x : Expr := .symbol "x"
    let p := new.setSystem [x] [x] #[0] 1 0
    (∃ cause, p.1 = .error cause) ∧ p.2.system = [x] := by
  intro x p
  have hposed : WellPosed [x] [x] #[0] := ⟨by simp, by simp, rfl, by simp [x, Expr.symbol, Expr.isVar]⟩
  have hp : p = (new.withSystem [x] [x] #[0]).setParameters (some 1) (some 0) none :=
    setSystem_wellPosed hposed 1 0
  rw [hp, setParameters]
  by_cases htol : ToleranceAccepted (some 1)
  · rw [setTolerance_accepted htol]
    exact ⟨⟨_, rfl⟩, rfl⟩
  · rw [setTolerance_refused htol]
    exact ⟨⟨_, rfl⟩, rfl⟩

end SymbolicAlgebra.Numeric.Newton
