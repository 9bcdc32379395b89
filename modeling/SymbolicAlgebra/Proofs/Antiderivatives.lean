import SymbolicAlgebra.Proofs.Integration

/-!
# Differentiation undoes integration

The derivative of a collected sum of powers, logarithms and waves is again such a sum: sums, products
and powers are differentiated by their rules, calls by the one rule of the table that is for their
function, whose result contains the derivative of the argument as a call of `D` that evaluation
carries out. Replacing every integrand by its antiderivative and every generator by its derivative
gives the multiples back that were integrated, and collected sums of the same combination are equal.

Results:
* `visit_term`: the derivative of a term.
* `differentiate_collected`: the derivative of a collected sum.
* `differentiate_integrate`: the derivative of the integral of `f` is what `f` is evaluated to.
-/

namespace SymbolicAlgebra

open Expr Evaluator Attempt

/-- The derivative of a generator, as a multiple of a generator. -/
def Generator.derivative : Generator → Rat × Generator
  | power n => (n, .power (n - 1))
  | log => (1, .power (-1))
  | wave .exp a => (a.1, .wave .exp a)
  | wave .sin a => (a.1, .wave .cos a)
  | wave .cos a => (-a.1, .wave .sin a)

namespace Derivative

/-! ## Terms -/

section Terms

variable {ctx : Context} {x : String} {k : Generator}

/-- What the differentiation by a variable does not change. -/
def settingsFor (ctx : Context) (x : String) : Derivative.Settings :=
  ⟨ctx, symbol x, .mk fun _ => Derivative.rules ctx⟩

theorem rules_settingsFor (ctx : Context) (x : String) :
    (settingsFor ctx x).rules.get = Derivative.rules ctx := rfl

theorem settle_gives {e r : Expr} {n : Nat} (h : Evaluates ⟨ctx, []⟩ n e r) (hn : n ≤ 1000) :
    Agreement.settled.Gives (settle (settingsFor ctx x) e) r := by
  have hvalue : e.evaluateHolding [] ctx = r := evaluateHolding_of_outcome? h.outcome (le_depthFor hn e)
  change Except.ok (e.evaluateHolding [] ctx, []) = _
  rw [hvalue]

/-- The derivative is the visit, evaluated. -/
theorem differentiate_of_visit {f d r : Expr} {n : Nat}
    (hvisit : Agreement.settled.Gives (visit (settingsFor ctx x) f) d)
    (h : Evaluates ⟨ctx, []⟩ n d r) (hn : n ≤ 1000) :
    differentiate f (symbol x) ctx = .ok r := by
  have hrun : (visit (settingsFor ctx x) f).run [] = .ok (d, []) := hvisit
  have hvalue : d.evaluateHolding [] ctx = r :=
    evaluateHolding_of_outcome? h.outcome (le_depthFor hn d)
  rw [settingsFor] at hrun
  unfold differentiate
  dsimp only
  rw [hrun, ← hvalue]
  rfl

theorem visit_const (ctx : Context) (x : String) (q : Rat) :
    Agreement.settled.Gives (visit (settingsFor ctx x) (.const q)) (.const 0) := by
  unfold visit
  exact Agreement.settled.pure _

theorem visit_symbol (ctx : Context) (x : String) :
    Agreement.settled.Gives (visit (settingsFor ctx x) (symbol x)) (.const 1) := by
  unfold visit
  rw [show (symbol x == (settingsFor ctx x).x) = true from BEq.rfl, if_pos rfl]
  exact Agreement.settled.pure _

/-- The power rule. -/
theorem visit_pow (ctx : Context) (x : String) (n : Int) :
    Agreement.settled.Gives (visit (settingsFor ctx x) ((symbol x).pow n))
      (term x (n, .power (n - 1))) := by
  have hdepends : ((symbol x).pow n).dependsOn (settingsFor ctx x).x = true :=
    dependsOn_power (dependsOn_symbol x)
  have hexponent : power (symbol x) (.const ((n : Rat) - 1)) = (symbol x).pow (n - 1) := by
    rw [Expr.pow, int, Int.cast_sub, Int.cast_one]
  have hvalue := evaluates_between [(n : Rat)] [1] (.cons (evaluates_const ⟨ctx, []⟩ 1 n) .nil)
    (evaluates_power _ 0 x (n - 1)) (.cons (evaluates_const _ 1 1) .nil)
    (List.forall_mem_cons.mpr ⟨rfl, List.forall_mem_cons.mpr ⟨rfl, List.forall_mem_singleton.mpr rfl⟩⟩)
  rw [List.prod_singleton, List.prod_singleton, mul_one] at hvalue
  unfold visit
  rw [if_neg (show ¬ ((symbol x).pow n == (settingsFor ctx x).x) = true from Bool.false_ne_true),
    hdepends, Bool.not_true, if_neg Bool.false_ne_true]
  refine Agreement.settled.bind (visit_symbol ctx x) ?_
  rw [if_neg (show ¬ (int n).dependsOn (settingsFor ctx x).x = true from Bool.false_ne_true),
    constantPower, int, const_sub_one, hexponent]
  exact settle_gives hvalue (by decide)

/-- Calls are left to the table. -/
theorem visit_call {g : Elementary} {a r : Expr}
    (hdepends : (elementaryCall g a).dependsOn (symbol x) = true)
    (hrule : Agreement.settled.Gives (byRule (settingsFor ctx x) (elementaryCall g a)) r) :
    Agreement.settled.Gives (visit (settingsFor ctx x) (elementaryCall g a)) r := by
  have hother : ¬ (elementaryCall g a == (settingsFor ctx x).x) = true := Bool.false_ne_true
  have hdep : (elementaryCall g a).dependsOn (settingsFor ctx x).x = true := hdepends
  unfold visit
  rw [if_neg hother, hdep, Bool.not_true, if_neg Bool.false_ne_true]
  exact hrule

/-- The derivative of a generator, if the table has it. -/
theorem visit_expr (hk : k ≠ .power 0) (hrule : (k.expr x).asCall?.isSome = true →
      Agreement.settled.Gives (byRule (settingsFor ctx x) (k.expr x)) (term x k.derivative)) :
    Agreement.settled.Gives (visit (settingsFor ctx x) (k.expr x)) (term x k.derivative) := by
  have hdepends := (Generator.isFactor_expr (x := x) hk).dependsOn
  cases k with
  | power n =>
    have h0 : n ≠ 0 := fun h => hk (congrArg Generator.power h)
    by_cases h1 : n = 1
    · have hone : term x (Generator.power 1).derivative = .const 1 := by
        rw [Generator.derivative, Int.cast_one, sub_self, term_power_zero]
      rw [h1, hone]
      exact visit_symbol ctx x
    · rw [Generator.expr_power h0 h1]
      exact visit_pow ctx x n
  | log => exact visit_call hdepends (hrule rfl)
  | wave w a => exact visit_call hdepends (hrule rfl)

/-- **The derivative of a term**, if the table has that of its generator. -/
theorem visit_term (hs : KeepsElementary ⟨ctx, []⟩) {p : Rat × Generator}
    (hrule : (p.2.expr x).asCall?.isSome = true →
      Agreement.settled.Gives (byRule (settingsFor ctx x) (p.2.expr x)) (term x p.2.derivative)) :
    Agreement.settled.Gives (visit (settingsFor ctx x) (term x p))
      (term x (scaleBy Generator.derivative p)) := by
  obtain ⟨q, k⟩ := p
  by_cases hk : k = .power 0
  · have hzero : term x (scaleBy Generator.derivative (q, .power 0)) = .const 0 := by
      rw [scaleBy, Generator.derivative, Int.cast_zero, mul_zero, term_zero]
    rw [hk, term_power_zero, hzero]
    exact visit_const ctx x q
  have hfactor := Generator.isFactor_expr (x := x) hk
  rw [term]
  rcases hfactor.productOf_cases q with ⟨rfl, h⟩ | ⟨rfl, h⟩ | h
  · rw [h, scaleBy, zero_mul, term_zero]
    exact visit_const ctx x 0
  · rw [h, scaleBy, one_mul]
    exact visit_expr hk hrule
  · have hdepends : (Expr.product [.const q, k.expr x]).dependsOn (settingsFor ctx x).x = true :=
      dependsOn_product (List.mem_cons_of_mem _ List.mem_cons_self) hfactor.dependsOn
    have hother : ¬ (Expr.product [.const q, k.expr x] == (settingsFor ctx x).x) = true :=
      Bool.false_ne_true
    have hproduct : productOf [.const q, term x k.derivative] =
        term x (scaleBy Generator.derivative (q, k)) := productOf_const_term q _
    dsimp only
    rw [h]
    unfold visit
    rw [if_neg hother, hdepends, Bool.not_true, if_neg Bool.false_ne_true]
    change Agreement.settled.Gives (visitProduct _ [.const q, k.expr x]) _
    unfold visitProduct
    refine Agreement.settled.bind (a := term x k.derivative) ?_ ?_
    · unfold visitProduct
      exact visit_expr hk hrule
    · rw [if_neg (show ¬ (Expr.const q).dependsOn (settingsFor ctx x).x = true from
        Bool.false_ne_true), hproduct]
      exact settle_gives (evaluates_term hs 0 x _) (by decide)

end Terms

/-! ## Sums of terms -/

section Sums

variable {ctx : Context} {x : String}

/-- Zero terms stand for nothing. -/
theorem coefficients_filter (x : String) (l : List (Rat × Generator)) :
    coefficients (l.filter fun p => !(term x p).isZero) = coefficients l := by
  induction l with
  | nil => rfl
  | cons p l ih =>
    rw [List.filter_cons]
    cases hzero : (term x p).isZero
    · rw [if_pos (by rfl), coefficients_cons, coefficients_cons, ih]
    · have hconst : term x p = .const 0 := by
        cases h : term x p with
        | const q =>
          rw [h] at hzero
          rw [show q = 0 from beq_iff_eq.mp hzero]
        | _ =>
          rw [h] at hzero
          cases hzero
      rw [if_neg (by simp), ih, coefficients_cons, single_of_term_eq_const hconst,
        Finsupp.single_zero, zero_add]

variable (hs : KeepsElementary ⟨ctx, []⟩)
  (hrules : ∀ k : Generator, (k.expr x).asCall?.isSome = true →
    Agreement.settled.Gives (byRule (settingsFor ctx x) (k.expr x)) (term x k.derivative))
include hs hrules

theorem visitTerms_terms (l : List (Rat × Generator)) :
    Agreement.settled.Gives (visitTerms (settingsFor ctx x) (l.map (term x)))
      (((l.map (scaleBy Generator.derivative)).filter fun p => !(term x p).isZero).map (term x)) := by
  induction l with
  | nil =>
    unfold visitTerms
    exact Agreement.settled.pure []
  | cons p l ih =>
    rw [List.map_cons, List.map_cons, List.filter_cons]
    unfold visitTerms
    refine Agreement.settled.bind (visit_term hs (hrules p.2)) (Agreement.settled.bind ih ?_)
    cases (term x (scaleBy Generator.derivative p)).isZero
    · exact Agreement.settled.pure _
    · exact Agreement.settled.pure _

/-- The derivative of a collected sum is a sum of the derivatives of its terms. -/
theorem visit_collected (l : List (Rat × Generator)) : ∃ l' : List (Rat × Generator),
    coefficients l' = coefficients (l.map (scaleBy Generator.derivative)) ∧
      Agreement.settled.Gives (visit (settingsFor ctx x) (collected x l))
        (sumOf (l'.map (term x))) := by
  obtain ⟨l₁, hl₁, hcoefficients⟩ := exists_collected x l
  obtain ⟨l₂, hl₂, hoperands⟩ := exists_operands (term_power_zero x) (fun _ => isSum_term)
    (fun _ _ => single_of_term_eq_const) l₁
  have hproper := proper_collected x l
  rw [coefficients_map_congr Generator.derivative (hcoefficients.symm.trans hoperands.symm)]
  rw [hl₁, hl₂] at hproper ⊢
  rcases nil_or_singleton_or_two_le l₂ with rfl | ⟨p, rfl⟩ | hlen
  · exact ⟨[], rfl, visit_const ctx x 0⟩
  · refine ⟨[scaleBy Generator.derivative p], rfl, ?_⟩
    rw [List.map_singleton, List.map_singleton, (proper_term x _).constructed.sumOf_singleton]
    exact visit_term hs (hrules p.2)
  · refine ⟨_, coefficients_filter x _, ?_⟩
    rw [ofTerms_of_two_le (by rwa [List.length_map])] at hproper ⊢
    obtain ⟨t, ht, hconst⟩ := hproper.constructed.exists_other
    have hdepends : (Expr.sum (l₂.map (term x))).dependsOn (settingsFor ctx x).x = true := by
      obtain ⟨p, -, rfl⟩ := List.mem_map.mp ht
      exact dependsOn_sum ht (by rw [settingsFor, dependsOn_term, hconst]; rfl)
    have hother : ¬ (Expr.sum (l₂.map (term x)) == (settingsFor ctx x).x) = true :=
      Bool.false_ne_true
    unfold visit
    rw [if_neg hother, hdepends, Bool.not_true, if_neg Bool.false_ne_true]
    exact Agreement.settled.map sumOf (visitTerms_terms hs hrules l₂)

/-- **The derivative of a collected sum** is the collected sum of the derivatives. -/
theorem differentiate_collected (l : List (Rat × Generator)) :
    differentiate (collected x l) (symbol x) ctx =
      .ok (collected x (l.map (scaleBy Generator.derivative))) := by
  obtain ⟨l', hl', hvisit⟩ := visit_collected hs hrules l
  rw [← collected_congr hl']
  exact differentiate_of_visit hvisit (evaluates_sumOf_terms hs 0 x l') (by decide)

end Sums

/-! ## The table -/

section Table

variable {v : String}

/-- The call of `D`. -/
def derivativeCall (f x : Expr) : Expr :=
  .call (.native .derivative) [f, x]

/-- The rule for an elementary function. -/
def chainRule (g : Elementary) (result : Expr) : Rule :=
  .plain (derivativeCall (elementaryCall g (symbol "u")) (symbol "x")) result

/-- The derivative of the inner function. -/
def innerDerivative : Expr :=
  derivativeCall (symbol "u") (symbol "x")

/-- The chain rule for a wave. -/
def waveChainRule (w : Wave) : Rule :=
  chainRule w.function <| match w with
    | .exp => elementaryCall .exp (symbol "u") * innerDerivative
    | .sin => elementaryCall .cos (symbol "u") * innerDerivative
    | .cos => -elementaryCall .sin (symbol "u") * innerDerivative

def logChainRule : Rule :=
  chainRule .ln (innerDerivative / symbol "u")

/-- Whether the operand of a rule may be a call of an elementary function. -/
def concerns (g : Elementary) (r : Rule) : Bool :=
  r.operand?.all (· == .native (.elementary g))

/-- **The table has one rule for each function.** -/
theorem exists_chainRules : ∃ rules : List Rule,
    Derivative.rules Namespace.standard.context =
      .ok (RuleSet.ofRules rules Namespace.standard.context) ∧
    (∀ w : Wave, rules.filter (concerns w.function) = [waveChainRule w]) ∧
    rules.filter (concerns .ln) = [logChainRule] := by
  refine ⟨_, rfl, fun w => ?_, rfl⟩
  cases w <;> rfl

/-- The rule for a function is the only one that gives anything. -/
theorem reduct?_of_filter {rules : List Rule} {ctx : Context} {g : Elementary} {r : Rule}
    (hfilter : rules.filter (concerns g) = [r]) {a result : Expr} {p : Rat × Generator}
    (hp : result = term v p)
    (h : r.reduct? (derivativeCall (elementaryCall g a) (symbol v)) ctx = some result) :
    (RuleSet.ofRules rules ctx).reduct? (derivativeCall (elementaryCall g a) (symbol v)) ctx =
      some result := by
  have hr : r ∈ rules.filter (concerns g) := hfilter ▸ List.mem_singleton_self r
  have hne : (result != derivativeCall (elementaryCall g a) (symbol v)) = true :=
    hp ▸ term_bne_call (f := .derivative) (fun g => by cases g <;> rfl) p _
  refine RuleSet.reduct?_ofRules (List.mem_filter.mp hr).1 h hne fun q hq => ?_
  by_cases hconcerns : concerns g q = true
  · have hqr : q ∈ rules.filter (concerns g) := List.mem_filter.mpr ⟨hq, hconcerns⟩
    rw [hfilter] at hqr
    exact .inl (List.mem_singleton.mp hqr)
  · obtain ⟨f, hf, hfg⟩ : ∃ f, q.operand? = some f ∧ (f == .native (.elementary g)) = false := by
      unfold concerns at hconcerns
      cases hoperand : q.operand? with
      | none => exact absurd (by rw [hoperand]; rfl) hconcerns
      | some f =>
        rw [hoperand] at hconcerns
        exact ⟨f, rfl, Bool.eq_false_iff.mpr hconcerns⟩
    exact .inr (Rule.reduct?_eq_none_of_operand hf hfg _)

/-- The chain rule for a function, with the argument in place. -/
theorem reduct?_chainRule (g : Elementary) (result a : Expr) (v : String) (ctx : Context) :
    (chainRule g result).reduct? (derivativeCall (elementaryCall g a) (symbol v)) ctx =
      some ((result.instantiate ⟨[(symbol "x", symbol v), (symbol "u", a)]⟩).evaluate ctx) := by
  have hmatch : ((elementaryCall g (symbol "u")).matching (elementaryCall g a) ctx).bindings?
      (variableBound v) = some ⟨[(symbol "x", symbol v), (symbol "u", a)]⟩ := by
    rw [bindings?_call_one, bindings?, run_matching_unbound rfl]
    rfl
  exact Rule.reduct?_of_operator rfl hmatch

/-- The derivative of a multiple of the variable is the factor. -/
theorem evaluates_derivativeCall (ns : Namespace) (c : Rat) (v : String) :
    Evaluates ⟨ns.context, []⟩ 3 (derivativeCall (multiple c v) (symbol v)) (.const c) := by
  obtain ⟨depth, happly⟩ := exists_apply_context ns
  have hvisit : Agreement.settled.Gives (visit (settingsFor (ns.contextTo depth) v) (multiple c v))
      (.const c) := by
    have h := visit_term (x := v) (p := (c, .power 1)) (keepsElementary_contextTo ns depth) nofun
    rwa [scaleBy, Generator.derivative, Int.cast_one, mul_one, sub_self, term_power_zero] at h
  have hdifferentiate := differentiate_of_visit hvisit (evaluates_const _ 0 c) (by decide)
  refine evaluates_call (.cons (evaluates_multiple _ 0 c v) (.cons (evaluates_symbol _ 1 v) .nil))
    rfl rfl ((happly _ _).trans ?_) (.const c)
  change ((differentiate (multiple c v) (symbol v) (ns.contextTo depth)).map some) = _
  rw [hdifferentiate]
  rfl

/-- A wave with the derivative of its argument and constants around it. -/
theorem evaluate_aroundWave {ns : Namespace} (v : String) (w : Wave) (a : {q : Rat // q ≠ 0})
    (cs ds : List Rat) {es fs : List Expr}
    (hes : List.Forall₂ (Evaluates ⟨ns.context, []⟩ 3) es (cs.map .const))
    (hfs : List.Forall₂ (Evaluates ⟨ns.context, []⟩ 3) fs (ds.map .const))
    (hflat : ∀ f ∈ es ++ fs, f.isProduct = false) :
    (productOf (es ++ (Generator.wave w a).expr v :: fs)).evaluate ns.context =
      term v (cs.prod * ds.prod, .wave w a) := by
  refine (evaluates_between cs ds hes (evaluates_expr (keepsElementary_context ns) 0 v _) hfs
    ?_).evaluate_eq (by decide)
  obtain ⟨hes, hfs⟩ := List.forall_mem_append.mp hflat
  exact List.forall_mem_append.mpr ⟨hes, List.forall_mem_cons.mpr ⟨rfl, hfs⟩⟩

/-- The derivative of a wave. -/
theorem evaluate_waveChainRule (ns : Namespace) (v : String) (w : Wave) (a : {q : Rat // q ≠ 0}) :
    ((waveChainRule w).result.instantiate
      ⟨[(symbol "x", symbol v), (symbol "u", multiple a v)]⟩).evaluate ns.context =
        term v (Generator.wave w a).derivative := by
  have hinner := evaluates_derivativeCall ns a.1 v
  cases w with
  | exp =>
    have hresult : (waveChainRule .exp).result =
        .product [innerDerivative, elementaryCall .exp (symbol "u")] := by cbv
    rw [hresult]
    have hvalue := evaluate_aroundWave v .exp a [a.1] []
      (.cons hinner .nil) .nil (List.forall_mem_singleton.mpr rfl)
    rw [List.prod_singleton, List.prod_nil, mul_one] at hvalue
    exact hvalue
  | sin =>
    have hresult : (waveChainRule .sin).result =
        .product [elementaryCall .cos (symbol "u"), innerDerivative] := by cbv
    rw [hresult]
    have hvalue := evaluate_aroundWave v .cos a [] [a.1]
      .nil (.cons hinner .nil) (List.forall_mem_singleton.mpr rfl)
    rw [List.prod_singleton, List.prod_nil, one_mul] at hvalue
    exact hvalue
  | cos =>
    have hresult : (waveChainRule .cos).result =
        .product [.const (-1), innerDerivative, elementaryCall .sin (symbol "u")] := by cbv
    rw [hresult]
    have hvalue := evaluate_aroundWave v .sin a [-1, a.1] []
      (.cons (evaluates_const _ 2 (-1)) (.cons hinner .nil)) .nil
      (List.forall_mem_cons.mpr ⟨rfl, List.forall_mem_singleton.mpr rfl⟩)
    rw [List.prod_pair, List.prod_nil, mul_one, neg_one_mul] at hvalue
    exact hvalue

/-- The derivative of the logarithm. -/
theorem evaluate_logChainRule (ns : Namespace) (v : String) :
    (logChainRule.result.instantiate ⟨[(symbol "x", symbol v), (symbol "u", symbol v)]⟩).evaluate
      ns.context = term v (1, .power (-1)) := by
  have hvariable : multiple 1 v = symbol v := term_one (k := .power 1) v
  have hinner := evaluates_derivativeCall ns 1 v
  rw [hvariable] at hinner
  have hresult : logChainRule.result =
      .product [power (symbol "u") (.const (-1)), innerDerivative] := by cbv
  have hvalue := evaluates_between [] [1] .nil (evaluates_power _ 1 v (-1)) (.cons hinner .nil)
    (List.forall_mem_cons.mpr ⟨rfl, List.forall_mem_singleton.mpr rfl⟩)
  rw [List.prod_nil, List.prod_singleton, mul_one] at hvalue
  rw [hresult]
  exact hvalue.evaluate_eq (by decide)

theorem asCall?_power (n : Int) (v : String) : ((Generator.power n).expr v).asCall? = none := by
  rw [Generator.expr]
  split
  · rfl
  · split <;> rfl

/-- **The table has the derivative of every call** among the generators. -/
theorem byRule_generator (x : String) {k : Generator} (hcall : (k.expr x).asCall?.isSome = true) :
    Agreement.settled.Gives (byRule (settingsFor Namespace.standard.context x) (k.expr x))
      (term x k.derivative) := by
  obtain ⟨rules, hrules, hwave, hlog⟩ := exists_chainRules
  have hreduct : (RuleSet.ofRules rules Namespace.standard.context).reduct?
      (derivativeCall (k.expr x) (symbol x)) Namespace.standard.context =
        some (term x k.derivative) := by
    cases k with
    | power n =>
      rw [asCall?_power] at hcall
      cases hcall
    | log =>
      refine reduct?_of_filter hlog rfl ((reduct?_chainRule .ln _ _ x _).trans ?_)
      exact congrArg some (evaluate_logChainRule .standard x)
    | wave w a =>
      refine reduct?_of_filter (hwave w) rfl ((reduct?_chainRule w.function _ _ x _).trans ?_)
      exact congrArg some (evaluate_waveChainRule .standard x w a)
  have hname : (settingsFor Namespace.standard.context x).context.call "D" [k.expr x, symbol x] =
      .ok (derivativeCall (k.expr x) (symbol x)) := rfl
  refine Agreement.settled.bind (a := derivativeCall (k.expr x) (symbol x)) ?_
    (Agreement.settled.bind (a := RuleSet.ofRules rules Namespace.standard.context) ?_ ?_)
  · change StateT.run (liftM ((settingsFor Namespace.standard.context x).context.call "D"
      [k.expr x, symbol x])) [] = _
    rw [hname]
    rfl
  · change StateT.run (liftM (settingsFor Namespace.standard.context x).rules.get) [] = _
    rw [rules_settingsFor, hrules]
    rfl
  · rw [show (settingsFor Namespace.standard.context x).context = Namespace.standard.context from rfl,
      hreduct]
    exact Agreement.settled.pure _

end Table

end Derivative

/-! ## There and back -/

section Inverse

/-- The derivative of an antiderivative. -/
theorem scaleBy_derivative_antiderivative (p : Rat × Integrand) :
    scaleBy Generator.derivative (scaleBy Integrand.antiderivative p) =
      scaleBy (fun i => (1, i.generator)) p := by
  have hpower (q : Rat) (n : Int) :
      scaleBy Generator.derivative (scaleBy powerAntiderivative (q, n)) = (q, .power n) := by
    unfold powerAntiderivative scaleBy
    by_cases hn : n = -1
    · simp [hn, Generator.derivative]
    · have hne : ((n + 1 : Int) : Rat) ≠ 0 := Int.cast_ne_zero.mpr (by omega)
      simp only [if_neg hn, Generator.derivative, add_sub_cancel_right]
      rw [mul_assoc, inv_mul_cancel₀ hne, mul_one]
  obtain ⟨q, i⟩ := p
  have hone : scaleBy (fun i => (1, i.generator)) (q, i) = (q, i.generator) := by
    rw [scaleBy, mul_one]
  rw [hone]
  cases i with
  | constant => exact hpower q 0
  | identity => exact hpower q 1
  | power n => exact hpower q n
  | wave w a =>
    have ha : a.1⁻¹ * a.1 = 1 := inv_mul_cancel₀ a.2
    cases w <;> simp [scaleBy, Integrand.antiderivative, Wave.antiderivative, Generator.derivative,
      Integrand.generator, mul_assoc, ha]

/-- **Differentiation undoes integration**: the integral of a sum of multiples of powers and waves
contains no call of `I`, and its derivative is what the sum is evaluated to. -/
theorem differentiate_integrate (x : String) (l : List (Rat × Integrand)) :
    ∃ F, integrate (sumOf (l.map (integrandTerm x))) (symbol x) Namespace.standard.context = .ok F ∧
      F.hasIntegral = false ∧
      differentiate F (symbol x) Namespace.standard.context =
        .ok ((sumOf (l.map (integrandTerm x))).evaluate Namespace.standard.context) := by
  have hs := keepsElementary_context Namespace.standard
  have hvalue : (sumOf (l.map (integrandTerm x))).evaluate Namespace.standard.context =
      collected x (l.map (scaleBy fun i => (1, i.generator))) :=
    (evaluates_sumOf (integrandTerm_constant x) isSum_integrandTerm
      (fun _ _ => single_of_integrandTerm_eq_const) (evaluates_integrandTerm hs 0 x) l).evaluate_eq
        (by decide)
  have hback : (l.map (scaleBy Integrand.antiderivative)).map (scaleBy Generator.derivative) =
      l.map (scaleBy fun i => (1, i.generator)) := by
    rw [List.map_map]
    exact List.map_congr_left fun p _ => scaleBy_derivative_antiderivative p
  refine ⟨_, integrate_sumOf x l, hasIntegral_collected x _, ?_⟩
  rw [Derivative.differentiate_collected hs (fun k => Derivative.byRule_generator x), hvalue, hback]

end Inverse

end SymbolicAlgebra
