import SymbolicAlgebra.Proofs.OperatorRules

/-!
# Integrals of powers and waves

What `integrate` makes of sums of multiples of powers and waves: linearity takes the sum and the
factors apart, each power or wave matches exactly one rule of the table whose conditions hold, and the
evaluated result is the collected sum of the antiderivatives.

Results:
* `reduct?_integrand`: the rule of the table for each integrand.
* `visitTo_integrandTerm`: the integral of a term.
* `integrate_sumOf`: the integral of a sum of terms.
* `hasIntegral_collected`: no integral is left over.
-/

namespace SymbolicAlgebra

open Expr Evaluator Attempt

/-! ## Integrands -/

/-- The antiderivative of a wave of the multiple by `a`. -/
def Wave.antiderivative (w : Wave) (a : {q : Rat // q ≠ 0}) : Rat × Generator :=
  match w with
  | exp => (a.1⁻¹, .wave .exp a)
  | sin => (-a.1⁻¹, .wave .cos a)
  | cos => (a.1⁻¹, .wave .sin a)

/-- The antiderivative of `x ^ n`. -/
def powerAntiderivative (n : Int) : Rat × Generator :=
  if n = -1 then (1, .log) else (((n + 1 : Int) : Rat)⁻¹, .power (n + 1))

/-- What integrands are made of, as they are written: a power is a power even where it is `1` or the
variable. -/
inductive Integrand where
  | constant
  | identity
  | power (n : Int)
  | wave (w : Wave) (a : {q : Rat // q ≠ 0})

namespace Integrand

def expr (x : String) : Integrand → Expr
  | constant => .const 1
  | identity => symbol x
  | power n => (symbol x).pow n
  | wave w a => elementaryCall w.function (multiple a x)

/-- What the integrand is evaluated to. -/
def generator : Integrand → Generator
  | constant => .power 0
  | identity => .power 1
  | power n => .power n
  | wave w a => .wave w a

def antiderivative : Integrand → Rat × Generator
  | constant => powerAntiderivative 0
  | identity => powerAntiderivative 1
  | power n => powerAntiderivative n
  | wave w a => w.antiderivative a

end Integrand

/-! ## Conditions of rules -/

section Conditions

variable {ns : Namespace} {n : Nat}

/-- Functions are applied in the context of the next smaller depth. -/
theorem exists_apply_context (ns : Namespace) : ∃ depth,
    ∀ f args, ns.context.apply f args = f.applyTo (ns.contextTo depth) args := by
  obtain ⟨depth, hdepth⟩ : ∃ n, Namespace.callDepth = n + 1 := ⟨999999, rfl⟩
  refine ⟨depth, fun f args => ?_⟩
  rw [Namespace.context, hdepth]
  rfl

/-- A call of a function that applies to the evaluated arguments. -/
theorem evaluates_call {ctx : Context} {f : Function} {es rs : List Expr} {r : Expr}
    (h : List.Forall₂ (Evaluates ⟨ctx, []⟩ n) es rs) (hf : f.isBuiltIn = true)
    (hcan : f.canCall rs.length = true) (happly : ctx.apply f rs = .ok (some r)) (hr : Proper r) :
    Evaluates ⟨ctx, []⟩ (n + 1) (.call f es) r := by
  refine ⟨?_, hr⟩
  obtain ⟨rfl, heach⟩ := map_visited_eq h
  have hcall : (Expr.call f (es.map (visited ⟨ctx, []⟩ n))).builtIn = true :=
    (builtIn_call _ _).mpr ⟨hf, fun a ha => (proper_of_forall₂ h a ha).builtIn⟩
  rw [outcome?_call hf fun a ha => (heach a ha).outcome, called_of_apply hcan happly,
    keepIfEqual_of_builtIn hcall hr.builtIn]

/-- `IsConstant` of a constant. -/
theorem evaluates_isConstant (ns : Namespace) (n : Nat) (q : Rat) :
    Evaluates ⟨ns.context, []⟩ (n + 2) (.call (.native .isConstant) [.const q]) (.const 1) := by
  obtain ⟨depth, happly⟩ := exists_apply_context ns
  exact evaluates_call (.cons (evaluates_const _ n q) .nil) rfl rfl (happly _ _) (.const 1)

/-- A constant is no function of the variable. -/
theorem evaluates_isFunctionOf (ns : Namespace) (n : Nat) (q : Rat) (v : String) :
    Evaluates ⟨ns.context, []⟩ (n + 2) (.call (.native .isFunctionOf) [.const q, symbol v])
      (.const 0) := by
  obtain ⟨depth, happly⟩ := exists_apply_context ns
  exact evaluates_call (.cons (evaluates_const _ n q) (.cons (evaluates_symbol _ n v) .nil)) rfl rfl
    (happly _ _) (.const 0)

theorem evaluates_not_zero {settings : Settings} {e : Expr} (h : Evaluates settings n e (.const 0)) :
    Evaluates settings (n + 1) (.not e) (.const 1) := by
  refine ⟨?_, .const 1⟩
  have hnode : (Expr.not e).builtIn = true :=
    (builtIn_not e).trans (builtIn_of_outcome? h.outcome)
  have hvisit : visitNot (outcome? settings n) e = some (.const 1) := by
    rw [visitNot, h.outcome]
    rfl
  rw [← keepIfEqual_of_builtIn hnode (Proper.const 1).builtIn, outcome?, if_pos hnode]
  exact Agreement.option.map _ hvisit

theorem evaluates_notEqual (settings : Settings) (n : Nat) (p q : Rat) :
    Evaluates settings (n + 2) (.binary .notEqual (.const p) (.const q)) (.boolean (p != q)) := by
  have hr : Proper (.boolean (p != q)) := by
    unfold Expr.boolean
    split
    · exact .const 1
    · exact .const 0
  refine ⟨?_, hr⟩
  have hnode : (Expr.binary .notEqual (.const p) (.const q)).builtIn = true := rfl
  rw [← keepIfEqual_of_builtIn hnode hr.builtIn, outcome?, if_pos hnode]
  rfl

end Conditions

/-! ## The table -/

section Table

/-- The call of `I`. -/
def integralCall (e x : Expr) : Expr :=
  .call (.native .integral) [e, x]

def powerRule : Rule :=
  ⟨integralCall (power (symbol "x") (symbol "N")) (symbol "x"),
    power (symbol "x") (symbol "N" + 1) / (symbol "N" + 1),
    [.call (.native .isConstant) [symbol "N"], .binary .notEqual (symbol "N") (-1)]⟩

def reciprocalRule : Rule :=
  .plain (integralCall ((symbol "x").pow (-1)) (symbol "x")) (elementaryCall .ln (symbol "x"))

/-- An antiderivative of a wave of `arg`, which is a multiple by `a`. -/
def Wave.primitive (w : Wave) (arg a : Expr) : Expr :=
  match w with
  | exp => elementaryCall .exp arg / a
  | sin => -elementaryCall .cos arg / a
  | cos => elementaryCall .sin arg / a

def waveRule (w : Wave) : Rule :=
  ⟨integralCall (elementaryCall w.function (symbol "a" * symbol "x")) (symbol "x"),
    w.primitive (symbol "a" * symbol "x") (symbol "a"),
    [.not (.call (.native .isFunctionOf) [symbol "a", symbol "x"])]⟩

def derivativeRule : Rule :=
  .plain (integralCall (.call (.native .derivative) [symbol "u", symbol "x"]) (symbol "x"))
    (symbol "u")

def integralTable : List Rule :=
  [powerRule, reciprocalRule, waveRule .exp, waveRule .sin, waveRule .cos, derivativeRule]

theorem integral_rules_standard : Integral.rules Namespace.standard.context =
    .ok (RuleSet.ofRules integralTable Namespace.standard.context) := rfl

end Table

/-! ## Patterns that do not match -/

section Mismatch

variable {ns : Namespace} {v : String}

/-- A power of a call is no variable. -/
theorem run_matching_root {g : Elementary} {a e y z : Expr} {n : Nat} (hn : n + 1 ≤ 1000)
    (h : Evaluates ⟨ns.context, []⟩ n e (elementaryCall g a))
    (hy : Evaluates ⟨ns.context, []⟩ n y z) (h0 : z.isZero = false) (h1 : z.isOne = false) :
    (((symbol "x").matching ((power e y).evaluate ns.context) ns.context).run
      (variableBound v)).1 = false := by
  rw [(evaluates_power_call h hy h0 h1).evaluate_eq hn, run_matching_variableBound]
  rfl

/-- The power rules do not match waves. -/
theorem bindings?_power_wave {q z : Expr} (w : Wave) (a : {q : Rat // q ≠ 0})
    (hq : (variableBound v).bindings.get? q = none)
    (hfirst : (((q.matching .one ns.context).andThen ((symbol "x").matching
      ((Generator.wave w a).expr v) ns.context)).run (variableBound v)).1 = false)
    (hy : Evaluates ⟨ns.context, []⟩ 3 (inverse q) z) (h0 : z.isZero = false)
    (h1 : z.isOne = false) :
    ((power (symbol "x") q).matching ((Generator.wave w a).expr v) ns.context).bindings?
      (variableBound v) = none :=
  bindings?_power_eq_none (consistent_variableBound v) hq rfl rfl rfl hfirst
    (run_matching_root (by decide) (evaluates_expr (keepsElementary_context ns) 0 v _) hy h0 h1)

theorem bindings?_powerRule_wave (w : Wave) (a : {q : Rat // q ≠ 0}) :
    ((power (symbol "x") (symbol "N")).matching ((Generator.wave w a).expr v)
      ns.context).bindings? (variableBound v) = none := by
  refine bindings?_power_wave w a rfl ?_ ((evaluates_inverse_symbol _ 1 "N").mono (Nat.le_refl 3))
    rfl rfl
  have hvariable : ((symbol "x").matching ((Generator.wave w a).expr v) ns.context).run
      ((variableBound v).add (symbol "N") .one) =
        (symbol v == (Generator.wave w a).expr v, (variableBound v).add (symbol "N") .one) :=
    run_matching_bound rfl _
  rw [run_andThen_of_succeeds (run_matching_unbound rfl _), hvariable]
  rfl

theorem bindings?_reciprocalRule_wave (w : Wave) (a : {q : Rat // q ≠ 0}) :
    (((symbol "x").pow (-1)).matching ((Generator.wave w a).expr v)
      ns.context).bindings? (variableBound v) = none :=
  bindings?_power_wave w a rfl rfl ((evaluates_inverse_const _ 1).mono (Nat.le_refl 3)) rfl rfl

/-- The rule for `1/x` does not match the variable. -/
theorem bindings?_reciprocalRule_symbol (ns : Namespace) (v : String) :
    (((symbol "x").pow (-1)).matching (symbol v) ns.context).bindings? (variableBound v) = none := by
  have hroot : (power (symbol v) (inverse (.const (-1)))).evaluate ns.context =
      power (symbol v) (.const (-1)) :=
    ((evaluates_symbol _ 1 v).power (evaluates_inverse_const _ 0) rfl rfl).evaluate_eq (by decide)
  refine bindings?_power_eq_none (consistent_variableBound v) rfl rfl rfl rfl rfl ?_
  rw [show int (-1) = .const (-1) from rfl, hroot, run_matching_variableBound]
  rfl

theorem beq_symbol_power {v : String} {n : Int} (h : n ≠ 1) :
    (symbol v == (Generator.power n).expr v) = false := by
  by_cases h0 : n = 0
  · rw [h0]
    rfl
  · rw [Generator.expr_power h0 h]
    rfl

/-- The rule for `1/x` matches no other power of the variable. -/
theorem bindings?_reciprocalRule_power (ns : Namespace) (v : String) {n : Int} (h : n ≠ -1) :
    (((symbol "x").pow (-1)).matching ((symbol v).pow n) ns.context).bindings? (variableBound v) =
      none := by
  have hroot : (power ((symbol v).pow n) (inverse (.const (-1)))).evaluate ns.context =
      (Generator.power (n * -1)).expr v :=
    (evaluates_power_power (m := -1) ((evaluates_inverse_const _ 0).mono (Nat.le_refl 2)) n).evaluate_eq
      (by decide)
  have hexponent : (Expr.const (-1) == .const n) = false := by
    refine Bool.eq_false_iff.mpr fun heq => h ?_
    have hn : ((-1 : Int) : Rat) = n := beq_iff_eq.mp heq
    exact_mod_cast hn.symm
  refine bindings?_power_eq_none (consistent_variableBound v) rfl rfl rfl ?_ rfl ?_
  · change ((((symbol "x").matching (symbol v) _).andThen ((Expr.const (-1)).matching (.const n) _)).run
      _).1 = false
    rw [run_andThen_of_succeeds (run_matching_variable v), matching_const, hexponent]
    rfl
  · rw [show int (-1) = .const (-1) from rfl, hroot, run_matching_variableBound]
    exact beq_symbol_power (by omega)

/-- The rule for `1/x` matches `x ^ -1`. -/
theorem bindings?_reciprocalRule (ns : Namespace) (v : String) :
    (((symbol "x").pow (-1)).matching ((symbol v).pow (-1)) ns.context).bindings?
      (variableBound v) = some ⟨[(symbol "x", symbol v)]⟩ := by
  have hparts : (asPower (symbol "x") (int (-1)) ns.context ((symbol v).pow (-1))).run
      (variableBound v) = (true, variableBound v) := by
    refine (run_andThen_of_succeeds (run_matching_variable v)).trans ?_
    rw [show int (-1) = .const (-1) from rfl, matching_const]
    rfl
  rw [bindings?, Expr.pow, run_matching_power rfl rfl (fun h => by cases h),
    run_orElse_of_succeeds (run_tentatively_of_succeeds hparts)]
  rfl

end Mismatch

/-! ## Results of rules -/

section Results

variable {settings : Settings} {ns : Namespace} {v : String}

theorem simplePower_inverse {c : Rat} (h : c ≠ 0) :
    simplePower (.const c) (.const (-1)) = .const c⁻¹ := by
  by_cases h1 : c = 1
  · rw [h1, inv_one]
    rfl
  · have hpow : Rational.pow? c (-1) = some c⁻¹ := by
      rw [Rational.pow?, show Rational.exactExponent? (-1) = some (-1) by decide]
      simp [h, Rational.integerPower]
    have hne : (-1 : Rat) ≠ 1 := by norm_num
    unfold simplePower
    simp [isZero, isOne, h, h1, hpow, hne]

theorem evaluates_inverse {c : Rat} (h : c ≠ 0) (n : Nat) :
    Evaluates settings (n + 2) (inverse (.const c)) (.const c⁻¹) :=
  simplePower_inverse h ▸
    (evaluates_const settings n c).power (evaluates_const settings n (-1)) rfl rfl

theorem powerRule_result : powerRule.result =
    .product [power (.sum [.const 1, symbol "N"]) (.const (-1)),
      power (symbol "x") (.sum [.const 1, symbol "N"])] := by cbv

/-- The conditions on a power. -/
theorem accepts_powerRule (ns : Namespace) (v : String) (n : Int) :
    powerRule.accepts ⟨[(symbol "x", symbol v), (symbol "N", .const n)]⟩ ns.context =
      decide (n ≠ -1) := by
  have hconstant : ((Expr.call (.native .isConstant) [symbol "N"]).instantiate
      ⟨[(symbol "x", symbol v), (symbol "N", .const n)]⟩).evaluate ns.context = .const 1 :=
    (evaluates_isConstant ns 0 n).evaluate_eq (by decide)
  have hother : ((Expr.binary .notEqual (symbol "N") (-1)).instantiate
      ⟨[(symbol "x", symbol v), (symbol "N", .const n)]⟩).evaluate ns.context =
        .boolean ((n : Rat) != -1) := by
    rw [minus_one]
    exact (evaluates_notEqual _ 0 n (-1)).evaluate_eq (by decide)
  have hne : ((n : Rat) != -1) = decide (n ≠ -1) := by
    have hiff : (n : Rat) = -1 ↔ n = -1 := by exact_mod_cast Iff.rfl
    rw [Bool.eq_iff_iff, bne_iff_ne, decide_eq_true_iff]
    exact not_congr hiff
  unfold Rule.accepts powerRule
  simp only [List.all_cons, List.all_nil, hconstant, hother, hne, Bool.and_true]
  cases decide (n ≠ -1) <;> rfl

/-- The antiderivative of a power. -/
theorem evaluate_powerRule (ns : Namespace) (v : String) {n : Int} (h : n ≠ -1) :
    (powerRule.result.instantiate ⟨[(symbol "x", symbol v), (symbol "N", .const n)]⟩).evaluate
      ns.context = term v (((n + 1 : Int) : Rat)⁻¹, .power (n + 1)) := by
  have hsum : sumOf [.const 1, .const (n : Rat)] = .const ((n + 1 : Int) : Rat) := by
    rw [sumOf_const_const, add_comm, Int.cast_add, Int.cast_one]
  have hinstance : powerRule.result.instantiate
      ⟨[(symbol "x", symbol v), (symbol "N", .const n)]⟩ =
        productOf [inverse (.const ((n + 1 : Int) : Rat)), (symbol v).pow (n + 1)] := by
    rw [powerRule_result, Expr.pow, int, ← hsum]
    rfl
  have hne : ((n + 1 : Int) : Rat) ≠ 0 := Int.cast_ne_zero.mpr (by omega)
  rw [hinstance]
  exact (evaluates_scaled (evaluates_inverse hne 0) (evaluates_power _ 0 v (n + 1)) rfl
    rfl).evaluate_eq (by decide)

/-- The antiderivative of `1/x`. -/
theorem evaluate_reciprocalRule (ns : Namespace) (v : String) :
    (reciprocalRule.result.instantiate ⟨[(symbol "x", symbol v)]⟩).evaluate ns.context =
      term v (1, .log) := by
  rw [term_one]
  exact (evaluates_expr (keepsElementary_context ns) 0 v .log).evaluate_eq (by decide)

/-- The factor is a constant. -/
theorem accepts_waveRule (ns : Namespace) (v : String) (w : Wave) (c : Rat) :
    (waveRule w).accepts ⟨[(symbol "x", symbol v), (symbol "a", .const c)]⟩ ns.context = true := by
  have hindependent : ((Expr.not (.call (.native .isFunctionOf) [symbol "a", symbol "x"])).instantiate
      ⟨[(symbol "x", symbol v), (symbol "a", .const c)]⟩).evaluate ns.context = .const 1 :=
    (evaluates_not_zero (evaluates_isFunctionOf ns 0 c v)).evaluate_eq (by decide)
  unfold Rule.accepts waveRule
  rw [List.all_cons, hindependent]
  rfl

/-- A wave divided by its factor, with constants in front. -/
theorem evaluate_dividedWave (ns : Namespace) (v : String) (signs : List Rat) (w : Wave)
    (a : {q : Rat // q ≠ 0}) :
    (productOf (signs.map .const ++ inverse (.const a.1) :: [(Generator.wave w a).expr v])).evaluate
      ns.context = term v (signs.prod * a.1⁻¹, .wave w a) := by
  have hsigns : List.Forall₂ (Evaluates ⟨ns.context, []⟩ 3) (signs.map .const) (signs.map .const) :=
    List.forall₂_same.mpr (List.forall_mem_map.mpr fun q _ => evaluates_const _ 2 q)
  have hconstants : List.Forall₂ (Evaluates ⟨ns.context, []⟩ 3)
      (signs.map .const ++ [inverse (.const a.1)]) ((signs ++ [a.1⁻¹]).map .const) := by
    rw [List.map_append]
    exact List.rel_append hsigns (.cons (evaluates_inverse a.2 1) .nil)
  have hvalue := evaluates_between (signs ++ [a.1⁻¹]) [] hconstants
    (evaluates_expr (keepsElementary_context ns) 0 v (.wave w a)) .nil ?_
  · rw [List.append_assoc, List.prod_append, List.prod_singleton, List.prod_nil, mul_one] at hvalue
    exact hvalue.evaluate_eq (by decide)
  · exact List.forall_mem_append.mpr ⟨List.forall_mem_append.mpr ⟨List.forall_mem_map.mpr
      fun _ _ => rfl, List.forall_mem_singleton.mpr rfl⟩, List.forall_mem_singleton.mpr rfl⟩

/-- The antiderivative of a wave. -/
theorem evaluate_waveRule (ns : Namespace) (v : String) (w : Wave) (a : {q : Rat // q ≠ 0}) :
    ((waveRule w).result.instantiate ⟨[(symbol "x", symbol v), (symbol "a", .const a.1)]⟩).evaluate
      ns.context = term v (w.antiderivative a) := by
  cases w with
  | exp =>
    have hresult : (waveRule .exp).result = .product [power (symbol "a") (.const (-1)),
        elementaryCall .exp (.product [symbol "a", symbol "x"])] := by cbv
    rw [hresult]
    exact (evaluate_dividedWave ns v [] .exp a).trans (by rw [List.prod_nil, one_mul]; rfl)
  | sin =>
    have hresult : (waveRule .sin).result = .product [.const (-1), power (symbol "a") (.const (-1)),
        elementaryCall .cos (.product [symbol "a", symbol "x"])] := by cbv
    rw [hresult]
    exact (evaluate_dividedWave ns v [-1] .cos a).trans (by rw [List.prod_singleton, neg_one_mul]; rfl)
  | cos =>
    have hresult : (waveRule .cos).result = .product [power (symbol "a") (.const (-1)),
        elementaryCall .sin (.product [symbol "a", symbol "x"])] := by cbv
    rw [hresult]
    exact (evaluate_dividedWave ns v [] .sin a).trans (by rw [List.prod_nil, one_mul]; rfl)

end Results

/-! ## The rule for each integrand -/

section Selection

variable {ns : Namespace} {v : String}

/-- A term is no call of an operator. -/
theorem term_bne_call {f : Native}
    (hf : ∀ g, (Function.native (.elementary g) == .native f) = false) (p : Rat × Generator)
    (args : List Expr) : (term v p != .call (.native f) args) = true := by
  obtain ⟨q, k⟩ := p
  have hcall (g : Elementary) (es : List Expr) :
      (Expr.call (.native (.elementary g)) es != .call (.native f) args) = true := by
    change (!(_ == _ && _)) = true
    rw [hf, Bool.false_and]
    rfl
  by_cases h0 : q = 0
  · rw [h0, term_zero]
    rfl
  by_cases hk : k = .power 0
  · rw [hk, term_power_zero]
    rfl
  by_cases h1 : q = 1
  · rw [h1, term_one]
    cases k with
    | power n =>
      rw [Generator.expr]
      split
      · rfl
      · split <;> rfl
    | log => exact hcall _ _
    | wave w a => exact hcall _ _
  · rw [term_eq_product h0 h1 hk]
    rfl

/-- The rules that are for calls of another function than the integrand. -/
theorem reduct?_eq_none_of_call {r : Rule} {f : Function} {ps : List Expr} {e : Expr}
    (hr : r.pattern = integralCall (.call f ps) (symbol "x"))
    (h : e.asCall? = none ∨ ∃ g es, e = .call g es ∧ (f == g) = false) :
    r.reduct? (integralCall e (symbol v)) ns.context = none := by
  refine Rule.reduct?_eq_none_of_operator hr ?_
  rcases h with h | ⟨g, es, rfl, h⟩
  · exact bindings?_call_of_asCall? h _
  · exact bindings?_call_of_ne h _

/-- The power rule applies to all powers but `1/x`. -/
theorem reduct?_powerRule {e : Expr} {n : Int}
    (h : ((power (symbol "x") (symbol "N")).matching e ns.context).bindings? (variableBound v) =
      some ⟨[(symbol "x", symbol v), (symbol "N", .const n)]⟩) :
    powerRule.reduct? (integralCall e (symbol v)) ns.context =
      if n = -1 then none else some (term v (powerAntiderivative n)) := by
  rw [integralCall, Rule.reduct?_of_operator rfl h, accepts_powerRule]
  by_cases hn : n = -1
  · rw [if_pos hn, hn]
    rfl
  · rw [if_neg hn, decide_eq_true hn, if_pos rfl, evaluate_powerRule ns v hn, powerAntiderivative,
      if_neg hn]

theorem reduct?_reciprocalRule (ns : Namespace) (v : String) :
    reciprocalRule.reduct? (integralCall ((symbol v).pow (-1)) (symbol v)) ns.context =
      some (term v (1, .log)) := by
  rw [integralCall, Rule.reduct?_of_operator rfl (bindings?_reciprocalRule ns v),
    evaluate_reciprocalRule]
  rfl

theorem reduct?_waveRule (ns : Namespace) (v : String) (w : Wave) (a : {q : Rat // q ≠ 0}) :
    (waveRule w).reduct? (integralCall ((Integrand.wave w a).expr v) (symbol v)) ns.context =
      some (term v (w.antiderivative a)) := by
  have hmatch : ((elementaryCall w.function (symbol "a" * symbol "x")).matching
      (elementaryCall w.function (multiple a.1 v)) ns.context).bindings? (variableBound v) =
        some ⟨[(symbol "x", symbol v), (symbol "a", .const a.1)]⟩ :=
    (bindings?_call_one _ _ _ _).trans (bindings?_multiple a.2 v ns.context)
  rw [integralCall, Integrand.expr, Rule.reduct?_of_operator rfl hmatch, accepts_waveRule,
    if_pos rfl, evaluate_waveRule]

theorem forall_integralTable {P : Rule → Prop} (hpower : P powerRule)
    (hreciprocal : P reciprocalRule) (hwave : ∀ w, P (waveRule w)) (hderivative : P derivativeRule) :
    ∀ r ∈ integralTable, P r := by
  simp only [integralTable, List.forall_mem_cons]
  exact ⟨hpower, hreciprocal, hwave _, hwave _, hwave _, hderivative, fun _ h => absurd h List.not_mem_nil⟩

theorem waveRule_mem (w : Wave) : waveRule w ∈ integralTable := by
  cases w <;> simp [integralTable]

theorem beq_wave_of_ne {w w' : Wave} (h : w' ≠ w) :
    (Function.native (.elementary w'.function) == .native (.elementary w.function)) = false := by
  cases w <;> cases w' <;> first | rfl | exact absurd rfl h

/-- **The table has the antiderivative of every integrand** that is not constant. -/
theorem reduct?_integrand (ns : Namespace) (v : String) {i : Integrand} (hi : i ≠ .constant) :
    (RuleSet.ofRules integralTable ns.context).reduct? (integralCall (i.expr v) (symbol v))
      ns.context = some (term v i.antiderivative) := by
  have hne := term_bne_call (v := v) (f := .integral) (fun g => by cases g <;> rfl) i.antiderivative
    [i.expr v, symbol v]
  cases i with
  | constant => exact absurd rfl hi
  | identity =>
    have hmatch := reduct?_powerRule (n := 1) (bindings?_power_symbol v ns.context)
    refine RuleSet.reduct?_ofRules List.mem_cons_self hmatch hne (forall_integralTable (.inl rfl)
      (.inr ?_) (fun w => .inr ?_) (.inr ?_))
    · exact Rule.reduct?_eq_none_of_operator rfl (bindings?_reciprocalRule_symbol ns v)
    · exact reduct?_eq_none_of_call rfl (.inl rfl)
    · exact reduct?_eq_none_of_call rfl (.inl rfl)
  | power n =>
    have hmatch := reduct?_powerRule (n := n) (bindings?_power v (.const n) ns.context)
    by_cases hn : n = -1
    · subst hn
      refine RuleSet.reduct?_ofRules (List.mem_cons_of_mem _ List.mem_cons_self)
        (reduct?_reciprocalRule ns v) hne (forall_integralTable (.inr hmatch) (.inl rfl)
          (fun w => .inr ?_) (.inr ?_))
      · exact reduct?_eq_none_of_call rfl (.inl rfl)
      · exact reduct?_eq_none_of_call rfl (.inl rfl)
    · rw [if_neg hn] at hmatch
      refine RuleSet.reduct?_ofRules List.mem_cons_self hmatch hne (forall_integralTable (.inl rfl)
        (.inr ?_) (fun w => .inr ?_) (.inr ?_))
      · exact Rule.reduct?_eq_none_of_operator rfl (bindings?_reciprocalRule_power ns v hn)
      · exact reduct?_eq_none_of_call rfl (.inl rfl)
      · exact reduct?_eq_none_of_call rfl (.inl rfl)
  | wave w a =>
    refine RuleSet.reduct?_ofRules (waveRule_mem w) (reduct?_waveRule ns v w a) hne
      (forall_integralTable (.inr ?_) (.inr ?_) (fun w' => ?_) (.inr ?_))
    · exact Rule.reduct?_eq_none_of_operator rfl (bindings?_powerRule_wave w a)
    · exact Rule.reduct?_eq_none_of_operator rfl (bindings?_reciprocalRule_wave w a)
    · by_cases hw : w' = w
      · exact .inl (hw ▸ rfl)
      · exact .inr (reduct?_eq_none_of_call rfl (.inr ⟨_, _, rfl, beq_wave_of_ne hw⟩))
    · exact reduct?_eq_none_of_call rfl (.inr ⟨_, _, rfl, by cases w <;> rfl⟩)

end Selection

/-! ## Terms of integrands -/

section Terms

variable {x : String} {i : Integrand}

theorem Integrand.isFactor_expr (hi : i ≠ .constant) : IsFactor x (i.expr x) := by
  cases i with
  | constant => exact absurd rfl hi
  | identity => exact .symbol x
  | power n => exact .pow x n
  | wave w a => exact .call w.function (dependsOn_multiple a.2 x) (Generator.proper_multiple a x)

/-- A multiple of an integrand. -/
def integrandTerm (x : String) (p : Rat × Integrand) : Expr :=
  productOf [.const p.1, p.2.expr x]

theorem integrandTerm_constant (x : String) (q : Rat) :
    integrandTerm x (q, .constant) = .const q := by
  rw [integrandTerm, Integrand.expr, productOf_const_const, mul_one]

theorem isSum_integrandTerm (p : Rat × Integrand) : (integrandTerm x p).isSum = false := by
  obtain ⟨q, i⟩ := p
  by_cases hi : i = .constant
  · rw [hi, integrandTerm_constant]
    rfl
  · exact (Integrand.isFactor_expr hi).isSum_productOf q

theorem proper_integrandTerm (x : String) (p : Rat × Integrand) : Proper (integrandTerm x p) := by
  refine proper_productOf (List.forall_mem_cons.mpr ⟨.const p.1, List.forall_mem_singleton.mpr ?_⟩)
  by_cases hi : p.2 = .constant
  · rw [hi]
    exact .const 1
  · exact (Integrand.isFactor_expr hi).proper

theorem dependsOn_integrandTerm {p : Rat × Integrand}
    (h : (integrandTerm x p).isConst = false) : (integrandTerm x p).dependsOn (symbol x) = true := by
  obtain ⟨q, i⟩ := p
  by_cases hi : i = .constant
  · rw [hi, integrandTerm_constant] at h
    cases h
  have hfactor := Integrand.isFactor_expr (x := x) hi
  refine hfactor.dependsOn_productOf fun h0 => ?_
  obtain rfl : q = 0 := h0
  rw [integrandTerm, hfactor.productOf_zero] at h
  cases h

theorem single_of_integrandTerm_eq_const {p : Rat × Integrand} {q : Rat}
    (h : integrandTerm x p = .const q) :
    Finsupp.single p.2 p.1 = Finsupp.single Integrand.constant q := by
  obtain ⟨c, i⟩ := p
  by_cases hi : i = .constant
  · rw [hi, integrandTerm_constant] at h
    rw [hi, Expr.const.inj h]
  have hfactor := Integrand.isFactor_expr (x := x) hi
  rw [integrandTerm] at h
  rcases hfactor.productOf_cases c with ⟨h0, heq⟩ | ⟨-, heq⟩ | heq
  · obtain rfl := Expr.const.inj (heq.symm.trans h)
    rw [h0, Finsupp.single_zero, Finsupp.single_zero]
  · have hconst := hfactor.isConst
    rw [← heq, h] at hconst
    cases hconst
  · cases heq.symm.trans h

/-- A term of integrands evaluates to the term of their values. -/
theorem evaluates_integrandTerm {settings : Settings} (hs : KeepsElementary settings) (n : Nat)
    (x : String) (p : Rat × Integrand) :
    Evaluates settings (n + 4) (integrandTerm x p)
      (term x (scaleBy (fun i => (1, i.generator)) p)) := by
  obtain ⟨q, i⟩ := p
  have hexpr : Evaluates settings (n + 3) (i.expr x) (i.generator.expr x) := by
    cases i with
    | constant => exact evaluates_const settings _ 1
    | identity => exact evaluates_symbol settings _ x
    | power m => exact evaluates_power settings _ x m
    | wave w a => exact evaluates_expr hs n x (.wave w a)
  have hflat : (i.expr x).isProduct = false := by cases i <;> rfl
  rw [scaleBy, mul_one]
  exact evaluates_scaled (evaluates_const settings _ q) hexpr rfl hflat

end Terms

/-! ## Integrating -/

section Integrate

variable {ctx : Context} {x : String}

/-- What the integration of a variable does not change. -/
def integralSettings (ctx : Context) (x : String) : Integral.Settings :=
  ⟨ctx, symbol x, .mk fun _ => Integral.rules ctx⟩

theorem rules_integralSettings (ctx : Context) (x : String) :
    (integralSettings ctx x).rules.get = Integral.rules ctx := rfl

theorem isConstant_eq (e : Expr) :
    (integralSettings ctx x).isConstant e = !e.dependsOn (symbol x) := rfl

/-- A variable has no factors but itself. -/
theorem factor_symbol (x : String) (ctx : Context) : (symbol x).factor none ctx = symbol x := rfl

theorem visitTo_const (depth : Nat) (q : Rat) :
    Agreement.settled.Gives (Integral.visitTo (integralSettings ctx x) (depth + 1) (.const q))
      (term x (q, .power 1)) := by
  have hconstant : (integralSettings ctx x).isConstant (.const q) = true := rfl
  rw [Integral.visitTo, hconstant, if_pos rfl]
  exact Agreement.settled.pure _

section Linearity

variable (hrule : ∀ {i : Integrand}, i ≠ .constant →
  Agreement.settled.Gives (Integral.byRule (integralSettings ctx x) (i.expr x))
    (term x i.antiderivative))
include hrule

/-- Linearity leaves an integrand to the table. -/
theorem visitTo_integrand (depth : Nat) {i : Integrand} (hi : i ≠ .constant) :
    Agreement.settled.Gives (Integral.visitTo (integralSettings ctx x) (depth + 1) (i.expr x))
      (term x i.antiderivative) := by
  have hdepends := (Integrand.isFactor_expr (x := x) hi).dependsOn
  have hresult := hrule hi
  rw [Integral.visitTo, isConstant_eq, hdepends, Bool.not_true, if_neg Bool.false_ne_true]
  cases i with
  | constant => exact absurd rfl hi
  | identity => exact hresult
  | power n =>
    have hvariable : (integralSettings ctx x).isConstant (symbol x) = false := by
      rw [isConstant_eq, dependsOn_symbol]
      rfl
    have hexponent : (integralSettings ctx x).isConstant (int n) = true := rfl
    have hparts : ((symbol x).factor none (integralSettings ctx x).context).factors.partition
        (integralSettings ctx x).isConstant = ([], [symbol x]) := by
      rw [factor_symbol, factors_eq_self rfl, List.partition_eq_filter_filter]
      simp [hvariable]
    rw [Integrand.expr, Expr.pow, Expr.power, LinearOperator.reduce]
    dsimp only
    rw [hexponent, if_pos rfl, hparts]
    exact hresult
  | wave w a => exact hresult

/-- Linearity takes the factor of a term apart. -/
theorem visitTo_integrandTerm (depth : Nat) (p : Rat × Integrand) :
    Agreement.settled.Gives (Integral.visitTo (integralSettings ctx x) (depth + 2)
      (integrandTerm x p)) (term x (scaleBy Integrand.antiderivative p)) := by
  obtain ⟨q, i⟩ := p
  by_cases hi : i = .constant
  · have hvalue : scaleBy Integrand.antiderivative (q, .constant) = (q, .power 1) := by
      simp [scaleBy, Integrand.antiderivative, powerAntiderivative]
    rw [hi, integrandTerm_constant, hvalue]
    exact visitTo_const _ q
  have hfactor := Integrand.isFactor_expr (x := x) hi
  rw [integrandTerm]
  rcases hfactor.productOf_cases q with ⟨rfl, h⟩ | ⟨rfl, h⟩ | h
  · have hzero : term x (scaleBy Integrand.antiderivative (0, i)) = term x (0, .power 1) := by
      rw [scaleBy, zero_mul, term_zero, term_zero]
    rw [h, hzero]
    exact visitTo_const _ 0
  · rw [h, scaleBy, one_mul]
    exact visitTo_integrand hrule _ hi
  · have hdepends : (Expr.product [.const q, i.expr x]).dependsOn (symbol x) = true :=
      dependsOn_product (List.mem_cons_of_mem _ List.mem_cons_self) hfactor.dependsOn
    have hparts : [Expr.const q, i.expr x].partition (integralSettings ctx x).isConstant =
        ([.const q], [i.expr x]) := by
      have hconstant : (integralSettings ctx x).isConstant (.const q) = true := rfl
      have hother : (integralSettings ctx x).isConstant (i.expr x) = false := by
        rw [isConstant_eq, hfactor.dependsOn]
        rfl
      rw [List.partition_eq_filter_filter]
      simp [hconstant, hother]
    have hproduct : productOf ([.const q] ++ [term x i.antiderivative]) =
        term x (scaleBy Integrand.antiderivative (q, i)) := productOf_const_term q _
    rw [h, Integral.visitTo, isConstant_eq, hdepends, Bool.not_true, if_neg Bool.false_ne_true,
      LinearOperator.reduce]
    dsimp only
    rw [hparts, ← hproduct]
    refine Agreement.settled.bind (a := term x i.antiderivative) ?_ (Agreement.settled.pure _)
    rw [hfactor.proper.constructed.productOf_singleton]
    exact visitTo_integrand hrule _ hi

theorem visitTerms_integrandTerms (depth : Nat) (l : List (Rat × Integrand)) :
    Agreement.settled.Gives (LinearOperator.visitTerms
        (Integral.visitTo (integralSettings ctx x) (depth + 2)) (l.map (integrandTerm x)))
      ((l.map (scaleBy Integrand.antiderivative)).map (term x)) := by
  induction l with
  | nil => exact Agreement.settled.pure []
  | cons p l ih =>
    exact Agreement.settled.bind (visitTo_integrandTerm hrule depth p)
      (Agreement.settled.bind ih (Agreement.settled.pure _))

/-- **The integral of a sum of terms**: the sum of the antiderivatives. -/
theorem visitTo_sumOf (depth : Nat) (l : List (Rat × Integrand)) :
    ∃ l' : List (Rat × Integrand), coefficients l' = coefficients l ∧
      Agreement.settled.Gives
        (Integral.visitTo (integralSettings ctx x) (depth + 3) (sumOf (l.map (integrandTerm x))))
        (sumOf ((l'.map (scaleBy Integrand.antiderivative)).map (term x))) := by
  obtain ⟨l', hsum, hl'⟩ := exists_operands (integrandTerm_constant x) isSum_integrandTerm
    (fun _ _ => single_of_integrandTerm_eq_const) l
  have hproper : Proper (sumOf (l.map (integrandTerm x))) :=
    proper_sumOf (List.forall_mem_map.mpr fun p _ => proper_integrandTerm x p)
  refine ⟨l', hl', ?_⟩
  rw [hsum] at hproper ⊢
  rcases nil_or_singleton_or_two_le l' with rfl | ⟨p, rfl⟩ | hlen
  · have hzero : Agreement.settled.Gives
        (Integral.visitTo (integralSettings ctx x) (depth + 3) (.const 0)) (term x (0, .power 1)) :=
      visitTo_const (depth + 2) 0
    rwa [term_zero] at hzero
  · have hsingle := (proper_term x (scaleBy Integrand.antiderivative p)).constructed.sumOf_singleton
    rw [List.map_singleton, List.map_singleton, List.map_singleton, hsingle]
    exact visitTo_integrandTerm hrule (depth + 1) p
  · rw [ofTerms_of_two_le (by rwa [List.length_map])] at hproper ⊢
    obtain ⟨t, ht, hconst⟩ := hproper.constructed.exists_other
    have hdepends : (Expr.sum (l'.map (integrandTerm x))).dependsOn (symbol x) = true := by
      obtain ⟨p, -, rfl⟩ := List.mem_map.mp ht
      exact dependsOn_sum ht (dependsOn_integrandTerm hconst)
    rw [Integral.visitTo, isConstant_eq, hdepends, Bool.not_true, if_neg Bool.false_ne_true]
    exact Agreement.settled.map sumOf (visitTerms_integrandTerms hrule depth l')

end Linearity

/-- What the table makes of an integral. -/
theorem byRule_of_reduct? {e r : Expr} {rules : RuleSet}
    (hrules : Integral.rules Namespace.standard.context = .ok rules)
    (h : rules.reduct? (integralCall e (symbol x)) Namespace.standard.context = some r) :
    Agreement.settled.Gives (Integral.byRule (integralSettings Namespace.standard.context x) e)
      r := by
  have hname : Namespace.standard.context.call "I" [e, symbol x] =
      .ok (integralCall e (symbol x)) := rfl
  refine Agreement.settled.bind (a := integralCall e (symbol x)) ?_
    (Agreement.settled.bind (a := rules) ?_ ?_)
  · change StateT.run (liftM (Namespace.standard.context.call "I" [e, symbol x])) [] = _
    rw [hname]
    rfl
  · change StateT.run (liftM (integralSettings Namespace.standard.context x).rules.get) [] = _
    rw [rules_integralSettings, hrules]
    rfl
  · rw [show (integralSettings Namespace.standard.context x).context = Namespace.standard.context
      from rfl, h]
    exact Agreement.settled.pure r

theorem byRule_integrand (x : String) {i : Integrand} (hi : i ≠ .constant) :
    Agreement.settled.Gives
      (Integral.byRule (integralSettings Namespace.standard.context x) (i.expr x))
      (term x i.antiderivative) :=
  byRule_of_reduct? integral_rules_standard (reduct?_integrand .standard x hi)

/-- Evaluation where no call is held. -/
theorem evaluateHolding_sumOf_terms (x : String) (l : List (Rat × Generator)) (ns : Namespace) :
    (sumOf (l.map (term x))).evaluateHolding [] ns.context = collected x l :=
  evaluateHolding_of_outcome? (evaluates_sumOf_terms (keepsElementary_context ns) 0 x l).outcome
    (le_depthFor (by decide) _)

/-- **The integral of a sum of multiples of powers and waves** is the collected sum of their
antiderivatives. -/
theorem integrate_sumOf (x : String) (l : List (Rat × Integrand)) :
    integrate (sumOf (l.map (integrandTerm x))) (symbol x) Namespace.standard.context =
      .ok (collected x (l.map (scaleBy Integrand.antiderivative))) := by
  generalize hf : sumOf (l.map (integrandTerm x)) = f
  obtain ⟨depth, hdepth⟩ : ∃ d, LinearOperator.depthFor f = d + 3 :=
    ⟨4 * f.size + 997, rfl⟩
  obtain ⟨l', hl', hvisit⟩ := visitTo_sumOf (byRule_integrand x) depth l
  rw [hf] at hvisit
  have hrun : (Integral.visitTo (integralSettings Namespace.standard.context x) (depth + 3) f).run [] =
      .ok (sumOf ((l'.map (scaleBy Integrand.antiderivative)).map (term x)), []) := hvisit
  rw [integralSettings, ← hdepth] at hrun
  unfold integrate
  dsimp only
  rw [hrun, ← collected_congr (coefficients_map_congr Integrand.antiderivative hl'),
    ← evaluateHolding_sumOf_terms]
  rfl

end Integrate

/-! ## No integral is left over -/

section Occurrence

variable {x : String}

theorem anyHasIntegral_eq_false {ts : List Expr} (h : ∀ t ∈ ts, t.hasIntegral = false) :
    anyHasIntegral ts = false := by
  induction ts with
  | nil => rfl
  | cons t ts ih =>
    obtain ⟨ht, hts⟩ := List.forall_mem_cons.mp h
    rw [anyHasIntegral, ht, ih hts]
    rfl

theorem hasIntegral_productOf {q : Rat} {e : Expr} (hfactor : IsFactor x e)
    (h : e.hasIntegral = false) : (productOf [.const q, e]).hasIntegral = false := by
  rcases hfactor.productOf_cases q with ⟨-, heq⟩ | ⟨-, heq⟩ | heq
  · rw [heq]
    rfl
  · rw [heq, h]
  · rw [heq, hasIntegral]
    exact anyHasIntegral_eq_false (List.forall_mem_cons.mpr ⟨rfl, List.forall_mem_singleton.mpr h⟩)

theorem hasIntegral_elementaryCall {a : Expr} (g : Elementary) (h : a.hasIntegral = false) :
    (elementaryCall g a).hasIntegral = false := by
  have hname : ((Function.native (.elementary g)).name == "I") = false := by cases g <;> decide
  rw [hasIntegral, hname, anyHasIntegral_eq_false (List.forall_mem_singleton.mpr h)]
  rfl

theorem hasIntegral_expr (k : Generator) : (k.expr x).hasIntegral = false := by
  cases k with
  | power n =>
    rw [Generator.expr]
    split
    · rfl
    · split <;> rfl
  | log => exact hasIntegral_elementaryCall .ln rfl
  | wave w a => exact hasIntegral_elementaryCall w.function (hasIntegral_productOf (.symbol x) rfl)

theorem hasIntegral_term (p : Rat × Generator) : (term x p).hasIntegral = false := by
  obtain ⟨q, k⟩ := p
  by_cases hk : k = .power 0
  · rw [hk, term_power_zero]
    rfl
  · exact hasIntegral_productOf (Generator.isFactor_expr hk) (hasIntegral_expr k)

/-- Collected sums of multiples of generators contain no call of `I`. -/
theorem hasIntegral_collected (x : String) (l : List (Rat × Generator)) :
    (collected x l).hasIntegral = false := by
  obtain ⟨l₁, hl₁, -⟩ := exists_collected x l
  obtain ⟨l₂, hl₂, -⟩ := exists_operands (term_power_zero x) (fun _ => isSum_term)
    (fun _ _ => single_of_term_eq_const) l₁
  rw [hl₁, hl₂]
  rcases nil_or_singleton_or_two_le l₂ with rfl | ⟨p, rfl⟩ | hlen
  · rfl
  · exact hasIntegral_term p
  · rw [ofTerms_of_two_le (by rwa [List.length_map]), hasIntegral]
    exact anyHasIntegral_eq_false (List.forall_mem_map.mpr fun p _ => hasIntegral_term p)

end Occurrence

end SymbolicAlgebra
