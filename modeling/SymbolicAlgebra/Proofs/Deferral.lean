import SymbolicAlgebra.Builtin
import SymbolicAlgebra.Proofs.Substitution

/-!
# Deferred substitution into derivatives

A substitution into `D[f, x]` replaces all variables but `x` at once and holds the binding of `x`
back: `D[f', x] : (x -> v)`. Evaluation differentiates `f'` first and replaces `x` in the derivative.
For polynomials this is the derivative of `f` under all bindings, as long as nothing that has been
put in for a variable of `f` mentions `x`: there the derivative would see an `x` that is not the
variable of `f`.

Results:
* `substitute_derivative`: what the substitution gives.
* `evaluate_deferred`: what its evaluation gives.
* `denotes_evaluate_deferred`: it has the value of the derivative under the bindings.
-/

namespace SymbolicAlgebra

namespace Expr

/-- Built from constants and variables by sums, products and powers with positive integer
exponents. -/
inductive IsPolynomial : Expr → Prop
  | const (q : Rat) : IsPolynomial (const q)
  | var (n : String) : IsPolynomial (var n none)
  | sum {ts : List Expr} : (∀ t ∈ ts, IsPolynomial t) → IsPolynomial (sum ts)
  | product {fs : List Expr} : (∀ f ∈ fs, IsPolynomial f) → IsPolynomial (product fs)
  | power {b : Expr} {n : Rat} : IsPolynomial b → Rational.isInteger n = true → 0 < n →
    IsPolynomial (power b (.const n))

theorem IsPolynomial.rational {e : Expr} (h : IsPolynomial e) : IsRational e := by
  induction h with
  | const q => exact .const q
  | var n => exact .var n
  | sum _ ih => exact .sum ih
  | product _ ih => exact .product ih
  | power _ hn h0 ih => exact .power ih hn h0.ne'

/-- A polynomial has a value everywhere. -/
theorem IsPolynomial.defined {e : Expr} (h : IsPolynomial e) (σ : String → Rat) : Defined σ e := by
  induction h with
  | const q => exact .const q
  | var n => exact .var n none
  | sum _ ih => exact .sum ih
  | product _ ih => exact .product ih
  | power _ hn h0 ih => exact .power ih hn h0.ne' fun h => absurd h0 h.asymm

/-- A polynomial as the constructors build it. -/
structure PolynomialForm (e : Expr) : Prop where
  polynomial : IsPolynomial e
  canonical : Canonical e

theorem PolynomialForm.rationalForm {e : Expr} (h : PolynomialForm e) : RationalForm e :=
  ⟨h.polynomial.rational, h.canonical⟩

/-- The call `D[f, x]`. -/
abbrev derivativeOf (f : Expr) (x : String) : Expr :=
  call (.native .derivative) [f, symbol x]

/-- The expression that is differentiated when the binding of `x` is held back. -/
def substitutedBefore (b : Bindings) (x : String) (f : Expr) : Expr :=
  substituteWith false (b.erase (symbol x)) f

/-- **The binding of the variable is held back**, the others are applied to the argument. -/
theorem substitute_derivative {b : Bindings} (hb : b.OfVariables) {x : String} {v : Expr}
    (hx : b.get? (symbol x) = some v) (f : Expr) :
    (derivativeOf f x).substitute b =
      substituteLater (derivativeOf (substitutedBefore b x f) x) (arrow (symbol x) v) := by
  have hheld : b.holdBack (.native .derivative) [f, symbol x] =
      (b.erase (symbol x), [arrow (symbol x) v]) := by
    have hfirst : (Parameter.any "f").deferred = false := rfl
    have hsecond : (Parameter.deferring "x").deferred = true := rfl
    simp [Bindings.holdBack, Function.isDeferred, Native.parameters, hfirst, hsecond, hx]
  have hvar : substituteWith false (b.erase (symbol x)) (symbol x) = symbol x := by
    rw [substituteWith_symbol, b.get?_erase_self]
    rfl
  rw [substitute, Bindings.isEmpty_eq_false hx, if_neg (by simp), derivativeOf, substituteWith,
    Bindings.get?_eq_none hb rfl]
  simp [hheld, substituteList, hvar, heldBindings, substitutedBefore]

end Expr

open Evaluator Derivative Expr

/-- In every namespace, `D` differentiates. -/
theorem apply_derivative (ns : Namespace) {f : Expr} (hf : RationalForm f) (x : String) :
    ns.context.apply (.native .derivative) [f, symbol x] =
      .ok (some (evaluated (derived (symbol x) f))) := by
  obtain ⟨depth, hdepth⟩ : ∃ n, Namespace.callDepth = n + 1 := ⟨999999, rfl⟩
  rw [Namespace.context, hdepth]
  change ((differentiate f (symbol x) (ns.contextTo depth)).map some) = _
  rw [differentiate_eq hf]
  rfl

/-- The derivative of the evaluated argument. -/
def derivativeWithin (f : Expr) (x : String) : Expr :=
  evaluated (derived (symbol x) (evaluated f))

/-- The derivative, with the held binding applied. -/
def derivativeAt (f : Expr) (x : String) (v : Expr) : Expr :=
  (derivativeWithin f x).substituteOne (symbol x) (evaluated v)

section Evaluation

variable {f v : Expr} {x : String}

theorem rationalForm_evaluated {σ : String → Rat} (hc : Expr.Canonical f) (hl : f.leaves ≠ ⊤)
    (hd : Defined σ f) (hexact : ExactPowers f) : RationalForm (evaluated f) :=
  ⟨isRational_of_leaves (denotes_evaluated hc hexact hd).defined (leaves_evaluated_ne_top hc hl),
    canonical_evaluated hc⟩

/-- The outcome of the call. -/
theorem outcome?_derivativeOf (ns : Namespace) (hc : Expr.Canonical f)
    (hr : RationalForm (evaluated f)) {n : Nat} (hn : f.height < n) :
    outcome? ⟨ns.context, []⟩ (n + 1) (derivativeOf f x) = some (derivativeWithin f x) := by
  have hplain := (canonical_evaluated (canonical_derived (symbol x) hr)).plain
  have hargs : ∀ a ∈ [f, symbol x], outcome? ⟨ns.context, []⟩ n a = some (evaluated a) :=
    List.forall_mem_cons.mpr ⟨outcome?_eq_evaluated _ hc hn, List.forall_mem_singleton.mpr
      (outcome?_eq_evaluated _ (.var x) (Nat.zero_lt_of_lt hn))⟩
  have hvisited : [f, symbol x].map evaluated = [evaluated f, symbol x] :=
    congrArg (fun y => [evaluated f, y]) (evaluated_var x none)
  have hcall : (derivativeOf (evaluated f) x).builtIn = true :=
    (builtIn_call _ _).mpr ⟨rfl, List.forall_mem_cons.mpr
      ⟨builtIn_of_plain hr.canonical.plain, List.forall_mem_singleton.mpr rfl⟩⟩
  rw [outcome?_call rfl hargs, hvisited, called_of_apply rfl (apply_derivative ns hr x),
    keepIfEqual_of_builtIn hcall (builtIn_of_plain hplain)]
  rfl

theorem evaluated_arrow (hv : Expr.Canonical v) :
    evaluated (arrow (symbol x) v) = arrow (symbol x) (evaluated v) := by
  have hc : Expr.Canonical (.binary .arrow (symbol x) v) := .binary (by decide) (.var x) hv
  rw [arrow, evaluated_binary (by decide) hc, binaryStep,
    show evaluated (symbol x) = symbol x from evaluated_var x none]
  rfl

theorem height_derivativeAt_le (hc : Expr.Canonical f) (hl : f.leaves ≠ ⊤)
    (hr : RationalForm (evaluated f)) (hw : IsRational (derivativeWithin f x))
    (hv : Expr.Canonical v) :
    Expr.Canonical (derivativeAt f x v) ∧
      (derivativeAt f x v).height ≤ (f.size + 1) * (6 * f.size) + 4 * f.size + 6 * v.size := by
  have hcd := canonical_derived (symbol x) hr
  have hcw : Expr.Canonical (derivativeWithin f x) := canonical_evaluated hcd
  have hcv := canonical_evaluated hv
  have hb := Bindings.ofVariables_singleton x (evaluated v)
  have hat : derivativeAt f x v =
      substituteWith false (.singleton (symbol x) (evaluated v)) (derivativeWithin f x) := rfl
  have hleaves : (evaluated f).leaves ≤ f.size := (leaves_evaluated_le hc).trans (leaves_le_size hl)
  have hvalue : (evaluated v).termHeight + 2 ≤ 6 * v.size := by
    have h₁ := (shrinks_evaluated hv).termHeight_le
    have h₂ := termHeight_le_height_add_two v
    have h₃ := height_add_le v
    omega
  have hwithin : (derivativeWithin f x).termHeight ≤ (f.size + 1) * (6 * f.size) + 4 * f.size := by
    have h₁ : (derivativeWithin f x).termHeight ≤ (derived (symbol x) (evaluated f)).termHeight :=
      (shrinks_evaluated hcd).termHeight_le
    have h₂ := termHeight_derived_le (x := x) hr hleaves
    have h₃ : (evaluated f).termHeight ≤ 6 * f.size := by
      have h₄ := (shrinks_evaluated hc).termHeight_le
      have h₅ := termHeight_le_height_add_two f
      have h₆ := height_add_le f
      omega
    have h₇ := Nat.mul_le_mul_left (f.size + 1) h₃
    split at h₂ <;> omega
  rw [hat]
  refine ⟨canonical_substituteWith (List.forall_mem_singleton.mpr hcv) hw.plain, ?_⟩
  have h₁ := (raised_substituteWith (i := false) hb
    (List.forall_mem_singleton.mpr ⟨hcv, hvalue⟩) ⟨hw, hcw⟩).termHeight_le
  have h₂ := height_le_termHeight (substituteWith false (.singleton (symbol x) (evaluated v))
    (derivativeWithin f x))
  omega

theorem quadratic_le_cube (a b : Nat) :
    (a + 1) * (6 * a) + 10 * a + 6 * b + 1 + 2 ≤ (a + b + 1000) ^ 3 := by
  have hcube : 1000 * (a + b + 1000) ^ 2 ≤ (a + b + 1000) ^ 3 := by
    rw [pow_succ _ 2, Nat.mul_comm]
    exact Nat.mul_le_mul_left _ (by omega)
  nlinarith [Nat.zero_le (a * a), Nat.zero_le (a * b), Nat.zero_le (b * b)]

/-- **The deferred substitution is made in the derivative.** -/
theorem evaluate_deferred (ns : Namespace) (hc : Expr.Canonical f) (hl : f.leaves ≠ ⊤)
    (hr : RationalForm (evaluated f)) (hw : IsRational (derivativeWithin f x))
    (hv : Expr.Canonical v) :
    (substituteLater (derivativeOf f x) (arrow (symbol x) v)).evaluate ns.context =
      evaluated (derivativeAt f x v) := by
  obtain ⟨hca, hheight⟩ := height_derivativeAt_le hc hl hr hw hv
  let n := (f.size + 1) * (6 * f.size) + 10 * f.size + 6 * v.size + 1
  have hf := height_add_le f
  have harrow : (arrow (symbol x) v).height = v.height + 1 := by
    rw [arrow, height_binary (by decide), symbol, height, Nat.zero_max]
  have hv' := height_add_le v
  -- The depth that the node sets aside is far beyond what the derivative needs.
  have hdepth : n + 2 ≤ depthFor (substituteLater (derivativeOf f x) (arrow (symbol x) v)) := by
    have hsize : f.size + v.size ≤
        (substituteLater (derivativeOf f x) (arrow (symbol x) v)).size := by
      simp only [substituteLater, arrow, size, sizeList]
      omega
    have hpow := Nat.pow_le_pow_left (Nat.add_le_add_right hsize 1000) 3
    exact (quadratic_le_cube f.size v.size).trans hpow
  refine evaluate_of_outcome? (outcome?_substituteLater
    (outcome?_derivativeOf ns hc hr (n := n) ?_)
    (outcome?_eq_evaluated _ (.binary (by decide) (.var x) hv) ?_) ?_ ?_) hdepth
  · omega
  · omega
  · have hsubstituted : (derivativeWithin f x).substitute
        (.ofArrows (arrow (symbol x) (evaluated v)).members) = derivativeAt f x v := rfl
    rw [evaluated_arrow hv, hsubstituted]
    exact outcome?_eq_evaluated _ hca (by omega)
  · exact builtIn_of_plain (canonical_evaluated hca).plain

end Evaluation

/-! ## The value -/

section Value

variable {f v : Expr} {x : String} {b : Bindings} {σ : String → Rat}

theorem denotes_derivative (hf : RationalForm f) (hd : Defined σ f)
    (hexact : ∀ e ∈ settlements (symbol x) f, ExactPowers e) :
    Denotes σ (evaluated (derived (symbol x) f)) (slope σ x f) := by
  have hslope := denotes_derived hf hd fun e he => hexact e (List.mem_append_left _ he)
  rw [← hslope.value_eq]
  exact denotes_evaluated (canonical_derived _ hf)
    (hexact _ (List.mem_append_right _ (List.mem_singleton_self _))) hslope.defined

theorem isRational_derivative (hf : RationalForm f) (hd : Defined σ f)
    (hexact : ∀ e ∈ settlements (symbol x) f, ExactPowers e) :
    IsRational (evaluated (derived (symbol x) f)) :=
  isRational_of_leaves (denotes_derivative hf hd hexact).defined
    (leaves_evaluated_ne_top (canonical_derived _ hf) (leaves_derived_ne_top _ hf))

/-- Where a valuation is moved in `x`, the other variables of `f` keep the values of what is bound to
them if `x` does not occur in it. -/
theorem value_substitutedBefore_moved (hf : IsRational f) (w t : Rat)
    (hfree : ∀ n u, n ≠ x → b.get? (symbol n) = some u → f.dependsOn (symbol n) = true →
      u.dependsOn (symbol x) = false) :
    value ((b.erase (symbol x)).valuation (moved (moved σ x w) x t)) f =
      value (moved (b.valuation σ) x t) f := by
  refine value_eq_of_occurring hf fun n hn => ?_
  have hmoved : moved (moved σ x w) x t = moved σ x t := Function.update_idem _ _ _
  rw [hmoved, Bindings.valuation]
  by_cases hnx : n = x
  · subst hnx
    rw [b.get?_erase_self, moved_apply_self (b.valuation σ)]
    exact moved_apply_self σ n t
  · rw [Bindings.get?_erase_symbol hnx, moved_apply_of_ne (σ := b.valuation σ) hnx]
    cases hget : b.get? (symbol n) with
    | none =>
      have hvalue : b.valuation σ n = σ n := by rw [Bindings.valuation, hget]
      exact (moved_apply_of_ne hnx t).trans hvalue.symm
    | some u =>
      have hvalue : b.valuation σ n = value σ u := by rw [Bindings.valuation, hget]
      refine Eq.trans ?_ hvalue.symm
      refine value_congr (fun y hy => ?_) (hfree n u hnx hget hn)
      have hne : y ≠ x := fun h => hy (h ▸ List.mem_singleton_self _)
      exact moved_apply_of_ne hne t

/-- What is evaluated on the way: the argument with the bindings that are not held back, the value
that is held back, the derivative at this value, and what the two differentiations evaluate. -/
def deferralSteps (b : Bindings) (x : String) (v f : Expr) : List Expr :=
  let g := substitutedBefore b x f
  [g, v, derivativeAt g x v] ++ settlements (symbol x) (evaluated g) ++ settlements (symbol x) f

/-- **Deferred substitution is transparent for polynomials**: evaluating `D[f, x]` under bindings that
hold back the one of `x` gives the value of the derivative of `f` under all of them, if `x` does not
occur in what is bound to another variable of `f`, and if the powers of constants computed on the way
are exact. -/
theorem denotes_evaluate_deferred (hf : PolynomialForm f) (hb : b.OfVariables)
    (hvalues : ∀ p ∈ b.entries, PolynomialForm p.2) (hx : b.get? (symbol x) = some v)
    (hfree : ∀ n u, n ≠ x → b.get? (symbol n) = some u → f.dependsOn (symbol n) = true →
      u.dependsOn (symbol x) = false)
    (hexact : ∀ e ∈ deferralSteps b x v f, ExactPowers e) (ns : Namespace) (σ : String → Rat) :
    ∃ df q, differentiate f (symbol x) ns.context = .ok df ∧ Denotes σ (df.substitute b) q ∧
      Denotes σ (((derivativeOf f x).substitute b).evaluate ns.context) q := by
  simp only [deferralSteps, List.mem_append, List.mem_cons, List.not_mem_nil, or_false] at hexact
  have hfr := hf.rationalForm
  obtain ⟨p, hp, rfl⟩ := Bindings.exists_of_get? hx
  have hvp := hvalues p hp
  -- The argument of the call
  set g := substitutedBefore b x f with hg
  have herase := hb.erase (symbol x)
  have hrest : ∀ q ∈ (b.erase (symbol x)).entries, PolynomialForm q.2 :=
    fun q hq => hvalues q (List.mem_filter.mp hq).1
  have hcg : Expr.Canonical g :=
    canonical_substituteWith (fun q hq => (hrest q hq).canonical) hfr.rational.plain
  have hlg : g.leaves ≠ ⊤ := leaves_substituteWith_ne_top herase
    (fun q hq => leaves_ne_top_of_isRational (hrest q hq).polynomial.rational) hfr.rational
  have hdg (ρ : String → Rat) : Denotes ρ g (value ((b.erase (symbol x)).valuation ρ) f) :=
    denotes_substituteWith herase (fun q hq => (hrest q hq).polynomial.defined ρ) hfr.rational
      (hf.polynomial.defined _)
  have hexactg : ExactPowers g := hexact g (by simp)
  have heg (ρ : String → Rat) := denotes_evaluated hcg hexactg (hdg ρ).defined
  have hrg := rationalForm_evaluated hcg hlg (hdg σ).defined hexactg
  -- The derivative and its slope
  set ρ := moved σ x (value σ p.2) with hρ
  have hsettled : ∀ e ∈ settlements (symbol x) (evaluated g), ExactPowers e :=
    fun e he => hexact e (.inl (.inr he))
  have hwithin : Denotes ρ (derivativeWithin g x) (slope ρ x (evaluated g)) :=
    denotes_derivative hrg (heg ρ).defined hsettled
  have hrw : IsRational (derivativeWithin g x) := isRational_derivative hrg (heg ρ).defined hsettled
  have hvaluation : b.valuation σ x = value σ p.2 := by rw [Bindings.valuation, hx]
  have hslope : slope ρ x (evaluated g) = slope (b.valuation σ) x f := by
    refine slope_congr hrg.rational (heg ρ).defined hfr.rational (hf.polynomial.defined _) ?_
      fun t => ?_
    · exact (moved_apply_self σ x _).trans hvaluation.symm
    · rw [(heg _).value_eq, (hdg _).value_eq]
      exact value_substitutedBefore_moved hfr.rational _ t hfree
  -- The held binding
  have hev := denotes_evaluated hvp.canonical (hexact p.2 (by simp)) (hvp.polynomial.defined σ)
  have hsingle : (Bindings.singleton (symbol x) (evaluated p.2)).valuation σ = ρ := by
    rw [Bindings.valuation_singleton, hev.value_eq]
  have hat : Denotes σ (derivativeAt g x p.2) (slope (b.valuation σ) x f) := by
    have h := denotes_substituteWith (i := false) (σ := σ)
      (Bindings.ofVariables_singleton x (evaluated p.2))
      (List.forall_mem_singleton.mpr hev.defined) hrw (hsingle ▸ hwithin.defined)
    rwa [hsingle, hwithin.value_eq, hslope] at h
  have hca := (height_derivativeAt_le hcg hlg hrg hrw hvp.canonical).1
  -- The derivative of `f` under the bindings
  have hsettledf : ∀ e ∈ settlements (symbol x) f, ExactPowers e := fun e he => hexact e (.inr he)
  have hdf := denotes_derivative hfr (hf.polynomial.defined (b.valuation σ)) hsettledf
  have hrdf := isRational_derivative hfr (hf.polynomial.defined (b.valuation σ)) hsettledf
  have hsub := denotes_substituteWith (i := false) hb
    (fun q hq => (hvalues q hq).polynomial.defined σ) hrdf hdf.defined
  refine ⟨_, slope (b.valuation σ) x f, differentiate_eq hfr x _, ?_, ?_⟩
  · rw [substitute, Bindings.isEmpty_eq_false hx, if_neg Bool.false_ne_true, ← hdf.value_eq]
    exact hsub
  · rw [substitute_derivative hb hx, evaluate_deferred ns hcg hlg hrg hrw hvp.canonical,
      ← hat.value_eq]
    exact denotes_evaluated hca (hexact _ (by simp)) hat.defined

end Value

/-- `D[x^2 + y, x]` at `x -> 3`, `y -> z` is `6`. -/
theorem denotes_evaluate_deferred_square :
    Denotes (fun _ => 1) (((derivativeOf
      (.sum [power (symbol "x") (.const 2), symbol "y"]) "x").substitute
        ⟨[(symbol "x", .const 3), (symbol "y", symbol "z")]⟩).evaluate Namespace.standard.context)
      6 := by
  have square (n : String) : IsPolynomial (.sum [power (symbol "x") (.const 2), symbol n]) :=
    .sum (List.forall_mem_cons.mpr ⟨.power (.var "x") rfl (by norm_num),
      List.forall_mem_singleton.mpr (.var n)⟩)
  have canonical {n : String} (h : sumOf [power (symbol "x") (.const 2), symbol n] =
      .sum [power (symbol "x") (.const 2), symbol n]) :
      Expr.Canonical (.sum [power (symbol "x") (.const 2), symbol n]) :=
    .sum (List.forall_mem_cons.mpr ⟨Expr.Canonical.power (.var "x") (.const 2),
      List.forall_mem_singleton.mpr (.var n)⟩) h
  have hf : PolynomialForm (.sum [power (symbol "x") (.const 2), symbol "y"]) :=
    ⟨square "y", canonical (by cbv)⟩
  have hg : PolynomialForm (.sum [power (symbol "x") (.const 2), symbol "z"]) :=
    ⟨square "z", canonical (by cbv)⟩
  have hbefore : substitutedBefore ⟨[(symbol "x", .const 3), (symbol "y", symbol "z")]⟩ "x"
      (.sum [power (symbol "x") (.const 2), symbol "y"]) =
        .sum [power (symbol "x") (.const 2), symbol "z"] := by cbv
  have hevaluated : evaluated (.sum [power (symbol "x") (.const 2), symbol "z"]) =
      .sum [power (symbol "x") (.const 2), symbol "z"] := by cbv
  have hat : derivativeAt (.sum [power (symbol "x") (.const 2), symbol "z"]) "x" (.const 3) =
      .const 6 := by cbv
  have hexact : ∀ e ∈ deferralSteps ⟨[(symbol "x", .const 3), (symbol "y", symbol "z")]⟩ "x"
      (.const 3) (.sum [power (symbol "x") (.const 2), symbol "y"]), ExactPowers e := by
    have constant (q : Rat) : ExactPowers (.const q) :=
      exactPowers_of_degree_le (σ := fun _ => 0) (.const q) (.const q) (Nat.zero_le _)
    have settled {f : Expr} (h : PolynomialForm f) :=
      (differentiate_dualValue h.rationalForm (h.polynomial.defined fun _ => 0) "x").2
    simp only [deferralSteps, hbefore, hevaluated, hat, List.forall_mem_append,
      List.forall_mem_cons, List.not_mem_nil, false_imp_iff, implies_true, and_true]
    refine ⟨⟨⟨?_, constant 3, constant 6⟩, settled hg ?_ ?_⟩, settled hf ?_ ?_⟩
    · exact exactPowers_of_degree_le hg.canonical (hg.polynomial.defined fun _ => 0) (by decide)
    all_goals decide +kernel
  have hfree : ∀ n u, n ≠ "x" →
      Bindings.get? ⟨[(symbol "x", .const 3), (symbol "y", symbol "z")]⟩ (symbol n) = some u →
      (Expr.sum [power (symbol "x") (.const 2), symbol "y"]).dependsOn (symbol n) = true →
      u.dependsOn (symbol "x") = false := by
    rintro n u - hget -
    obtain ⟨p, hp, rfl⟩ := Bindings.exists_of_get? hget
    simp only [List.mem_cons, List.not_mem_nil, or_false] at hp
    obtain rfl | rfl := hp <;> rfl
  obtain ⟨df, q, hdf, hq, hdenotes⟩ := denotes_evaluate_deferred hf
    (List.forall_mem_cons.mpr ⟨rfl, List.forall_mem_singleton.mpr rfl⟩)
    (List.forall_mem_cons.mpr ⟨⟨.const 3, .const 3⟩, List.forall_mem_singleton.mpr
      ⟨.var "z", .var "z"⟩⟩) (by cbv) hfree hexact .standard fun _ => 1
  have hderivative : evaluated (derived (symbol "x")
      (.sum [power (symbol "x") (.const 2), symbol "y"])) =
        .product [.const 2, symbol "x"] := by cbv
  have hsubstituted : (Expr.product [.const 2, symbol "x"]).substitute
      ⟨[(symbol "x", .const 3), (symbol "y", symbol "z")]⟩ = .const 6 := by cbv
  rw [differentiate_eq hf.rationalForm, hderivative] at hdf
  obtain rfl := Except.ok.inj hdf
  rw [hsubstituted] at hq
  have hvalue : 6 = q := (value_const 6).symm.trans hq.value_eq
  exact hvalue ▸ hdenotes

/-- Where `y` is bound to `x`, the derivative of `y` by `x` at `x -> 3` is `1` if the binding of `x`
is held back and `0` if it is not. -/
theorem evaluate_deferred_captured : ∃ df,
    differentiate (symbol "y") (symbol "x") Namespace.standard.context = .ok df ∧
      value (fun _ => 0) (((derivativeOf (symbol "y") "x").substitute
        ⟨[(symbol "x", .const 3), (symbol "y", symbol "x")]⟩).evaluate
          Namespace.standard.context) = 1 ∧
      value (fun _ => 0) (df.substitute
        ⟨[(symbol "x", .const 3), (symbol "y", symbol "x")]⟩) = 0 := by
  have hy : RationalForm (symbol "y") := ⟨.var "y", .var "y"⟩
  have hx : RationalForm (symbol "x") := ⟨.var "x", .var "x"⟩
  have hbefore : substitutedBefore ⟨[(symbol "x", .const 3), (symbol "y", symbol "x")]⟩ "x"
      (symbol "y") = symbol "x" := by cbv
  have hat : derivativeAt (symbol "x") "x" (.const 3) = .const 1 := by cbv
  have hwithin : derivativeWithin (symbol "x") "x" = .const 1 := by cbv
  have hderivative : evaluated (derived (symbol "x") (symbol "y")) = .const 0 := by cbv
  have hevaluated : evaluated (symbol "x") = symbol "x" := evaluated_var "x" none
  have hdf := differentiate_eq hy "x" Namespace.standard.context
  rw [hderivative] at hdf
  have hsubstituted : (Expr.const 0).substitute
      ⟨[(symbol "x", .const 3), (symbol "y", symbol "x")]⟩ = .const 0 := by cbv
  have hvariables : Bindings.OfVariables ⟨[(symbol "x", .const 3), (symbol "y", symbol "x")]⟩ :=
    List.forall_mem_cons.mpr ⟨rfl, List.forall_mem_singleton.mpr rfl⟩
  refine ⟨.const 0, hdf, ?_, ?_⟩
  · rw [substitute_derivative (v := .const 3) hvariables (by cbv), hbefore,
      evaluate_deferred _ hx.canonical (by simp) (hevaluated ▸ hx) (hwithin ▸ .const 1) (.const 3),
      hat, evaluated_const, value_const]
  · rw [hsubstituted, value_const]

end SymbolicAlgebra
