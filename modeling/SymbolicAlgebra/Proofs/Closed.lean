import Mathlib.Algebra.Module.Submodule.Lattice
import SymbolicAlgebra.Proofs.Exponents

/-!
# Closed expressions

An expression built from constants by sums, products, moderate integer powers, exact relations and
connectives evaluates to a constant, which is its value. Each step that is given constants makes a
constant of them (`productStep_const`, `powerStep_const`, `binaryStep_const`, `notStep_const`), so
nothing is left over however deep the nesting. The coefficients of linear combinations are computed
with the arithmetic ones among these expressions.

Results:
* `evaluate_ground`: an expression without variables evaluates to its value.
* `Computes.evaluate`: an expression that computes `q` evaluates to the constant `q`.
* `Computes.sumOf`, `Computes.productOf`, `Computes.divide`, …: the ways to build such expressions.
-/

namespace SymbolicAlgebra

namespace Expr

/-- Built from constants by sums, products and powers with moderate exponents. -/
inductive Closed : Expr → Prop
  | const (q : Rat) : Closed (const q)
  | sum {ts : List Expr} : (∀ t ∈ ts, Closed t) → Closed (sum ts)
  | product {fs : List Expr} : (∀ f ∈ fs, Closed f) → Closed (product fs)
  | power {b : Expr} {n : Rat} : Closed b → n.num.natAbs ≤ Rational.maxExactExponent →
    Closed (power b (.const n))

theorem Closed.of_terms {e : Expr} (h : Closed e) : ∀ t ∈ e.terms, Closed t := by
  refine forall_mem_terms h fun ts h => ?_
  cases h with
  | sum hts => exact hts

theorem Closed.of_factors {e : Expr} (h : Closed e) : ∀ f ∈ e.factors, Closed f := by
  refine forall_mem_factors h fun fs h => ?_
  cases h with
  | product hfs => exact hfs

theorem closed_sumOf {xs : List Expr} (h : ∀ x ∈ xs, Closed x) : Closed (sumOf xs) :=
  sumOf_induction .const (fun x hx => (h x hx).of_terms) fun _ => .sum

theorem closed_productOf {xs : List Expr} (h : ∀ x ∈ xs, Closed x) : Closed (productOf xs) :=
  productOf_induction id .const (fun x hx => (h x hx).of_factors) fun _ => .product

/-- Built from constants by sums, products, powers with moderate exponents, exact relations and
connectives. -/
inductive Ground : Expr → Prop
  | const (q : Rat) : Ground (const q)
  | sum {ts : List Expr} : (∀ t ∈ ts, Ground t) → Ground (sum ts)
  | product {fs : List Expr} : (∀ f ∈ fs, Ground f) → Ground (product fs)
  | power {b : Expr} {n : Rat} : Ground b → n.num.natAbs ≤ Rational.maxExactExponent →
    Ground (power b (.const n))
  | binary {op : BinaryOp} {l r : Expr} : op.isLogical = true → Ground l → Ground r →
    Ground (binary op l r)
  | not {a : Expr} : Ground a → Ground (not a)

theorem Closed.ground {e : Expr} (h : Closed e) : Ground e := by
  induction h with
  | const q => exact .const q
  | sum _ ih => exact .sum ih
  | product _ ih => exact .product ih
  | power _ hn ih => exact .power ih hn

theorem collect_map_const (qs : List Rat) : collect (qs.map const) = const qs.sum := by
  rw [collect_eq, likeTerms, splits, others_map_const, constants_map_const]
  exact (Canonical.const qs.sum).sumOf_terms

theorem productOf_singleton_const (q : Rat) : productOf [const q] = const q := by
  rw [← factors_const, (Canonical.const q).productOf_factors]

/-- A sum of constants is built as their sum. -/
theorem sumOf_map_const (qs : List Rat) : sumOf (qs.map const) = const qs.sum := by
  rw [sumOf_eq, flatMap_terms_map_const, constants_map_const, arranged, others_map_const]
  split
  · rename_i h
    rw [h]
    rfl
  · rfl

end Expr

namespace Evaluator

open Expr

variable {σ : String → Rat}

theorem ofFactors_map_const (qs : List Rat) :
    Bases.ofFactors (qs.map Expr.const) = ⟨qs.prod, .empty⟩ := by
  rw [Bases.ofFactors_eq, constants_map_const, exponentsOf, others_map_const]
  rfl

/-- Factors that are visited to constants leave no base. -/
theorem visitedBases_const {v : Expr → Expr} {fs : List Expr} {g : Expr → Rat}
    (h : ∀ f ∈ fs, v f = .const (g f)) : visitedBases v fs = ⟨(fs.map g).prod, .empty⟩ := by
  have hmap : (fs.map v).flatMap factors = (fs.map g).map Expr.const := by
    rw [List.map_congr_left h, List.map_map]
    induction fs with
    | nil => rfl
    | cons f fs ih =>
      rw [List.map_cons, List.flatMap_cons, factors_const, List.map_cons,
        ih fun f' hf' => h f' (List.mem_cons_of_mem _ hf')]
      rfl
  rw [visitedBases, hmap, ofFactors_map_const]

/-- A product of factors that are visited to constants is their product. -/
theorem productStep_const {v : Expr → Expr} {fs : List Expr} {g : Expr → Rat}
    (h : ∀ f ∈ fs, v f = .const (g f)) : productStep v fs = .const (fs.map g).prod := by
  rw [productStep, visitedBases_const h]
  split
  · rename_i h0
    dsimp only at h0
    rw [h0]
    rfl
  · have habsorbed : (Bases.mk (fs.map g).prod .empty).absorbed v =
        ⟨(fs.map g).prod, .empty⟩ := by
      rw [Bases.absorbed]
      split
      · rfl
      · rfl
    rw [habsorbed, Bases.product_eq]
    exact productOf_singleton_const _

/-- A moderate power of a constant is a constant. -/
theorem exists_const_simplePower {p n : Rat} (hn : Rational.isInteger n = true)
    (hle : n.num.natAbs ≤ Rational.maxExactExponent) :
    ∃ q, simplePower (.const p) (.const n) = .const q := by
  obtain ⟨q, hq⟩ | ⟨-, hb⟩ | ⟨-, hz, -, -, -, hnone⟩ := simplePower_cases (.const p) (.const n)
  · exact ⟨q, hq⟩
  · exact ⟨p, hb⟩
  · have hp : p ≠ 0 := fun h => by
      rw [h] at hz
      cases hz
    have hexact : Rational.exactExponent? n = some n.num := by
      rw [Rational.exactExponent?, hn, Bool.true_and, decide_eq_true hle, if_pos rfl]
    have := hnone p n rfl rfl
    rw [Rational.pow?, hexact] at this
    simp [hp] at this

/-- A moderate power of what is visited to a constant is the power of the constant. -/
theorem powerStep_const {v : Expr → Expr} {b : Expr} {p n : Rat} (hb : v b = .const p)
    (hx : v (.const n) = .const n) (hle : n.num.natAbs ≤ Rational.maxExactExponent)
    (hd : Defined σ (Expr.power (.const p) (.const n))) :
    powerStep v b (.const n) = .const (p ^ n.num) := by
  have hn : Rational.isInteger n = true := by
    cases hd with
    | power _ hn _ _ => exact hn
    | binary hop _ _ => cases hop
  have hstep : powerStep v b (.const n) = simplePower (.const p) (.const n) := by
    rw [powerStep, hb, hx]
  obtain ⟨q, hq⟩ := exists_const_simplePower (p := p) hn hle
  have hvalue := (denotes_simplePower hd fun p u _ _ _ hu => pow?_exact hn hle hu).value_eq
  rw [hq, value_const, value_const] at hvalue
  rw [hstep, hq, hvalue]

/-! ### Truth -/

/-- Relations and connectives are decided on constants. -/
theorem exists_decide?_const {op : BinaryOp} (hop : op.isLogical = true) (p q : Rat) :
    ∃ t, decide? op (.const p) (.const q) = some t := by
  have hconst (p : Rat) : (Expr.const p).isTrue = !(Expr.const p).isZero := rfl
  cases op <;> cases hop
  case conj =>
    change ∃ t, connect? .conj (.const p) (.const q) = some t
    rw [connect?, hconst, hconst]
    cases (Expr.const p).isZero <;> cases (Expr.const q).isZero <;> exact ⟨_, rfl⟩
  case disj =>
    change ∃ t, connect? .disj (.const p) (.const q) = some t
    rw [connect?, hconst, hconst]
    cases (Expr.const p).isZero <;> cases (Expr.const q).isZero <;> exact ⟨_, rfl⟩
  all_goals exact ⟨_, rfl⟩

theorem boolean_eq (t : Bool) : Expr.boolean t = .const (truth t) := by
  cases t <;> rfl

/-- A relation or connective between what is visited to constants is its truth. -/
theorem binaryStep_const {v : Expr → Expr} {op : BinaryOp} {l r : Expr} {p q : Rat}
    (hop : op.isLogical = true) (hl : v l = .const p) (hr : v r = .const q) :
    binaryStep v op l r = .const (op.value p q) := by
  obtain ⟨t, ht⟩ := exists_decide?_const hop p q
  have hvalue := value_decide? (σ := fun _ => 0) (.const p) (.const q) hop ht
  rw [value_const, value_const] at hvalue
  rw [binaryStep, hl, hr, ht, hvalue]
  exact boolean_eq t

theorem notStep_const {v : Expr → Expr} {a : Expr} {p : Rat} (h : v a = .const p) :
    notStep v a = .const (truth (p == 0)) := by
  have hconst : (Expr.const p).isTrue = !(p == 0) := rfl
  rw [notStep, h, hconst, show (Expr.const p).isZero = (p == 0) from rfl]
  cases p == 0 <;> rfl

/-! ### The whole evaluation -/

/-- **An expression without variables evaluates to its value**: its operands are visited to constants,
and the step makes a constant of them. -/
theorem evaluated_ground {e : Expr} (hg : Expr.Ground e) (he : Expr.Canonical e)
    (hd : Defined σ e) : evaluated e = .const (value σ e) := by
  induction hg with
  | const q => rw [evaluated_const, value_const]
  | @sum ts _ ih =>
    have hts : ts.map evaluated = (ts.map (value σ)).map Expr.const := by
      rw [List.map_map]
      exact List.map_congr_left fun t ht => ih t ht (he.of_sum t ht) (hd.of_terms t ht)
    rw [evaluated_sum he, hts, flatMap_terms_map_const, collect_map_const, value_sum]
  | @product fs _ ih =>
    rw [evaluated_product he, productStep_const fun f hf =>
      ih f hf (he.of_product f hf) (hd.of_factors f hf), value_product]
  | @power b n _ hle ih =>
    obtain ⟨hb, hpow⟩ : Defined σ b ∧ Defined σ (Expr.power (.const (value σ b)) (.const n)) := by
      cases hd with
      | power hb hn h0 hneg =>
        exact ⟨hb, .power (.const _) hn h0 fun hlt => by rw [value_const]; exact hneg hlt⟩
      | binary hop _ _ => cases hop
    rw [evaluated_power he, powerStep_const (ih he.of_binary.1 hb) (evaluated_const n) hle hpow,
      value_power]
  | @binary op l r hop _ _ ihl ihr =>
    obtain ⟨hl, hr⟩ : Defined σ l ∧ Defined σ r := by
      cases hd with
      | power _ _ _ _ => cases hop
      | binary _ hl hr => exact ⟨hl, hr⟩
    rw [evaluated_binary (by rintro rfl; cases hop) he,
      binaryStep_const hop (ihl he.of_binary.1 hl) (ihr he.of_binary.2 hr), value_binary]
  | not _ ih =>
    cases hd with
    | not ha =>
      cases he with
      | not hca => rw [evaluated_not (.not hca), notStep_const (ih hca ha), value_not]

end Evaluator

namespace Expr

open Evaluator

/-- **Arithmetic without variables is computed exactly**, truth included, in any context. -/
theorem evaluate_ground {σ : String → Rat} {e : Expr} {v : Rat} (hg : Ground e) (hc : Canonical e)
    (hv : Denotes σ e v) (ctx : Context) : e.evaluate ctx = .const v := by
  rw [evaluate_eq hc, evaluated_ground hg hc hv.defined, hv.value_eq]

/-- `3 * And[a <= 1/2, Not[0 == a]] + a` for `a = (2 ^ -1) ^ 3`. -/
theorem evaluate_ground_truth :
    let a := power (power (const 2) (const (-1))) (const 3)
    let g := binary .conj (binary .lessEqual a (const (1 / 2))) (not (binary .equal (const 0) a))
    (sum [product [const 3, g], a]).evaluate (.inert .standard) = .const (25 / 8) := by
  intro a g
  have ha : Denotes (fun _ => 0) a (1 / 8) := by
    refine ⟨.power (.power (.const 2) rfl (by norm_num) (by norm_num)) rfl (by norm_num)
      (by norm_num), ?_⟩
    rw [value_power, value_power, value_const]
    norm_num
  have hg : Denotes (fun _ => 0) g 1 := by
    refine ⟨.binary rfl (.binary rfl ha.defined (.const _))
      (.not (.binary rfl (.const 0) ha.defined)), ?_⟩
    rw [value_binary, value_binary, value_not, value_binary, ha.value_eq, value_const, value_const]
    norm_num [BinaryOp.value, truth]
  have hcanon : Canonical a ∧ Canonical g := by
    have hca : Canonical a := Canonical.power (Canonical.power (.const 2) (.const (-1))) (.const 3)
    exact ⟨hca, .binary (by decide) (.binary (by decide) hca (.const _))
      (.not (.binary (by decide) (.const 0) hca))⟩
  have hground : Ground a ∧ Ground g := by
    have hga : Ground a := .power (.power (.const 2) (by decide)) (by decide)
    exact ⟨hga, .binary rfl (.binary rfl hga (.const _)) (.not (.binary rfl (.const 0) hga))⟩
  refine evaluate_ground (σ := fun _ => 0) ?_ ?_ ?_ _
  · exact .sum (forall_mem_pair (.product (forall_mem_pair (.const 3) hground.2)) hground.1)
  · exact .sum (forall_mem_pair (.product (forall_mem_pair (.const 3) hcanon.2) (by cbv)) hcanon.1)
      (by cbv)
  · refine ⟨.sum (forall_mem_pair (.product (forall_mem_pair (.const 3) hg.defined)) ha.defined), ?_⟩
    rw [value_sum, List.map_cons, List.map_singleton, value_product, List.map_cons,
      List.map_singleton, value_const, hg.value_eq, ha.value_eq]
    norm_num

/-- Canonical, closed and defined, with value `q`. -/
structure Computes (e : Expr) (q : Rat) : Prop where
  canonical : Canonical e
  closed : Closed e
  denotes : Denotes (fun _ => 0) e q

namespace Computes

variable {a b : Expr} {p q : Rat}

theorem const (q : Rat) : Computes (.const q) q :=
  ⟨.const q, .const q, .const q, value_const q⟩

theorem evaluated (h : Computes a p) : Evaluator.evaluated a = .const p := by
  rw [evaluated_ground h.closed.ground h.canonical h.denotes.defined, h.denotes.value_eq]

/-- **An expression that computes `q` evaluates to the constant `q`.** -/
theorem evaluate (h : Computes a p) (ctx : Context) : a.evaluate ctx = .const p := by
  rw [evaluate_eq h.canonical, h.evaluated]

theorem sumOf_list {es : List Expr} (h : ∀ e ∈ es, ∃ q, Computes e q) :
    Computes (Expr.sumOf es) (es.map (value fun _ => 0)).sum := by
  have hdenotes := denotes_sumOf fun e he => ((h e he).choose_spec).denotes.defined
  exact ⟨canonical_sumOf fun e he => (h e he).choose_spec.canonical,
    closed_sumOf fun e he => (h e he).choose_spec.closed, hdenotes⟩

theorem sumOf (ha : Computes a p) (hb : Computes b q) : Computes (sumOf [a, b]) (p + q) := by
  have hsum := sumOf_list (List.forall_mem_cons.mpr
    ⟨⟨p, ha⟩, List.forall_mem_singleton.mpr ⟨q, hb⟩⟩)
  simpa [ha.denotes.value_eq, hb.denotes.value_eq] using hsum

theorem productOf (ha : Computes a p) (hb : Computes b q) :
    Computes (productOf [a, b]) (p * q) := by
  exact ⟨canonical_productOf (List.forall_mem_cons.mpr
    ⟨ha.canonical, List.forall_mem_singleton.mpr hb.canonical⟩),
    closed_productOf (List.forall_mem_cons.mpr
      ⟨ha.closed, List.forall_mem_singleton.mpr hb.closed⟩),
    denotes_productOf_pair ha.denotes hb.denotes⟩

theorem negate (ha : Computes a p) : Computes (negate a) (-p) := by
  have := (const (-1)).productOf ha
  rwa [neg_one_mul] at this

theorem inverse (ha : Computes a p) (h0 : p ≠ 0) : Computes (inverse a) p⁻¹ := by
  refine ⟨ha.canonical.power (.const (-1)), .power ha.closed (by decide), ?_, ?_⟩
  · exact .power ha.denotes.defined rfl (by norm_num) fun _ => ha.denotes.value_eq ▸ h0
  · rw [Expr.inverse, value_power, ha.denotes.value_eq]
    exact zpow_neg_one p

theorem divide (ha : Computes a p) (hb : Computes b q) (h0 : q ≠ 0) :
    Computes (divide a b) (p / q) := by
  have := ha.productOf (hb.inverse h0)
  rwa [← div_eq_mul_inv] at this

end Computes

end Expr

end SymbolicAlgebra
