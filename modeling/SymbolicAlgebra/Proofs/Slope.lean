import Mathlib.Algebra.DualNumber
import Mathlib.Analysis.Calculus.Deriv.Add
import Mathlib.Analysis.Calculus.Deriv.Mul
import Mathlib.Analysis.Calculus.Deriv.ZPow
import Mathlib.Analysis.Normed.Field.Lemmas
import Mathlib.Topology.Algebra.Module.ModuleTopology
import SymbolicAlgebra.Proofs.Value

/-!
# Values in dual numbers

A rational expression at `x + ε` with `ε ^ 2 = 0`: the part without `ε` is the value, the part at `ε`
is the slope. The product rule over all factors and the power rule for every integer exponent come
from the arithmetic of dual numbers; that a part without `x` has no slope comes from the derivative
of the value as a function of `x`.

Results:
* `dualValue_eq`: the value in dual numbers is `value + slope * ε`.
* `slope_sum`, `slope_product_cons`, `slope_power`: the rules.
* `hasDerivAt_value`: the slope is the derivative of the value by `x`.
* `slope_eq_zero`: an expression whose value does not move with `x` has no slope.
-/

namespace SymbolicAlgebra.Expr

/-- Built from constants and variables by sums, products and powers with nonzero integer exponents. -/
inductive IsRational : Expr → Prop
  | const (q : Rat) : IsRational (const q)
  | var (n : String) : IsRational (var n none)
  | sum {ts : List Expr} : (∀ t ∈ ts, IsRational t) → IsRational (sum ts)
  | product {fs : List Expr} : (∀ f ∈ fs, IsRational f) → IsRational (product fs)
  | power {b : Expr} {n : Rat} : IsRational b → Rational.isInteger n = true → n ≠ 0 →
    IsRational (power b (.const n))

theorem IsRational.plain {e : Expr} (h : IsRational e) : e.plain = true := by
  induction h with
  | const q => rfl
  | var n => rfl
  | sum _ ih => exact (plain_sum _).mpr ih
  | product _ ih => exact (plain_product _).mpr ih
  | power _ _ _ ih => exact (plain_binary _ _ _).mpr ⟨by decide, ih, rfl⟩

theorem IsRational.of_terms {e : Expr} (h : IsRational e) : ∀ t ∈ e.terms, IsRational t := by
  refine forall_mem_terms h fun ts h => ?_
  cases h with
  | sum hts => exact hts

theorem IsRational.of_factors {e : Expr} (h : IsRational e) : ∀ f ∈ e.factors, IsRational f := by
  refine forall_mem_factors h fun fs h => ?_
  cases h with
  | product hfs => exact hfs

theorem isRational_sumOf {xs : List Expr} (h : ∀ x ∈ xs, IsRational x) : IsRational (sumOf xs) :=
  sumOf_induction .const (fun x hx => (h x hx).of_terms) fun _ => .sum

theorem isRational_productOf {xs : List Expr} (h : ∀ x ∈ xs, IsRational x) :
    IsRational (productOf xs) :=
  productOf_induction id .const (fun x hx => (h x hx).of_factors) fun _ => .product

/-! ## Dual numbers -/

/-- A power with an integer exponent. -/
def dualPower (a : DualNumber Rat) : Int → DualNumber Rat
  | .ofNat n => a ^ n
  | .negSucc n => a⁻¹ ^ (n + 1)

mutual

/-- The value in dual numbers where `x` has moved by `ε`. -/
def dualValue (σ : String → Rat) (x : String) : Expr → DualNumber Rat
  | const q => TrivSqZeroExt.inl q
  | var n _ => TrivSqZeroExt.inl (σ n) + if n = x then DualNumber.eps else 0
  | sum ts => (dualValues σ x ts).sum
  | product fs => (dualValues σ x fs).prod
  | binary .power b (const n) => dualPower (dualValue σ x b) n.num
  | _ => 0

/-- The values of a list in dual numbers. -/
def dualValues (σ : String → Rat) (x : String) : List Expr → List (DualNumber Rat)
  | [] => []
  | t :: ts => dualValue σ x t :: dualValues σ x ts

end

/-- What the value moves by with `x`: the part at `ε`. -/
def slope (σ : String → Rat) (x : String) (e : Expr) : Rat :=
  (dualValue σ x e).snd

variable {σ : String → Rat} {x : String}

theorem dualValues_eq_map (ts : List Expr) : dualValues σ x ts = ts.map (dualValue σ x) := by
  induction ts with
  | nil => rw [dualValues, List.map_nil]
  | cons t ts ih => rw [dualValues, List.map_cons, ih]

theorem fst_dualPower (a : DualNumber Rat) (n : Int) : (dualPower a n).fst = a.fst ^ n := by
  cases n with
  | ofNat n => exact (TrivSqZeroExt.fst_pow a n).trans (zpow_natCast _ n).symm
  | negSucc n =>
    rw [dualPower, TrivSqZeroExt.fst_pow, TrivSqZeroExt.fst_inv, zpow_negSucc, inv_pow]

theorem snd_dualPower (a : DualNumber Rat) {n : Int} (hn : n ≠ 0) (h : n < 0 → a.fst ≠ 0) :
    (dualPower a n).snd = n * a.fst ^ (n - 1) * a.snd := by
  cases n with
  | ofNat n =>
    obtain ⟨m, rfl⟩ := Nat.exists_eq_succ_of_ne_zero (by simpa using hn : n ≠ 0)
    rw [dualPower, TrivSqZeroExt.snd_pow]
    simp [mul_assoc]
  | negSucc n =>
    have h0 := h (Int.negSucc_lt_zero n)
    rw [dualPower, TrivSqZeroExt.snd_pow, TrivSqZeroExt.fst_inv, TrivSqZeroExt.snd_inv]
    have : (Int.negSucc n - 1 : Int) = Int.negSucc (n + 1) := rfl
    rw [this, zpow_negSucc]
    simp only [smul_eq_mul, nsmul_eq_mul, Int.cast_negSucc, MulOpposite.smul_eq_mul_unop,
      MulOpposite.unop_op, Nat.pred_succ, inv_pow]
    field_simp
    ring

theorem fst_sum (as : List (DualNumber Rat)) : as.sum.fst = (as.map TrivSqZeroExt.fst).sum := by
  induction as with
  | nil => rfl
  | cons a as ih => rw [List.sum_cons, TrivSqZeroExt.fst_add, ih, List.map_cons, List.sum_cons]

theorem fst_prod (as : List (DualNumber Rat)) : as.prod.fst = (as.map TrivSqZeroExt.fst).prod := by
  induction as with
  | nil => rfl
  | cons a as ih => rw [List.prod_cons, TrivSqZeroExt.fst_mul, ih, List.map_cons, List.prod_cons]

theorem snd_sum (as : List (DualNumber Rat)) : as.sum.snd = (as.map TrivSqZeroExt.snd).sum := by
  induction as with
  | nil => rfl
  | cons a as ih => rw [List.sum_cons, TrivSqZeroExt.snd_add, ih, List.map_cons, List.sum_cons]

/-- The main part is the value. -/
theorem fst_dualValue {e : Expr} (h : IsRational e) : (dualValue σ x e).fst = value σ e := by
  induction h with
  | const q => simp [dualValue]
  | var n =>
    rw [dualValue, value_var]
    split <;> simp
  | sum _ ih =>
    rw [dualValue, dualValues_eq_map, value_sum, fst_sum, List.map_map]
    exact congrArg List.sum (List.map_congr_left ih)
  | product _ ih =>
    rw [dualValue, dualValues_eq_map, value_product, fst_prod, List.map_map]
    exact congrArg List.prod (List.map_congr_left ih)
  | power _ _ _ ih =>
    rw [power, dualValue, fst_dualPower, ih, ← power, value_power]

/-- The value in dual numbers is the value and the slope. -/
theorem dualValue_eq {e : Expr} (h : IsRational e) :
    dualValue σ x e = TrivSqZeroExt.inl (value σ e) + slope σ x e • DualNumber.eps := by
  ext
  · simp [fst_dualValue h]
  · simp [slope]

/-! ## Slopes -/

@[simp] theorem slope_const (q : Rat) : slope σ x (const q) = 0 := by
  simp [slope, dualValue]

theorem slope_var (n : String) (c : Option Condition) :
    slope σ x (var n c) = if n = x then 1 else 0 := by
  rw [slope, dualValue]
  split <;> simp

theorem slope_sum (ts : List Expr) : slope σ x (sum ts) = (ts.map (slope σ x)).sum := by
  rw [slope, dualValue, dualValues_eq_map, snd_sum, List.map_map]
  rfl

/-- The product rule, from the first factor on. -/
theorem slope_product_cons {f : Expr} {fs : List Expr} (h : ∀ g ∈ f :: fs, IsRational g) :
    slope σ x (product (f :: fs)) =
      slope σ x f * value σ (product fs) + value σ f * slope σ x (product fs) := by
  have hf : (dualValue σ x f).fst = value σ f := fst_dualValue (h f List.mem_cons_self)
  have hfs : (dualValue σ x (product fs)).fst = value σ (product fs) :=
    fst_dualValue (.product fun g hg => h g (List.mem_cons_of_mem f hg))
  simp only [slope, dualValue] at hfs ⊢
  rw [dualValues, List.prod_cons, TrivSqZeroExt.snd_mul, hf, hfs]
  simp only [smul_eq_mul, MulOpposite.smul_eq_mul_unop, MulOpposite.unop_op]
  ring

theorem slope_power {b : Expr} {n : Rat} (hb : IsRational b)
    (hd : Defined σ (power b (const n))) :
    slope σ x (power b (const n)) = n * value σ b ^ (n.num - 1) * slope σ x b := by
  cases hd with
  | binary hop _ _ => cases hop
  | power _ hn h0 hneg =>
    have hfst : (dualValue σ x b).fst = value σ b := fst_dualValue hb
    rw [power, slope, dualValue, snd_dualPower _ (Rat.num_ne_zero.mpr h0), hfst, slope]
    · obtain ⟨i, rfl⟩ := exists_int_of_isInteger hn
      rw [Rat.num_intCast]
    · rw [hfst]
      exact fun hlt => hneg (Rat.num_neg.mp hlt)

/-! ## Slopes are derivatives -/

open Filter Topology

/-- The assignment with another value for `x`. -/
abbrev moved (σ : String → Rat) (x : String) (t : Rat) : String → Rat :=
  Function.update σ x t

theorem moved_self : moved σ x (σ x) = σ :=
  Function.update_eq_self x σ

theorem moved_apply_self (σ : String → Rat) (x : String) (t : Rat) : moved σ x t x = t :=
  Function.update_self x t σ

theorem moved_apply_of_ne {n : String} (hn : n ≠ x) (t : Rat) : moved σ x t n = σ n :=
  Function.update_of_ne hn t σ

theorem hasDerivAt_sum {fs : List Expr} {d : Expr → Rat} {a : Rat} {v : Rat → Expr → Rat}
    (h : ∀ f ∈ fs, HasDerivAt (fun t => v t f) (d f) a) :
    HasDerivAt (fun t => (fs.map (v t)).sum) (fs.map d).sum a := by
  induction fs with
  | nil => exact hasDerivAt_const a 0
  | cons f fs ih =>
    obtain ⟨hf, hfs⟩ := List.forall_mem_cons.mp h
    simp only [List.map_cons, List.sum_cons]
    exact hf.add (ih hfs)

/-- **The slope is the derivative of the value.** -/
theorem hasDerivAt_value {e : Expr} (hr : IsRational e) (hd : Defined σ e) :
    HasDerivAt (fun t => value (moved σ x t) e) (slope σ x e) (σ x) := by
  induction hr with
  | const q =>
    simp only [value_const, slope_const]
    exact hasDerivAt_const _ _
  | var n =>
    simp only [value_var, slope_var]
    by_cases hn : n = x
    · subst hn
      simpa using hasDerivAt_id' (σ n)
    · simpa [hn] using hasDerivAt_const (σ x) (σ n)
  | sum hts ih =>
    simp only [value_sum, slope_sum]
    exact hasDerivAt_sum fun t ht => ih t ht (hd.of_terms t ht)
  | @product fs hfs ih =>
    replace ih := fun f hf => ih f hf (hd.of_factors f hf)
    clear hd
    induction fs with
    | nil => simpa [slope, dualValue, dualValues] using hasDerivAt_const (σ x) (1 : Rat)
    | cons f fs ihfs =>
      obtain ⟨hf, hrest⟩ := List.forall_mem_cons.mp ih
      have hprod := hf.fun_mul (ihfs (fun g hg => hfs g (List.mem_cons_of_mem f hg)) hrest)
      rw [slope_product_cons hfs]
      simpa only [value_product, List.map_cons, List.prod_cons, moved_self] using hprod
  | @power b n hb _ _ ih =>
    rw [slope_power hb hd]
    cases hd with
    | binary hop _ _ => cases hop
    | power hdb hn h0 hneg =>
      obtain ⟨i, rfl⟩ := exists_int_of_isInteger hn
      have hpow := (hasDerivAt_zpow i (value σ b) (by
        rcases lt_or_ge i 0 with hi | hi
        · exact .inl (hneg (by exact_mod_cast hi))
        · exact .inr hi))
      simp only [value_power, Rat.num_intCast]
      have := hpow.comp_of_eq (σ x) (ih hdb) (by rw [moved_self])
      exact this

/-- A rational expression stays defined in a neighbourhood. -/
theorem eventually_defined {e : Expr} (hr : IsRational e) (hd : Defined σ e) :
    ∀ᶠ t in 𝓝 (σ x), Defined (moved σ x t) e := by
  induction hr with
  | const q => exact .of_forall fun _ => .const q
  | var n => exact .of_forall fun _ => .var n none
  | sum hts ih =>
    have hall := (eventually_all_finite (List.finite_toSet _)).mpr
      fun t ht => ih t ht (hd.of_terms t ht)
    exact hall.mono fun _ h => .sum h
  | product hfs ih =>
    have hall := (eventually_all_finite (List.finite_toSet _)).mpr
      fun f hf => ih f hf (hd.of_factors f hf)
    exact hall.mono fun _ h => .product h
  | @power b n hb hn h0 ih =>
    cases hd with
    | binary hop _ _ => cases hop
    | power hdb _ _ hneg =>
      by_cases hlt : n < 0
      · have hcont := (hasDerivAt_value (x := x) hb hdb).continuousAt
        have hne := hcont.eventually_ne (by simpa [moved_self] using hneg hlt : _ ≠ (0 : Rat))
        exact ((ih hdb).and hne).mono fun _ h => .power h.1 hn h0 fun _ => h.2
      · exact (ih hdb).mono fun _ h => .power h hn h0 fun h' => absurd h' hlt

/-- An expression whose value does not move with `x` has no slope. -/
theorem slope_eq_zero {e : Expr} {v : Rat} (hr : IsRational e) (hd : Defined σ e)
    (h : ∀ t, Defined (moved σ x t) e → value (moved σ x t) e = v) : slope σ x e = 0 := by
  have hderiv := hasDerivAt_value (x := x) hr hd
  have hconst : (fun t => value (moved σ x t) e) =ᶠ[𝓝 (σ x)] fun _ => v :=
    (eventually_defined hr hd).mono h
  exact hderiv.unique ((hasDerivAt_const (σ x) v).congr_of_eventuallyEq hconst)

/-- Expressions whose values move alike with `x` have the same slope. -/
theorem slope_congr {τ : String → Rat} {e f : Expr} (hre : IsRational e) (hde : Defined σ e)
    (hrf : IsRational f) (hdf : Defined τ f) (hx : σ x = τ x)
    (h : ∀ t, value (moved σ x t) e = value (moved τ x t) f) : slope σ x e = slope τ x f := by
  have hderiv := hasDerivAt_value (x := x) hre hde
  rw [funext h, hx] at hderiv
  exact hderiv.unique (hasDerivAt_value hrf hdf)

/-- The value depends on the variables that occur. -/
theorem value_eq_of_occurring {τ : String → Rat} {e : Expr} (hr : IsRational e)
    (h : ∀ n, e.dependsOn (symbol n) = true → σ n = τ n) : value σ e = value τ e := by
  have hmap {xs : List Expr} (hxs : ∀ y ∈ xs, value σ y = value τ y) :
      xs.map (value σ) = xs.map (value τ) := List.map_congr_left hxs
  induction hr with
  | const q => rw [value_const, value_const]
  | var n =>
    rw [value_var, value_var]
    exact h n (dependsOn_symbol n)
  | sum _ ih =>
    rw [value_sum, value_sum, hmap fun t ht => ih t ht fun n hn => h n (dependsOn_sum ht hn)]
  | product _ ih =>
    rw [value_product, value_product,
      hmap fun f hf => ih f hf fun n hn => h n (dependsOn_product hf hn)]
  | @power b m _ _ _ ih =>
    rw [value_power, value_power, ih fun n hn => h n (dependsOn_power hn)]

theorem slope_of_free {e : Expr} (hr : IsRational e) (hd : Defined σ e)
    (hfree : e.dependsOn (symbol x) = false) : slope σ x e = 0 := by
  refine slope_eq_zero (v := value σ e) hr hd fun t _ => value_congr (fun y hy => ?_) hfree
  have hne : y ≠ x := fun h => hy (h ▸ List.mem_singleton_self _)
  exact moved_apply_of_ne hne t

end SymbolicAlgebra.Expr
