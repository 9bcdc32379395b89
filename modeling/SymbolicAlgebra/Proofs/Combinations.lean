import Mathlib.Data.List.Forall2
import Mathlib.Data.Set.List
import Mathlib.LinearAlgebra.Finsupp.LinearCombination
import SymbolicAlgebra.Proofs.Collection
import SymbolicAlgebra.Proofs.NormalForm

/-!
# Combinations of powers, logarithms and waves

Antiderivatives and their derivatives are rational combinations of a few kinds of generators in one
variable `x`: powers with integer exponents, `Ln[x]`, and `Exp`, `Sin` and `Cos` of multiples of `x`.
No two generators compare equal (`compare_expr_eq_iff`), so the collected sum of a list of multiples is
determined by the combination that the list stands for, as a finitely supported function of the
generators.

Results:
* `collected_congr`: the collected sum depends on the combination only.
* `exists_collected`: it is the sum of multiples that stand for the same combination.
* `exists_operands`: the operands of a sum of flat terms stand for the same combination as the terms.
-/

namespace SymbolicAlgebra

open Expr Evaluator

/-! ## Combinations -/

section Combinations

variable {κ ι : Type} {l l' : List (Rat × κ)}

/-- The combination that a list of multiples stands for. -/
noncomputable def coefficients (l : List (Rat × κ)) : κ →₀ Rat :=
  (l.map fun p => Finsupp.single p.2 p.1).sum

@[simp] theorem coefficients_nil : coefficients ([] : List (Rat × κ)) = 0 := rfl

@[simp] theorem coefficients_cons (p : Rat × κ) (l : List (Rat × κ)) :
    coefficients (p :: l) = Finsupp.single p.2 p.1 + coefficients l := by
  simp [coefficients]

theorem coefficients_append (l l' : List (Rat × κ)) :
    coefficients (l ++ l') = coefficients l + coefficients l' := by
  simp [coefficients]

theorem coefficients_perm (h : l.Perm l') : coefficients l = coefficients l' :=
  (h.map _).sum_eq

/-- A multiple of `k` becomes the multiple of what `T` makes of `k`. -/
def scaleBy (T : κ → Rat × ι) (p : Rat × κ) : Rat × ι :=
  (p.1 * (T p.2).1, (T p.2).2)

/-- Replacing every generator by a multiple of another one is linear. -/
theorem coefficients_map (T : κ → Rat × ι) (l : List (Rat × κ)) :
    coefficients (l.map (scaleBy T)) =
      Finsupp.linearCombination Rat (fun k => Finsupp.single (T k).2 (T k).1) (coefficients l) := by
  induction l with
  | nil => simp
  | cons p l ih =>
    rw [List.map_cons, coefficients_cons, coefficients_cons, map_add, ih,
      Finsupp.linearCombination_single, Finsupp.smul_single, smul_eq_mul, scaleBy]

theorem coefficients_map_congr (T : κ → Rat × ι) (h : coefficients l = coefficients l') :
    coefficients (l.map (scaleBy T)) = coefficients (l'.map (scaleBy T)) := by
  rw [coefficients_map, coefficients_map, h]

end Combinations

/-! ## Generators -/

/-- The functions of multiples of the variable. -/
inductive Wave where
  | exp | sin | cos
  deriving DecidableEq

def Wave.function : Wave → Elementary
  | exp => .exp
  | sin => .sin
  | cos => .cos

/-- What combinations are made of. -/
inductive Generator where
  | power (n : Int)
  | log
  | wave (w : Wave) (a : {q : Rat // q ≠ 0})
  deriving DecidableEq

/-- The call of an elementary function. -/
abbrev elementaryCall (g : Elementary) (arg : Expr) : Expr :=
  .call (.native (.elementary g)) [arg]

/-- The product `a * x`. -/
abbrev multiple (a : Rat) (x : String) : Expr :=
  productOf [.const a, symbol x]

namespace Generator

variable {x : String} {k k' : Generator}

/-- The generator as an expression in `x`, as evaluation leaves it. -/
def expr (x : String) : Generator → Expr
  | power n => if n = 0 then .one else if n = 1 then symbol x else (symbol x).pow n
  | log => elementaryCall .ln (symbol x)
  | wave w a => elementaryCall w.function (multiple a x)

@[simp] theorem expr_power_zero (x : String) : (power 0).expr x = .const 1 := rfl

@[simp] theorem expr_power_one (x : String) : (power 1).expr x = symbol x := rfl

theorem expr_power {n : Int} (h0 : n ≠ 0) (h1 : n ≠ 1) :
    (power n).expr x = Expr.power (symbol x) (.const n) := by
  rw [expr, if_neg h0, if_neg h1]
  rfl

theorem isConst_expr (hk : k ≠ power 0) : (k.expr x).isConst = false := by
  cases k with
  | power n =>
    have h0 : n ≠ 0 := fun h => hk (congrArg power h)
    rw [expr, if_neg h0]
    split <;> rfl
  | _ => rfl

theorem isSum_expr : (k.expr x).isSum = false := by
  cases k with
  | power n =>
    rw [expr]
    split
    · rfl
    · split <;> rfl
  | _ => rfl

theorem isProduct_expr : (k.expr x).isProduct = false := by
  cases k with
  | power n =>
    rw [expr]
    split
    · rfl
    · split <;> rfl
  | _ => rfl

theorem proper_multiple (a : Rat) (x : String) : Proper (multiple a x) :=
  proper_productOf (List.forall_mem_cons.mpr ⟨.const a, List.forall_mem_singleton.mpr (.symbol x)⟩)

theorem proper_expr : Proper (k.expr x) := by
  cases k with
  | power n =>
    rw [expr]
    split
    · exact .const 1
    · split
      · exact .symbol x
      · exact .power (.symbol x) (.const n)
  | log => exact .call rfl (List.forall_mem_singleton.mpr (.symbol x))
  | wave w a => exact .call rfl (List.forall_mem_singleton.mpr (proper_multiple a x))

/-- Constants come first among what is compared by kind. -/
theorem compare_const_of_isAtom (q : Rat) {e : Expr} (he : e.isAtom = true)
    (hkind : 0 < e.kindRank) : Expr.compare (.const q) e = .lt :=
  (@compare_kindRank (.const q) e rfl he hkind.ne).trans (Nat.compare_eq_lt.mpr hkind)

theorem compare_const_symbol (q : Rat) (x : String) :
    Expr.compare (.const q) (symbol x) = .lt :=
  compare_const_of_isAtom q rfl Nat.one_pos

/-- Constants come before powers of the variable. -/
theorem compare_const_pow (q : Rat) (x : String) (e : Expr) :
    Expr.compare (.const q) (Expr.power (symbol x) e) = .lt := by
  have hbase := compare_const_symbol q x
  simp [Expr.power, Expr.compare, hbase]

theorem compare_const_expr (q : Rat) (hk : k ≠ power 0) :
    Expr.compare (.const q) (k.expr x) = .lt := by
  cases k with
  | power n =>
    have h0 : n ≠ 0 := fun h => hk (congrArg power h)
    by_cases h1 : n = 1
    · rw [h1]
      exact compare_const_symbol q x
    · rw [expr_power h0 h1]
      exact compare_const_pow q x _
  | _ => exact compare_const_of_isAtom q rfl Nat.two_pos

/-! ### Different generators -/

theorem multiple_injective {a b : Rat} (h : multiple a x = multiple b x) : a = b := by
  have hprod (q : Rat) : (constants (multiple q x).factors).prod = q := by
    have hx : ∀ e ∈ [Expr.const q, symbol x], Constructed e :=
      List.forall_mem_cons.mpr ⟨.const q, List.forall_mem_singleton.mpr (.var x none)⟩
    rw [constants_factors_productOf hx]
    exact mul_one q
  rw [← hprod a, h, hprod b]

theorem function_injective {w w' : Wave} (h : w.function = w'.function) : w = w' := by
  cases w <;> cases w' <;> first | rfl | cases h

theorem function_ne_ln (w : Wave) : w.function ≠ .ln := by
  cases w <;> exact nofun

theorem expr_power_ne_call (n : Int) (g : Elementary) (a : Expr) :
    (power n).expr x ≠ elementaryCall g a := by
  rw [expr]
  split
  · exact nofun
  · split <;> exact nofun

theorem expr_power_injective {m n : Int} (h : (power m).expr x = (power n).expr x) : m = n := by
  by_cases hm0 : m = 0 <;> by_cases hn0 : n = 0
  · rw [hm0, hn0]
  · by_cases hn1 : n = 1
    · rw [hm0, hn1] at h
      cases h
    · rw [hm0, expr_power hn0 hn1] at h
      cases h
  · by_cases hm1 : m = 1
    · rw [hn0, hm1] at h
      cases h
    · rw [hn0, expr_power hm0 hm1] at h
      cases h
  · by_cases hm1 : m = 1 <;> by_cases hn1 : n = 1
    · rw [hm1, hn1]
    · rw [hm1, expr_power hn0 hn1] at h
      cases h
    · rw [hn1, expr_power hm0 hm1] at h
      cases h
    · rw [expr_power hm0 hm1, expr_power hn0 hn1] at h
      injection h with _ _ h
      injection h with h
      exact_mod_cast h

theorem expr_injective (h : k.expr x = k'.expr x) : k = k' := by
  cases k with
  | power m =>
    cases k' with
    | power n => rw [expr_power_injective h]
    | log => exact absurd h (expr_power_ne_call _ _ _)
    | wave w a => exact absurd h (expr_power_ne_call _ _ _)
  | log =>
    cases k' with
    | power n => exact absurd h.symm (expr_power_ne_call _ _ _)
    | log => rfl
    | wave w a =>
      injection h with h
      injection h with h
      injection h with h
      exact absurd h.symm (function_ne_ln w)
  | wave w a =>
    cases k' with
    | power n => exact absurd h.symm (expr_power_ne_call _ _ _)
    | log =>
      injection h with h
      injection h with h
      injection h with h
      exact absurd h (function_ne_ln w)
    | wave w' b =>
      injection h with hfunction hargs
      injection hfunction with h
      injection h with h
      injection hargs with hargs
      rw [function_injective h, Subtype.ext (multiple_injective hargs)]

/-- **No two generators compare equal.** -/
theorem compare_expr_eq_iff : compare (k.expr x) (k'.expr x) = .eq ↔ k = k' := by
  constructor
  · exact fun h => expr_injective (proper_expr.eq_of_compare proper_expr h)
  · rintro rfl
    exact compare_self _

end Generator

/-! ## Multiples of factors -/

/-- A product of a constant and something that comes after it. -/
theorem productOf_const_of_lt {q : Rat} {e : Expr} (h0 : q ≠ 0) (h1 : q ≠ 1)
    (hconst : e.isConst = false) (hproduct : e.isProduct = false)
    (hlt : Expr.compare (.const q) e = .lt) : productOf [.const q, e] = .product [.const q, e] := by
  have hflat : [Expr.const q, e].flatMap factors = [.const q, e] :=
    flatMap_factors_eq_self (List.forall_mem_cons.mpr ⟨rfl, List.forall_mem_singleton.mpr hproduct⟩)
  have hconstants : (constants [Expr.const q, e]).prod = q := by
    rw [constants_const, constants_cons hconst, constants_nil, List.prod_singleton]
  have hothers : others [Expr.const q, e] = [e] := by
    rw [others_const, others_cons hconst, others_nil]
  have hsort : sort [e, .const q] = [.const q, e] := by
    simp [sort, insertDescending, before, hlt]
  rw [productOf_eq, hflat, hconstants, if_neg h0, arranged, if_neg h1, hothers]
  exact congrArg ofFactors hsort

/-- What depends on the variable, comes after constants, and is neither a sum nor a product. -/
structure IsFactor (x : String) (e : Expr) : Prop where
  dependsOn : e.dependsOn (symbol x) = true
  isSum : e.isSum = false
  isProduct : e.isProduct = false
  after : ∀ q, Expr.compare (.const q) e = .lt
  proper : Proper e

namespace IsFactor

variable {x : String} {e : Expr}

theorem isConst (h : IsFactor x e) : e.isConst = false := by
  refine Bool.eq_false_iff.mpr fun hconst => ?_
  obtain ⟨q, rfl⟩ := exists_of_isConst hconst
  cases h.dependsOn

theorem symbol (x : String) : IsFactor x (symbol x) :=
  ⟨dependsOn_symbol x, rfl, rfl, fun q => Generator.compare_const_symbol q x, .symbol x⟩

theorem pow (x : String) (n : Int) : IsFactor x ((Expr.symbol x).pow n) :=
  ⟨dependsOn_power (dependsOn_symbol x), rfl, rfl, fun q => Generator.compare_const_pow q x _,
    (Proper.symbol x).power (.const n)⟩

theorem call {a : Expr} (g : Elementary) (ha : a.dependsOn (Expr.symbol x) = true)
    (hproper : Proper a) : IsFactor x (elementaryCall g a) :=
  ⟨dependsOn_call List.mem_cons_self ha, rfl, rfl,
    fun q => Generator.compare_const_of_isAtom q rfl Nat.two_pos,
    .call rfl (List.forall_mem_singleton.mpr hproper)⟩

theorem productOf_zero (h : IsFactor x e) : productOf [.const 0, e] = .const 0 := by
  have hflat : [Expr.const 0, e].flatMap factors = [.const 0, e] :=
    flatMap_factors_eq_self (List.forall_mem_cons.mpr
      ⟨rfl, List.forall_mem_singleton.mpr h.isProduct⟩)
  rw [productOf_eq, hflat, constants_const, List.prod_cons, zero_mul, if_pos rfl]
  rfl

/-- The ways a multiple looks. -/
theorem productOf_cases (h : IsFactor x e) (q : Rat) :
    (q = 0 ∧ productOf [.const q, e] = .const 0) ∨ (q = 1 ∧ productOf [.const q, e] = e) ∨
      productOf [.const q, e] = .product [.const q, e] := by
  by_cases h0 : q = 0
  · exact .inl ⟨h0, h0 ▸ h.productOf_zero⟩
  by_cases h1 : q = 1
  · exact .inr (.inl ⟨h1, by
      rw [h1, productOf_one_cons, h.proper.constructed.productOf_singleton]⟩)
  · exact .inr (.inr (productOf_const_of_lt h0 h1 h.isConst h.isProduct (h.after q)))

/-- A multiple is a sum under no circumstances. -/
theorem isSum_productOf (h : IsFactor x e) (q : Rat) : (productOf [.const q, e]).isSum = false := by
  rcases h.productOf_cases q with ⟨-, heq⟩ | ⟨-, heq⟩ | heq
  · rw [heq]
    rfl
  · rw [heq, h.isSum]
  · rw [heq]
    rfl

theorem dependsOn_productOf (h : IsFactor x e) {q : Rat} (hq : q ≠ 0) :
    (productOf [.const q, e]).dependsOn (Expr.symbol x) = true := by
  rcases h.productOf_cases q with ⟨h0, -⟩ | ⟨-, heq⟩ | heq
  · exact absurd h0 hq
  · rw [heq, h.dependsOn]
  · rw [heq]
    exact dependsOn_product (List.mem_cons_of_mem _ List.mem_cons_self) h.dependsOn

end IsFactor

theorem dependsOn_multiple {a : Rat} (ha : a ≠ 0) (x : String) :
    (multiple a x).dependsOn (symbol x) = true :=
  (IsFactor.symbol x).dependsOn_productOf ha

/-- Every generator but `1` is such a factor. -/
theorem Generator.isFactor_expr {x : String} {k : Generator} (hk : k ≠ .power 0) :
    IsFactor x (k.expr x) := by
  cases k with
  | power n =>
    rw [expr, if_neg fun h => hk (congrArg power h)]
    split
    · exact .symbol x
    · exact .pow x n
  | log => exact .call .ln (dependsOn_symbol x) (.symbol x)
  | wave w a => exact .call w.function (dependsOn_multiple a.2 x) (proper_multiple a x)

/-! ## Terms -/

section Terms

variable {x : String} {k : Generator} {l l' : List (Rat × Generator)}

/-- A multiple of a generator. -/
def term (x : String) (p : Rat × Generator) : Expr :=
  productOf [.const p.1, p.2.expr x]

theorem flat_term (q : Rat) : [Expr.const q, k.expr x].flatMap factors = [.const q, k.expr x] :=
  flatMap_factors_eq_self (List.forall_mem_cons.mpr
    ⟨rfl, List.forall_mem_singleton.mpr Generator.isProduct_expr⟩)

@[simp] theorem term_zero (x : String) (k : Generator) : term x (0, k) = .const 0 := by
  rw [term, productOf_eq, flat_term, constants_const, List.prod_cons, zero_mul, if_pos rfl]
  rfl

@[simp] theorem term_power_zero (x : String) (q : Rat) : term x (q, .power 0) = .const q := by
  rw [term, Generator.expr_power_zero, productOf_const_const, mul_one]

@[simp] theorem term_one (x : String) (k : Generator) : term x (1, k) = k.expr x := by
  rw [term, productOf_one_cons, Generator.proper_expr.constructed.productOf_singleton]

theorem scaled_expr (q : Rat) (k : Generator) : scaled q (k.expr x) = term x (q, k) := by
  rw [scaled]
  split
  · next h1 => rw [h1, term_one]
  · rfl

theorem proper_term (x : String) (p : Rat × Generator) : Proper (term x p) :=
  proper_productOf (List.forall_mem_cons.mpr
    ⟨.const p.1, List.forall_mem_singleton.mpr Generator.proper_expr⟩)

/-- A proper multiple is a product of the constant and the generator. -/
theorem term_eq_product {q : Rat} (h0 : q ≠ 0) (h1 : q ≠ 1) (hk : k ≠ .power 0) :
    term x (q, k) = .product [.const q, k.expr x] :=
  productOf_const_of_lt h0 h1 (Generator.isConst_expr hk) Generator.isProduct_expr
    (Generator.compare_const_expr q hk)

theorem isConst_term_iff {p : Rat × Generator} :
    (term x p).isConst = true ↔ p.1 = 0 ∨ p.2 = .power 0 := by
  obtain ⟨q, k⟩ := p
  constructor
  · intro h
    by_contra hne
    obtain ⟨h0, hk⟩ := not_or.mp hne
    by_cases h1 : q = 1
    · rw [h1, term_one, Generator.isConst_expr hk] at h
      cases h
    · rw [term_eq_product h0 h1 hk] at h
      cases h
  · rintro (h | h)
    · rw [show q = 0 from h, term_zero]
      rfl
    · rw [show k = .power 0 from h, term_power_zero]
      rfl

theorem isConst_multiple (a : {q : Rat // q ≠ 0}) : (multiple a x).isConst = false := by
  refine Bool.eq_false_iff.mpr fun h => ?_
  have hterm : (term x (a, .power 1)).isConst = true := h
  rcases isConst_term_iff.mp hterm with h | h
  · exact a.2 h
  · cases h

theorem isSum_term {p : Rat × Generator} : (term x p).isSum = false := by
  obtain ⟨q, k⟩ := p
  by_cases h0 : q = 0
  · rw [h0, term_zero]
    rfl
  by_cases hk : k = .power 0
  · rw [hk, term_power_zero]
    rfl
  by_cases h1 : q = 1
  · rw [h1, term_one, Generator.isSum_expr]
  · rw [term_eq_product h0 h1 hk]
    rfl

/-- A term as a coefficient and what it is a multiple of. -/
theorem splitCoefficient_term {q : Rat} (h0 : q ≠ 0) (hk : k ≠ .power 0) :
    splitCoefficient (term x (q, k)) = (q, k.expr x) := by
  have hconst := Generator.isConst_expr (x := x) hk
  by_cases h1 : q = 1
  · have htake : takeConst [k.expr x] = none := takeConst_eq_none (by
      rw [constants_cons hconst, constants_nil])
    rw [h1, term_one, splitCoefficient, factors_eq_self Generator.isProduct_expr, htake]
  · rw [term_eq_product h0 h1 hk, splitCoefficient]
    change (q, productOf [k.expr x]) = _
    rw [Generator.proper_expr.constructed.productOf_singleton]

/-- Constants in front of a term. -/
theorem productOf_const_term (c : Rat) (p : Rat × Generator) :
    productOf [.const c, term x p] = term x (c * p.1, p.2) := by
  obtain ⟨q, k⟩ := p
  by_cases hk : k = .power 0
  · rw [hk, term_power_zero, term_power_zero, productOf_const_const]
  have hfactor := Generator.isFactor_expr (x := x) hk
  dsimp only
  rcases hfactor.productOf_cases q with ⟨rfl, -⟩ | ⟨rfl, -⟩ | hq
  · rw [term_zero, mul_zero, term_zero, productOf_const_const, mul_zero]
  · rw [term_one, mul_one, term]
  · have hflat : [Expr.const c, term x (q, k)].flatMap factors = [.const c, .const q, k.expr x] := by
      rw [term, hq]
      rfl
    have hprod : (constants [.const c, .const q, k.expr x]).prod =
        (constants [.const (c * q), k.expr x]).prod := by
      rw [constants_const, constants_const, constants_const, List.prod_cons, List.prod_cons,
        List.prod_cons, mul_assoc]
    rw [productOf_eq, hflat, hprod, term, productOf_eq, flat_term, arranged, arranged, others_const,
      others_const, others_const]

theorem dependsOn_term {p : Rat × Generator} :
    (term x p).dependsOn (symbol x) = !(term x p).isConst := by
  cases hconst : (term x p).isConst
  · obtain ⟨h0, hk⟩ := not_or.mp fun h => Bool.eq_false_iff.mp hconst (isConst_term_iff.mpr h)
    exact (Generator.isFactor_expr hk).dependsOn_productOf h0
  · obtain ⟨q, hq⟩ := exists_of_isConst hconst
    rw [hq]
    rfl

/-! ### Coefficients of terms -/

theorem mem_keys_splits_terms {K : Expr} (h : K ∈ Tally.keys (splits (l.map (term x)))) :
    ∃ k : Generator, k ≠ .power 0 ∧ K = k.expr x := by
  obtain ⟨p, hp, rfl⟩ := List.mem_map.mp h
  obtain ⟨t, ht, rfl⟩ := List.mem_map.mp hp
  obtain ⟨hmem, hconst⟩ := mem_others.mp ht
  obtain ⟨⟨q, k⟩, -, rfl⟩ := List.mem_map.mp hmem
  obtain ⟨h0, hk⟩ := not_or.mp fun h => Bool.eq_false_iff.mp hconst (isConst_term_iff.mpr h)
  exact ⟨k, hk, congrArg Prod.snd (splitCoefficient_term h0 hk)⟩

/-- A generator has its coefficient in a list of terms. -/
theorem coefficient_terms (hk : k ≠ .power 0) :
    coefficient (k.expr x) (l.map (term x)) = coefficients l k := by
  induction l with
  | nil => rfl
  | cons p l ih =>
    obtain ⟨q, m⟩ := p
    have happend := coefficient_append (k.expr x) [term x (q, m)] (l.map (term x))
    rw [List.singleton_append, ih] at happend
    rw [List.map_cons, happend, coefficients_cons, Finsupp.add_apply, Finsupp.single_apply,
      coefficient, splits]
    by_cases hconst : q = 0 ∨ m = .power 0
    · obtain ⟨c, hc⟩ := exists_of_isConst ((@isConst_term_iff x (q, m)).mpr hconst)
      rw [hc, others_const, others_nil, List.map_nil, Tally.total_nil]
      dsimp only
      split
      · next hmk =>
        subst hmk
        rw [hconst.resolve_right hk]
      · rfl
    · obtain ⟨h0, hm⟩ := not_or.mp hconst
      have hsingle : others [term x (q, m)] = [term x (q, m)] := by
        rw [others_cons (Bool.eq_false_iff.mpr fun h => hconst (isConst_term_iff.mp h)), others_nil]
      rw [hsingle, List.map_singleton, splitCoefficient_term h0 hm, Tally.total_cons,
        Tally.total_nil, add_zero]
      simp only [Generator.compare_expr_eq_iff, @eq_comm _ k]

/-- The constants among the terms are the multiples of `1`. -/
theorem sum_constants_terms :
    (constants (l.map (term x))).sum = coefficients l (.power 0) := by
  induction l with
  | nil => rfl
  | cons p l ih =>
    obtain ⟨q, m⟩ := p
    rw [List.map_cons, coefficients_cons, Finsupp.add_apply, Finsupp.single_apply, ← ih]
    dsimp only
    by_cases hm : m = .power 0
    · rw [if_pos hm, hm, term_power_zero, constants_const, List.sum_cons]
    · rw [if_neg hm, zero_add]
      by_cases h0 : q = 0
      · rw [h0, term_zero, constants_const, List.sum_cons, zero_add]
      · rw [constants_cons (Bool.eq_false_iff.mpr fun h => (isConst_term_iff.mp h).elim h0 hm)]

/-! ## Collected sums -/

/-- The sum of terms with like terms combined. -/
def collected (x : String) (l : List (Rat × Generator)) : Expr :=
  collect (l.map (term x))

theorem mem_likeTerms_terms {p : Expr × Rat} (h : p ∈ likeTerms (l.map (term x))) :
    ∃ k : Generator, k ≠ .power 0 ∧ p.1 = k.expr x :=
  mem_keys_splits_terms (of_mem_likeTerms h).1

/-- **The collected sum depends on the combination only.** -/
theorem collected_congr (h : coefficients l = coefficients l') : collected x l = collected x l' := by
  have hlike : likeTerms (l.map (term x)) = likeTerms (l'.map (term x)) := by
    refine Tally.eq_of_total (ascending_likeTerms _) (ascending_likeTerms _)
      (fun p hp => (of_mem_likeTerms hp).2) (fun p hp => (of_mem_likeTerms hp).2)
      (fun p hp q hq heq => ?_) fun K hK => ?_
    · obtain ⟨k, -, hpk⟩ := mem_likeTerms_terms hp
      obtain ⟨m, -, hqm⟩ := mem_likeTerms_terms hq
      rw [hpk, hqm] at heq ⊢
      rw [Generator.compare_expr_eq_iff.mp heq]
    · obtain ⟨k, hk, rfl⟩ : ∃ k : Generator, k ≠ .power 0 ∧ K = k.expr x := by
        rcases List.mem_append.mp hK with hK | hK <;>
          obtain ⟨p, hp, rfl⟩ := List.mem_map.mp hK <;> exact mem_likeTerms_terms hp
      rw [total_likeTerms, total_likeTerms, coefficient_terms hk, coefficient_terms hk, h]
  rw [collected, collected, collect_eq, collect_eq, hlike, sum_constants_terms,
    sum_constants_terms, h]

/-- A list of keys and amounts has the totals of the combination. -/
theorem total_keyed (l : List (Rat × Generator)) :
    Tally.total (k.expr x) (l.map fun p => (p.2.expr x, p.1)) = coefficients l k := by
  induction l with
  | nil => rfl
  | cons p l ih =>
    rw [List.map_cons, Tally.total_cons, ih, coefficients_cons, Finsupp.add_apply,
      Finsupp.single_apply]
    simp only [Generator.compare_expr_eq_iff, @eq_comm _ k]

/-- **The collected sum is a sum of terms** that stand for the same combination. -/
theorem exists_collected (x : String) (l : List (Rat × Generator)) : ∃ l₁ : List (Rat × Generator),
    collected x l = sumOf (l₁.map (term x)) ∧ coefficients l₁ = coefficients l := by
  obtain ⟨l₂, hl₂⟩ : likeTerms (l.map (term x)) ∈
      Set.range (List.map fun p : Rat × Generator => (p.2.expr x, p.1)) := by
    rw [Set.range_list_map]
    intro p hp
    obtain ⟨k, -, hk⟩ := mem_likeTerms_terms hp
    exact ⟨(p.2, k), Prod.ext hk.symm rfl⟩
  have hterms : (likeTerms (l.map (term x))).map (fun p => scaled p.2 p.1) = l₂.map (term x) := by
    rw [← hl₂, List.map_map]
    exact List.map_congr_left fun p _ => scaled_expr p.1 p.2
  refine ⟨l₂ ++ [(coefficients l (.power 0), .power 0)], ?_, ?_⟩
  · rw [collected, collect_eq, hterms, sum_constants_terms, List.map_append, List.map_singleton,
      term_power_zero]
  · ext k
    rw [coefficients_append, Finsupp.add_apply, coefficients_cons, coefficients_nil, add_zero,
      Finsupp.single_apply, ← @total_keyed x k l₂, hl₂]
    by_cases hk : k = .power 0
    · subst hk
      have hzero : Tally.total ((Generator.power 0).expr x) (likeTerms (l.map (term x))) = 0 := by
        refine Tally.total_eq_zero fun p hp heq => ?_
        obtain ⟨m, hm, hpm⟩ := mem_likeTerms_terms hp
        rw [hpm] at heq
        exact hm (Generator.compare_expr_eq_iff.mp heq).symm
      rw [hzero, if_pos rfl, zero_add]
    · rw [if_neg (Ne.symm hk), add_zero, total_likeTerms, coefficient_terms hk]

@[simp] theorem collected_nil (x : String) : collected x [] = .const 0 := rfl

/-- A single term is collected as it is. -/
theorem collected_singleton (x : String) (p : Rat × Generator) : collected x [p] = term x p := by
  obtain ⟨q, k⟩ := p
  have hsingleton := (proper_term x (q, k)).constructed.sumOf_singleton
  rw [collected, collect_eq, List.map_singleton, likeTerms, splits]
  by_cases hconst : (term x (q, k)).isConst = true
  · obtain ⟨c, hc⟩ := exists_of_isConst hconst
    rw [hc] at hsingleton ⊢
    rw [others_const, others_nil, constants_const, constants_nil, List.sum_singleton]
    exact hsingleton
  · obtain ⟨h0, hk⟩ := not_or.mp (hconst ∘ isConst_term_iff.mpr)
    have hentries : (Tally.ofList [(k.expr x, q)]).entries.filter (fun p => p.2 != 0) =
        [(k.expr x, q)] :=
      List.filter_eq_self.mpr (List.forall_mem_singleton.mpr (bne_iff_ne.mpr h0))
    rw [others_cons (Bool.eq_false_iff.mpr hconst), others_nil, List.map_singleton,
      splitCoefficient_term h0 hk, hentries, List.map_singleton, scaled_expr,
      constants_cons (Bool.eq_false_iff.mpr hconst), constants_nil, List.sum_nil,
      sumOf_append_zero, hsingleton]

theorem single_of_term_eq_const {p : Rat × Generator} {q : Rat} (h : term x p = .const q) :
    Finsupp.single p.2 p.1 = Finsupp.single (Generator.power 0) q := by
  obtain ⟨c, k⟩ := p
  have hconst : (term x (c, k)).isConst = true := by
    rw [h]
    rfl
  rcases isConst_term_iff.mp hconst with hc | hk
  · obtain rfl : c = 0 := hc
    rw [term_zero] at h
    injection h with h
    rw [← h, Finsupp.single_zero, Finsupp.single_zero]
  · obtain rfl : k = .power 0 := hk
    rw [term_power_zero] at h
    injection h with h
    rw [h]

end Terms

/-! ## Operands of sums -/

theorem nil_or_singleton_or_two_le {α : Type} :
    ∀ l : List α, l = [] ∨ (∃ a, l = [a]) ∨ 2 ≤ l.length
  | [] => .inl rfl
  | [a] => .inr (.inl ⟨a, rfl⟩)
  | _ :: _ :: l => .inr (.inr (Nat.le_add_left 2 l.length))

/-- Not all terms of a sum are constants. -/
theorem Expr.Constructed.exists_other {ts : List Expr} (h : Constructed (.sum ts)) :
    ∃ t ∈ ts, t.isConst = false := by
  by_contra hall
  have hconst : ∀ t ∈ ts, t.isConst = true := by
    intro t ht
    by_contra hne
    exact hall ⟨t, ht, Bool.eq_false_iff.mpr hne⟩
  have hothers : others ts = [] := by
    refine List.filter_eq_nil_iff.mpr fun t ht => ?_
    rw [hconst t ht]
    exact Bool.false_ne_true
  have hflat : ∀ t ∈ ts, t.isSum = false := by
    intro t ht
    obtain ⟨q, rfl⟩ := exists_of_isConst (hconst t ht)
    rfl
  have hsum : sumOf ts = .sum ts := h.sumOf_terms
  rw [sumOf_eq, flatMap_terms_eq_self hflat, arranged, hothers] at hsum
  split at hsum <;> cases hsum

section Operands

variable {κ : Type} {f : Rat × κ → Expr} {one : κ}

theorem exists_map_of_perm {l : List (Rat × κ)} {es : List Expr} (h : es.Perm (l.map f)) :
    ∃ l' : List (Rat × κ), es = l'.map f ∧ l'.Perm l := by
  have hl : List.Forall₂ (fun e p => e = f p) (l.map f) l :=
    List.forall₂_map_left_iff.mpr (List.forall₂_same.mpr fun _ _ => rfl)
  obtain ⟨l', hl', hperm⟩ := List.perm_comp_forall₂ h hl
  refine ⟨l', ?_, hperm⟩
  exact List.forall₂_eq_eq_eq ▸ List.forall₂_map_right_iff.mpr hl'

/-- The multiples of a constant generator are the constants among the multiples. -/
theorem coefficients_constants (hconst : ∀ p q, f p = .const q →
      Finsupp.single p.2 p.1 = Finsupp.single one q) (l : List (Rat × κ)) :
    coefficients l = coefficients (l.filter fun p => !(f p).isConst) +
      Finsupp.single one (constants (l.map f)).sum := by
  induction l with
  | nil => simp
  | cons p l ih =>
    rw [coefficients_cons, ih, List.map_cons, List.filter_cons]
    cases h : (f p).isConst
    · rw [constants_cons h, if_pos (by rfl), coefficients_cons, add_assoc]
    · obtain ⟨q, hq⟩ := exists_of_isConst h
      rw [hq, constants_const, List.sum_cons, Finsupp.single_add, hconst p q hq, if_neg (by simp),
        add_left_comm]

/-- **The operands of a sum of flat terms stand for the same combination as the terms.** -/
theorem exists_operands (hone : ∀ q, f (q, one) = .const q) (hflat : ∀ p, (f p).isSum = false)
    (hconst : ∀ p q, f p = .const q → Finsupp.single p.2 p.1 = Finsupp.single one q)
    (l : List (Rat × κ)) :
    ∃ l' : List (Rat × κ), sumOf (l.map f) = ofTerms (l'.map f) ∧ coefficients l' = coefficients l := by
  have hterms : (l.map f).flatMap terms = l.map f :=
    flatMap_terms_eq_self (List.forall_mem_map.mpr fun p _ => hflat p)
  have hothers : others (l.map f) = (l.filter fun p => !(f p).isConst).map f := List.filter_map
  rw [coefficients_constants hconst l, sumOf_eq, hterms, arranged, hothers]
  generalize (constants (l.map f)).sum = c
  generalize l.filter (fun p => !(f p).isConst) = rest
  have hoperands : (if c = 0 then rest.map f else rest.map f ++ [.const c]) =
      (rest ++ if c = 0 then [] else [(c, one)]).map f := by
    split
    · rw [List.append_nil]
    · rw [List.map_append, List.map_singleton, hone]
  rw [hoperands]
  obtain ⟨l', hl', hperm⟩ := exists_map_of_perm
    (sort_perm ((rest ++ if c = 0 then [] else [(c, one)]).map f))
  refine ⟨l', by rw [hl'], ?_⟩
  rw [coefficients_perm hperm, coefficients_append]
  split
  · next h0 => rw [h0, Finsupp.single_zero, coefficients_nil]
  · rw [coefficients_cons, coefficients_nil, add_zero]

end Operands

end SymbolicAlgebra
