import SymbolicAlgebra.Proofs.Affine
import SymbolicAlgebra.Proofs.Exponents

/-!
# Monomials and their combinations

A monomial is built from constants and powers of variables by products and powers. Evaluated, it is
in normal form (`Normal`): a constant and powers of distinct variables. A combination is a sum of
monomials and of multiples of such sums. Evaluated, it is `Reduced`: its terms are normal forms with
distinct monic parts, and a multiple of it has the multiples of these terms.

Results:
* `normal_evaluated`: a monomial evaluates to its normal form.
* `reduced_collect`: collected normal forms are reduced and keep the coefficients.
* `linear_of_combination`: combinations evaluate linearly.
-/

namespace SymbolicAlgebra

namespace Expr

/-- Built from constants and powers of variables by products and powers with moderate integer
exponents. -/
inductive Monomial : Expr → Prop
  | const (q : Rat) : Monomial (const q)
  | var (x : String) : Monomial (symbol x)
  | root (x : String) (q : Rat) : Monomial (power (symbol x) (.const q))
  | product {fs : List Expr} : (∀ f ∈ fs, Monomial f) → Monomial (product fs)
  | power {b : Expr} {n : Rat} : Monomial b → Rational.isInteger n = true →
    n.num.natAbs ≤ Rational.maxExactExponent → Monomial (power b (.const n))

theorem Monomial.of_factors {e : Expr} (h : ∀ f ∈ e.factors, Monomial f) : Monomial e := by
  cases hp : e.isProduct
  · exact h e (by rw [factors_eq_self hp]; exact List.mem_cons_self)
  · obtain ⟨fs, rfl⟩ := exists_of_isProduct hp
    exact .product h

theorem Monomial.factors {e : Expr} (h : Monomial e) : ∀ f ∈ e.factors, Monomial f := by
  refine forall_mem_factors h fun fs h => ?_
  cases h with
  | product hfs => exact hfs

theorem monomial_productOf {xs : List Expr} (hc : ∀ x ∈ xs, Canonical x)
    (h : ∀ x ∈ xs, Monomial x) : Monomial (productOf xs) := by
  refine .of_factors fun f hf => ?_
  obtain hconst | ⟨-, x, hx, hfx⟩ := mem_factors_productOf hc hf
  · obtain ⟨q, rfl⟩ := exists_of_isConst hconst
    exact .const q
  · exact (h x hx).factors f hfx

end Expr

namespace Evaluator

open Expr

/-! ## Normal forms -/

/-- A power of a variable. -/
def IsLetter (f : Expr) : Prop :=
  ∃ x q, q ≠ 0 ∧ f = raised (symbol x) q

/-- A constant and powers of distinct variables. -/
structure Normal (e : Expr) : Prop where
  canonical : Expr.Canonical e
  letters : ∀ f ∈ others e.factors, IsLetter f
  nodup : (Tally.keys (exponentsOf e.factors)).Nodup

theorem raised_cases (b : Expr) (x : Rat) :
    (x = 1 ∧ raised b x = b) ∨ (x ≠ 1 ∧ raised b x = Expr.power b (.const x)) := by
  unfold raised
  split
  · next h => exact .inl ⟨h, rfl⟩
  · next h => exact .inr ⟨h, rfl⟩

theorem splitExponent_raised_symbol (x : String) (q : Rat) :
    splitExponent (raised (symbol x) q) = (symbol x, q) := by
  obtain ⟨rfl, h⟩ | ⟨-, h⟩ := raised_cases (symbol x) q <;> rw [h]
  · rfl
  · rfl

theorem IsLetter.isConst {f : Expr} (h : IsLetter f) : f.isConst = false := by
  obtain ⟨x, q, -, rfl⟩ := h
  obtain ⟨-, h⟩ | ⟨-, h⟩ := raised_cases (symbol x) q <;> rw [h] <;> rfl

theorem IsLetter.isSum {f : Expr} (h : IsLetter f) : f.isSum = false := by
  obtain ⟨x, q, -, rfl⟩ := h
  obtain ⟨-, h⟩ | ⟨-, h⟩ := raised_cases (symbol x) q <;> rw [h] <;> rfl

theorem IsLetter.isProduct {f : Expr} (h : IsLetter f) : f.isProduct = false := by
  obtain ⟨x, q, -, rfl⟩ := h
  obtain ⟨-, h⟩ | ⟨-, h⟩ := raised_cases (symbol x) q <;> rw [h] <;> rfl

theorem IsLetter.canonical {f : Expr} (h : IsLetter f) : Expr.Canonical f := by
  obtain ⟨x, q, -, rfl⟩ := h
  exact canonical_raised (.var x)

theorem IsLetter.monomial {f : Expr} (h : IsLetter f) : Monomial f := by
  obtain ⟨x, q, -, rfl⟩ := h
  obtain ⟨-, h⟩ | ⟨-, h⟩ := raised_cases (symbol x) q <;> rw [h]
  · exact .var x
  · exact .root x q

theorem normal_const (q : Rat) : Normal (.const q) :=
  ⟨.const q, by simp, List.nodup_nil⟩

theorem IsLetter.normal {f : Expr} (h : IsLetter f) : Normal f := by
  have hfactors : f.factors = [f] := factors_eq_self h.isProduct
  have hothers : others [f] = [f] := others_cons h.isConst []
  refine ⟨h.canonical, ?_, ?_⟩
  · rw [hfactors, hothers]
    exact List.forall_mem_singleton.mpr h
  · rw [hfactors, exponentsOf, hothers]
    exact List.nodup_singleton _

theorem Normal.factor_cases {e f : Expr} (h : Normal e) (hf : f ∈ e.factors) :
    (∃ q, f = .const q) ∨ IsLetter f := by
  cases hc : f.isConst
  · exact .inr (h.letters f (mem_others.mpr ⟨hf, hc⟩))
  · exact .inl (exists_of_isConst hc)

theorem Normal.cases {e : Expr} (h : Normal e) (hp : e.isProduct = false) :
    (∃ q, e = .const q) ∨ IsLetter e :=
  h.factor_cases (by rw [factors_eq_self hp]; exact List.mem_cons_self)

theorem Normal.isSum {e : Expr} (h : Normal e) : e.isSum = false := by
  cases hp : e.isProduct
  · obtain ⟨q, rfl⟩ | h := h.cases hp
    · rfl
    · exact h.isSum
  · obtain ⟨fs, rfl⟩ := exists_of_isProduct hp
    rfl

theorem Normal.monomial {e : Expr} (h : Normal e) : Monomial e :=
  .of_factors fun f hf => by
    obtain ⟨q, rfl⟩ | h := h.factor_cases hf
    · exact .const q
    · exact h.monomial

/-! ### Products of powers of variables -/

theorem Bases.product_of_constant_eq_zero {b : Bases} (h0 : b.constant = 0) :
    b.product = .const 0 := by
  rw [Bases.product_eq, h0, productOf_zero_cons]

/-- The bases are distinct variables. -/
structure Bases.OfVariables (b : Bases) : Prop where
  symbols : ∀ k ∈ Tally.keys b.exponents.entries, ∃ x, k = symbol x
  nodup : (Tally.keys b.exponents.entries).Nodup

namespace Bases.OfVariables

variable {b : Bases}

theorem canonical (h : b.OfVariables) : b.Canonical := by
  intro k hk
  obtain ⟨x, rfl⟩ := h.symbols k hk
  exact .var x

theorem isSum (h : b.OfVariables) : ∀ p ∈ b.exponents.entries, p.1.isSum = false := by
  intro p hp
  obtain ⟨x, hx⟩ := h.symbols p.1 (List.mem_map_of_mem hp)
  rw [hx]
  rfl

theorem letters (h : b.OfVariables) : ∀ f ∈ b.powers, IsLetter f := by
  intro f hf
  obtain ⟨p, hp, rfl⟩ := List.mem_map.mp hf
  obtain ⟨hmem, hne⟩ := List.mem_filter.mp hp
  obtain ⟨x, hx⟩ := h.symbols p.1 (List.mem_map_of_mem hmem)
  exact ⟨x, p.2, by simpa using hne, by rw [hx]⟩

theorem exponentsOf_powers (h : b.OfVariables) :
    b.powers.map splitExponent = b.exponents.entries.filter fun p => p.2 != 0 := by
  rw [Bases.powers, List.map_map]
  refine (List.map_congr_left fun p hp => ?_).trans (List.map_id _)
  obtain ⟨x, hx⟩ := h.symbols p.1 (List.mem_map_of_mem (List.mem_of_mem_filter hp))
  change splitExponent (raised p.1 p.2) = p
  rw [hx, splitExponent_raised_symbol, ← hx]

/-- The product of powers of distinct variables is in normal form. -/
theorem normal_product (h : b.OfVariables) : Normal b.product := by
  have hflat : ∀ f ∈ Expr.const b.constant :: b.powers, f.isProduct = false :=
    List.forall_mem_cons.mpr ⟨rfl, fun f hf => (h.letters f hf).isProduct⟩
  have hcanon : ∀ f ∈ Expr.const b.constant :: b.powers, Expr.Canonical f :=
    List.forall_mem_cons.mpr ⟨.const _, fun f hf => (h.letters f hf).canonical⟩
  have hconst : constants b.powers = [] :=
    List.eq_nil_iff_forall_not_mem.mpr fun q hq => by
      have := (h.letters _ (mem_constants.mp hq)).isConst
      cases this
  by_cases h0 : b.constant = 0
  · rw [Bases.product_of_constant_eq_zero h0]
    exact normal_const 0
  · have hperm : (others b.product.factors).Perm b.powers := by
      rw [Bases.product_eq]
      refine (others_factors_productOf (constructed_of_canonical hcanon) ?_).trans (List.Perm.of_eq ?_)
      · rwa [flatMap_factors_eq_self hflat, constants_const, hconst, List.prod_singleton]
      · rw [flatMap_factors_eq_self hflat, others_const, others_eq_self hconst]
    refine ⟨h.canonical.product, fun f hf => h.letters f (hperm.mem_iff.mp hf), ?_⟩
    rw [exponentsOf, ((hperm.map splitExponent).map Prod.fst).nodup_iff, h.exponentsOf_powers]
    exact h.nodup.sublist (List.filter_sublist.map Prod.fst)

theorem productStep_eq {v : Expr → Expr} {fs : List Expr} (h : (visitedBases v fs).OfVariables) :
    productStep v fs = (visitedBases v fs).product := by
  unfold productStep
  split
  · next h0 => rw [Bases.product_of_constant_eq_zero h0, Expr.zero]
  · rw [Bases.absorbed_of_isSum_eq_false h.isSum]

end Bases.OfVariables

theorem Normal.product_ofFactors {e : Expr} (h : Normal e) :
    (Bases.ofFactors e.factors).product = e := by
  refine Bases.product_ofFactors h.canonical (fun f hf => ?_) h.nodup
  obtain ⟨x, q, hq, rfl⟩ := h.letters f hf
  rw [splitExponent_raised_symbol]
  exact ⟨rfl, hq⟩

theorem Bases.ofVariables_ofFactors {fs : List Expr} (hc : ∀ f ∈ fs, Expr.Canonical f)
    (h : ∀ f ∈ others fs, IsLetter f) : (Bases.ofFactors fs).OfVariables := by
  have hkeys := canonical_keys_exponentsOf hc
  rw [Bases.ofFactors_eq]
  refine ⟨fun k hk => ?_, Tally.nodup_keys_ofList _⟩
  obtain ⟨p, hp, rfl⟩ := List.mem_map.mp ((Tally.mem_keys_ofList hkeys).mp hk)
  obtain ⟨f, hf, rfl⟩ := List.mem_map.mp hp
  obtain ⟨x, q, -, rfl⟩ := h f hf
  exact ⟨x, by rw [splitExponent_raised_symbol]⟩

theorem ofVariables_visitedBases {v : Expr → Expr} {fs : List Expr}
    (h : ∀ f ∈ fs, Normal (v f)) : (visitedBases v fs).OfVariables := by
  refine Bases.ofVariables_ofFactors (fun g hg => ?_) fun g hg => ?_
  · obtain ⟨r, hr, hgr⟩ := List.mem_flatMap.mp hg
    obtain ⟨f, hf, rfl⟩ := List.mem_map.mp hr
    exact (h f hf).canonical.of_factors g hgr
  · obtain ⟨hmem, hconst⟩ := mem_others.mp hg
    obtain ⟨r, hr, hgr⟩ := List.mem_flatMap.mp hmem
    obtain ⟨f, hf, rfl⟩ := List.mem_map.mp hr
    exact (h f hf).letters g (mem_others.mpr ⟨hgr, hconst⟩)

/-! ## Evaluation of monomials -/

theorem normal_simplePower_symbol (x : String) (q : Rat) :
    Normal (simplePower (symbol x) (.const q)) := by
  obtain ⟨p, hp⟩ | ⟨-, hb⟩ | ⟨hpow, -, -, hzero, hone, -⟩ :=
    simplePower_cases (symbol x) (.const q)
  · exact hp ▸ normal_const p
  · rw [hb]
    exact IsLetter.normal ⟨x, 1, one_ne_zero, rfl⟩
  · rw [hpow]
    have h0 : q ≠ 0 := fun h => Bool.eq_false_iff.mp hzero (beq_iff_eq.mpr h)
    have h1 : q ≠ 1 := fun h => Bool.eq_false_iff.mp hone (beq_iff_eq.mpr h)
    exact IsLetter.normal ⟨x, q, h0, (if_neg h1).symm⟩

/-- A power of a normal form that is no product. -/
theorem normal_powerStep {b : Expr} {n : Rat} (hn : Rational.isInteger n = true)
    (hle : n.num.natAbs ≤ Rational.maxExactExponent) (hb : Normal (evaluated b))
    (hp : (evaluated b).isProduct = false) :
    Normal (powerStep evaluated b (.const n)) := by
  obtain ⟨q, hq⟩ | ⟨x, q, -, hx⟩ := hb.cases hp
  · rw [powerStep, hq]
    obtain ⟨r, hr⟩ := exists_const_simplePower (p := q) hn hle
    simp only [evaluated_const, hr]
    exact normal_const r
  · obtain ⟨-, h⟩ | ⟨-, h⟩ := raised_cases (symbol x) q <;> rw [powerStep, hx, h]
    · exact normal_simplePower_symbol x n
    · simp only [Expr.power, evaluated_productOf_const]
      exact normal_simplePower_symbol x (n * q)

/-- **A monomial evaluates to its normal form.** -/
theorem normal_evaluated {e : Expr} (hm : Monomial e) (he : Expr.Canonical e) :
    Normal (evaluated e) := by
  refine evaluated_induction (motive := fun e => Monomial e → Normal (evaluated e))
    (fun e he ih hm => ?_) he hm
  cases hm with
  | const q => exact normal_const q
  | var x => exact IsLetter.normal ⟨x, 1, one_ne_zero, rfl⟩
  | root x q =>
    rw [evaluated_power he]
    exact normal_simplePower_symbol x q
  | product hfs =>
    have hbases := ofVariables_visitedBases fun f hf => ih f (.factor hf) (hfs f hf)
    rw [evaluated_product he, hbases.productStep_eq]
    exact hbases.normal_product
  | @power b n hb hn hle =>
    have hnormal := ih b .left hb
    rw [evaluated_power he]
    cases hp : (evaluated b).isProduct
    · exact normal_powerStep hn hle hnormal hp
    · obtain ⟨gs, hgs⟩ := exists_of_isProduct hp
      rw [powerStep, hgs]
      refine ih _ (.distributed hgs) (monomial_productOf (fun f hf => ?_) fun f hf => ?_) <;>
        obtain ⟨g, hg, rfl⟩ := List.mem_map.mp hf <;>
        rw [hgs] at hnormal
      · exact (hnormal.canonical.of_product g hg).power (.const n)
      · exact .power (hnormal.monomial.factors g hg) hn hle

/-- A product of monomials evaluates by the step for its factors, also if it collapses. -/
theorem evaluated_productOf_monomials {c : Rat} {fs : List Expr}
    (hfs : ∀ f ∈ fs, Expr.Canonical f ∧ f.isProduct = false ∧ f.isConst = false)
    (hm : ∀ f ∈ fs, Monomial f) :
    evaluated (productOf (.const c :: fs)) = (visitedBases evaluated (.const c :: fs)).product := by
  have hconst : constants fs = [] :=
    List.eq_nil_iff_forall_not_mem.mpr fun q hq => by
      have := (hfs _ (mem_constants.mp hq)).2.2
      cases this
  have hflat : ∀ f ∈ Expr.const c :: fs, f.isProduct = false :=
    List.forall_mem_cons.mpr ⟨rfl, fun f hf => (hfs f hf).2.1⟩
  have hnormal : ∀ f ∈ Expr.const c :: fs, Normal (evaluated f) :=
    List.forall_mem_cons.mpr ⟨normal_const c, fun f hf => normal_evaluated (hm f hf) (hfs f hf).1⟩
  by_cases h0 : c = 0
  · rw [h0, productOf_zero_cons, evaluated_const, Bases.product_of_constant_eq_zero]
    rw [visitedBases, Bases.ofFactors_eq, List.map_cons, List.flatMap_cons, evaluated_const,
      factors_const, List.singleton_append, constants_const, List.prod_cons, zero_mul]
  by_cases hlen : 2 ≤ (if c = 1 then fs else fs ++ [Expr.const c]).length
  · rw [evaluated_productOf (fun f hf => (hfs f hf).1) (fun f hf => (hfs f hf).2.1) hconst h0 hlen]
    exact (ofVariables_visitedBases hnormal).productStep_eq
  -- the product collapses to a constant or to its only factor
  · have hself {f : Expr} (hf : Normal (evaluated f)) :
        (visitedBases evaluated [f]).product = evaluated f := by
      rw [visitedBases, List.map_singleton, List.flatMap_singleton, hf.product_ofFactors]
    by_cases h1 : c = 1
    · rw [if_pos h1] at hlen
      rw [h1, productOf_one_cons, visitedBases_one (evaluated_const 1)]
      cases fs with
      | nil => rfl
      | cons f gs =>
        obtain rfl : gs = [] := List.eq_nil_of_length_eq_zero (by rw [List.length_cons] at hlen; omega)
        have hf := hfs f List.mem_cons_self
        have hfactors : f.factors = [f] := factors_eq_self hf.2.1
        rw [hself (hnormal f (List.mem_cons_of_mem _ List.mem_cons_self)), ← hfactors,
          hf.1.productOf_factors]
    · rw [if_neg h1, List.length_append, List.length_singleton] at hlen
      obtain rfl : fs = [] := List.eq_nil_of_length_eq_zero (by omega)
      rw [hself (hnormal (.const c) List.mem_cons_self), productOf_singleton_const, evaluated_const]

/-- **A multiple of a monomial evaluates to that multiple of the normal form.** -/
theorem evaluated_productOf_const_monomial {m : Expr} (q : Rat) (hm : Monomial m)
    (hc : Expr.Canonical m) :
    evaluated (productOf [.const q, m]) = productOf [.const q, evaluated m] := by
  have hfs : ∀ f ∈ others m.factors,
      Expr.Canonical f ∧ f.isProduct = false ∧ f.isConst = false := by
    intro f hf
    obtain ⟨hmem, hconst⟩ := mem_others.mp hf
    exact ⟨hc.of_factors f hmem, hc.flat_factors f hmem, hconst⟩
  have hmono : ∀ f ∈ others m.factors, Monomial f := fun f hf => hm.factors f (mem_others.mp hf).1
  have hbases (p : Rat) : visitedBases evaluated (.const p :: others m.factors) =
      ⟨p * (visitedBases evaluated (others m.factors)).constant,
        (visitedBases evaluated (others m.factors)).exponents⟩ := by
    rw [visitedBases, List.map_cons, List.flatMap_cons, evaluated_const, factors_const,
      List.singleton_append, Bases.ofFactors_eq, constants_const, List.prod_cons, exponentsOf,
      others_const, visitedBases, Bases.ofFactors_eq]
    rfl
  have hpowers := (ofVariables_visitedBases fun f hf =>
    normal_evaluated (hmono f hf) (hfs f hf).1).canonical.powers
  have heval (p : Rat) : evaluated (productOf (.const p :: others m.factors)) =
      productOf (.const (p * (visitedBases evaluated (others m.factors)).constant) ::
        (visitedBases evaluated (others m.factors)).powers) := by
    rw [evaluated_productOf_monomials hfs hmono, hbases, Bases.product_eq]
    rfl
  conv_lhs => rw [← hc.productOf_constant_others]
  rw [← productOf_mul_cons fun f hf => (hfs f hf).1, heval, mul_assoc, productOf_mul_cons hpowers,
    ← heval, hc.productOf_constant_others]

/-- A normal form is its own evaluated form. -/
theorem Normal.evaluated_eq_self {e : Expr} (h : Normal e) : evaluated e = e := by
  have hletter {f : Expr} (hf : IsLetter f) : evaluated f = f := by
    obtain ⟨x, q, hq, rfl⟩ := hf
    obtain ⟨-, heq⟩ | ⟨h1, heq⟩ := raised_cases (symbol x) q <;> rw [heq]
    · exact evaluated_var x none
    · have hcanon : Expr.Canonical (Expr.power (symbol x) (.const q)) :=
        Canonical.power (.var x) (.const q)
      rw [evaluated_power hcanon]
      change simplePower (symbol x) (.const q) = _
      have hzero : (Expr.const q).isZero = false := beq_eq_false_iff_ne.mpr hq
      have hone : (Expr.const q).isOne = false := beq_eq_false_iff_ne.mpr h1
      unfold simplePower
      rw [hzero, hone]
      rfl
  have hfactor : ∀ f ∈ e.factors, evaluated f = f := by
    intro f hf
    obtain ⟨q, rfl⟩ | hf := h.factor_cases hf
    · exact evaluated_const q
    · exact hletter hf
  cases hp : e.isProduct
  · exact hfactor e (by rw [factors_eq_self hp]; exact List.mem_cons_self)
  · obtain ⟨fs, rfl⟩ := exists_of_isProduct hp
    have hbases : visitedBases evaluated fs = Bases.ofFactors (Expr.product fs).factors := by
      change Bases.ofFactors (((Expr.product fs).factors.map evaluated).flatMap factors) = _
      rw [(List.map_congr_left hfactor).trans (List.map_id' _),
        flatMap_factors_eq_self h.canonical.flat_factors]
    have hvars := Bases.ofVariables_ofFactors h.canonical.of_factors h.letters
    rw [← hbases] at hvars
    rw [evaluated_product h.canonical, hvars.productStep_eq, hbases, h.product_ofFactors]

/-! ## Reduced forms -/

/-- Terms in normal form, like terms collected. -/
structure Reduced (e : Expr) : Prop where
  canonical : Expr.Canonical e
  terms : ∀ t ∈ e.terms, Normal t
  nodup : (Tally.keys (splits e.terms)).Nodup

theorem Normal.reduced {e : Expr} (h : Normal e) : Reduced e := by
  have hterms : e.terms = [e] := terms_eq_self h.isSum
  refine ⟨h.canonical, by rw [hterms]; exact List.forall_mem_singleton.mpr h, ?_⟩
  rw [hterms, splits]
  cases hc : e.isConst
  · rw [others_cons hc]
    exact List.nodup_singleton _
  · obtain ⟨q, rfl⟩ := exists_of_isConst hc
    exact List.nodup_nil

theorem Reduced.normal {e : Expr} (h : Reduced e) (hs : e.isSum = false) : Normal e :=
  h.terms e (by rw [terms_eq_self hs]; exact List.mem_cons_self)

theorem normal_scaled_iff {q : Rat} {k : Expr} (hk : Monic k) (h0 : q ≠ 0) :
    Normal (scaled q k) ↔ Normal k := by
  by_cases h1 : q = 1
  · rw [scaled, if_pos h1]
  · have hothers : (others (scaled q k).factors).Perm (others k.factors) := by
      refine (others_perm (factors_scaled hk h0 h1)).trans (List.Perm.of_eq ?_)
      rw [others_append, others_const, others_nil, List.append_nil]
    have hkeys := ((hothers.map splitExponent).map Prod.fst).nodup_iff
    exact ⟨fun h => ⟨hk.canonical, fun f hf => h.letters f (hothers.mem_iff.mpr hf),
        hkeys.mp h.nodup⟩,
      fun h => ⟨canonical_scaled hk.canonical, fun f hf => h.letters f (hothers.mem_iff.mp hf),
        hkeys.mpr h.nodup⟩⟩

theorem Normal.splitCoefficient {t : Expr} (h : Normal t) (hc : t.isConst = false) :
    Normal (splitCoefficient t).2 := by
  obtain ⟨hmonic, h0, heq⟩ := scaled_split h.canonical hc
  exact (normal_scaled_iff hmonic h0).mp (heq.symm ▸ h)

theorem normal_of_mem_likeTerms {ts : List Expr} (h : ∀ t ∈ ts, Normal t) {p : Expr × Rat}
    (hp : p ∈ likeTerms ts) : Normal p.1 := by
  have hcanon : ∀ t ∈ ts, Expr.Canonical t := fun t ht => (h t ht).canonical
  obtain ⟨s, hs, heq⟩ := List.mem_map.mp ((mem_likeTerms hcanon (k := p.1) (q := p.2)).mp hp).1
  obtain ⟨t, ht, rfl⟩ := List.mem_map.mp hs
  rw [← heq]
  exact (h t (mem_others.mp ht).1).splitCoefficient (mem_others.mp ht).2

/-- **Collected normal forms are reduced**, with the same coefficients. -/
theorem reduced_collect {ts : List Expr} (h : ∀ t ∈ ts, Normal t) :
    Reduced (collect ts) ∧ (∀ k, coefficient k (collect ts).terms = coefficient k ts) ∧
      (constants (collect ts).terms).sum = (constants ts).sum := by
  have hcanon : ∀ t ∈ ts, Expr.Canonical t := fun t ht => (h t ht).canonical
  have hflat : ∀ p ∈ likeTerms ts, p.1.isSum = false :=
    fun p hp => (normal_of_mem_likeTerms h hp).isSum
  refine ⟨⟨canonical_collect hcanon, fun t ht => ?_, ?_⟩,
    coefficient_terms_collect (constructed_of_canonical hcanon) hflat,
    constants_terms_collect (constructed_of_canonical hcanon) hflat⟩
  · obtain hconst | ⟨-, p, hp, htp⟩ := mem_terms_collect hcanon ht
    · obtain ⟨q, rfl⟩ := exists_of_isConst hconst
      exact normal_const q
    · have hmonic := monic_likeTerms hcanon (k := p.1) (q := p.2) hp
      have h0 := ((mem_likeTerms hcanon (k := p.1) (q := p.2)).mp hp).2.2
      have hnormal := (normal_scaled_iff hmonic h0).mpr (normal_of_mem_likeTerms h hp)
      rw [terms_eq_self hnormal.isSum] at htp
      exact List.mem_singleton.mp htp ▸ hnormal
  · rw [((splits_terms_collect_perm (constructed_of_canonical hcanon) hflat).map Prod.fst).nodup_iff]
    exact nodup_keys_likeTerms _

/-! ### Multiples -/

/-- The terms of `a` are the `q`-fold terms of `b`. -/
structure Multiple (q : Rat) (a b : Expr) : Prop where
  coefficient_eq : ∀ k, coefficient k a.terms = q * coefficient k b.terms
  constants_eq : (constants a.terms).sum = q * (constants b.terms).sum

theorem splits_map_productOf {q : Rat} (h0 : q ≠ 0) : ∀ {ts : List Expr}, (∀ t ∈ ts, Normal t) →
    splits (ts.map fun t => productOf [.const q, t]) =
        (splits ts).map (fun p => (p.1, q * p.2)) ∧
      constants (ts.map fun t => productOf [.const q, t]) = (constants ts).map (q * ·)
  | [], _ => ⟨rfl, rfl⟩
  | t :: ts, h => by
    obtain ⟨ht, hts⟩ := List.forall_mem_cons.mp h
    obtain ⟨hsplits, hconst⟩ := splits_map_productOf h0 hts
    cases hc : t.isConst
    · obtain ⟨hmonic, hne, heq⟩ := scaled_split ht.canonical hc
      have hmul : productOf [.const q, t] =
          scaled (q * (splitCoefficient t).1) (splitCoefficient t).2 := by
        conv_lhs => rw [← heq]
        rw [productOf_const_scaled hmonic.canonical, scaled_eq_productOf hmonic.canonical]
      have hconst' := isConst_scaled hmonic.primitive (mul_ne_zero h0 hne)
      rw [List.map_cons, hmul, constants_cons hconst', constants_cons hc, hconst, splits, splits,
        others_cons hconst', others_cons hc, List.map_cons, List.map_cons, List.map_cons,
        split_scaled hmonic (mul_ne_zero h0 hne)]
      exact ⟨congrArg _ hsplits, rfl⟩
    · obtain ⟨c, rfl⟩ := exists_of_isConst hc
      rw [List.map_cons, productOf_const_const, constants_const, constants_const, hconst, splits,
        splits, others_const, others_const]
      exact ⟨hsplits, rfl⟩

theorem total_map_mul (k : Expr) (q : Rat) : ∀ xs : List (Expr × Rat),
    Tally.total k (xs.map fun p => (p.1, q * p.2)) = q * Tally.total k xs
  | [] => (mul_zero q).symm
  | p :: xs => by
    rw [List.map_cons, Tally.total_cons, Tally.total_cons, total_map_mul k q xs, mul_add, mul_ite,
      mul_zero]

/-- The multiples of normal forms. -/
theorem multiple_terms {q : Rat} {ts : List Expr} (h0 : q ≠ 0) (h : ∀ t ∈ ts, Normal t) :
    (∀ t ∈ ts.map fun t => productOf [.const q, t], Normal t) ∧
      (∀ k, coefficient k (ts.map fun t => productOf [.const q, t]) = q * coefficient k ts) ∧
      (constants (ts.map fun t => productOf [.const q, t])).sum = q * (constants ts).sum := by
  obtain ⟨hsplits, hconstants⟩ := splits_map_productOf h0 h
  refine ⟨fun u hu => ?_, fun k => ?_, ?_⟩
  · obtain ⟨t, ht, rfl⟩ := List.mem_map.mp hu
    cases hc : t.isConst
    · obtain ⟨hmonic, hne, heq⟩ := scaled_split (h t ht).canonical hc
      rw [← heq, productOf_const_scaled hmonic.canonical, ← scaled_eq_productOf hmonic.canonical]
      exact (normal_scaled_iff hmonic (mul_ne_zero h0 hne)).mpr ((h t ht).splitCoefficient hc)
    · obtain ⟨c, rfl⟩ := exists_of_isConst hc
      rw [productOf_const_const]
      exact normal_const _
  · rw [coefficient, coefficient, hsplits, total_map_mul]
  · rw [hconstants, List.sum_map_mul_left, List.map_id']

/-! ## Evaluation of combinations -/

/-- A constant times something that is evaluated to a normal form. -/
theorem productStep_const_normal {q : Rat} {e : Expr} (h : Normal (evaluated e)) :
    productStep evaluated [.const q, e] = productOf [.const q, evaluated e] := by
  have hvars : (visitedBases evaluated [.const q, e]).OfVariables := ofVariables_visitedBases
    (List.forall_mem_cons.mpr ⟨normal_const q, List.forall_mem_singleton.mpr h⟩)
  have hbases : visitedBases evaluated [.const q, e] =
      ⟨q * (Bases.ofFactors (evaluated e).factors).constant,
        (Bases.ofFactors (evaluated e).factors).exponents⟩ := by
    rw [visitedBases, List.map_cons, List.map_singleton, List.flatMap_cons, List.flatMap_singleton,
      evaluated_const, factors_const, List.singleton_append, Bases.ofFactors_eq, Bases.ofFactors_eq,
      constants_const, List.prod_cons, exponentsOf, others_const, exponentsOf]
  have hpowers := (Bases.canonical_ofFactors h.canonical.of_factors).powers
  rw [hvars.productStep_eq, hbases, Bases.product_eq]
  change productOf (.const _ :: (Bases.ofFactors (evaluated e).factors).powers) = _
  rw [productOf_mul_cons hpowers, ← Bases.product_eq, h.product_ofFactors]

/-- A constant times something that is evaluated to a sum: the sum takes over the constant. -/
theorem productStep_const_sum {q : Rat} {e : Expr} (h0 : q ≠ 0) (h1 : q ≠ 1)
    (hs : (evaluated e).isSum = true)
    (hd : Expr.Canonical (scaledSum evaluated q (evaluated e))) :
    productStep evaluated [.const q, e] = scaledSum evaluated q (evaluated e) := by
  obtain ⟨us, heq⟩ := exists_of_isSum hs
  have hself : Expr.compare (.sum us) (.sum us) = .eq := compare_self (.sum us)
  have hbases : visitedBases evaluated [.const q, e] = ⟨q, ⟨[(.sum us, 1)]⟩⟩ := by
    rw [visitedBases, List.map_cons, List.map_singleton, heq, evaluated_const, Bases.ofFactors_eq]
    exact congrArg (Bases.mk · _) List.prod_singleton
  have habs : (Bases.mk q ⟨[(.sum us, 1)]⟩).absorber? = some (.sum us, 1, q) := rfl
  have herase : (Tally.mk [(.sum us, 1)]).erase (.sum us) = ⟨[]⟩ := by
    simp [Tally.erase, hself]
  rw [heq] at hd ⊢
  rw [productStep, hbases, if_neg h0, Bases.absorbed, if_neg h1, habs]
  dsimp only
  have hcollapse {d : Expr} (hd : Expr.Canonical d) :
      (Bases.mk 1 ⟨[(d, 1)]⟩).product = d := by
    rw [Bases.product_eq]
    change productOf [.const 1, d] = d
    rw [← scaled_eq_productOf hd, scaled, if_pos rfl]
  unfold Bases.replace
  split
  · next r hr =>
    have hpow : Rational.pow? r 1 = some r := by
      rw [pow?_unit r (.inl rfl), if_neg (by norm_num), Rat.num_one, zpow_one]
    rw [hpow, herase, hr]
    dsimp only
    rw [Bases.product_eq]
    exact productOf_singleton_const r
  · rw [herase]
    exact hcollapse hd

/-- A product of a constant and a sum that evaluates to a reduced form. -/
theorem evaluated_productOf_sum {q : Rat} {ts : List Expr} (h0 : q ≠ 0)
    (hc : Expr.Canonical (.sum ts)) (h : Reduced (evaluated (.sum ts))) :
    Reduced (evaluated (productOf [.const q, .sum ts])) ∧
      Multiple q (evaluated (productOf [.const q, .sum ts])) (evaluated (.sum ts)) := by
  by_cases h1 : q = 1
  · have hself : productOf [.const q, .sum ts] = .sum ts := by
      rw [← scaled_eq_productOf hc, scaled, if_pos h1]
    rw [hself, h1]
    exact ⟨h, fun k => (one_mul _).symm, (one_mul _).symm⟩
  have hstep := evaluated_productOf (List.forall_mem_singleton.mpr hc)
    (List.forall_mem_singleton.mpr rfl) rfl h0 (by rw [if_neg h1]; rfl)
  obtain ⟨hnormal, hcoeff, hconst⟩ := multiple_terms h0 h.terms
  rw [hstep]
  cases hs : (evaluated (.sum ts)).isSum
  · have hterms : (evaluated (.sum ts)).terms = [evaluated (.sum ts)] := terms_eq_self hs
    rw [productStep_const_normal (h.normal hs)]
    rw [hterms] at hnormal hcoeff hconst
    have hprod := hnormal _ List.mem_cons_self
    have hself : (productOf [.const q, evaluated (.sum ts)]).terms =
      [productOf [.const q, evaluated (.sum ts)]] := terms_eq_self hprod.isSum
    refine ⟨hprod.reduced, fun k => ?_, ?_⟩
    · rw [hself, hterms]
      exact hcoeff k
    · rw [hself, hterms]
      exact hconst
  · have hscaled : scaledSum evaluated q (evaluated (.sum ts)) =
        collect ((evaluated (.sum ts)).terms.map fun t => productOf [.const q, t]) := by
      refine congrArg collect ?_
      have hterm (t : Expr) (ht : t ∈ (evaluated (.sum ts)).terms) :
          (evaluated (productOf [.const q, t])).terms = [productOf [.const q, t]] := by
        have hprod := hnormal _ (List.mem_map_of_mem ht)
        rw [hprod.evaluated_eq_self, terms_eq_self hprod.isSum]
      rw [List.map_eq_flatMap]
      exact List.flatMap_congr hterm
    obtain ⟨hreduced, hcoeff', hconst'⟩ := reduced_collect hnormal
    rw [productStep_const_sum h0 h1 hs (hscaled ▸ hreduced.canonical), hscaled]
    refine ⟨hreduced, fun k => ?_, ?_⟩
    · rw [hcoeff', hcoeff]
    · rw [hconst', hconst]

end Evaluator

namespace Expr

/-- A sum of monomials and of multiples of such sums. -/
inductive Combination : Expr → Prop
  | monomial {m : Expr} : Monomial m → Combination m
  | sum {ts : List Expr} : (∀ t ∈ ts, Combination t) → Combination (sum ts)
  | multiple {q : Rat} {ts fs : List Expr} : fs.Perm [.const q, sum ts] → Combination (sum ts) →
    Combination (product fs)

end Expr

namespace Evaluator

open Expr

/-- What the evaluation of a combination yields, and that of a multiple of it. -/
structure Linear (e : Expr) : Prop where
  reduced : Reduced (evaluated e)
  multiple : ∀ q, q ≠ 0 → Multiple q (evaluated (productOf [.const q, e])) (evaluated e)

theorem normal_visitedTerms {ts : List Expr} (h : ∀ t ∈ ts, Reduced (evaluated t)) :
    ∀ u ∈ (ts.map evaluated).flatMap terms, Normal u := by
  intro u hu
  obtain ⟨r, hr, hur⟩ := List.mem_flatMap.mp hu
  obtain ⟨t, ht, rfl⟩ := List.mem_map.mp hr
  exact (h t ht).terms u hur

/-- A product of a constant and a sum is a multiple of the sum. -/
theorem product_eq_multiple {q : Rat} {ts fs : List Expr} (hc : Expr.Canonical (.product fs))
    (hperm : fs.Perm [.const q, .sum ts]) :
    Expr.Canonical (.sum ts) ∧ q ≠ 0 ∧ Expr.product fs = productOf [.const q, .sum ts] := by
  have hself : Expr.product fs = productOf [.const q, .sum ts] :=
    hc.productOf_factors.symm.trans (productOf_perm hc.of_product hperm)
  refine ⟨hc.of_product _ (hperm.mem_iff.mpr (List.mem_cons_of_mem _ List.mem_cons_self)), ?_, hself⟩
  rintro rfl
  rw [productOf_zero_cons] at hself
  cases hself

theorem linear_of_monomial {m : Expr} (hm : Monomial m) (hc : Expr.Canonical m) : Linear m := by
  have hnormal := normal_evaluated hm hc
  have hterms : (evaluated m).terms = [evaluated m] := terms_eq_self hnormal.isSum
  refine ⟨hnormal.reduced, fun q h0 => ?_⟩
  obtain ⟨hprod, hcoeff, hconst⟩ := multiple_terms h0 (List.forall_mem_singleton.mpr hnormal)
  have hself : (productOf [.const q, evaluated m]).terms = [productOf [.const q, evaluated m]] :=
    terms_eq_self (hprod _ List.mem_cons_self).isSum
  rw [evaluated_productOf_const_monomial q hm hc]
  exact ⟨fun k => by rw [hself, hterms]; exact hcoeff k, by rw [hself, hterms]; exact hconst⟩

/-- **Combinations evaluate linearly.** -/
theorem linear_of_combination {e : Expr} (h : Combination e) (hc : Expr.Canonical e) : Linear e := by
  induction h with
  | monomial hm => exact linear_of_monomial hm hc
  | @sum ts hts ih =>
    have hnormal := normal_visitedTerms fun t ht => (ih t ht (hc.of_sum t ht)).reduced
    have hreduced := (reduced_collect hnormal).1
    rw [← evaluated_sum hc] at hreduced
    exact ⟨hreduced, fun q h0 => (evaluated_productOf_sum h0 hc hreduced).2⟩
  | @multiple q ts fs hperm _ ih =>
    obtain ⟨hsum, h0, hself⟩ := product_eq_multiple hc hperm
    obtain ⟨hreduced, hq⟩ := evaluated_productOf_sum h0 hsum (ih hsum).reduced
    refine ⟨hself ▸ hreduced, fun p hp => ?_⟩
    obtain ⟨-, hpq⟩ := evaluated_productOf_sum (mul_ne_zero hp h0) hsum (ih hsum).reduced
    rw [hself, ← productOf_mul_cons (List.forall_mem_singleton.mpr hsum)]
    exact ⟨fun k => by rw [hpq.coefficient_eq, hq.coefficient_eq, mul_assoc],
      by rw [hpq.constants_eq, hq.constants_eq, mul_assoc]⟩

end Evaluator

end SymbolicAlgebra
