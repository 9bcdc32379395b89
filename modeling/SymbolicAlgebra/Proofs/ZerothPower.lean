import SymbolicAlgebra.Proofs.Affine
import SymbolicAlgebra.Proofs.Exponents

/-!
# Zeroth powers

`b ^ 0` has no value where `b` is `0`, so that the preservation of values says nothing about it. Its
evaluation is followed here by itself: a zeroth power evaluates to `1`, or to `0` if the base is `0`
wherever it is defined. In a product it then stands for a constant.

Results:
* `exists_evaluated_power_zero`: the constant to which a zeroth power evaluates.
* `denotes_product_of_const_factor`: the value of a product with a factor that evaluates to a constant.
* `exactPowers_power_zero`, `exactPowers_product_of_const_factor`: both are evaluated exactly within
  `Rational.maxExactExponent`.
* `degree_product_of_const_factor_le`: the zeroth power adds nothing to the degree.
-/

namespace SymbolicAlgebra.Evaluator

open Expr

/-! ## Evaluation of zeroth powers -/

/-- The zeroth power of `e` may evaluate to `c`. -/
def ZerothPower (e : Expr) (c : Rat) : Prop :=
  c = 1 ∨ c = 0 ∧ ∀ σ, Defined σ e → value σ e = 0

theorem simplePower_const_zero (b : Expr) :
    simplePower b (.const 0) = .const (if b.isZero then 0 else 1) := by
  unfold simplePower
  split
  · rfl
  · split
    · rfl
    · rfl

/-- The zeroth power of a base that does not evaluate to a product. -/
theorem evaluated_power_zero_of_isProduct {e : Expr} (he : Expr.Canonical e)
    (hexact : ExactPowers e) (hp : (evaluated e).isProduct = false) :
    ∃ c, evaluated (Expr.power e (.const 0)) = .const c ∧ ZerothPower e c := by
  have hvalue (σ : String → Rat) (hd : Defined σ e) : Denotes σ (evaluated e) (value σ e) :=
    denotes_evaluated he hexact hd
  rw [evaluated_power (he.power (.const 0))]
  unfold powerStep
  split
  · next fs hl =>
    rw [hl] at hp
    cases hp
  · next b x hl =>
    rw [evaluated_const, productOf_zero_cons, evaluated_const, simplePower_const_zero]
    refine ⟨_, rfl, ?_⟩
    split
    · next hzero =>
      refine .inr ⟨rfl, fun σ hd => ?_⟩
      have hpow := hvalue σ hd
      rw [hl, eq_const_of_isZero hzero] at hpow
      cases hpow.defined with
      | binary hop _ _ => cases hop
      | power _ _ h0 _ =>
        rw [← hpow.value_eq, ← Expr.power, value_power, value_const,
          zero_zpow _ (num_ne_zero_of_ne h0)]
    · exact .inl rfl
  · rw [evaluated_const, simplePower_const_zero]
    refine ⟨_, rfl, ?_⟩
    split
    · next hzero =>
      exact .inr ⟨rfl, fun σ hd => (hvalue σ hd).value_eq.symm.trans (value_of_isZero hzero)⟩
    · exact .inl rfl

/-- Several zeroth powers make a proper product. -/
theorem productOf_power_zero {fs : List Expr} (h : 2 ≤ fs.length) :
    ∃ gs, productOf (fs.map fun f => Expr.power f (.const 0)) = .product gs ∧
      gs.Perm (fs.map fun f => Expr.power f (.const 0)) := by
  have hflat : ∀ g ∈ fs.map (fun f => Expr.power f (.const 0)), g.isProduct = false := by
    intro g hg
    obtain ⟨f, -, rfl⟩ := List.mem_map.mp hg
    rfl
  have hconst : constants (fs.map fun f => Expr.power f (.const 0)) = [] :=
    List.filterMap_eq_nil_iff.mpr fun g hg => by
      obtain ⟨f, -, rfl⟩ := List.mem_map.mp hg
      rfl
  have hproper := productOf_proper hflat hconst one_ne_zero (by simpa using h)
  rwa [productOf_one_cons, if_pos rfl] at hproper

/-- The product of zeroth powers of several bases. -/
theorem zerothPower_product {fs : List Expr} {g : Expr → Rat}
    (h : ∀ f ∈ fs, ZerothPower f (g f)) : ZerothPower (.product fs) (fs.map g).prod := by
  by_cases hone : ∀ f ∈ fs, g f = 1
  · refine .inl (List.prod_eq_one fun q hq => ?_)
    obtain ⟨f, hf, rfl⟩ := List.mem_map.mp hq
    exact hone f hf
  · push Not at hone
    obtain ⟨f, hf, hne⟩ := hone
    obtain ⟨h0, hvalue⟩ := (h f hf).resolve_left hne
    refine .inr ⟨List.prod_eq_zero (List.mem_map.mpr ⟨f, hf, h0⟩), fun σ hd => ?_⟩
    rw [value_product]
    exact List.prod_eq_zero (List.mem_map.mpr ⟨f, hf, hvalue σ (hd.of_factors f hf)⟩)

/-- A product of several zeroth powers. -/
theorem evaluated_product_power_zero {fs gs : List Expr} {c : Expr → Rat}
    (hE : Expr.Canonical (.product gs)) (hperm : gs.Perm (fs.map fun f => Expr.power f (.const 0)))
    (hc : ∀ f ∈ fs, evaluated (Expr.power f (.const 0)) = .const (c f)) :
    evaluated (.product gs) = .const (fs.map c).prod := by
  have hconst : ∀ g ∈ gs, evaluated g = .const (c g.base) := by
    intro g hg
    obtain ⟨f, hf, rfl⟩ := List.mem_map.mp (hperm.mem_iff.mp hg)
    exact hc f hf
  have hmap : (gs.map fun g => c g.base).Perm (fs.map c) := by
    have := hperm.map fun g => c g.base
    rwa [List.map_map] at this
  rw [evaluated_product hE, productStep_const hconst, hmap.prod_eq]

/-- A single zeroth power in the form of the induction. -/
theorem zerothPower_singleton {e : Expr} {c : Rat} :
    ZerothPower (.product [e]) c ↔ ZerothPower e c := by
  have hdefined (σ : String → Rat) : Defined σ (.product [e]) ↔ Defined σ e :=
    ⟨fun h => h.of_factors e List.mem_cons_self,
      fun h => .product (List.forall_mem_singleton.mpr h)⟩
  simp only [ZerothPower, hdefined, value_product, List.map_singleton, List.prod_singleton]

/-- A zeroth power, or the product of several into which evaluation turns one. -/
theorem evaluated_productOf_power_zero {E : Expr} (hE : Expr.Canonical E) : ∀ fs : List Expr,
    E = productOf (fs.map fun f => Expr.power f (.const 0)) → fs ≠ [] →
      (∀ f ∈ fs, Expr.Canonical f) → ExactPowers E →
        ∃ c, evaluated E = .const c ∧ ZerothPower (.product fs) c := by
  refine evaluated_induction (motive := fun E => ∀ fs : List Expr,
    E = productOf (fs.map fun f => Expr.power f (.const 0)) → fs ≠ [] →
      (∀ f ∈ fs, Expr.Canonical f) → ExactPowers E →
        ∃ c, evaluated E = .const c ∧ ZerothPower (.product fs) c) ?_ hE
  intro E hE ih fs hfs hne hcanon hexact
  match fs, hne with
  | [e], _ =>
    have he : Expr.Canonical e := hcanon e List.mem_cons_self
    obtain rfl : E = Expr.power e (.const 0) :=
      hfs.trans (Canonical.productOf_factors (he.power (.const 0)))
    have hexactBase := hexact.of_subVisit .left
    simp only [zerothPower_singleton]
    cases hp : (evaluated e).isProduct
    · exact evaluated_power_zero_of_isProduct he hexactBase hp
    · -- the power is distributed over the factors of the evaluated base
      obtain ⟨gs, hgs⟩ := exists_of_isProduct hp
      have hcg : Expr.Canonical (.product gs) := hgs ▸ canonical_evaluated he
      have hgne : gs ≠ [] := List.ne_nil_of_length_pos (by have := hcg.two_le_factors; omega)
      have hsub : SubVisit evaluated (productOf (gs.map fun g => Expr.power g (.const 0)))
          (Expr.power e (.const 0)) := .distributed hgs
      obtain ⟨c, hc, hzeroth⟩ := ih _ hsub gs rfl hgne hcg.of_product (hexact.of_subVisit hsub)
      refine ⟨c, ?_, hzeroth.imp_right fun ⟨h0, hvalue⟩ => ⟨h0, fun σ hd => ?_⟩⟩
      · rw [evaluated_power hE, powerStep, hgs]
        exact hc
      · have hdenotes := denotes_evaluated he hexactBase hd
        rw [hgs] at hdenotes
        rw [← hdenotes.value_eq, hvalue σ hdenotes.defined]
  | f :: f' :: rest, _ =>
    obtain ⟨gs, hgs, hperm⟩ := productOf_power_zero (show 2 ≤ (f :: f' :: rest).length by simp)
    obtain rfl : E = .product gs := hfs.trans hgs
    have hfactor (e : Expr) (he : e ∈ f :: f' :: rest) :
        ∃ c, evaluated (Expr.power e (.const 0)) = .const c ∧ ZerothPower e c := by
      have hmem : Expr.power e (.const 0) ∈ gs :=
        hperm.mem_iff.mpr (List.mem_map.mpr ⟨e, he, rfl⟩)
      have hce := hcanon e he
      have hform := Canonical.productOf_factors (hce.power (.const 0))
      obtain ⟨c, hc, hzeroth⟩ := ih _ (.factor hmem) [e] hform.symm (List.cons_ne_nil _ _)
        (List.forall_mem_singleton.mpr hce) (hexact.of_subVisit (.factor hmem))
      exact ⟨c, hc, zerothPower_singleton.mp hzeroth⟩
    choose! c hc hzeroth using hfactor
    exact ⟨_, evaluated_product_power_zero hE hperm hc, zerothPower_product hzeroth⟩

/-- **A zeroth power evaluates to `1`**, or to `0` if the base is `0` wherever it is defined. -/
theorem exists_evaluated_power_zero {e : Expr} (he : Expr.Canonical e)
    (hexact : ExactPowers (Expr.power e (.const 0))) :
    ∃ c, evaluated (Expr.power e (.const 0)) = .const c ∧ ZerothPower e c := by
  have hcanon := he.power (.const 0)
  obtain ⟨c, hc, hzeroth⟩ := evaluated_productOf_power_zero hcanon [e]
    (Canonical.productOf_factors hcanon).symm (List.cons_ne_nil _ _)
    (List.forall_mem_singleton.mpr he) hexact
  exact ⟨c, hc, zerothPower_singleton.mp hzeroth⟩

/-! ## A factor that turns out to be constant -/

/-- The visits of an evaluation with exact powers keep the value. -/
theorem preserves_of_subVisit {σ : String → Rat} {e E : Expr} (hE : Expr.Canonical E)
    (hexact : ExactPowers E) (h : SubVisit evaluated e E) : Preserves σ evaluated e :=
  have he := (h.lower_evaluated hE).1
  ⟨canonical_evaluated he, denotes_evaluated he (hexact.of_subVisit h)⟩

/-- A factor that evaluates to a constant may as well be that constant. -/
theorem visitedBases_const_factor {u : Expr} {c : Rat} {gs rest : List Expr}
    (hE : Expr.Canonical (.product gs)) (hperm : gs.Perm (u :: rest)) (hu : evaluated u = .const c) :
    visitedBases evaluated gs = visitedBases evaluated (.const c :: rest) := by
  rw [visitedBases_perm (fun f hf => canonical_evaluated (hE.of_product f hf)) hperm,
    visitedBases, visitedBases, List.map_cons, List.map_cons, hu, evaluated_const]

/-- A product in which the factor `u` evaluates to a constant has the value of the other factors
times that constant. -/
theorem denotes_product_of_const_factor {σ : String → Rat} {u : Expr} {c : Rat}
    {gs rest : List Expr} (hE : Expr.Canonical (.product gs)) (hexact : ExactPowers (.product gs))
    (hperm : gs.Perm (u :: rest)) (hu : evaluated u = .const c) (hd : ∀ f ∈ rest, Defined σ f) :
    Denotes σ (evaluated (.product gs)) (c * (rest.map (value σ)).prod) := by
  have hbases := visitedBases_const_factor hE hperm hu
  rw [evaluated_product hE, productStep_congr hbases]
  have hvalue : value σ (.product (.const c :: rest)) = c * (rest.map (value σ)).prod := by
    rw [value_product, List.map_cons, List.prod_cons, value_const]
  rw [← hvalue]
  refine denotes_productStep ?_ (List.forall_mem_cons.mpr ⟨.const c, hd⟩) ?_
  · have hconst : Preserves σ evaluated (.const c) := ⟨.const c, fun hd => ⟨hd, rfl⟩⟩
    refine List.forall_mem_cons.mpr ⟨hconst, fun f hf => ?_⟩
    have hmem := hperm.mem_iff.mpr (List.mem_cons_of_mem u hf)
    exact preserves_of_subVisit hE hexact (.factor hmem)
  · intro base x scale habs t ht
    rw [← hbases] at habs
    exact preserves_of_subVisit hE hexact (.scaledTerm habs ht)

/-- Multiplying by a factor that is neither a constant nor a product: the product is `0`, the factor
itself, or a proper product with it. -/
theorem productOf_factor {σ : String → Rat} {u e : Expr} (hp : u.isProduct = false)
    (hc : u.isConst = false) (hd : Defined σ e) :
    (productOf [.const 1, u, e] = .const 0 ∧ value σ e = 0) ∨
    (productOf [.const 1, u, e] = u ∧ value σ e = 1) ∨
    ∃ gs rest, productOf [.const 1, u, e] = .product gs ∧ gs.Perm (u :: rest) ∧
      (∀ f ∈ rest, Defined σ f) ∧ (rest.map (value σ)).prod = value σ e := by
  have hflat : [Expr.const 1, u, e].flatMap factors = .const 1 :: u :: e.factors := by
    simp [factors_eq_self hp]
  have hvalue := (@multiplies_value σ).others_constants e.factors
  rw [value_factors] at hvalue
  rw [productOf_eq, hflat, constants_const, constants_cons hc, List.prod_cons, one_mul]
  by_cases h0 : (constants e.factors).prod = 0
  · rw [if_pos h0]
    exact .inl ⟨rfl, by rw [← hvalue, h0, mul_zero]⟩
  rw [if_neg h0]
  let rest := others e.factors ++
    if (constants e.factors).prod = 1 then [] else [Expr.const (constants e.factors).prod]
  have hrest : (rest.map (value σ)).prod = value σ e := by
    rw [← hvalue, List.map_append, List.prod_append]
    split
    · next h1 => rw [h1, List.map_nil, List.prod_nil]
    · rw [List.map_singleton, List.prod_singleton, value_const]
  have hdefined : ∀ f ∈ rest, Defined σ f := by
    intro f hf
    rcases List.mem_append.mp hf with hf | hf
    · exact hd.of_factors f (mem_others.mp hf).1
    · split at hf
      · cases hf
      · rw [List.mem_singleton.mp hf]
        exact .const _
  have hperm : (arranged 1 (constants e.factors).prod (.const 1 :: u :: e.factors)).Perm
      (u :: rest) := by
    rw [arranged, others_const, others_cons hc]
    refine (sort_perm _).trans (List.Perm.of_eq ?_)
    simp only [rest]
    split <;> simp
  generalize arranged 1 (constants e.factors).prod (.const 1 :: u :: e.factors) = gs at hperm
  by_cases hlen : 2 ≤ gs.length
  · exact .inr (.inr ⟨gs, rest, ofFactors_of_two_le hlen, hperm, hdefined, hrest⟩)
  · have hnil : rest = [] := by
      have := hperm.length_eq
      rw [List.length_cons] at this
      exact List.eq_nil_of_length_eq_zero (by omega)
    rw [hnil] at hperm hrest
    rw [List.perm_singleton.mp hperm]
    exact .inr (.inl ⟨rfl, hrest.symm⟩)

/-! ## Exact powers -/

section Exact

variable {σ : String → Rat}

theorem exactPowers_of_subVisit {E : Expr} (hstep : ExactStep E)
    (h : ∀ e, SubVisit evaluated e E → ExactPowers e) : ExactPowers E := by
  intro e he
  obtain rfl | ⟨c, hec, hcE⟩ := Relation.ReflTransGen.cases_tail he
  · exact hstep
  · exact h c hcE e hec

theorem exactPowers_const (q : Rat) : ExactPowers (.const q) :=
  exactPowers_of_subVisit (fun _ _ _ h => by cases h) fun _ h => by cases h

theorem exactStep_product (fs : List Expr) : ExactStep (.product fs) :=
  fun _ _ _ h => by cases h

theorem exactStep_power_zero (e : Expr) : ExactStep (Expr.power e (.const 0)) := by
  intro p n v hraises _ _ hpow
  have hn : n = 0 := by
    cases hraises with
    | direct _ hx =>
      rw [evaluated_const] at hx
      cases hx
      rfl
    | nested _ hx =>
      rw [evaluated_const, productOf_zero_cons, evaluated_const] at hx
      cases hx
      rfl
  subst hn
  exact pow?_exact rfl (by decide) hpow

/-- Where all factors evaluate to constants, no sum takes over the constant. -/
theorem absorber?_visitedBases_const {gs : List Expr}
    (h : ∀ g ∈ gs, ∃ c, evaluated g = .const c) : (visitedBases evaluated gs).absorber? = none := by
  choose! c hc using h
  rw [visitedBases_const hc]
  rfl

theorem exactPowers_productOf_power_zero {E : Expr} (hE : Expr.Canonical E) : ∀ fs : List Expr,
    E = productOf (fs.map fun f => Expr.power f (.const 0)) → fs ≠ [] →
      (∀ f ∈ fs, Expr.Canonical f ∧ Defined σ f ∧ f.degree ≤ Rational.maxExactExponent) →
        ExactPowers E := by
  refine evaluated_induction (motive := fun E => ∀ fs : List Expr,
    E = productOf (fs.map fun f => Expr.power f (.const 0)) → fs ≠ [] →
      (∀ f ∈ fs, Expr.Canonical f ∧ Defined σ f ∧ f.degree ≤ Rational.maxExactExponent) →
        ExactPowers E) ?_ hE
  intro E hE ih fs hfs hne hfactors
  match fs, hne with
  | [e], _ =>
    obtain ⟨he, hd, hdegree⟩ := hfactors e List.mem_cons_self
    obtain rfl : E = Expr.power e (.const 0) :=
      hfs.trans (Canonical.productOf_factors (he.power (.const 0)))
    refine exactPowers_of_subVisit (exactStep_power_zero e) fun e' hsub => ?_
    cases hsub with
    | left => exact exactPowers_of_degree_le he hd hdegree
    | right => exact exactPowers_const 0
    | exponents _ =>
      rw [evaluated_const, productOf_zero_cons]
      exact exactPowers_const 0
    | @distributed b x gs hgs =>
      obtain ⟨hdenotes, hbounded⟩ := sound_of_degree_le he hd hdegree
      have hcanon := hbounded.canonical
      have hle := hbounded.degree_le.trans hdegree
      rw [hgs] at hdenotes hcanon hle
      have hgne : gs ≠ [] := List.ne_nil_of_length_pos (by have := hcanon.two_le_factors; omega)
      exact ih _ (.distributed hgs) gs rfl hgne fun g hg => ⟨hcanon.of_product g hg,
        hdenotes.defined.of_factors g hg, (degree_of_mem_factors hg).trans hle⟩
  | f :: f' :: rest, _ =>
    obtain ⟨gs, hgs, hperm⟩ := productOf_power_zero (show 2 ≤ (f :: f' :: rest).length by simp)
    obtain rfl : E = .product gs := hfs.trans hgs
    have hfactor (g : Expr) (hg : g ∈ gs) : ExactPowers g ∧ ∃ c, evaluated g = .const c := by
      obtain ⟨e, he, rfl⟩ := List.mem_map.mp (hperm.mem_iff.mp hg)
      have hce := (hfactors e he).1
      have hexact := ih _ (.factor hg) [e]
        (Canonical.productOf_factors (hce.power (.const 0))).symm (List.cons_ne_nil _ _)
        (List.forall_mem_singleton.mpr (hfactors e he))
      obtain ⟨c, hc, -⟩ := exists_evaluated_power_zero hce hexact
      exact ⟨hexact, c, hc⟩
    refine exactPowers_of_subVisit (exactStep_product gs) fun e hsub => ?_
    cases hsub with
    | factor hg => exact (hfactor e hg).1
    | scaledTerm habs _ =>
      rw [absorber?_visitedBases_const fun g hg => (hfactor g hg).2] at habs
      cases habs

/-- The zeroth power of a base within the bound. -/
theorem exactPowers_power_zero {e : Expr} (he : Expr.Canonical e) (hd : Defined σ e)
    (hdegree : e.degree ≤ Rational.maxExactExponent) :
    ExactPowers (Expr.power e (.const 0)) := by
  have hcanon := he.power (.const 0)
  exact exactPowers_productOf_power_zero hcanon [e] (Canonical.productOf_factors hcanon).symm
    (List.cons_ne_nil _ _) (List.forall_mem_singleton.mpr ⟨he, hd, hdegree⟩)

/-- What is visited besides the factor `u`, if that evaluates to a constant. -/
theorem visited_besides_const_factor {u e : Expr} {c : Rat} {gs rest : List Expr}
    (hE : Expr.Canonical (.product gs)) (hperm : gs.Perm (u :: rest)) (hu : evaluated u = .const c)
    (hd : ∀ f ∈ rest, Defined σ f) (hdegree : (rest.map degree).sum ≤ Rational.maxExactExponent)
    (hsub : SubVisit evaluated e (.product (.const c :: rest))) :
    Expr.Canonical e ∧ Defined σ e ∧ e.degree ≤ Rational.maxExactExponent := by
  have hdefined : Defined σ (.product (.const c :: rest)) :=
    .product (List.forall_mem_cons.mpr ⟨.const c, hd⟩)
  have hlike : (Expr.product (.const c :: rest)).degree ≤ Rational.maxExactExponent := by
    rwa [degree_product, List.map_cons, List.sum_cons, degree_const, zero_add]
  have hcanon {e : Expr} (hsub : SubVisit evaluated e (.product (.const c :: rest))) :
      Expr.Canonical e := by
    cases hsub with
    | factor hf =>
      rcases List.mem_cons.mp hf with rfl | hf
      · exact .const c
      · exact hE.of_product e (hperm.mem_iff.mpr (List.mem_cons_of_mem u hf))
    | scaledTerm habs ht =>
      rw [← visitedBases_const_factor hE hperm hu] at habs
      exact ((SubVisit.scaledTerm habs ht).lower_evaluated hE).1
  obtain ⟨hde, hle⟩ := hsub.degree_le hdefined fun e hsub hd hle =>
    sound_of_degree_le (hcanon hsub) hd (hle.trans hlike)
  exact ⟨hcanon hsub, hde, hle.trans hlike⟩

theorem exactPowers_product_of_const_factor {u : Expr} {c : Rat} {gs rest : List Expr}
    (hE : Expr.Canonical (.product gs)) (hperm : gs.Perm (u :: rest)) (hu : evaluated u = .const c)
    (hexact : ExactPowers u) (hd : ∀ f ∈ rest, Defined σ f)
    (hdegree : (rest.map degree).sum ≤ Rational.maxExactExponent) :
    ExactPowers (.product gs) := by
  have hlike (e : Expr) (hsub : SubVisit evaluated e (.product (.const c :: rest))) :
      ExactPowers e := by
    obtain ⟨hce, hde, hle⟩ := visited_besides_const_factor hE hperm hu hd hdegree hsub
    exact exactPowers_of_degree_le hce hde hle
  refine exactPowers_of_subVisit (exactStep_product gs) fun e hsub => ?_
  cases hsub with
  | factor hf =>
    rcases List.mem_cons.mp (hperm.mem_iff.mp hf) with rfl | hf
    · exact hexact
    · exact hlike e (.factor (List.mem_cons_of_mem _ hf))
  | scaledTerm habs ht =>
    rw [visitedBases_const_factor hE hperm hu] at habs
    exact hlike _ (.scaledTerm habs ht)

theorem degree_product_of_const_factor_le {u : Expr} {c : Rat} {gs rest : List Expr}
    (hE : Expr.Canonical (.product gs)) (hperm : gs.Perm (u :: rest)) (hu : evaluated u = .const c)
    (hd : ∀ f ∈ rest, Defined σ f) (hdegree : (rest.map degree).sum ≤ Rational.maxExactExponent) :
    (evaluated (.product gs)).degree ≤ (rest.map degree).sum := by
  have hbounded (e : Expr) (hsub : SubVisit evaluated e (.product (.const c :: rest))) :
      Bounded evaluated e := by
    obtain ⟨hce, hde, hle⟩ := visited_besides_const_factor hE hperm hu hd hdegree hsub
    exact (sound_of_degree_le hce hde hle).bounded
  rw [evaluated_product hE, productStep_congr (visitedBases_const_factor hE hperm hu)]
  refine (degree_productStep_le (fun f hf => hbounded f (.factor hf))
    fun base x scale habs t ht => hbounded _ (.scaledTerm habs ht)).trans (Nat.le_of_eq ?_)
  rw [degree_product, List.map_cons, List.sum_cons, degree_const, zero_add]

end Exact

end SymbolicAlgebra.Evaluator
