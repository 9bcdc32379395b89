import SymbolicAlgebra.Proofs.Closed

/-!
# Affine expressions

How multiples of variables, sums of them and constants, and quotients of them by a variable evaluate.
These are the expressions that occur when the equations of a linear system are turned into rows.

Results:
* `evaluated_productOf`: the evaluated form of a proper product, read off its factors.
* `evaluated_scaled_symbol`, `evaluated_affine`: an affine expression evaluates to its collected terms.
* `evaluated_quotient`: a multiple of a variable divided by the variable is the coefficient.
-/

namespace SymbolicAlgebra

namespace Expr

/-! ## Proper sums and products -/

theorem constants_append_singleton {c neutral : Rat} {xs : List Expr} (h : constants xs = []) :
    (if c = neutral then others (const c :: xs) else others (const c :: xs) ++ [const c]) =
      if c = neutral then xs else xs ++ [const c] := by
  rw [others_const, others_eq_self h]

/-- A product of at least two factors in normal form. -/
theorem productOf_proper {c : Rat} {fs : List Expr} (hflat : ∀ f ∈ fs, f.isProduct = false)
    (hconst : constants fs = []) (h0 : c ≠ 0)
    (hlen : 2 ≤ (if c = 1 then fs else fs ++ [const c]).length) :
    ∃ gs, productOf (const c :: fs) = product gs ∧
      gs.Perm (if c = 1 then fs else fs ++ [const c]) := by
  have hfactors : (const c :: fs).flatMap factors = const c :: fs := by
    rw [List.flatMap_cons, factors_const, flatMap_factors_eq_self hflat]
    rfl
  have hprod : (constants (const c :: fs)).prod = c := by
    rw [constants_const, hconst, List.prod_singleton]
  have hperm := sort_perm (if c = 1 then fs else fs ++ [const c])
  refine ⟨sort (if c = 1 then fs else fs ++ [const c]), ?_, hperm⟩
  rw [productOf_eq, hfactors, hprod, if_neg h0, arranged, constants_append_singleton hconst]
  exact ofFactors_of_two_le (hperm.length_eq ▸ hlen)

/-- A sum of at least two terms in normal form. -/
theorem sumOf_proper {c : Rat} {ts : List Expr} (hflat : ∀ t ∈ ts, t.isSum = false)
    (hconst : constants ts = [])
    (hlen : 2 ≤ (if c = 0 then ts else ts ++ [const c]).length) :
    ∃ us, sumOf (const c :: ts) = sum us ∧ us.Perm (if c = 0 then ts else ts ++ [const c]) := by
  have hterms : (const c :: ts).flatMap terms = const c :: ts := by
    rw [List.flatMap_cons, terms_const, flatMap_terms_eq_self hflat]
    rfl
  have hsum : (constants (const c :: ts)).sum = c := by
    rw [constants_const, hconst, List.sum_singleton]
  have hperm := sort_perm (if c = 0 then ts else ts ++ [const c])
  refine ⟨sort (if c = 0 then ts else ts ++ [const c]), ?_, hperm⟩
  rw [sumOf_eq, hterms, hsum, arranged, constants_append_singleton hconst]
  exact ofTerms_of_two_le (hperm.length_eq ▸ hlen)

/-- A constant in front of a product joins its constant. -/
theorem productOf_mul_cons {p q : Rat} {xs : List Expr} (hxs : ∀ x ∈ xs, Canonical x) :
    productOf (const (p * q) :: xs) = productOf [const p, productOf (const q :: xs)] := by
  have hcons : ∀ x ∈ const q :: xs, Canonical x :=
    List.forall_mem_cons.mpr ⟨.const q, hxs⟩
  have hp : ∀ x ∈ [const p], Canonical x := List.forall_mem_singleton.mpr (.const p)
  have hswap : productOf [const p, productOf (const q :: xs)] =
      productOf [productOf (const q :: xs), .const p] :=
    productOf_perm (List.forall_mem_cons.mpr ⟨.const p,
      List.forall_mem_singleton.mpr (canonical_productOf hcons)⟩) (List.Perm.swap _ _ _)
  rw [hswap, productOf_productOf hcons hp]
  refine productOf_congr (List.forall_mem_cons.mpr ⟨.const _, hxs⟩) ?_ ?_
  · simp
  · simp [mul_comm p, mul_assoc]

/-- The multiple as a product, also by `1`. -/
theorem scaled_eq_productOf {q : Rat} {r : Expr} (hr : Canonical r) :
    scaled q r = productOf [const q, r] := by
  rw [scaled]
  split
  · next h1 =>
    rw [h1, Evaluator.productOf_one_cons]
    conv_lhs => rw [← hr.productOf_factors]
    exact productOf_congr hr.of_factors
      (by simp [flatMap_factors_eq_self hr.flat_factors])
      (by simp [flatMap_factors_eq_self hr.flat_factors])
  · rfl

/-- A multiple of a multiple. -/
theorem productOf_const_scaled {p q : Rat} {r : Expr} (hr : Canonical r) :
    productOf [const p, scaled q r] = productOf [const (p * q), r] := by
  rw [scaled_eq_productOf hr, productOf_mul_cons (List.forall_mem_singleton.mpr hr)]

theorem canonical_inverse {e : Expr} (h : Canonical e) : Canonical (inverse e) :=
  h.power (.const (-1))

theorem canonical_divide {e d : Expr} (he : Canonical e) (hd : Canonical d) :
    Canonical (divide e d) :=
  canonical_productOf (List.forall_mem_cons.mpr
    ⟨he, List.forall_mem_singleton.mpr (canonical_inverse hd)⟩)

theorem monic_symbol (x : String) : Monic (symbol x) :=
  ⟨.var x, rfl, rfl⟩

theorem isProduct_of_isSum {s : Expr} (hs : s.isSum = true) : s.isProduct = false := by
  obtain ⟨ts, rfl⟩ := exists_of_isSum hs
  rfl

/-- A sum is monic. -/
theorem monic_of_isSum {s : Expr} (h : Canonical s) (hs : s.isSum = true) : Monic s := by
  obtain ⟨ts, rfl⟩ := exists_of_isSum hs
  exact ⟨h, rfl, rfl⟩

end Expr

namespace Evaluator

open Expr

theorem Bases.ofFactors_perm {xs ys : List Expr} (hxs : ∀ f ∈ xs, Expr.Canonical f)
    (h : xs.Perm ys) : Bases.ofFactors xs = Bases.ofFactors ys := by
  have hexp : (exponentsOf xs).Perm (exponentsOf ys) := (others_perm h).map _
  rw [Bases.ofFactors_eq, Bases.ofFactors_eq, (constants_perm h).prod_eq,
    Tally.ofList_congr (canonical_keys_exponentsOf hxs) (fun k => (hexp.map _).mem_iff)
      fun k => Tally.total_perm hexp k]

theorem visitedBases_perm {v : Expr → Expr} {fs gs : List Expr}
    (hfs : ∀ f ∈ fs, Expr.Canonical (v f)) (h : fs.Perm gs) :
    visitedBases v fs = visitedBases v gs :=
  Bases.ofFactors_perm (canonical_visited hfs) ((h.map v).flatMap_right factors)

theorem productStep_congr {v : Expr → Expr} {fs gs : List Expr}
    (h : visitedBases v fs = visitedBases v gs) : productStep v fs = productStep v gs := by
  rw [productStep, productStep, h]

/-- A neutral constant among the factors makes no difference. -/
theorem visitedBases_one {v : Expr → Expr} {fs : List Expr} (hv : v (.const 1) = .const 1) :
    visitedBases v (.const 1 :: fs) = visitedBases v fs := by
  rw [visitedBases, visitedBases, List.map_cons, List.flatMap_cons, hv, factors_const,
    List.singleton_append, Bases.ofFactors_eq, Bases.ofFactors_eq, constants_const,
    List.prod_cons, one_mul, exponentsOf, exponentsOf, others_const]

/-- **A proper product evaluates by the step for its factors.** -/
theorem evaluated_productOf {c : Rat} {fs : List Expr} (hfs : ∀ f ∈ fs, Expr.Canonical f)
    (hflat : ∀ f ∈ fs, f.isProduct = false) (hconst : constants fs = []) (h0 : c ≠ 0)
    (hlen : 2 ≤ (if c = 1 then fs else fs ++ [Expr.const c]).length) :
    evaluated (productOf (.const c :: fs)) = productStep evaluated (.const c :: fs) := by
  obtain ⟨gs, heq, hperm⟩ := productOf_proper hflat hconst h0 hlen
  have hcanon : Expr.Canonical (.product gs) :=
    heq ▸ canonical_productOf (List.forall_mem_cons.mpr ⟨.const c, hfs⟩)
  have hgs : ∀ g ∈ gs, Expr.Canonical (evaluated g) := fun g hg =>
    canonical_evaluated (hcanon.of_product g hg)
  rw [heq, evaluated_product hcanon]
  refine productStep_congr ?_
  rw [visitedBases_perm hgs hperm]
  split
  · rename_i h1
    rw [h1, visitedBases_one (evaluated_const 1)]
  · refine visitedBases_perm (fun f hf => ?_) List.perm_append_comm
    exact hgs f (hperm.mem_iff.mpr (by rwa [if_neg ‹_›]))

/-- A sum of at least two terms evaluates to the collected terms of the evaluated terms. -/
theorem evaluated_sumOf {c : Rat} {ts : List Expr} (hts : ∀ t ∈ ts, Expr.Canonical t)
    (hflat : ∀ t ∈ ts, t.isSum = false) (hconst : constants ts = [])
    (hlen : 2 ≤ (if c = 0 then ts else ts ++ [Expr.const c]).length) :
    evaluated (sumOf (.const c :: ts)) =
      collect (((if c = 0 then ts else ts ++ [Expr.const c]).map evaluated).flatMap terms) := by
  obtain ⟨us, heq, hperm⟩ := sumOf_proper hflat hconst hlen
  have hcanon : Expr.Canonical (.sum us) :=
    heq ▸ canonical_sumOf (List.forall_mem_cons.mpr ⟨.const c, hts⟩)
  have hus : ∀ u ∈ us.map evaluated, Expr.Canonical u := by
    intro u hu
    obtain ⟨t, ht, rfl⟩ := List.mem_map.mp hu
    exact canonical_evaluated (hcanon.of_sum t ht)
  rw [heq, evaluated_sum hcanon]
  exact collect_perm (fun t ht => (canonical_flatMap_terms hus t ht).1)
    ((hperm.map evaluated).flatMap_right terms)

/-- Without a sum among the bases nothing takes over the constant. -/
theorem Bases.absorbed_of_isSum_eq_false {v : Expr → Expr} {b : Bases}
    (h : ∀ p ∈ b.exponents.entries, p.1.isSum = false) : b.absorbed v = b := by
  rw [absorbed]
  split
  · rfl
  · split
    · rfl
    · rename_i base x scale habs
      obtain ⟨hmem, hsum, -⟩ := absorber?_eq_some habs
      rw [h _ hmem] at hsum
      cases hsum

theorem productStep_of_visitedBases {v : Expr → Expr} {fs : List Expr} {b : Bases}
    (hb : visitedBases v fs = b) (h0 : b.constant ≠ 0)
    (hsum : ∀ p ∈ b.exponents.entries, p.1.isSum = false) : productStep v fs = b.product := by
  rw [productStep, hb, if_neg h0, Bases.absorbed_of_isSum_eq_false hsum]

/-! ## Multiples of variables -/

/-- A multiple of a variable is its own evaluated form. -/
theorem evaluated_scaled_symbol {q : Rat} (x : String) (h0 : q ≠ 0) :
    evaluated (scaled q (symbol x)) = scaled q (symbol x) := by
  rw [scaled]
  split
  · exact evaluated_var x none
  · rename_i h1
    have hx : ∀ f ∈ [symbol x], Expr.Canonical f := List.forall_mem_singleton.mpr (.var x)
    rw [evaluated_productOf hx (List.forall_mem_singleton.mpr rfl) rfl h0 (by rw [if_neg h1]; rfl)]
    have hbases : visitedBases evaluated [.const q, symbol x] = ⟨q, ⟨[(symbol x, 1)]⟩⟩ := by
      change Bases.ofFactors [.const q, symbol x] = _
      rw [Bases.ofFactors_eq]
      exact congrArg (Bases.mk · _) (List.prod_singleton)
    rw [productStep_of_visitedBases hbases h0 (List.forall_mem_singleton.mpr rfl),
      Bases.product_eq]
    rfl

/-- The reciprocal of a variable is its own evaluated form. -/
theorem evaluated_inverse_symbol (x : String) :
    evaluated (inverse (symbol x)) = inverse (symbol x) := by
  have hcanon : Expr.Canonical (Expr.power (symbol x) (.const (-1))) :=
    Canonical.power (.var x) (.const (-1))
  rw [inverse, evaluated_power hcanon]
  rfl

theorem ofFactors_quotient (q : Rat) (x : String) :
    Bases.ofFactors [.const q, symbol x, inverse (symbol x)] = ⟨q, ⟨[(symbol x, 0)]⟩⟩ := by
  have hself : Expr.compare (symbol x) (symbol x) = .eq := compare_self (symbol x)
  have htally : (Tally.empty.add (symbol x) 1).add (symbol x) (-1) = ⟨[(symbol x, 0)]⟩ := by
    simp only [Tally.add, Tally.empty, Tally.addTo, hself]
    norm_num
  rw [Bases.ofFactors_eq]
  exact congrArg₂ Bases.mk List.prod_singleton htally

theorem product_quotient (q : Rat) (x : String) :
    (Bases.mk q ⟨[(symbol x, 0)]⟩).product = .const q := by
  rw [Bases.product_eq]
  exact productOf_singleton_const q

/-- A quotient, as a product with the constant in front. -/
theorem divide_scaled {q : Rat} {r d : Expr} (hr : Monic r) (h0 : q ≠ 0) (hd : Expr.Canonical d) :
    divide (scaled q r) d = productOf (.const q :: (r.factors ++ [inverse d])) := by
  have hinv := canonical_inverse hd
  have hleft : ∀ y ∈ [scaled q r, inverse d], Expr.Canonical y :=
    List.forall_mem_cons.mpr ⟨canonical_scaled hr.canonical, List.forall_mem_singleton.mpr hinv⟩
  have hflat : ∀ y ∈ Expr.const q :: (r.factors ++ [inverse d]), y.isProduct = false := by
    refine List.forall_mem_cons.mpr ⟨rfl, fun y hy => ?_⟩
    rcases List.mem_append.mp hy with hy | hy
    · exact hr.canonical.flat_factors y hy
    · rw [List.mem_singleton.mp hy]
      rfl
  have hfactors : ((scaled q r).factors ++ [inverse d]).Perm
      ((if q = 1 then [] else [Expr.const q]) ++ (r.factors ++ [inverse d])) := by
    split
    · rename_i h1
      rw [scaled, if_pos h1]
      exact List.Perm.refl _
    · rename_i h1
      rw [← List.append_assoc]
      exact ((factors_scaled hr h0 h1).trans List.perm_append_comm).append_right _
  have hself : [scaled q r, inverse d].flatMap factors = (scaled q r).factors ++ [inverse d] := rfl
  refine productOf_congr hleft ?_ ?_
  · rw [hself, flatMap_factors_eq_self hflat]
    refine (others_perm hfactors).trans (List.Perm.of_eq ?_)
    split <;> rfl
  · rw [hself, flatMap_factors_eq_self hflat, (constants_perm hfactors).prod_eq]
    split
    · rename_i h1
      rw [constants_const, List.prod_cons, h1, one_mul]
      rfl
    · rfl

/-- **A multiple of a variable divided by the variable is the coefficient.** -/
theorem evaluated_quotient {q : Rat} (x : String) (h0 : q ≠ 0) :
    evaluated (divide (scaled q (symbol x)) (symbol x)) = .const q := by
  have hfs : ∀ f ∈ [symbol x, inverse (symbol x)], Expr.Canonical f :=
    List.forall_mem_cons.mpr ⟨.var x, List.forall_mem_singleton.mpr (canonical_inverse (.var x))⟩
  have hbases : visitedBases evaluated [.const q, symbol x, inverse (symbol x)] =
      ⟨q, ⟨[(symbol x, 0)]⟩⟩ := by
    rw [visitedBases, List.map_cons, List.map_cons, List.map_singleton, evaluated_inverse_symbol]
    exact ofFactors_quotient q x
  have hproduct : divide (scaled q (symbol x)) (symbol x) =
      productOf (.const q :: [symbol x, inverse (symbol x)]) := divide_scaled (monic_symbol x) h0 (.var x)
  rw [hproduct, evaluated_productOf hfs (by simp [symbol, inverse, power, isProduct]) rfl h0
      (by split <;> simp),
    productStep_of_visitedBases hbases h0 (List.forall_mem_singleton.mpr rfl), product_quotient]

/-- A quotient of a multiple evaluates by the step for its factors. -/
theorem evaluated_divide_scaled {q : Rat} {r d : Expr} (hr : Monic r) (hprod : r.isProduct = false)
    (h0 : q ≠ 0) (hd : Expr.Canonical d) :
    evaluated (divide (scaled q r) d) = productStep evaluated [.const q, r, inverse d] := by
  have hinv := canonical_inverse hd
  have hfs : ∀ f ∈ [r, inverse d], Expr.Canonical f :=
    List.forall_mem_cons.mpr ⟨hr.canonical, List.forall_mem_singleton.mpr hinv⟩
  have hflat : ∀ f ∈ [r, inverse d], f.isProduct = false :=
    List.forall_mem_cons.mpr ⟨hprod, List.forall_mem_singleton.mpr rfl⟩
  have hconst : constants [r, inverse d] = [] := constants_cons hr.notConst _
  have hproduct := divide_scaled hr h0 hd
  rw [factors_eq_self hprod, List.singleton_append] at hproduct
  rw [hproduct, evaluated_productOf hfs hflat hconst h0 (by split <;> simp)]

/-- The same for a multiple of a sum that turns out to be a multiple of the variable. -/
theorem evaluated_quotient_of_scaled {q p : Rat} {s : Expr} (x : String) (hs : Expr.Canonical s)
    (hsum : s.isSum = true) (h0 : q ≠ 0) (hp : p ≠ 0)
    (heval : evaluated s = scaled p (symbol x)) :
    evaluated (divide (scaled q s) (symbol x)) = .const (q * p) := by
  have hscaled : (scaled p (symbol x)).factors.Perm
      ([symbol x] ++ if p = 1 then [] else [Expr.const p]) := by
    split
    · rename_i h1
      rw [scaled, if_pos h1]
      exact List.Perm.refl _
    · rename_i h1
      exact factors_scaled (monic_symbol x) hp h1
  have hgs : ∀ g ∈ Expr.const q :: ((scaled p (symbol x)).factors ++ [inverse (symbol x)]),
      Expr.Canonical g := by
    refine List.forall_mem_cons.mpr ⟨.const q, fun g hg => ?_⟩
    rcases List.mem_append.mp hg with hg | hg
    · exact (canonical_scaled (Canonical.var x)).of_factors g hg
    · rw [List.mem_singleton.mp hg]
      exact canonical_inverse (.var x)
  have hvisit : visitedBases evaluated [.const q, s, inverse (symbol x)] =
      Bases.ofFactors (.const q :: ((scaled p (symbol x)).factors ++ [inverse (symbol x)])) := by
    simp only [visitedBases, List.map_cons, List.map_nil, heval, evaluated_const,
      evaluated_inverse_symbol, List.flatMap_cons, List.flatMap_nil, List.append_nil, factors_const]
    rfl
  have hbases : visitedBases evaluated [.const q, s, inverse (symbol x)] =
      ⟨q * p, ⟨[(symbol x, 0)]⟩⟩ := by
    rw [hvisit, Bases.ofFactors_perm hgs ((hscaled.append_right _).cons _), ← ofFactors_quotient,
      Bases.ofFactors_eq, Bases.ofFactors_eq]
    split
    · rename_i h1
      rw [h1, mul_one]
      rfl
    · refine congrArg (Bases.mk · _) ?_
      change [q, p].prod = [q * p].prod
      simp
  rw [evaluated_divide_scaled (monic_of_isSum hs hsum) (isProduct_of_isSum hsum) h0
      (monic_symbol x).canonical,
    productStep_of_visitedBases hbases (mul_ne_zero h0 hp) (List.forall_mem_singleton.mpr rfl),
    product_quotient]

/-- A quotient of something that turns out to be `0` is `0`. -/
theorem evaluated_quotient_of_zero {q : Rat} {s : Expr} (x : String) (hs : Expr.Canonical s)
    (hsum : s.isSum = true) (h0 : q ≠ 0) (heval : evaluated s = .const 0) :
    evaluated (divide (scaled q s) (symbol x)) = .const 0 := by
  have hconstant : (visitedBases evaluated [.const q, s, inverse (symbol x)]).constant = 0 := by
    simp only [visitedBases, List.map_cons, List.map_nil, heval, evaluated_const,
      evaluated_inverse_symbol, List.flatMap_cons, List.flatMap_nil, List.append_nil, factors_const,
      Bases.ofFactors_eq, List.singleton_append, constants_const, List.prod_cons, zero_mul, mul_zero]
  rw [evaluated_divide_scaled (monic_of_isSum hs hsum) (isProduct_of_isSum hsum) h0
      (monic_symbol x).canonical, productStep, if_pos hconstant]
  rfl

/-- A multiple of a sum that turns out to be constant. -/
theorem evaluated_scaled_of_const {q c : Rat} {s : Expr} (hs : Expr.Canonical s)
    (hsum : s.isSum = true) (h0 : q ≠ 0) (h1 : q ≠ 1) (heval : evaluated s = .const c) :
    evaluated (scaled q s) = .const (q * c) := by
  obtain ⟨ts, rfl⟩ := exists_of_isSum hsum
  rw [scaled, if_neg h1, evaluated_productOf (List.forall_mem_singleton.mpr hs)
    (List.forall_mem_singleton.mpr rfl) rfl h0 (by rw [if_neg h1]; rfl)]
  have hvisit : ∀ f ∈ [Expr.const q, .sum ts], evaluated f =
      .const (if f.isConst then q else c) :=
    List.forall_mem_cons.mpr ⟨rfl, List.forall_mem_singleton.mpr heval⟩
  rw [productStep_const hvisit]
  simp [isConst]

/-- The sum of a constant and a term that turns out to be constant. -/
theorem evaluated_sumOf_const {c d : Rat} {t : Expr} (ht : Expr.Canonical t)
    (hsum : t.isSum = false) (heval : evaluated t = .const d) :
    evaluated (sumOf [.const c, t]) = .const (c + d) := by
  cases hc : t.isConst
  · by_cases h0 : c = 0
    · have hself : sumOf [.const c, t] = t := by
        rw [h0, ← sumOf_perm (List.forall_mem_cons.mpr ⟨ht, List.forall_mem_singleton.mpr
          (.const 0)⟩) (List.Perm.swap _ _ _)]
        have := sumOf_append_zero [t]
        rw [List.singleton_append] at this
        rw [this, ← terms_eq_self hsum, ht.sumOf_terms]
      rw [hself, heval, h0, zero_add]
    · rw [evaluated_sumOf (List.forall_mem_singleton.mpr ht) (List.forall_mem_singleton.mpr hsum)
        (constants_cons hc []) (by rw [if_neg h0]; rfl), if_neg h0]
      have hmap : (([t] ++ [Expr.const c]).map evaluated).flatMap terms = [d, c].map Expr.const := by
        rw [List.map_append, List.map_singleton, List.map_singleton, heval, evaluated_const]
        rfl
      rw [hmap, collect_map_const, List.sum_cons, List.sum_singleton, add_comm]
  · obtain ⟨q, rfl⟩ := exists_of_isConst hc
    rw [evaluated_const] at heval
    cases heval
    exact ((Computes.const c).sumOf (.const d)).evaluated

end Evaluator

end SymbolicAlgebra
