import Mathlib.Algebra.Module.Submodule.Lattice
import SymbolicAlgebra.Proofs.Monomials

/-!
# Cancellation

Whether two expressions are equal is decided by evaluating their difference. For `f - f` the terms of
`f` and those of `-1 * f` are evaluated apart from each other and only then collected. They cancel
iff they come out with opposite coefficients (`evaluate_subtract_self`). That fails where a sum takes
over the factor `-1` in one of the two, as in `x * (1 + y)` and `x * (-1 - y)`; combinations of
monomials evaluate linearly, so for them it holds.

Results:
* `collect_eq_zero_iff`: collected terms vanish iff all coefficients do.
* `evaluated_sumOf_pair`: the evaluated sum of two expressions is collected from the evaluated terms.
* `evaluate_subtract_self`: when `f - f` evaluates to `0`.
-/

namespace SymbolicAlgebra.Evaluator

open Expr

/-! ## Vanishing sums -/

theorem others_terms_ne_nil {e : Expr} (he : Expr.Canonical e) (hc : e.isConst = false) :
    others e.terms ≠ [] := by
  cases hs : e.isSum
  · rw [terms_eq_self hs, others_cons hc]
    exact List.cons_ne_nil _ _
  · obtain ⟨ts, rfl⟩ := exists_of_isSum hs
    obtain ⟨harranged, hlen⟩ := arranged_of_sumOf (show sumOf ts = sum ts from he.sumOf_terms)
    have hflat : ∀ t ∈ ts, t.isSum = false := he.flat_terms
    intro hnil
    change others ts = [] at hnil
    rw [← harranged, flatMap_terms_eq_self hflat, arranged, (sort_perm _).length_eq, hnil] at hlen
    split at hlen
    · exact absurd hlen (by simp)
    · exact absurd hlen (by simp)

theorem likeTerms_eq_nil {ts : List Expr} (h : ∀ t ∈ ts, Expr.Canonical t)
    (hzero : collect ts = .const 0) : likeTerms ts = [] := by
  by_contra hne
  obtain ⟨p, hp⟩ := List.exists_mem_of_ne_nil _ hne
  have hmonic := monic_likeTerms h (k := p.1) (q := p.2) hp
  have h0 := ((mem_likeTerms h (k := p.1) (q := p.2)).mp hp).2.2
  obtain ⟨t, ht⟩ := List.exists_mem_of_ne_nil _
    (others_terms_ne_nil (canonical_scaled hmonic.canonical) (isConst_scaled hmonic.primitive h0))
  have hperm := others_terms_sumOf (constructed_of_canonical (canonical_collected h))
  rw [← collect_eq, hzero] at hperm
  refine absurd (hperm.mem_iff.mpr (mem_others.mpr ⟨?_, (mem_others.mp ht).2⟩))
    (List.not_mem_nil (a := t))
  exact List.mem_flatMap.mpr ⟨_, List.mem_append_left _ (List.mem_map.mpr ⟨p, hp, rfl⟩),
    (mem_others.mp ht).1⟩

/-- **Collected terms vanish iff all their coefficients do.** -/
theorem collect_eq_zero_iff {ts : List Expr} (h : ∀ t ∈ ts, Expr.Canonical t) :
    collect ts = .const 0 ↔
      (∀ k, Expr.Canonical k → coefficient k ts = 0) ∧ (constants ts).sum = 0 := by
  constructor
  · intro hzero
    have hnil := likeTerms_eq_nil h hzero
    constructor
    · intro k hk
      by_contra h0
      have hmem := (mem_likeTerms_iff h).mpr ⟨hk, rfl, h0⟩
      rw [hnil] at hmem
      cases hmem
    · have hsum := constants_terms_sumOf (constructed_of_canonical (canonical_collected h))
      rw [← collect_eq, hzero, hnil] at hsum
      simpa using hsum.symm
  · rintro ⟨hcoeff, hconst⟩
    have hnil : likeTerms ts = [] := List.eq_nil_iff_forall_not_mem.mpr fun p hp => by
      obtain ⟨hk, hq, h0⟩ := (mem_likeTerms_iff h (k := p.1) (q := p.2)).mp hp
      exact h0 (hq.trans (hcoeff p.1 hk))
    rw [collect_eq, hnil, hconst, sumOf_append_zero, List.map_nil]
    rfl

/-! ## The evaluated difference -/

section Visited

variable {xs : List Expr}

theorem canonical_visitedTerms (h : ∀ x ∈ xs, Expr.Canonical x) :
    ∀ u ∈ (xs.map evaluated).flatMap terms, Expr.Canonical u := by
  intro u hu
  obtain ⟨r, hr, hur⟩ := List.mem_flatMap.mp hu
  obtain ⟨x, hx, rfl⟩ := List.mem_map.mp hr
  exact (canonical_evaluated (h x hx)).of_terms u hur

theorem coefficient_map_const (k : Expr) (qs : List Rat) :
    coefficient k (qs.map Expr.const) = 0 := by
  rw [coefficient, splits, others_map_const]
  rfl

/-- The constants among the terms are evaluated already. -/
theorem coefficient_visitedTerms (xs : List Expr) (k : Expr) :
    coefficient k ((xs.map evaluated).flatMap terms) =
        coefficient k (((others xs).map evaluated).flatMap terms) ∧
      (constants ((xs.map evaluated).flatMap terms)).sum =
        (constants (((others xs).map evaluated).flatMap terms)).sum + (constants xs).sum := by
  have hconst : ((constants xs).map Expr.const).map evaluated = (constants xs).map Expr.const := by
    rw [List.map_map]
    rfl
  have hperm := ((others_constants_perm xs).map evaluated).flatMap_right terms
  rw [List.map_append, List.flatMap_append, hconst, flatMap_terms_map_const] at hperm
  rw [← coefficient_perm hperm, coefficient_append, coefficient_map_const, add_zero,
    ← (constants_perm hperm).sum_eq, constants_append, List.sum_append, constants_map_const]
  exact ⟨rfl, rfl⟩

theorem visitedTerms_congr {ys : List Expr} (ho : others xs = others ys)
    (hc : (constants xs).sum = (constants ys).sum) (hxs : ∀ x ∈ xs, Expr.Canonical x)
    (hys : ∀ y ∈ ys, Expr.Canonical y) :
    collect ((xs.map evaluated).flatMap terms) = collect ((ys.map evaluated).flatMap terms) := by
  have hx := coefficient_visitedTerms xs
  have hy := coefficient_visitedTerms ys
  refine collect_congr (canonical_visitedTerms hxs) (canonical_visitedTerms hys) (fun k _ => ?_) ?_
  · rw [(hx k).1, (hy k).1, ho]
  · rw [(hx .zero).2, (hy .zero).2, ho, hc]

/-- **The evaluated sum of two expressions** is collected from their evaluated terms. -/
theorem evaluated_sumOf_pair {a b : Expr} (ha : Expr.Canonical a) (hb : Expr.Canonical b)
    (hlen : 2 ≤ (others (a.terms ++ b.terms)).length) :
    evaluated (sumOf [a, b]) = collect (((a.terms ++ b.terms).map evaluated).flatMap terms) := by
  generalize hts : a.terms ++ b.terms = ts at hlen ⊢
  have hterms : ∀ t ∈ ts, Expr.Canonical t ∧ t.isSum = false := by
    intro t ht
    rcases List.mem_append.mp (hts ▸ ht) with ht | ht
    · exact ⟨ha.of_terms t ht, ha.flat_terms t ht⟩
    · exact ⟨hb.of_terms t ht, hb.flat_terms t ht⟩
  have hothers : ∀ t ∈ others ts, Expr.Canonical t ∧ t.isSum = false :=
    fun t ht => hterms t (mem_others.mp ht).1
  have hconst := constants_others ts
  have hsum : sumOf [a, b] = sumOf (.const (constants ts).sum :: others ts) := by
    have hpair : [a, b].flatMap terms = ts := by simp [hts]
    have hcons : ∀ t ∈ Expr.const (constants ts).sum :: others ts, t.isSum = false :=
      List.forall_mem_cons.mpr ⟨rfl, fun t ht => (hothers t ht).2⟩
    refine sumOf_congr (List.forall_mem_cons.mpr ⟨ha, List.forall_mem_singleton.mpr hb⟩) ?_ ?_
    · rw [hpair, flatMap_terms_eq_self hcons, others_const, others_eq_self hconst]
    · rw [hpair, flatMap_terms_eq_self hcons, constants_const, hconst, List.sum_singleton]
  rw [hsum]
  by_cases h0 : (constants ts).sum = 0
  · rw [evaluated_sumOf (fun t ht => (hothers t ht).1) (fun t ht => (hothers t ht).2) hconst
      (by rwa [if_pos h0]), if_pos h0]
    exact visitedTerms_congr (others_eq_self hconst) (by rw [hconst, h0, List.sum_nil])
      (fun t ht => (hothers t ht).1) fun t ht => (hterms t ht).1
  · rw [evaluated_sumOf (fun t ht => (hothers t ht).1) (fun t ht => (hothers t ht).2) hconst
      (by rw [if_neg h0, List.length_append]; omega), if_neg h0]
    refine visitedTerms_congr ?_ ?_ ?_ fun t ht => (hterms t ht).1
    · rw [others_append, others_const, others_nil, List.append_nil, others_eq_self hconst]
    · rw [constants_append, hconst, constants_const, constants_nil, List.nil_append,
        List.sum_singleton]
    · intro t ht
      rcases List.mem_append.mp ht with ht | ht
      · exact (hothers t ht).1
      · rw [List.mem_singleton.mp ht]
        exact .const _

end Visited

end SymbolicAlgebra.Evaluator

namespace SymbolicAlgebra.Expr

open Evaluator

/-- The terms of an expression, each evaluated for itself. -/
def evaluatedTerms (ctx : Context) (e : Expr) : List Expr :=
  e.terms.flatMap fun t => (t.evaluate ctx).terms

/-- Opposite coefficients: collected together, the terms vanish. -/
structure Cancels (xs ys : List Expr) : Prop where
  coefficient_add : ∀ k, Canonical k → coefficient k xs + coefficient k ys = 0
  constants_add : (constants xs).sum + (constants ys).sum = 0

variable {ctx : Context}

theorem evaluatedTerms_eq {e : Expr} (he : Canonical e) :
    evaluatedTerms ctx e = (e.terms.map evaluated).flatMap terms := by
  rw [evaluatedTerms, List.flatMap_map]
  exact List.flatMap_congr fun t ht => by rw [evaluate_eq (he.of_terms t ht)]

theorem canonical_negate {f : Expr} (hf : Canonical f) : Canonical (negate f) :=
  canonical_productOf (List.forall_mem_cons.mpr ⟨.const (-1), List.forall_mem_singleton.mpr hf⟩)

theorem canonical_subtract {f g : Expr} (hf : Canonical f) (hg : Canonical g) :
    Canonical (subtract f g) :=
  canonical_sumOf (forall_mem_pair hf (canonical_negate hg))

theorem isConst_negate {f : Expr} (hf : Canonical f) (hc : f.isConst = false) :
    (negate f).isConst = false := by
  obtain ⟨hmonic, h0, heq⟩ := scaled_split hf hc
  rw [negate, ← heq, productOf_const_scaled hmonic.canonical,
    ← scaled_eq_productOf hmonic.canonical]
  exact isConst_scaled hmonic.primitive (mul_ne_zero (by norm_num) h0)

/-- The evaluated difference of an expression and itself. -/
theorem evaluate_subtract_self_iff {f : Expr} (hf : Canonical f) (hc : f.isConst = false) :
    (subtract f f).evaluate ctx = .const 0 ↔
      Cancels (evaluatedTerms ctx f) (evaluatedTerms ctx (negate f)) := by
  have hn := canonical_negate hf
  have hsub := canonical_subtract hf hf
  have hlen : 2 ≤ (others (f.terms ++ (negate f).terms)).length := by
    have h1 := List.length_pos_iff.mpr (others_terms_ne_nil hf hc)
    have h2 := List.length_pos_iff.mpr (others_terms_ne_nil hn (isConst_negate hf hc))
    rw [others_append, List.length_append]
    omega
  have hcanon : ∀ t ∈ f.terms ++ (negate f).terms, Canonical t := fun t ht =>
    (List.mem_append.mp ht).elim (hf.of_terms t) (hn.of_terms t)
  rw [evaluate_eq hsub, subtract, evaluated_sumOf_pair hf hn hlen,
    collect_eq_zero_iff (canonical_visitedTerms hcanon), List.map_append, List.flatMap_append,
    ← evaluatedTerms_eq hf, ← evaluatedTerms_eq hn, constants_append, List.sum_append]
  simp only [coefficient_append]
  exact ⟨fun h => ⟨h.1, h.2⟩, fun h => ⟨h.1, h.2⟩⟩

/-! ## Combinations of monomials -/

theorem Combination.productOf_const {q : Rat} (h0 : q ≠ 0) {f : Expr} (h : Combination f)
    (hf : Canonical f) : Combination (productOf [.const q, f]) := by
  have hsum {q : Rat} {ts : List Expr} (h0 : q ≠ 0) (hc : Canonical (.sum ts))
      (h : Combination (.sum ts)) : Combination (productOf [.const q, .sum ts]) := by
    by_cases h1 : q = 1
    · rwa [← scaled_eq_productOf hc, scaled, if_pos h1]
    · obtain ⟨fs, heq, hperm⟩ := productOf_proper (List.forall_mem_singleton.mpr rfl) rfl h0
        (show 2 ≤ (if q = 1 then [Expr.sum ts] else [Expr.sum ts] ++ [Expr.const q]).length by
          rw [if_neg h1]; rfl)
      rw [heq]
      rw [if_neg h1] at hperm
      exact .multiple (hperm.trans List.perm_append_comm) h
  cases h with
  | @monomial m hm =>
    exact .monomial (monomial_productOf
      (List.forall_mem_cons.mpr ⟨.const q, List.forall_mem_singleton.mpr hf⟩)
      (List.forall_mem_cons.mpr ⟨.const q, List.forall_mem_singleton.mpr hm⟩))
  | @sum ts hts => exact hsum h0 hf (.sum hts)
  | @multiple p ts fs hperm hts =>
    obtain ⟨hc, hp, hself⟩ := product_eq_multiple hf hperm
    rw [hself, ← productOf_mul_cons (List.forall_mem_singleton.mpr hc)]
    exact hsum (mul_ne_zero h0 hp) hc hts

/-- Evaluating a combination term by term or as a whole gives the same coefficients. -/
theorem coefficient_evaluatedTerms {f : Expr} (h : Combination f) (hf : Canonical f)
    (ctx : Context) :
    (∀ k, coefficient k (evaluatedTerms ctx f) = coefficient k (evaluated f).terms) ∧
      (constants (evaluatedTerms ctx f)).sum = (constants (evaluated f).terms).sum := by
  rw [evaluatedTerms_eq hf]
  cases hs : f.isSum
  · rw [terms_eq_self hs, List.map_singleton, List.flatMap_singleton]
    exact ⟨fun _ => rfl, rfl⟩
  · obtain ⟨ts, rfl⟩ := exists_of_isSum hs
    have hts : ∀ t ∈ ts, Combination t := by
      cases h with
      | monomial hm => cases hm
      | sum hts => exact hts
    obtain ⟨-, hcoeff, hconst⟩ := reduced_collect (normal_visitedTerms fun t ht =>
      (linear_of_combination (hts t ht) (hf.of_sum t ht)).reduced)
    rw [evaluated_sum hf]
    exact ⟨fun k => (hcoeff k).symm, hconst.symm⟩

theorem cancels_of_combination {f : Expr} (h : Combination f) (hf : Canonical f) :
    Cancels (evaluatedTerms ctx f) (evaluatedTerms ctx (negate f)) := by
  have hneg : (-1 : Rat) ≠ 0 := by norm_num
  obtain ⟨hcoeff, hconst⟩ := coefficient_evaluatedTerms h hf ctx
  obtain ⟨hcoeff', hconst'⟩ :=
    coefficient_evaluatedTerms (h.productOf_const hneg hf) (canonical_negate hf) ctx
  obtain ⟨hmul, hmul'⟩ := (linear_of_combination h hf).multiple (-1) hneg
  constructor
  · intro k _
    rw [hcoeff, negate, hcoeff', hmul, neg_one_mul, add_neg_cancel]
  · rw [hconst, negate, hconst', hmul', neg_one_mul, add_neg_cancel]

/-- **Cancellation**: `f - f` evaluates to `0` iff the evaluated terms of `f` and of `-1 * f` have
opposite coefficients, and for combinations of monomials they have. -/
theorem evaluate_subtract_self {f : Expr} (hf : Canonical f) (ctx : Context) :
    ((subtract f f).evaluate ctx = .const 0 ↔
      Cancels (evaluatedTerms ctx f) (evaluatedTerms ctx (negate f))) ∧
    (Combination f → (subtract f f).evaluate ctx = .const 0) := by
  have hiff : (subtract f f).evaluate ctx = .const 0 ↔
      Cancels (evaluatedTerms ctx f) (evaluatedTerms ctx (negate f)) := by
    cases hc : f.isConst
    · exact evaluate_subtract_self_iff hf hc
    · obtain ⟨q, rfl⟩ := exists_of_isConst hc
      have hzero : subtract (.const q) (.const q) = .const 0 := by
        rw [subtract, negate, productOf_const_const, sumOf_const_const, neg_one_mul, add_neg_cancel]
      have heval : (subtract (.const q) (.const q)).evaluate ctx = .const 0 := by
        rw [hzero, evaluate_eq (.const 0), evaluated_const]
      exact iff_of_true heval (cancels_of_combination (.monomial (.const q)) hf)
  exact ⟨hiff, fun h => hiff.mpr (cancels_of_combination h hf)⟩

/-- `2 * (1 + x)` without itself. -/
theorem evaluate_subtract_twice_self :
    let f := product [.const 2, .sum [.const 1, symbol "x"]]
    (subtract f f).evaluate (.inert .standard) = .const 0 := by
  intro f
  have hterms : ∀ t ∈ [const 1, symbol "x"], Canonical t ∧ Combination t :=
    List.forall_mem_cons.mpr ⟨⟨.const 1, .monomial (.const 1)⟩,
      List.forall_mem_singleton.mpr ⟨.var "x", .monomial (.var "x")⟩⟩
  have hsum : Canonical (.sum [.const 1, symbol "x"]) :=
    .sum (fun t ht => (hterms t ht).1) (by cbv)
  have hf : Canonical f :=
    .product (List.forall_mem_cons.mpr ⟨.const 2, List.forall_mem_singleton.mpr hsum⟩) (by cbv)
  exact (evaluate_subtract_self hf (.inert .standard)).2
    (.multiple (List.Perm.refl _) (.sum fun t ht => (hterms t ht).2))

end SymbolicAlgebra.Expr
