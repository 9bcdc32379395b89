import SymbolicAlgebra.Proofs.Canonical

/-!
# The canonical constructors

What `sumOf`, `productOf` and `setOf` make of canonical operands.

Results:
* `canonical_sumOf`, `canonical_productOf`, `canonical_setOf`: the constructors keep expressions
  canonical.
* `sumOf_congr`, `productOf_congr`: a sum depends on the total of its constants and on its other
  terms up to order, a product likewise.
* `sumOf_sumOf`, `productOf_productOf`: nesting makes no difference.
-/

namespace SymbolicAlgebra.Expr

/-! ## Operands in normal form -/

theorem canonical_others {xs : List Expr} (h : ∀ x ∈ xs, Canonical x) :
    ∀ x ∈ others xs, Canonical x :=
  fun x hx => h x (mem_others.mp hx).1

theorem arranged_perm {neutral c : Rat} {xs ys : List Expr} (hxs : ∀ x ∈ xs, Canonical x)
    (h : xs.Perm ys) : arranged neutral c xs = arranged neutral c ys := by
  have ho := others_perm h
  rw [arranged, arranged]
  refine sort_congr ?_ ?_
  · intro x hx
    split at hx
    · exact canonical_others hxs x hx
    · rcases List.mem_append.mp hx with hx | hx
      · exact canonical_others hxs x hx
      · rw [List.mem_singleton.mp hx]
        exact .const c
  · split
    · exact ho
    · exact ho.append_right _

/-! ## The constructors -/

theorem canonical_flatMap_terms {xs : List Expr} (h : ∀ x ∈ xs, Canonical x) :
    ∀ t ∈ xs.flatMap terms, Canonical t ∧ t.isSum = false := by
  intro t ht
  obtain ⟨x, hx, htx⟩ := List.mem_flatMap.mp ht
  exact ⟨(h x hx).of_terms t htx, (h x hx).flat_terms t htx⟩

theorem canonical_flatMap_factors {xs : List Expr} (h : ∀ x ∈ xs, Canonical x) :
    ∀ f ∈ xs.flatMap factors, Canonical f ∧ f.isProduct = false := by
  intro f hf
  obtain ⟨x, hx, hfx⟩ := List.mem_flatMap.mp hf
  exact ⟨(h x hx).of_factors f hfx, (h x hx).flat_factors f hfx⟩

/-- **A sum of canonical expressions is canonical.** -/
theorem canonical_sumOf {xs : List Expr} (h : ∀ x ∈ xs, Canonical x) : Canonical (sumOf xs) :=
  (constructed_sumOf (constructed_of_canonical h)).canonical <| sumOf_induction (fun _ => rfl)
    (fun x hx t ht => ((h x hx).of_terms t ht).plain) fun ts => (plain_sum ts).mpr

/-- **A product of canonical expressions is canonical.** -/
theorem canonical_productOf {xs : List Expr} (h : ∀ x ∈ xs, Canonical x) :
    Canonical (productOf xs) :=
  (constructed_productOf (constructed_of_canonical h)).canonical <| productOf_induction id
    (fun _ => rfl) (fun x hx f hf => ((h x hx).of_factors f hf).plain) fun fs => (plain_product fs).mpr

/-- The order of the operands of a sum does not matter. -/
theorem sumOf_perm {xs ys : List Expr} (hxs : ∀ x ∈ xs, Canonical x) (h : xs.Perm ys) :
    sumOf xs = sumOf ys := by
  have ht := h.flatMap_right terms
  rw [sumOf_eq, sumOf_eq, (constants_perm ht).sum_eq,
    arranged_perm (fun t hx => (canonical_flatMap_terms hxs t hx).1) ht]

/-- The order of the operands of a product does not matter. -/
theorem productOf_perm {xs ys : List Expr} (hxs : ∀ x ∈ xs, Canonical x) (h : xs.Perm ys) :
    productOf xs = productOf ys := by
  have hf := h.flatMap_right factors
  rw [productOf_eq, productOf_eq, (constants_perm hf).prod_eq,
    arranged_perm (fun f hx => (canonical_flatMap_factors hxs f hx).1) hf]

/-! ### What a sum or product depends on -/

theorem arranged_congr {neutral c : Rat} {xs ys : List Expr} (hxs : ∀ x ∈ xs, Canonical x)
    (h : (others xs).Perm (others ys)) : arranged neutral c xs = arranged neutral c ys := by
  rw [arranged, arranged]
  split
  · exact sort_congr (canonical_others hxs) h
  · refine sort_congr (fun x hx => ?_) (h.append_right _)
    rcases List.mem_append.mp hx with hx | hx
    · exact canonical_others hxs x hx
    · rw [List.mem_singleton.mp hx]
      exact .const c

/-- A sum depends on the total of its constants and the other terms up to order. -/
theorem sumOf_congr {xs ys : List Expr} (hxs : ∀ x ∈ xs, Canonical x)
    (ho : (others (xs.flatMap terms)).Perm (others (ys.flatMap terms)))
    (hc : (constants (xs.flatMap terms)).sum = (constants (ys.flatMap terms)).sum) :
    sumOf xs = sumOf ys := by
  rw [sumOf_eq, sumOf_eq, hc,
    arranged_congr (fun t hx => (canonical_flatMap_terms hxs t hx).1) ho]

/-- A product depends on the product of its constants and the other factors up to order. -/
theorem productOf_congr {xs ys : List Expr} (hxs : ∀ x ∈ xs, Canonical x)
    (ho : (others (xs.flatMap factors)).Perm (others (ys.flatMap factors)))
    (hc : (constants (xs.flatMap factors)).prod = (constants (ys.flatMap factors)).prod) :
    productOf xs = productOf ys := by
  rw [productOf_eq, productOf_eq, hc,
    arranged_congr (fun f hx => (canonical_flatMap_factors hxs f hx).1) ho]

/-- A sum inside a sum is flattened. -/
theorem sumOf_sumOf {xs ys : List Expr} (hxs : ∀ x ∈ xs, Canonical x)
    (hys : ∀ y ∈ ys, Canonical y) : sumOf (sumOf xs :: ys) = sumOf (xs ++ ys) := by
  refine sumOf_congr ?_ ?_ ?_
  · exact List.forall_mem_cons.mpr ⟨canonical_sumOf hxs, hys⟩
  · rw [List.flatMap_cons, List.flatMap_append, others_append, others_append]
    exact (others_terms_sumOf (constructed_of_canonical hxs)).append_right _
  · rw [List.flatMap_cons, List.flatMap_append, constants_append, constants_append,
      List.sum_append, List.sum_append, constants_terms_sumOf (constructed_of_canonical hxs)]

/-- A product inside a product is flattened. -/
theorem productOf_productOf {xs ys : List Expr} (hxs : ∀ x ∈ xs, Canonical x)
    (hys : ∀ y ∈ ys, Canonical y) : productOf (productOf xs :: ys) = productOf (xs ++ ys) := by
  have hprod : (constants ((productOf xs :: ys).flatMap factors)).prod =
      (constants ((xs ++ ys).flatMap factors)).prod := by
    rw [List.flatMap_cons, List.flatMap_append, constants_append, constants_append,
      List.prod_append, List.prod_append, constants_factors_productOf (constructed_of_canonical hxs)]
  by_cases h0 : (constants (xs.flatMap factors)).prod = 0
  · have hzero : (constants ((xs ++ ys).flatMap factors)).prod = 0 := by
      rw [List.flatMap_append, constants_append, List.prod_append, h0, zero_mul]
    rw [productOf_eq (productOf xs :: ys), productOf_eq (xs ++ ys), hprod, if_pos hzero,
      if_pos hzero]
  · refine productOf_congr ?_ ?_ hprod
    · exact List.forall_mem_cons.mpr ⟨canonical_productOf hxs, hys⟩
    · rw [List.flatMap_cons, List.flatMap_append, others_append, others_append]
      exact (others_factors_productOf (constructed_of_canonical hxs) h0).append_right _

theorem Canonical.sumOf_terms {e : Expr} (h : Canonical e) : sumOf e.terms = e :=
  h.constructed.sumOf_terms

theorem Canonical.productOf_factors {e : Expr} (h : Canonical e) : productOf e.factors = e :=
  h.constructed.productOf_factors

/-- **A set of canonical expressions is canonical.** -/
theorem canonical_setOf {xs : List Expr} (h : ∀ x ∈ xs, Canonical x) : Canonical (setOf xs) := by
  refine (constructed_setOf fun x hx => (h x hx).constructed).canonical ?_
  rw [setOf, plain_set]
  exact fun x hx => (h x (mem_sort.mp ((dropRepeats_sublist _).subset hx))).plain

end SymbolicAlgebra.Expr
