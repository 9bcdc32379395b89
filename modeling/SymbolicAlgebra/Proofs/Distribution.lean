import SymbolicAlgebra.Expansion
import SymbolicAlgebra.Proofs.Exponents
import SymbolicAlgebra.Proofs.Matching

/-!
# Multiplying out

Multiplying out two canonical expressions visits the products of their terms. Each of these products
is small next to the product of the two, so the depth set aside for that product is enough, and
`distribute` is `distributed` on all canonical expressions. A product is multiplied out factor by
factor and a power as that many factors, so both are `multipliedOut`, a fold of `distributed`; what
the fold visits on the way is `multiplyingVisits`.

Results:
* `distribute_eq_distributed`: `distribute` computes `distributed`.
* `denotes_multipliedOut`: multiplying out multiplies the values, if the powers of constants on the way
  are exact.
* `exact_multiplyingVisits`: they are exact where the degrees of the terms add up to at most
  `Rational.maxExactExponent`.
-/

namespace SymbolicAlgebra.Evaluator

open Expr

variable {x a e : Expr} {σ : String → Rat}

/-! ## The products visited -/

theorem mem_terms_self (h : e.isSum = false) : e ∈ e.terms := by
  rw [terms_eq_self h]
  exact List.mem_cons_self

theorem productOf_swap (hx : Expr.Canonical x) (ha : Expr.Canonical a) :
    productOf [x, a] = productOf [a, x] :=
  productOf_perm (forall_mem_pair hx ha) (List.Perm.swap _ _ _)

/-- The products of a term of each are visited. -/
theorem mem_distributeVisits (hx : Expr.Canonical x) (ha : Expr.Canonical a) :
    e ∈ distributeVisits x a ↔ ∃ t ∈ a.terms, ∃ u ∈ x.terms, e = productOf [t, u] := by
  unfold distributeVisits
  split
  · rw [List.mem_flatMap]
    refine exists_congr fun t => and_congr_right fun ht => ?_
    rw [List.mem_map]
    refine exists_congr fun u => and_congr_right fun hu => ?_
    rw [eq_comm]
    split
    · rfl
    · next hs =>
      rw [terms_eq_self (Bool.not_eq_true _ ▸ hs), List.mem_singleton] at hu
      rw [hu, productOf_swap hx (ha.of_terms t ht)]
  · next hs =>
    obtain ⟨has, hxs⟩ := Bool.or_eq_false_iff.mp (Bool.not_eq_true _ ▸ hs)
    simp [terms_eq_self has, terms_eq_self hxs]

theorem canonical_of_mem_distributeVisits (hx : Expr.Canonical x) (ha : Expr.Canonical a)
    (he : e ∈ distributeVisits x a) : Expr.Canonical e := by
  obtain ⟨t, ht, u, hu, rfl⟩ := (mem_distributeVisits hx ha).mp he
  exact canonical_productOf (forall_mem_pair (ha.of_terms t ht) (hx.of_terms u hu))

/-! ### Their size -/

/-- The constant factor of a canonical expression is zero only for `0`. -/
theorem eq_zero_of_prod_constants (hx : Expr.Canonical x) (h : (constants x.factors).prod = 0) :
    x = .const 0 := by
  cases hc : x.isConst
  · rcases hx.constants_factors hc with hnil | ⟨c, h0, -, hsingle⟩
    · rw [hnil, List.prod_nil] at h
      exact absurd h one_ne_zero
    · rw [hsingle, List.prod_singleton] at h
      exact absurd h h0
  · obtain ⟨q, rfl⟩ := exists_of_isConst hc
    rw [factors_const, constants_const, constants_nil, List.prod_singleton] at h
    rw [h]

/-- All that an expression has besides its other factors is a constant factor and the node. -/
theorem size_le_others (hx : Expr.Canonical x) : x.size ≤ sizeList (others x.factors) + 2 := by
  have hconst : sizeList ((constants x.factors).map Expr.const) ≤ 1 := by
    cases hc : x.isConst
    · rcases hx.constants_factors hc with hnil | ⟨c, -, -, hsingle⟩
      · simp [hnil, sizeList]
      · simp [hsingle, sizeList, size]
    · obtain ⟨q, rfl⟩ := exists_of_isConst hc
      simp [sizeList, size]
  have hself : x.size ≤ sizeList x.factors + 1 := by
    cases hp : x.isProduct
    · rw [factors_eq_self hp, sizeList]
      omega
    · obtain ⟨fs, rfl⟩ := exists_of_isProduct hp
      rw [size, factors_product]
  have hsplit := sizeList_perm (others_constants_perm x.factors)
  rw [sizeList_append] at hsplit
  omega

/-- Two factors are not much larger than their product, unless it is `0`. -/
theorem size_add_size_le (hx : Expr.Canonical x) (ha : Expr.Canonical a)
    (h0 : (constants ([x, a].flatMap factors)).prod ≠ 0) :
    x.size + a.size ≤ (productOf [x, a]).size + 4 := by
  have hperm := others_factors_productOf (constructed_of_canonical (forall_mem_pair hx ha)) h0
  rw [List.flatMap_cons, List.flatMap_singleton, others_append] at hperm
  have hothers := sizeList_perm hperm
  have hsplit := sizeList_perm (others_constants_perm (productOf [x, a]).factors)
  rw [sizeList_append] at hothers hsplit
  have := sizeList_factors_le (productOf [x, a])
  have := size_le_others hx
  have := size_le_others ha
  omega

/-- If the product of two expressions is `0`, so are the products visited. -/
theorem eq_zero_of_mem_distributeVisits (hx : Expr.Canonical x) (ha : Expr.Canonical a)
    (h0 : (constants ([x, a].flatMap factors)).prod = 0) (he : e ∈ distributeVisits x a) :
    e = .const 0 := by
  obtain ⟨t, ht, u, hu, rfl⟩ := (mem_distributeVisits hx ha).mp he
  rw [List.flatMap_cons, List.flatMap_singleton, constants_append, List.prod_append,
    mul_eq_zero] at h0
  rcases h0 with h0 | h0
  · rw [eq_zero_of_prod_constants hx h0] at hu
    rw [List.mem_singleton.mp hu, productOf_eq]
    exact if_pos (by simp)
  · rw [eq_zero_of_prod_constants ha h0] at ht
    rw [List.mem_singleton.mp ht, productOf_eq]
    exact if_pos (by simp)

/-- **The depth set aside for a product is enough for the products visited.** -/
theorem height_lt_of_mem_distributeVisits (hx : Expr.Canonical x) (ha : Expr.Canonical a)
    (he : e ∈ distributeVisits x a) : e.height < depthFor (productOf [x, a]) := by
  by_cases h0 : (constants ([x, a].flatMap factors)).prod = 0
  · rw [eq_zero_of_mem_distributeVisits hx ha h0 he, height_const, depthFor]
    exact Nat.pow_pos (Nat.add_pos_right _ (by decide))
  · have hsum := size_add_size_le hx ha h0
    obtain ⟨t, ht, u, hu, rfl⟩ := (mem_distributeVisits hx ha).mp he
    have hproduct := size_productOf_le [t, u]
    have hheight := height_add_le (productOf [t, u])
    have hterm : ∀ {y s : Expr}, s ∈ y.terms → s.size ≤ y.size := fun {y s} hs =>
      (size_le_sizeList hs).trans (sizeList_terms_le y)
    have := hterm ht
    have := hterm hu
    rw [sizeList, sizeList, sizeList] at hproduct
    -- the depth is the cube of the size and more, and the height is linear in it
    have hdepth : 12 * ((productOf [x, a]).size + 1000) ≤ depthFor (productOf [x, a]) := by
      rw [depthFor, Nat.pow_eq, pow_succ]
      refine Nat.mul_le_mul_right _ ?_
      rw [pow_two]
      exact Nat.le_trans (by omega) (Nat.le_mul_self _)
    omega

/-! ## What multiplying out gives -/

/-- The terms of a list of expressions, with like terms collected. -/
def collectAll (xs : List Expr) : Expr :=
  collect (xs.flatMap terms)

theorem canonical_collectAll {xs : List Expr} (h : ∀ y ∈ xs, Expr.Canonical y) :
    Expr.Canonical (collectAll xs) :=
  canonical_collect fun t ht => (canonical_flatMap_terms h t ht).1

theorem denotes_collectAll {ys : List Expr} {g : Expr → Expr} {w : Expr → Rat}
    (hc : ∀ y ∈ ys, Expr.Canonical (g y)) (h : ∀ y ∈ ys, Denotes σ (g y) (w y)) :
    Denotes σ (collectAll (ys.map g)) (ys.map w).sum := by
  rw [← map_value_map h, ← value_flatMap_terms]
  exact denotes_collect
    (fun t ht => (canonical_flatMap_terms (List.forall_mem_map.mpr hc) t ht).1)
    (defined_flatMap (defined_map h) fun y hy => hy.of_terms)

/-- A term times an expression: the products with its terms, collected if there are several. -/
theorem distributedTerm_eq {t : Expr} (hx : Expr.Canonical x) (ht : Expr.Canonical t) :
    distributedTerm evaluated x t =
      if x.isSum then collectAll (x.terms.map fun u => evaluated (productOf [t, u]))
      else evaluated (productOf [t, x]) := by
  rw [← productOf_swap hx ht]
  cases x with
  | sum us =>
    rw [show (sum us).isSum = true from rfl, if_pos rfl]
    rfl
  | _ => rfl

theorem distributed_eq : distributed evaluated x a =
    if a.isSum || x.isSum then collectAll (a.terms.map fun t => distributedTerm evaluated x t)
    else evaluated (productOf [a, x]) := by
  rw [distributed, collectAll, List.flatMap_map]

/-- What is true of the result of every visit, and of what is collected from such results, is true of
the product. -/
theorem distributed_induction {P : Expr → Prop} (hx : Expr.Canonical x) (ha : Expr.Canonical a)
    (hcollect : ∀ xs, (∀ y ∈ xs, Expr.Canonical y ∧ P y) → P (collectAll xs))
    (hvisit : ∀ e ∈ distributeVisits x a, P (evaluated e)) :
    Expr.Canonical (distributed evaluated x a) ∧ P (distributed evaluated x a) := by
  have hpair : ∀ t ∈ a.terms, ∀ u ∈ x.terms,
      Expr.Canonical (evaluated (productOf [t, u])) ∧ P (evaluated (productOf [t, u])) := by
    intro t ht u hu
    have hmem := (mem_distributeVisits hx ha).mpr ⟨t, ht, u, hu, rfl⟩
    exact ⟨canonical_evaluated (canonical_of_mem_distributeVisits hx ha hmem), hvisit _ hmem⟩
  have hlist : ∀ {ys : List Expr} {g : Expr → Expr},
      (∀ y ∈ ys, Expr.Canonical (g y) ∧ P (g y)) →
        Expr.Canonical (collectAll (ys.map g)) ∧ P (collectAll (ys.map g)) := by
    intro ys g h
    have hmap : ∀ r ∈ ys.map g, Expr.Canonical r ∧ P r := by
      intro r hr
      obtain ⟨y, hy, rfl⟩ := List.mem_map.mp hr
      exact h y hy
    exact ⟨canonical_collectAll fun r hr => (hmap r hr).1, hcollect _ hmap⟩
  have hterm : ∀ t ∈ a.terms,
      Expr.Canonical (distributedTerm evaluated x t) ∧ P (distributedTerm evaluated x t) := by
    intro t ht
    rw [distributedTerm_eq hx (ha.of_terms t ht)]
    split
    · exact hlist (hpair t ht)
    · next hs => exact hpair t ht x (mem_terms_self (Bool.not_eq_true _ ▸ hs))
  rw [distributed_eq]
  split
  · exact hlist hterm
  · next hs =>
    obtain ⟨has, hxs⟩ := Bool.or_eq_false_iff.mp (Bool.not_eq_true _ ▸ hs)
    exact hpair a (mem_terms_self has) x (mem_terms_self hxs)

theorem canonical_distributed (hx : Expr.Canonical x) (ha : Expr.Canonical a) :
    Expr.Canonical (distributed evaluated x a) :=
  (distributed_induction (P := fun _ => True) hx ha (fun _ _ => trivial) fun _ _ => trivial).1

/-- **Multiplying out multiplies the values**, if the powers of constants on the way are exact. -/
theorem denotes_distributed (hx : Expr.Canonical x) (ha : Expr.Canonical a) (hdx : Defined σ x)
    (hda : Defined σ a) (hexact : ∀ e ∈ distributeVisits x a, ExactPowers e) :
    Denotes σ (distributed evaluated x a) (value σ a * value σ x) := by
  have hpair : ∀ t ∈ a.terms, ∀ u ∈ x.terms, Expr.Canonical (evaluated (productOf [t, u])) ∧
      Denotes σ (evaluated (productOf [t, u])) (value σ t * value σ u) := by
    intro t ht u hu
    have hmem := (mem_distributeVisits hx ha).mpr ⟨t, ht, u, hu, rfl⟩
    have hcanon := canonical_of_mem_distributeVisits hx ha hmem
    have hproduct := denotes_productOf_pair ⟨hda.of_terms t ht, rfl⟩ ⟨hdx.of_terms u hu, rfl⟩
    have heval := denotes_evaluated hcanon (hexact _ hmem) hproduct.defined
    rw [hproduct.value_eq] at heval
    exact ⟨canonical_evaluated hcanon, heval⟩
  have hterm : ∀ t ∈ a.terms, Expr.Canonical (distributedTerm evaluated x t) ∧
      Denotes σ (distributedTerm evaluated x t) (value σ t * value σ x) := by
    intro t ht
    rw [distributedTerm_eq hx (ha.of_terms t ht)]
    split
    · refine ⟨canonical_collectAll (List.forall_mem_map.mpr fun u hu => (hpair t ht u hu).1), ?_⟩
      rw [← value_terms x, ← List.sum_map_mul_left]
      exact denotes_collectAll (fun u hu => (hpair t ht u hu).1) fun u hu => (hpair t ht u hu).2
    · next hs => exact hpair t ht x (mem_terms_self (Bool.not_eq_true _ ▸ hs))
  rw [distributed_eq]
  split
  · rw [← value_terms a, ← List.sum_map_mul_right]
    exact denotes_collectAll (fun t ht => (hterm t ht).1) fun t ht => (hterm t ht).2
  · next hs =>
    obtain ⟨has, hxs⟩ := Bool.or_eq_false_iff.mp (Bool.not_eq_true _ ▸ hs)
    exact (hpair a (mem_terms_self has) x (mem_terms_self hxs)).2

/-! ### Degrees -/

/-- Collecting terms raises no degree. -/
theorem degree_of_mem_terms_collect {N : Nat} {ts : List Expr} (hc : ∀ t ∈ ts, Expr.Canonical t)
    (h : ∀ t ∈ ts, t.degree ≤ N) : ∀ t ∈ (collect ts).terms, t.degree ≤ N := by
  intro t ht
  obtain hconst | ⟨-, p, hp, htp⟩ := mem_terms_collect hc ht
  · obtain ⟨q, rfl⟩ := exists_of_isConst hconst
    exact (degree_const q).trans_le (Nat.zero_le N)
  · obtain ⟨s, hs, heq⟩ := List.mem_map.mp ((mem_likeTerms hc).mp hp).1
    obtain ⟨u, hu, rfl⟩ := List.mem_map.mp hs
    refine (degree_of_mem_terms htp).trans ((degree_scaled_le _ _).trans ?_)
    rw [← heq]
    exact (degree_splitCoefficient_le u).trans (h u (mem_others.mp hu).1)

theorem largestDegree_terms_collectAll {N : Nat} {xs : List Expr}
    (h : ∀ y ∈ xs, Expr.Canonical y ∧ largestDegree y.terms ≤ N) :
    largestDegree (collectAll xs).terms ≤ N := by
  refine largestDegree_le.mpr (degree_of_mem_terms_collect (fun t ht => ?_) fun t ht => ?_) <;>
    obtain ⟨y, hy, hty⟩ := List.mem_flatMap.mp ht
  · exact (h y hy).1.of_terms t hty
  · exact largestDegree_le.mp (h y hy).2 t hty

/-- **Multiplying out adds the degrees of the terms**, and where they add up to at most
`Rational.maxExactExponent`, the powers of constants on the way are exact. -/
theorem exact_distributeVisits (hx : Expr.Canonical x) (ha : Expr.Canonical a)
    (hdx : Defined σ x) (hda : Defined σ a)
    (hle : largestDegree a.terms + largestDegree x.terms ≤ Rational.maxExactExponent) :
    (∀ e ∈ distributeVisits x a, ExactPowers e) ∧
      largestDegree (distributed evaluated x a).terms ≤
        largestDegree a.terms + largestDegree x.terms := by
  have hvisit : ∀ e ∈ distributeVisits x a, Expr.Canonical e ∧ Defined σ e ∧
      e.degree ≤ largestDegree a.terms + largestDegree x.terms := by
    intro e he
    have hcanon := canonical_of_mem_distributeVisits hx ha he
    obtain ⟨t, ht, u, hu, rfl⟩ := (mem_distributeVisits hx ha).mp he
    refine ⟨hcanon, (denotes_productOf_pair ⟨hda.of_terms t ht, rfl⟩
      ⟨hdx.of_terms u hu, rfl⟩).defined, (degree_productOf_le _).trans ?_⟩
    have := largestDegree_le.mp le_rfl t ht
    have := largestDegree_le.mp le_rfl u hu
    simp only [List.map_cons, List.map_nil, List.sum_cons, List.sum_nil]
    omega
  refine ⟨fun e he => ?_, (distributed_induction hx ha (fun _ => largestDegree_terms_collectAll)
    fun e he => ?_).2⟩ <;> obtain ⟨hcanon, hdefined, hdegree⟩ := hvisit e he
  · exact exactPowers_of_degree_le hcanon hdefined (hdegree.trans hle)
  · have hsound := sound_of_degree_le hcanon hdefined (hdegree.trans hle)
    exact largestDegree_le.mpr fun t ht =>
      (degree_of_mem_terms ht).trans (hsound.bounded.degree_le.trans hdegree)

/-! ## Several factors -/

/-- An expression multiplied out with factors one after the other. -/
def multipliedOut (xs : List Expr) (a : Expr) : Expr :=
  xs.foldl (fun a x => distributed evaluated x a) a

/-- The products that this visits. -/
def multiplyingVisits : List Expr → Expr → List Expr
  | [], _ => []
  | x :: xs, a => distributeVisits x a ++ multiplyingVisits xs (distributed evaluated x a)

theorem multipliedOut_cons (x : Expr) (xs : List Expr) (a : Expr) :
    multipliedOut (x :: xs) a = multipliedOut xs (distributed evaluated x a) := rfl

theorem canonical_multipliedOut {xs : List Expr} (hxs : ∀ x ∈ xs, Expr.Canonical x) {a : Expr}
    (ha : Expr.Canonical a) : Expr.Canonical (multipliedOut xs a) := by
  induction xs generalizing a with
  | nil => exact ha
  | cons x xs ih =>
    obtain ⟨hx, hxs⟩ := List.forall_mem_cons.mp hxs
    exact ih hxs (canonical_distributed hx ha)

/-- **A product of several factors multiplies the values** as it is multiplied out. -/
theorem denotes_multipliedOut {xs : List Expr} (hxs : ∀ x ∈ xs, Expr.Canonical x)
    (hdxs : ∀ x ∈ xs, Defined σ x) {a : Expr} (ha : Expr.Canonical a) (hda : Defined σ a)
    (hexact : ∀ e ∈ multiplyingVisits xs a, ExactPowers e) :
    Denotes σ (multipliedOut xs a) (value σ a * (xs.map (value σ)).prod) := by
  induction xs generalizing a with
  | nil =>
    rw [List.map_nil, List.prod_nil, mul_one]
    exact ⟨hda, rfl⟩
  | cons x xs ih =>
    obtain ⟨hx, hxs⟩ := List.forall_mem_cons.mp hxs
    obtain ⟨hdx, hdxs⟩ := List.forall_mem_cons.mp hdxs
    obtain ⟨hfirst, hrest⟩ := List.forall_mem_append.mp hexact
    have hproduct := denotes_distributed hx ha hdx hda hfirst
    have h := ih hxs hdxs (canonical_distributed hx ha) hproduct.defined hrest
    rwa [hproduct.value_eq, mul_assoc] at h

/-- **The degrees of several factors add up**, and where the sum is at most
`Rational.maxExactExponent`, the powers of constants on the way are exact. -/
theorem exact_multiplyingVisits {xs : List Expr} (hxs : ∀ x ∈ xs, Expr.Canonical x)
    (hdxs : ∀ x ∈ xs, Defined σ x) {a : Expr} (ha : Expr.Canonical a) (hda : Defined σ a)
    (hle : largestDegree a.terms + (xs.map fun x => largestDegree x.terms).sum ≤
      Rational.maxExactExponent) :
    (∀ e ∈ multiplyingVisits xs a, ExactPowers e) ∧
      largestDegree (multipliedOut xs a).terms ≤
        largestDegree a.terms + (xs.map fun x => largestDegree x.terms).sum := by
  induction xs generalizing a with
  | nil => exact ⟨nofun, Nat.le_add_right _ _⟩
  | cons x xs ih =>
    obtain ⟨hx, hxs⟩ := List.forall_mem_cons.mp hxs
    obtain ⟨hdx, hdxs⟩ := List.forall_mem_cons.mp hdxs
    rw [List.map_cons, List.sum_cons] at hle ⊢
    obtain ⟨hexact, hdegree⟩ := exact_distributeVisits hx ha hdx hda (by omega)
    have hproduct := denotes_distributed hx ha hdx hda hexact
    obtain ⟨hrest, hdegrees⟩ :=
      ih hxs hdxs (canonical_distributed hx ha) hproduct.defined (by omega)
    refine ⟨List.forall_mem_append.mpr ⟨hexact, hrest⟩, ?_⟩
    rw [multipliedOut_cons]
    omega

end SymbolicAlgebra.Evaluator

namespace SymbolicAlgebra.Expr

open Evaluator

/-- **`distribute` is `distributed`** on canonical expressions, whatever the context. -/
theorem distribute_eq_distributed {x a : Expr} (hx : Canonical x) (ha : Canonical a)
    (ctx : Context) : x.distribute a ctx = distributed evaluated x a :=
  distribute_eq (fun _ he => ⟨canonical_of_mem_distributeVisits hx ha he,
    height_lt_of_mem_distributeVisits hx ha he⟩) ctx

/-- A fold of `distribute` multiplies out factor by factor. -/
theorem foldl_distribute_eq {xs : List Expr} (hxs : ∀ x ∈ xs, Canonical x) (ctx : Context) {a : Expr}
    (ha : Canonical a) : xs.foldl (fun a x => x.distribute a ctx) a = multipliedOut xs a := by
  induction xs generalizing a with
  | nil => rfl
  | cons x xs ih =>
    obtain ⟨hx, hxs⟩ := List.forall_mem_cons.mp hxs
    rw [List.foldl_cons, distribute_eq_distributed hx ha, ih hxs (canonical_distributed hx ha),
      multipliedOut_cons]

/-- Multiplying by a base again and again is multiplying out with copies of it. -/
theorem multiplyRepeatedly_eq {base : Expr} (hbase : Canonical base) (ctx : Context) (count : Nat)
    {a : Expr} (ha : Canonical a) :
    multiplyRepeatedly base ctx count a = multipliedOut (List.replicate count base) a := by
  induction count generalizing a with
  | zero => rfl
  | succ count ih =>
    rw [multiplyRepeatedly, distribute_eq_distributed hbase ha, List.replicate_succ,
      multipliedOut_cons, ih (canonical_distributed hbase ha)]

end SymbolicAlgebra.Expr
