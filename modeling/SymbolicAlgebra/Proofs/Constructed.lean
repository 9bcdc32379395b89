import SymbolicAlgebra.Proofs.Order
import SymbolicAlgebra.Expr.Canonical
import Mathlib.Algebra.BigOperators.Group.List.Basic
import Mathlib.Data.List.Induction

/-!
# What the constructors build

Sums, products and sets are built by constructors that flatten, fold and sort. An expression is
constructed when every sum, product and set in it is what its constructor gives back from its own
operands. This is the same as being built by the constructors: they give constructed expressions for
constructed operands, and a constructed node is built from its own operands. Calls, conditions on
variables and deferred substitutions are all allowed; only the order of two operands that compare
equal is then a matter of where they came from, and `sort` keeps it.

Results:
* `sort_perm`, `sort_sorted`, `sort_eq_of_sorted`: `sort` sorts, and leaves alone what is sorted.
* `sumOf_induction`, `productOf_induction`: properties that pass from the operands to what is built.
* `AddsUp.sumOf`, `Multiplies.productOf`: a number that adds up or multiplies over the operands of a
  node does so for what is built.
* `Constructed.two_le_terms`, `Constructed.flat_terms`: a sum has two terms or more, none of them a
  sum; likewise for products.
* `constructed_sumOf`, `constructed_productOf`, `constructed_setOf`: the constructors give
  constructed expressions.
* `Constructed.sumOf_terms`, `Constructed.productOf_factors`: an expression is the sum of its terms and
  the product of its factors.
-/

namespace SymbolicAlgebra.Expr

/-! ## Sorting -/

/-- In canonical order, equals included. -/
abbrev Sorted (xs : List Expr) : Prop :=
  xs.Pairwise fun x y => (compare x y).isLE

theorem insertDescending_perm (x : Expr) : ∀ xs, (insertDescending x xs).Perm (x :: xs)
  | [] => List.Perm.refl _
  | y :: ys => by
    rw [insertDescending]
    split
    · exact ((insertDescending_perm x ys).cons y).trans (List.Perm.swap x y ys)
    · exact List.Perm.refl _

theorem foldl_insertDescending_perm (xs : List Expr) :
    ∀ acc, (xs.foldl (fun sorted x => insertDescending x sorted) acc).Perm (xs ++ acc) := by
  induction xs with
  | nil => exact fun acc => List.Perm.refl acc
  | cons x xs ih =>
    intro acc
    refine (ih _).trans ?_
    exact ((insertDescending_perm x acc).append_left xs).trans List.perm_middle

theorem sort_perm (xs : List Expr) : (sort xs).Perm xs := by
  have h := foldl_insertDescending_perm xs []
  rw [List.append_nil] at h
  exact (List.reverse_perm _).trans h

theorem mem_sort {x : Expr} {xs : List Expr} : x ∈ sort xs ↔ x ∈ xs :=
  (sort_perm xs).mem_iff

theorem insertDescending_sorted {x : Expr} : ∀ {xs : List Expr},
    xs.Pairwise (fun a b => (compare b a).isLE) →
      (insertDescending x xs).Pairwise fun a b => (compare b a).isLE
  | [], _ => List.pairwise_singleton _ _
  | y :: ys, h => by
    rw [insertDescending]
    rw [List.pairwise_cons] at h
    split
    · rename_i hb
      have hxy : (compare x y).isLE := by
        rw [before, beq_iff_eq] at hb
        rw [hb]
        rfl
      refine List.pairwise_cons.mpr ⟨fun z hz => ?_, insertDescending_sorted h.2⟩
      rcases List.mem_cons.mp ((insertDescending_perm x ys).mem_iff.mp hz) with rfl | hz
      · exact hxy
      · exact h.1 z hz
    · rename_i hb
      have hyx : (compare y x).isLE := by
        rw [before, beq_iff_eq] at hb
        rw [compare_swap y x]
        cases hc : compare x y with
        | lt => exact absurd hc hb
        | _ => rfl
      refine List.pairwise_cons.mpr ⟨fun z hz => ?_, List.pairwise_cons.mpr h⟩
      rcases List.mem_cons.mp hz with rfl | hz
      · exact hyx
      · exact Std.TransCmp.isLE_trans (h.1 z hz) hyx

theorem sort_sorted (xs : List Expr) : Sorted (sort xs) := by
  have h : ∀ (xs acc : List Expr), acc.Pairwise (fun a b => (compare b a).isLE) →
      (xs.foldl (fun sorted x => insertDescending x sorted) acc).Pairwise
        fun a b => (compare b a).isLE := by
    intro xs
    induction xs with
    | nil => exact fun acc hacc => hacc
    | cons x xs ih => exact fun acc hacc => ih _ (insertDescending_sorted hacc)
  exact List.pairwise_reverse.mpr (h xs [] List.Pairwise.nil)

theorem sort_append_singleton (xs : List Expr) (x : Expr) :
    sort (xs ++ [x]) = (insertDescending x (sort xs).reverse).reverse := by
  rw [sort, sort, List.foldl_append, List.reverse_reverse]
  rfl

theorem insertDescending_of_le {x : Expr} {xs : List Expr} (h : ∀ y ∈ xs, (compare y x).isLE) :
    insertDescending x xs = x :: xs := by
  cases xs with
  | nil => rfl
  | cons y ys =>
    have hle := h y (by simp)
    rw [insertDescending, if_neg]
    rw [before, beq_iff_eq, compare_swap x y]
    intro hlt
    cases hc : compare y x <;> rw [hc] at hle hlt <;> contradiction

/-- What is sorted stays as it is, operands that compare equal included. -/
theorem sort_eq_of_sorted {xs : List Expr} (h : Sorted xs) : sort xs = xs := by
  induction xs using List.reverseRecOn with
  | nil => rfl
  | append_singleton xs x ih =>
    rw [Sorted, List.pairwise_append] at h
    obtain ⟨hxs, -, hle⟩ := h
    rw [sort_append_singleton, ih hxs, insertDescending_of_le, List.reverse_cons,
      List.reverse_reverse]
    exact fun y hy => hle y (List.mem_reverse.mp hy) x (by simp)

theorem sort_sort (xs : List Expr) : sort (sort xs) = sort xs :=
  sort_eq_of_sorted (sort_sorted xs)

/-! ## The operands of sums and products -/

theorem forall_mem_pair {P : Expr → Prop} {x y : Expr} (hx : P x) (hy : P y) : ∀ e ∈ [x, y], P e :=
  List.forall_mem_cons.mpr ⟨hx, List.forall_mem_singleton.mpr hy⟩

/-- The operands that are no constants, in order. -/
def others (xs : List Expr) : List Expr :=
  xs.filter fun x => !x.isConst

/-- The constants among the operands, in order. -/
def constants (xs : List Expr) : List Rat :=
  xs.filterMap asConst?

/-- The operands in order, with one constant for all that is not neutral. -/
def arranged (neutral c : Rat) (xs : List Expr) : List Expr :=
  sort (if c = neutral then others xs else others xs ++ [const c])

theorem sumOf_eq (xs : List Expr) :
    sumOf xs = ofTerms (arranged 0 (constants (xs.flatMap terms)).sum (xs.flatMap terms)) := by
  rw [List.sum_eq_foldl]
  rfl

theorem productOf_eq (xs : List Expr) :
    productOf xs = if (constants (xs.flatMap factors)).prod = 0 then zero
      else ofFactors (arranged 1 (constants (xs.flatMap factors)).prod (xs.flatMap factors)) := by
  rw [List.prod_eq_foldl]
  rfl

@[simp] theorem others_nil : others [] = [] := rfl

@[simp] theorem others_append (xs ys : List Expr) : others (xs ++ ys) = others xs ++ others ys :=
  List.filter_append _ _

@[simp] theorem others_const (q : Rat) (xs : List Expr) : others (const q :: xs) = others xs := rfl

theorem others_cons {x : Expr} (h : x.isConst = false) (xs : List Expr) :
    others (x :: xs) = x :: others xs := by
  simp [others, h]

theorem mem_others {x : Expr} {xs : List Expr} : x ∈ others xs ↔ x ∈ xs ∧ x.isConst = false := by
  simp [others]

@[simp] theorem constants_nil : constants [] = [] := rfl

@[simp] theorem constants_append (xs ys : List Expr) :
    constants (xs ++ ys) = constants xs ++ constants ys :=
  List.filterMap_append

@[simp] theorem constants_const (q : Rat) (xs : List Expr) :
    constants (const q :: xs) = q :: constants xs := rfl

theorem asConst?_eq_none {x : Expr} (h : x.isConst = false) : x.asConst? = none := by
  cases x with
  | const q => cases h
  | _ => rfl

theorem constants_cons {x : Expr} (h : x.isConst = false) (xs : List Expr) :
    constants (x :: xs) = constants xs := by
  rw [constants, List.filterMap_cons, asConst?_eq_none h]
  rfl

theorem mem_constants {q : Rat} {xs : List Expr} : q ∈ constants xs ↔ const q ∈ xs := by
  rw [constants, List.mem_filterMap]
  constructor
  · rintro ⟨x, hx, hq⟩
    cases x with
    | const p => obtain rfl : p = q := by simpa [asConst?] using hq
                 exact hx
    | _ => cases hq
  · exact fun h => ⟨const q, h, rfl⟩

theorem mem_arranged {x : Expr} {neutral c : Rat} {xs : List Expr}
    (h : x ∈ arranged neutral c xs) : x ∈ others xs ∨ (x = const c ∧ c ≠ neutral) := by
  rw [arranged, mem_sort] at h
  split at h
  · exact Or.inl h
  · rename_i hc
    rcases List.mem_append.mp h with h | h
    · exact Or.inl h
    · exact Or.inr ⟨List.mem_singleton.mp h, hc⟩

/-- The operands are the constants and the others, up to order. -/
theorem others_constants_perm (xs : List Expr) :
    (others xs ++ (constants xs).map const).Perm xs := by
  induction xs with
  | nil => exact List.Perm.refl _
  | cons x xs ih =>
    cases h : x.isConst
    · rw [others_cons h, constants_cons h]
      exact ih.cons x
    · obtain ⟨q, rfl⟩ := exists_of_isConst h
      rw [others_const, constants_const, List.map_cons]
      exact List.perm_middle.trans (ih.cons (const q))

/-! ### Sorting operands a second time -/

theorem constants_others (xs : List Expr) : constants (others xs) = [] := by
  rw [List.eq_nil_iff_forall_not_mem]
  intro q hq
  have h := (mem_others.mp (mem_constants.mp hq)).2
  cases h

theorem constants_perm {xs ys : List Expr} (h : xs.Perm ys) :
    (constants xs).Perm (constants ys) :=
  h.filterMap _

theorem others_perm {xs ys : List Expr} (h : xs.Perm ys) : (others xs).Perm (others ys) :=
  h.filter _

theorem others_eq_self {xs : List Expr} (h : constants xs = []) : others xs = xs := by
  rw [others, List.filter_eq_self]
  intro x hx
  cases hc : x.isConst
  · rfl
  · obtain ⟨q, rfl⟩ := exists_of_isConst hc
    rw [← mem_constants, h] at hx
    cases hx

theorem others_sort_others (xs : List Expr) : others (sort (others xs)) = sort (others xs) := by
  have h := constants_perm (sort_perm (others xs))
  rw [constants_others] at h
  exact others_eq_self h.eq_nil

theorem others_insertDescending_const (c : Rat) : ∀ xs : List Expr,
    others (insertDescending (const c) xs) = others xs
  | [] => rfl
  | y :: ys => by
    rw [insertDescending]
    split
    · cases hy : y.isConst
      · rw [others_cons hy, others_cons hy, others_insertDescending_const c ys]
      · obtain ⟨q, rfl⟩ := exists_of_isConst hy
        rw [others_const, others_const, others_insertDescending_const c ys]
    · rw [others_const]

theorem others_reverse (xs : List Expr) : others xs.reverse = (others xs).reverse :=
  List.filter_reverse

/-- The constant does not disturb the order of the others. -/
theorem others_arranged_eq (neutral c : Rat) (xs : List Expr) :
    others (arranged neutral c xs) = sort (others xs) := by
  rw [arranged]
  split
  · exact others_sort_others xs
  · rw [sort_append_singleton, others_reverse, others_insertDescending_const, others_reverse,
      List.reverse_reverse, others_sort_others]

theorem arranged_arranged (neutral c : Rat) (xs : List Expr) :
    arranged neutral c (arranged neutral c xs) = arranged neutral c xs := by
  rw [arranged, others_arranged_eq, arranged]
  split
  · exact sort_sort _
  · rw [sort_append_singleton, sort_sort, ← sort_append_singleton]

theorem constants_arranged (neutral c : Rat) (xs : List Expr) :
    constants (arranged neutral c xs) = if c = neutral then [] else [c] := by
  have h := constants_perm (sort_perm (if c = neutral then others xs else others xs ++ [const c]))
  rw [arranged]
  split
  · rename_i hc
    rw [if_pos hc, constants_others] at h
    exact h.eq_nil
  · rename_i hc
    rw [if_neg hc, constants_append, constants_others] at h
    exact List.perm_singleton.mp h

theorem isSum_arranged {c : Rat} {xs : List Expr} (h : ∀ x ∈ xs, x.isSum = false) :
    ∀ x ∈ arranged 0 c xs, x.isSum = false := by
  intro x hx
  rcases mem_arranged hx with hx | ⟨rfl, -⟩
  · exact h x (mem_others.mp hx).1
  · rfl

theorem isProduct_arranged {c : Rat} {xs : List Expr} (h : ∀ x ∈ xs, x.isProduct = false) :
    ∀ x ∈ arranged 1 c xs, x.isProduct = false := by
  intro x hx
  rcases mem_arranged hx with hx | ⟨rfl, -⟩
  · exact h x (mem_others.mp hx).1
  · rfl

theorem flatMap_terms_eq_self {ts : List Expr} (h : ∀ t ∈ ts, t.isSum = false) :
    ts.flatMap terms = ts := by
  induction ts with
  | nil => rfl
  | cons t ts ih =>
    rw [List.flatMap_cons, terms_eq_self (h t (by simp)), ih fun u hu => h u (by simp [hu])]
    rfl

theorem flatMap_factors_eq_self {fs : List Expr} (h : ∀ f ∈ fs, f.isProduct = false) :
    fs.flatMap factors = fs := by
  induction fs with
  | nil => rfl
  | cons f fs ih =>
    rw [List.flatMap_cons, factors_eq_self (h f (by simp)), ih fun u hu => h u (by simp [hu])]
    rfl

/-- Arranged terms, none of them a sum, are the terms of their sum. -/
theorem sumOf_arranged {c : Rat} {xs : List Expr} (hflat : ∀ x ∈ xs, x.isSum = false) :
    sumOf (arranged 0 c xs) = ofTerms (arranged 0 c xs) := by
  rw [sumOf_eq, flatMap_terms_eq_self (isSum_arranged hflat), constants_arranged]
  split
  · rename_i hc
    subst hc
    rw [List.sum_nil, arranged_arranged]
  · rw [List.sum_singleton, arranged_arranged]

/-- Arranged factors, none of them a product, are the factors of their product. -/
theorem productOf_arranged {c : Rat} {xs : List Expr} (hflat : ∀ x ∈ xs, x.isProduct = false)
    (h0 : c ≠ 0) : productOf (arranged 1 c xs) = ofFactors (arranged 1 c xs) := by
  rw [productOf_eq, flatMap_factors_eq_self (isProduct_arranged hflat), constants_arranged]
  split
  · rename_i hc
    subst hc
    rw [List.prod_nil, if_neg one_ne_zero, arranged_arranged]
  · rw [List.prod_singleton, if_neg h0, arranged_arranged]

/-! ## What passes through the constructors -/

/-- **A property of a sum**: constants have it, so do the terms of the operands, and a sum has it if its
terms do. -/
theorem sumOf_induction {P : Expr → Prop} {xs : List Expr} (hconst : ∀ q, P (const q))
    (hterms : ∀ x ∈ xs, ∀ t ∈ x.terms, P t) (hsum : ∀ ts, (∀ t ∈ ts, P t) → P (sum ts)) :
    P (sumOf xs) := by
  have hmem : ∀ t ∈ arranged 0 (constants (xs.flatMap terms)).sum (xs.flatMap terms), P t := by
    intro t ht
    rcases mem_arranged ht with ht | ⟨rfl, -⟩
    · obtain ⟨x, hx, htx⟩ := List.mem_flatMap.mp (mem_others.mp ht).1
      exact hterms x hx t htx
    · exact hconst _
  rw [sumOf_eq]
  match arranged 0 (constants (xs.flatMap terms)).sum (xs.flatMap terms), hmem with
  | [], _ => exact hconst 0
  | [t], hmem => exact hmem t List.mem_cons_self
  | _ :: _ :: _, hmem => exact hsum _ hmem

/-- **A property of a product** that follows from what its factors have. -/
theorem productOf_induction {P Q : Expr → Prop} {xs : List Expr} (hPQ : ∀ {e}, P e → Q e)
    (hconst : ∀ q, P (const q)) (hfactors : ∀ x ∈ xs, ∀ f ∈ x.factors, P f)
    (hproduct : ∀ fs, (∀ f ∈ fs, P f) → Q (product fs)) : Q (productOf xs) := by
  have hmem : ∀ f ∈ arranged 1 (constants (xs.flatMap factors)).prod (xs.flatMap factors), P f := by
    intro f hf
    rcases mem_arranged hf with hf | ⟨rfl, -⟩
    · obtain ⟨x, hx, hfx⟩ := List.mem_flatMap.mp (mem_others.mp hf).1
      exact hfactors x hx f hfx
    · exact hconst _
  rw [productOf_eq]
  split
  · exact hPQ (hconst 0)
  · match arranged 1 (constants (xs.flatMap factors)).prod (xs.flatMap factors), hmem with
    | [], _ => exact hPQ (hconst 1)
    | [f], hmem => exact hPQ (hmem f List.mem_cons_self)
    | _ :: _ :: _, hmem => exact hproduct _ hmem

/-- On the expressions with `P`, a number that adds up over the terms of a sum. -/
structure AddsUp (P : Expr → Prop) (φ : Expr → Rat) : Prop where
  const : ∀ q, P (const q) ∧ φ (const q) = q
  of_sum : ∀ {ts}, P (sum ts) → (∀ t ∈ ts, P t) ∧ φ (sum ts) = (ts.map φ).sum
  sum : ∀ {ts}, (∀ t ∈ ts, P t) → P (sum ts)

/-- On the expressions with `P`, a number that multiplies over the factors of a product. -/
structure Multiplies (P : Expr → Prop) (φ : Expr → Rat) : Prop where
  const : ∀ q, P (const q) ∧ φ (const q) = q
  of_product : ∀ {fs}, P (product fs) → (∀ f ∈ fs, P f) ∧ φ (product fs) = (fs.map φ).prod
  product : ∀ {fs}, (∀ f ∈ fs, P f) → P (product fs)

section Measures

variable {P : Expr → Prop} {φ : Expr → Rat} {e : Expr} {xs : List Expr}

theorem AddsUp.of_terms (h : AddsUp P φ) (he : P e) :
    (∀ t ∈ e.terms, P t) ∧ (e.terms.map φ).sum = φ e := by
  cases hs : e.isSum
  · rw [terms_eq_self hs, List.map_singleton, List.sum_singleton]
    exact ⟨List.forall_mem_singleton.mpr he, rfl⟩
  · obtain ⟨ts, rfl⟩ := exists_of_isSum hs
    obtain ⟨hts, heq⟩ := h.of_sum he
    exact ⟨hts, heq.symm⟩

theorem Multiplies.of_factors (h : Multiplies P φ) (he : P e) :
    (∀ f ∈ e.factors, P f) ∧ (e.factors.map φ).prod = φ e := by
  cases hp : e.isProduct
  · rw [factors_eq_self hp, List.map_singleton, List.prod_singleton]
    exact ⟨List.forall_mem_singleton.mpr he, rfl⟩
  · obtain ⟨fs, rfl⟩ := exists_of_isProduct hp
    obtain ⟨hfs, heq⟩ := h.of_product he
    exact ⟨hfs, heq.symm⟩

theorem AddsUp.flatMap_terms (h : AddsUp P φ) (hxs : ∀ x ∈ xs, P x) :
    ((xs.flatMap terms).map φ).sum = (xs.map φ).sum := by
  induction xs with
  | nil => rfl
  | cons x xs ih =>
    obtain ⟨hx, hxs⟩ := List.forall_mem_cons.mp hxs
    rw [List.flatMap_cons, List.map_append, List.sum_append, (h.of_terms hx).2, ih hxs,
      List.map_cons, List.sum_cons]

theorem Multiplies.flatMap_factors (h : Multiplies P φ) (hxs : ∀ x ∈ xs, P x) :
    ((xs.flatMap factors).map φ).prod = (xs.map φ).prod := by
  induction xs with
  | nil => rfl
  | cons x xs ih =>
    obtain ⟨hx, hxs⟩ := List.forall_mem_cons.mp hxs
    rw [List.flatMap_cons, List.map_append, List.prod_append, (h.of_factors hx).2, ih hxs,
      List.map_cons, List.prod_cons]

theorem map_map_const (hconst : ∀ q, φ (const q) = q) (qs : List Rat) :
    (qs.map const).map φ = qs := by
  rw [List.map_map]
  exact (List.map_congr_left fun q _ => hconst q).trans (List.map_id _)

/-- Operands split into constants and others. -/
theorem AddsUp.others_constants (h : AddsUp P φ) (xs : List Expr) :
    ((others xs).map φ).sum + (constants xs).sum = (xs.map φ).sum := by
  rw [← ((others_constants_perm xs).map φ).sum_eq, List.map_append, List.sum_append,
    map_map_const fun q => (h.const q).2]

theorem AddsUp.arranged (h : AddsUp P φ) (xs : List Expr) :
    ((arranged 0 (constants xs).sum xs).map φ).sum = (xs.map φ).sum := by
  rw [← h.others_constants xs, Expr.arranged, ((sort_perm _).map φ).sum_eq]
  split
  · rename_i h0
    rw [h0, add_zero]
  · rw [List.map_append, List.sum_append, List.map_singleton, List.sum_singleton, (h.const _).2]

theorem Multiplies.others_constants (h : Multiplies P φ) (xs : List Expr) :
    ((others xs).map φ).prod * (constants xs).prod = (xs.map φ).prod := by
  rw [← ((others_constants_perm xs).map φ).prod_eq, List.map_append, List.prod_append,
    map_map_const fun q => (h.const q).2]

theorem Multiplies.arranged (h : Multiplies P φ) (xs : List Expr) :
    ((arranged 1 (constants xs).prod xs).map φ).prod = (xs.map φ).prod := by
  rw [← h.others_constants xs, Expr.arranged, ((sort_perm _).map φ).prod_eq]
  split
  · rename_i h1
    rw [h1, mul_one]
  · rw [List.map_append, List.prod_append, List.map_singleton, List.prod_singleton, (h.const _).2]

/-- **The number of a canonical sum** is the sum of the numbers of the operands. -/
theorem AddsUp.sumOf (h : AddsUp P φ) (hxs : ∀ x ∈ xs, P x) :
    P (sumOf xs) ∧ φ (sumOf xs) = (xs.map φ).sum := by
  have hP : P (Expr.sumOf xs) := sumOf_induction (fun q => (h.const q).1)
    (fun x hx => (h.of_terms (hxs x hx)).1) fun _ => h.sum
  refine ⟨hP, ?_⟩
  rw [← h.flatMap_terms hxs, ← h.arranged]
  rw [sumOf_eq] at hP ⊢
  revert hP
  match Expr.arranged 0 (constants (xs.flatMap terms)).sum (xs.flatMap terms) with
  | [] => exact fun _ => (h.const 0).2
  | [t] => exact fun _ => List.sum_singleton.symm
  | _ :: _ :: _ => exact fun hP => (h.of_sum hP).2

/-- **The number of a canonical product** is the product of the numbers of the operands. -/
theorem Multiplies.productOf (h : Multiplies P φ) (hxs : ∀ x ∈ xs, P x) :
    P (productOf xs) ∧ φ (productOf xs) = (xs.map φ).prod := by
  have hP : P (Expr.productOf xs) := productOf_induction id (fun q => (h.const q).1)
    (fun x hx => (h.of_factors (hxs x hx)).1) fun _ => h.product
  refine ⟨hP, ?_⟩
  rw [← h.flatMap_factors hxs]
  rw [productOf_eq] at hP ⊢
  split
  · rename_i h0
    rw [← h.others_constants, h0, mul_zero]
    exact (h.const 0).2
  · rename_i h0
    rw [if_neg h0] at hP
    rw [← h.arranged]
    revert hP
    match Expr.arranged 1 (constants (xs.flatMap factors)).prod (xs.flatMap factors) with
    | [] => exact fun _ => (h.const 1).2
    | [f] => exact fun _ => List.prod_singleton.symm
    | _ :: _ :: _ => exact fun hP => (h.of_product hP).2

end Measures

/-! ## Sums and products have two operands or more -/

theorem ofTerms_of_two_le : ∀ {xs : List Expr}, 2 ≤ xs.length → ofTerms xs = sum xs
  | _ :: _ :: _, _ => rfl

theorem ofFactors_of_two_le : ∀ {xs : List Expr}, 2 ≤ xs.length → ofFactors xs = product xs
  | _ :: _ :: _, _ => rfl

/-- Several factors that are neither constants nor products are sorted. -/
theorem productOf_eq_product {xs : List Expr} (hconst : constants xs = [])
    (hflat : ∀ x ∈ xs, x.isProduct = false) (hlength : 2 ≤ xs.length) :
    productOf xs = product (sort xs) := by
  rw [productOf_eq, flatMap_factors_eq_self hflat, hconst, List.prod_nil, if_neg one_ne_zero,
    arranged, if_pos rfl, others_eq_self hconst]
  exact ofFactors_of_two_le (by rwa [(sort_perm xs).length_eq])

theorem ofTerms_eq_sum {xs ts : List Expr} (h : ofTerms xs = sum ts) (hxs : sum ts ∉ xs) :
    xs = ts ∧ 2 ≤ ts.length := by
  match xs, h with
  | [], h => cases h
  | [x], h =>
    rw [ofTerms] at h
    subst h
    simp at hxs
  | _ :: _ :: _, h =>
    cases h
    exact ⟨rfl, by simp⟩

theorem ofFactors_eq_product {xs fs : List Expr} (h : ofFactors xs = product fs)
    (hxs : product fs ∉ xs) : xs = fs ∧ 2 ≤ fs.length := by
  match xs, h with
  | [], h => cases h
  | [x], h =>
    rw [ofFactors] at h
    subst h
    simp at hxs
  | _ :: _ :: _, h =>
    cases h
    exact ⟨rfl, by simp⟩

/-- A sum is no operand of its own terms, so it is not what a single term collapses to. -/
theorem sum_notMem_terms {ts : List Expr} : sum ts ∉ ts.flatMap terms := by
  intro h
  obtain ⟨t, ht, hts⟩ := List.mem_flatMap.mp h
  have h₁ := size_le_sizeList ht
  have h₂ := Nat.le_trans (size_le_sizeList hts) (sizeList_terms_le t)
  rw [size] at h₂
  omega

theorem product_notMem_factors {fs : List Expr} : product fs ∉ fs.flatMap factors := by
  intro h
  obtain ⟨f, hf, hfs⟩ := List.mem_flatMap.mp h
  have h₁ := size_le_sizeList hf
  have h₂ := Nat.le_trans (size_le_sizeList hfs) (sizeList_factors_le f)
  rw [size] at h₂
  omega

theorem arranged_of_sumOf {ts : List Expr} (h : sumOf ts = sum ts) :
    arranged 0 (constants (ts.flatMap terms)).sum (ts.flatMap terms) = ts ∧ 2 ≤ ts.length := by
  rw [sumOf_eq] at h
  refine ofTerms_eq_sum h fun hmem => ?_
  rcases mem_arranged hmem with hmem | ⟨hmem, -⟩
  · exact sum_notMem_terms (mem_others.mp hmem).1
  · cases hmem

theorem arranged_of_productOf {fs : List Expr} (h : productOf fs = product fs) :
    (constants (fs.flatMap factors)).prod ≠ 0 ∧
      arranged 1 (constants (fs.flatMap factors)).prod (fs.flatMap factors) = fs ∧
      2 ≤ fs.length := by
  rw [productOf_eq] at h
  split at h
  · cases h
  · rename_i h0
    refine ⟨h0, ofFactors_eq_product h fun hmem => ?_⟩
    rcases mem_arranged hmem with hmem | ⟨hmem, -⟩
    · exact product_notMem_factors (mem_others.mp hmem).1
    · cases hmem

/-! ## Constructed expressions -/

/-- Every sum, product and set is what its constructor gives back from its own operands. -/
inductive Constructed : Expr → Prop
  | const (q : Rat) : Constructed (const q)
  | var (n : String) (c : Option Condition) : Constructed (var n c)
  | sum {ts : List Expr} : (∀ t ∈ ts, Constructed t) → sumOf ts = sum ts → Constructed (sum ts)
  | product {fs : List Expr} :
    (∀ f ∈ fs, Constructed f) → productOf fs = product fs → Constructed (product fs)
  | binary (op : BinaryOp) {l r : Expr} :
    Constructed l → Constructed r → Constructed (binary op l r)
  | not {a : Expr} : Constructed a → Constructed (not a)
  | call (f : Function) {args : List Expr} :
    (∀ a ∈ args, Constructed a) → Constructed (call f args)
  | set {ms : List Expr} : (∀ m ∈ ms, Constructed m) → setOf ms = set ms → Constructed (set ms)

theorem Constructed.of_terms {e : Expr} (h : Constructed e) : ∀ t ∈ e.terms, Constructed t := by
  refine forall_mem_terms h fun ts h => ?_
  cases h with
  | sum h _ => exact h

theorem Constructed.of_factors {e : Expr} (h : Constructed e) :
    ∀ f ∈ e.factors, Constructed f := by
  refine forall_mem_factors h fun fs h => ?_
  cases h with
  | product h _ => exact h

theorem Constructed.of_binary {op : BinaryOp} {l r : Expr} (h : Constructed (.binary op l r)) :
    Constructed l ∧ Constructed r := by
  cases h with
  | binary _ hl hr => exact ⟨hl, hr⟩

theorem Constructed.of_base {e : Expr} (h : Constructed e) : Constructed e.base := by
  cases hp : e.isPower
  · rwa [base_eq_self hp]
  · obtain ⟨b, x, rfl⟩ := exists_of_isPower hp
    exact h.of_binary.1

theorem Constructed.of_exponent {e : Expr} (h : Constructed e) : Constructed e.exponent := by
  cases hp : e.isPower
  · rw [exponent_eq_one hp]
    exact .const 1
  · obtain ⟨b, x, rfl⟩ := exists_of_isPower hp
    exact h.of_binary.2

theorem Constructed.of_operands {e : Expr} (h : Constructed e) :
    ∀ x ∈ e.operands, Constructed x := by
  cases h with
  | binary _ hl hr => simpa [operands] using ⟨hl, hr⟩
  | not ha => simpa [operands] using ha
  | call _ hargs => exact hargs
  | set hms _ => exact hms
  | _ => simp [operands]

theorem Constructed.two_le_terms {ts : List Expr} (h : Constructed (.sum ts)) :
    2 ≤ ts.length := by
  cases h with
  | sum _ h => exact (arranged_of_sumOf h).2

theorem Constructed.two_le_factors {fs : List Expr} (h : Constructed (.product fs)) :
    2 ≤ fs.length := by
  cases h with
  | product _ h => exact (arranged_of_productOf h).2.2

/-- The terms of a constructed expression are no sums. -/
theorem Constructed.flat_terms {e : Expr} (h : Constructed e) :
    ∀ t ∈ e.terms, t.isSum = false := by
  induction h with
  | @sum ts _ heq ih =>
    intro t ht
    rw [terms, ← (arranged_of_sumOf heq).1] at ht
    rcases mem_arranged ht with ht | ⟨rfl, -⟩
    · obtain ⟨u, hu, htu⟩ := List.mem_flatMap.mp (mem_others.mp ht).1
      exact ih u hu t htu
    · rfl
  | _ => simp [terms, isSum]

/-- The factors of a constructed expression are no products. -/
theorem Constructed.flat_factors {e : Expr} (h : Constructed e) :
    ∀ f ∈ e.factors, f.isProduct = false := by
  induction h with
  | @product fs _ heq ih =>
    intro f hf
    rw [factors, ← (arranged_of_productOf heq).2.1] at hf
    rcases mem_arranged hf with hf | ⟨rfl, -⟩
    · obtain ⟨g, hg, hfg⟩ := List.mem_flatMap.mp (mem_others.mp hf).1
      exact ih g hg f hfg
    · rfl
  | _ => simp [factors, isProduct]

/-! ### The constructors -/

theorem constructed_flatMap_terms {xs : List Expr} (h : ∀ x ∈ xs, Constructed x) :
    ∀ t ∈ xs.flatMap terms, Constructed t ∧ t.isSum = false := by
  intro t ht
  obtain ⟨x, hx, htx⟩ := List.mem_flatMap.mp ht
  exact ⟨(h x hx).of_terms t htx, (h x hx).flat_terms t htx⟩

theorem constructed_flatMap_factors {xs : List Expr} (h : ∀ x ∈ xs, Constructed x) :
    ∀ f ∈ xs.flatMap factors, Constructed f ∧ f.isProduct = false := by
  intro f hf
  obtain ⟨x, hx, hfx⟩ := List.mem_flatMap.mp hf
  exact ⟨(h x hx).of_factors f hfx, (h x hx).flat_factors f hfx⟩

theorem constructed_arranged {neutral c : Rat} {xs : List Expr} (h : ∀ x ∈ xs, Constructed x) :
    ∀ x ∈ arranged neutral c xs, Constructed x := by
  intro x hx
  rcases mem_arranged hx with hx | ⟨rfl, -⟩
  · exact h x (mem_others.mp hx).1
  · exact .const c

/-- **A sum of constructed expressions is constructed.** -/
theorem constructed_sumOf {xs : List Expr} (h : ∀ x ∈ xs, Constructed x) :
    Constructed (sumOf xs) := by
  have ht := constructed_flatMap_terms h
  rw [sumOf_eq]
  generalize (constants (xs.flatMap terms)).sum = c
  have hmem : ∀ t ∈ arranged 0 c (xs.flatMap terms), Constructed t :=
    constructed_arranged fun t hx => (ht t hx).1
  have hsum : sumOf (arranged 0 c (xs.flatMap terms)) = ofTerms (arranged 0 c (xs.flatMap terms)) :=
    sumOf_arranged fun t hx => (ht t hx).2
  revert hmem hsum
  match arranged 0 c (xs.flatMap terms) with
  | [] => exact fun _ _ => .const 0
  | [t] => exact fun hmem _ => hmem t (by simp)
  | _ :: _ :: _ => exact fun hmem hsum => .sum hmem hsum

/-- **A product of constructed expressions is constructed.** -/
theorem constructed_productOf {xs : List Expr} (h : ∀ x ∈ xs, Constructed x) :
    Constructed (productOf xs) := by
  have hf := constructed_flatMap_factors h
  rw [productOf_eq]
  split
  · exact .const 0
  · rename_i h0
    have hproduct := productOf_arranged (fun f hx => (hf f hx).2) h0
    revert hproduct
    generalize (constants (xs.flatMap factors)).prod = c
    have hmem : ∀ f ∈ arranged 1 c (xs.flatMap factors), Constructed f :=
      constructed_arranged fun f hx => (hf f hx).1
    revert hmem
    match arranged 1 c (xs.flatMap factors) with
    | [] => exact fun _ _ => .const 1
    | [f] => exact fun hmem _ => hmem f (by simp)
    | _ :: _ :: _ => exact fun hmem hproduct => .product hmem hproduct

/-! ### The operands of a sum or product -/

theorem others_arranged (neutral c : Rat) (xs : List Expr) :
    (others (arranged neutral c xs)).Perm (others xs) := by
  rw [arranged]
  refine (others_perm (sort_perm _)).trans ?_
  have hidem : others (others xs) = others xs := by simp [others]
  split
  · rw [hidem]
  · rw [others_append, hidem, others_const, others_nil, List.append_nil]

/-- The terms of a collapsed list of flat terms, up to a zero. -/
theorem terms_ofTerms {ts : List Expr} (h : ∀ t ∈ ts, t.isSum = false) :
    others (ofTerms ts).terms = others ts ∧
      (constants (ofTerms ts).terms).sum = (constants ts).sum := by
  match ts, h with
  | [], _ => exact ⟨rfl, by simp [ofTerms, terms, zero]⟩
  | [t], h =>
    rw [ofTerms, terms_eq_self (h t (by simp))]
    exact ⟨rfl, rfl⟩
  | _ :: _ :: _, _ => exact ⟨rfl, rfl⟩

theorem factors_ofFactors {fs : List Expr} (h : ∀ f ∈ fs, f.isProduct = false) :
    others (ofFactors fs).factors = others fs ∧
      (constants (ofFactors fs).factors).prod = (constants fs).prod := by
  match fs, h with
  | [], _ => exact ⟨rfl, by simp [ofFactors, factors, one]⟩
  | [f], h =>
    rw [ofFactors, factors_eq_self (h f (by simp))]
    exact ⟨rfl, rfl⟩
  | _ :: _ :: _, _ => exact ⟨rfl, rfl⟩

theorem others_terms_sumOf {xs : List Expr} (h : ∀ x ∈ xs, Constructed x) :
    (others (sumOf xs).terms).Perm (others (xs.flatMap terms)) := by
  rw [sumOf_eq, (terms_ofTerms (isSum_arranged fun t ht => (constructed_flatMap_terms h t ht).2)).1]
  exact others_arranged _ _ _

theorem constants_terms_sumOf {xs : List Expr} (h : ∀ x ∈ xs, Constructed x) :
    (constants (sumOf xs).terms).sum = (constants (xs.flatMap terms)).sum := by
  rw [sumOf_eq, (terms_ofTerms (isSum_arranged fun t ht => (constructed_flatMap_terms h t ht).2)).2,
    constants_arranged]
  split
  · rename_i hc
    rw [hc, List.sum_nil]
  · rw [List.sum_singleton]

theorem others_factors_productOf {xs : List Expr} (h : ∀ x ∈ xs, Constructed x)
    (h0 : (constants (xs.flatMap factors)).prod ≠ 0) :
    (others (productOf xs).factors).Perm (others (xs.flatMap factors)) := by
  rw [productOf_eq, if_neg h0,
    (factors_ofFactors (isProduct_arranged fun f hf => (constructed_flatMap_factors h f hf).2)).1]
  exact others_arranged _ _ _

theorem constants_factors_productOf {xs : List Expr} (h : ∀ x ∈ xs, Constructed x) :
    (constants (productOf xs).factors).prod = (constants (xs.flatMap factors)).prod := by
  rw [productOf_eq]
  split
  · rename_i h0
    rw [h0]
    simp [zero, factors]
  · rw [(factors_ofFactors
        (isProduct_arranged fun f hf => (constructed_flatMap_factors h f hf).2)).2,
      constants_arranged]
    split
    · rename_i hc
      rw [hc, List.prod_nil]
    · rw [List.prod_singleton]

/-- A sum has one constant at most, and only the empty sum is `0`. -/
theorem Constructed.constants_terms {e : Expr} (h : Constructed e) :
    constants e.terms = [] ∨ ∃ c, constants e.terms = [c] ∧ (c = 0 → e = zero) := by
  cases hs : e.isSum
  · rw [terms_eq_self hs]
    cases hc : e.isConst
    · exact Or.inl (constants_cons hc [])
    · obtain ⟨q, rfl⟩ := exists_of_isConst hc
      exact Or.inr ⟨q, rfl, fun h0 => by rw [h0]; rfl⟩
  · obtain ⟨ts, rfl⟩ := exists_of_isSum hs
    cases h with
    | sum _ heq =>
      have hconstants := constants_arranged 0 (constants (ts.flatMap terms)).sum (ts.flatMap terms)
      rw [(arranged_of_sumOf heq).1] at hconstants
      split at hconstants
      · exact Or.inl hconstants
      · rename_i h0
        exact Or.inr ⟨_, hconstants, fun h => absurd h h0⟩

/-- A constructed expression is the sum of its terms. -/
theorem Constructed.sumOf_terms {e : Expr} (h : Constructed e) : sumOf e.terms = e := by
  cases hs : e.isSum
  · rw [terms_eq_self hs, sumOf_eq, List.flatMap_singleton, terms_eq_self hs]
    cases hc : e.isConst
    · rw [constants_cons hc, constants_nil, List.sum_nil, arranged, if_pos rfl, others_cons hc]
      rfl
    · obtain ⟨q, rfl⟩ := exists_of_isConst hc
      rw [constants_const, constants_nil, List.sum_singleton, arranged]
      split
      · rename_i hq
        rw [hq]
        rfl
      · rfl
  · obtain ⟨ts, rfl⟩ := exists_of_isSum hs
    cases h with
    | sum _ h => exact h

/-- A constructed expression is the product of its factors. -/
theorem Constructed.productOf_factors {e : Expr} (h : Constructed e) :
    productOf e.factors = e := by
  cases hp : e.isProduct
  · rw [factors_eq_self hp, productOf_eq, List.flatMap_singleton, factors_eq_self hp]
    cases hc : e.isConst
    · rw [constants_cons hc, constants_nil, List.prod_nil, if_neg one_ne_zero, arranged,
        if_pos rfl, others_cons hc]
      rfl
    · obtain ⟨q, rfl⟩ := exists_of_isConst hc
      rw [constants_const, constants_nil, List.prod_singleton, arranged]
      split
      · rename_i hq
        rw [hq]
        rfl
      · split
        · rename_i hq
          rw [hq]
          rfl
        · rfl
  · obtain ⟨fs, rfl⟩ := exists_of_isProduct hp
    cases h with
    | product _ h => exact h

theorem Constructed.sumOf_singleton {e : Expr} (h : Constructed e) : Expr.sumOf [e] = e := by
  have heq : Expr.sumOf [e] = Expr.sumOf e.terms := by
    rw [sumOf_eq, sumOf_eq, List.flatMap_singleton, flatMap_terms_eq_self h.flat_terms]
  rw [heq, h.sumOf_terms]

theorem Constructed.productOf_singleton {e : Expr} (h : Constructed e) :
    Expr.productOf [e] = e := by
  have heq : Expr.productOf [e] = Expr.productOf e.factors := by
    rw [productOf_eq, productOf_eq, List.flatMap_singleton, flatMap_factors_eq_self h.flat_factors]
  rw [heq, h.productOf_factors]

theorem sumOf_const_const (p q : Rat) : sumOf [const p, const q] = const (p + q) := by
  rw [sumOf_eq]
  simp only [List.flatMap_cons, List.flatMap_nil, terms_const, List.append_nil,
    List.singleton_append, constants_const, constants_nil, List.sum_cons, List.sum_nil, add_zero,
    arranged, others_const, others_nil, List.nil_append]
  split
  · next h0 =>
    rw [h0]
    rfl
  · rfl

theorem productOf_const_const (p q : Rat) : productOf [const p, const q] = const (p * q) := by
  rw [productOf_eq]
  simp only [List.flatMap_cons, List.flatMap_nil, factors_const, List.append_nil,
    List.singleton_append, constants_const, constants_nil, List.prod_cons, List.prod_nil, mul_one,
    arranged, others_const, others_nil, List.nil_append]
  split
  · rename_i h0
    rw [h0]
    rfl
  · split
    · rename_i h1
      rw [h1]
      rfl
    · rfl

theorem productOf_zero_cons (xs : List Expr) : productOf (const 0 :: xs) = const 0 := by
  have hzero : (constants ((const 0 :: xs).flatMap factors)).prod = 0 := by
    rw [List.flatMap_cons, factors_const, List.singleton_append, constants_const, List.prod_cons,
      zero_mul]
  rw [productOf_eq, if_pos hzero, zero]

theorem minus_one : (-1 : Expr) = const (-1) :=
  (productOf_const_const (-1) 1).trans (congrArg const (mul_one (-1)))

theorem const_sub_one (q : Rat) : (const q - 1 : Expr) = const (q - 1) := by
  change sumOf [const q, productOf [const (-1), const 1]] = _
  rw [productOf_const_const, sumOf_const_const, mul_one, ← sub_eq_add_neg]

/-! ### Sets -/

theorem dropRepeats_sublist (xs : List Expr) : (dropRepeats xs).Sublist xs := by
  fun_induction dropRepeats xs with
  | case1 x y ys _ ih => exact ih.trans ((List.sublist_cons_self y ys).cons_cons x)
  | case2 x y ys _ ih => exact ih.cons_cons x
  | case3 xs _ => exact List.Sublist.refl xs

theorem dropRepeats_head (x : Expr) (xs : List Expr) :
    ∃ ys, dropRepeats (x :: xs) = x :: ys := by
  induction xs with
  | nil => exact ⟨[], by rw [dropRepeats]; simp⟩
  | cons y ys ih =>
    rw [dropRepeats]
    split
    · exact ih
    · exact ⟨_, rfl⟩

theorem dropRepeats_dropRepeats (xs : List Expr) :
    dropRepeats (dropRepeats xs) = dropRepeats xs := by
  fun_induction dropRepeats xs with
  | case1 x y ys _ ih => exact ih
  | case2 x y ys h ih =>
    obtain ⟨zs, hzs⟩ := dropRepeats_head y ys
    rw [hzs] at ih ⊢
    rw [dropRepeats, if_neg h, ih]
  | case3 xs h => rw [dropRepeats]; exact h

/-- **A set of constructed expressions is constructed.** -/
theorem constructed_setOf {xs : List Expr} (h : ∀ x ∈ xs, Constructed x) :
    Constructed (setOf xs) := by
  refine .set (fun x hx => h x (mem_sort.mp ((dropRepeats_sublist _).subset hx))) ?_
  rw [setOf, sort_eq_of_sorted ((sort_sorted xs).sublist (dropRepeats_sublist _)),
    dropRepeats_dropRepeats]

/-! ### Over built-in functions -/

/-- Constructed, over built-in functions. -/
structure Proper (e : Expr) : Prop where
  constructed : Constructed e
  builtIn : e.builtIn = true

theorem Proper.const (q : Rat) : Proper (.const q) := ⟨.const q, rfl⟩

theorem Proper.symbol (x : String) : Proper (symbol x) := ⟨.var x none, rfl⟩

theorem Proper.of_terms {e : Expr} (h : Proper e) : ∀ t ∈ e.terms, Proper t :=
  forall_mem_terms h fun ts h t ht =>
    ⟨h.constructed.of_terms t ht, (builtIn_sum ts).mp h.builtIn t ht⟩

theorem Proper.of_factors {e : Expr} (h : Proper e) : ∀ f ∈ e.factors, Proper f :=
  forall_mem_factors h fun fs h f hf =>
    ⟨h.constructed.of_factors f hf, (builtIn_product fs).mp h.builtIn f hf⟩

theorem Proper.power {b e : Expr} (hb : Proper b) (he : Proper e) : Proper (b.power e) :=
  ⟨.binary _ hb.constructed he.constructed, (builtIn_binary _ b e).mpr ⟨hb.builtIn, he.builtIn⟩⟩

theorem Proper.call {f : Function} {args : List Expr} (hf : f.isBuiltIn = true)
    (h : ∀ a ∈ args, Proper a) : Proper (.call f args) :=
  ⟨.call f fun a ha => (h a ha).constructed,
    (builtIn_call f args).mpr ⟨hf, fun a ha => (h a ha).builtIn⟩⟩

theorem proper_sumOf {xs : List Expr} (h : ∀ x ∈ xs, Proper x) : Proper (sumOf xs) := by
  refine ⟨constructed_sumOf fun x hx => (h x hx).constructed, ?_⟩
  exact sumOf_induction (fun _ => rfl) (fun x hx t ht => ((h x hx).of_terms t ht).builtIn)
    fun ts => (builtIn_sum ts).mpr

theorem proper_productOf {xs : List Expr} (h : ∀ x ∈ xs, Proper x) : Proper (productOf xs) := by
  refine ⟨constructed_productOf fun x hx => (h x hx).constructed, ?_⟩
  exact productOf_induction id (fun _ => rfl)
    (fun x hx f hf => ((h x hx).of_factors f hf).builtIn) fun fs => (builtIn_product fs).mpr

end SymbolicAlgebra.Expr
