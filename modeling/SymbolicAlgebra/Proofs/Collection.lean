import SymbolicAlgebra.Proofs.Agreement
import SymbolicAlgebra.Proofs.Tally

/-!
# Collecting like terms and like bases

A term that is no constant is a nonzero multiple of an expression without a constant factor, in
exactly one way (`Primitive.split_scaled`, `Constructed.scaled_split`). `collect` totals the
coefficients of each such expression; `Bases.ofFactors` does the same for the exponents of each base.
Canonical keys that compare equal are the same, so for canonical terms (whose parts are then `Monic`)
the totals determine the result.

Results:
* `collect_eq`, `Bases.product_eq`: both as a constructor applied to the entries of a tally.
* `splits_terms_collect_perm`: the terms of the collected sum are the like terms, unless one of them is
  a multiple of a sum.
* `collect_congr`: collecting depends on the coefficients and the total of the constants only.
* `collect_of_nodup`: terms with distinct monic parts stay as they are.
-/

namespace SymbolicAlgebra

namespace Expr

/-! ## Operands of what the constructors build -/

theorem mem_terms_sumOf {t : Expr} {xs : List Expr} (h : ∀ x ∈ xs, Canonical x)
    (ht : t ∈ (sumOf xs).terms) :
    t.isConst = true ∨ (t.isConst = false ∧ ∃ x ∈ xs, t ∈ x.terms) := by
  cases hc : t.isConst
  · have hmem := (others_terms_sumOf (constructed_of_canonical h)).mem_iff.mp (mem_others.mpr ⟨ht, hc⟩)
    exact Or.inr ⟨rfl, List.mem_flatMap.mp (mem_others.mp hmem).1⟩
  · exact Or.inl rfl

theorem mem_factors_productOf {f : Expr} {xs : List Expr} (h : ∀ x ∈ xs, Canonical x)
    (hf : f ∈ (productOf xs).factors) :
    f.isConst = true ∨ (f.isConst = false ∧ ∃ x ∈ xs, f ∈ x.factors) := by
  cases hc : f.isConst
  · refine Or.inr ⟨rfl, ?_⟩
    by_cases h0 : (constants (xs.flatMap factors)).prod = 0
    · rw [productOf_eq, if_pos h0] at hf
      rw [List.mem_singleton.mp hf] at hc
      cases hc
    · have hmem := (others_factors_productOf (constructed_of_canonical h) h0).mem_iff.mp
        (mem_others.mpr ⟨hf, hc⟩)
      exact List.mem_flatMap.mp (mem_others.mp hmem).1
  · exact Or.inl rfl

/-! ## Constant factors -/

theorem takeConst_cons {f : Expr} (hf : f.isConst = false) (fs : List Expr) :
    takeConst (f :: fs) = (takeConst fs).map fun p => (p.1, f :: p.2) := by
  cases f with
  | const q => cases hf
  | _ => rfl

theorem takeConst_some {fs rest : List Expr} {q : Rat} (h : takeConst fs = some (q, rest)) :
    fs.Perm (const q :: rest) := by
  induction fs generalizing rest with
  | nil => cases h
  | cons f fs ih =>
    cases hf : f.isConst
    · rw [takeConst_cons hf, Option.map_eq_some_iff] at h
      obtain ⟨⟨q', rest'⟩, hrest, heq⟩ := h
      cases heq
      exact ((ih hrest).cons f).trans (List.Perm.swap _ _ _)
    · obtain ⟨p, rfl⟩ := exists_of_isConst hf
      cases h
      exact List.Perm.refl _

theorem takeConst_eq_none {fs : List Expr} (h : constants fs = []) : takeConst fs = none := by
  cases htake : takeConst fs with
  | none => rfl
  | some p =>
    have hperm := constants_perm (takeConst_some htake)
    rw [h, constants_const] at hperm
    exact absurd hperm.symm (List.cons_ne_nil _ _ ∘ List.Perm.eq_nil)

/-- The only constant is taken out. -/
theorem takeConst_eq_some {fs : List Expr} {c : Rat} (h : constants fs = [c]) :
    takeConst fs = some (c, others fs) := by
  induction fs with
  | nil => cases h
  | cons f fs ih =>
    cases hf : f.isConst
    · rw [constants_cons hf] at h
      rw [takeConst_cons hf, ih h, others_cons hf]
      rfl
    · obtain ⟨p, rfl⟩ := exists_of_isConst hf
      rw [constants_const] at h
      obtain ⟨rfl, hnil⟩ := List.cons.inj h
      rw [others_const, others_eq_self hnil]
      rfl

/-- The factors of a constructed expression that is no constant are arranged, and their constant is not
`0`. -/
theorem Constructed.arranged_factors {e : Expr} (h : Constructed e) (hc : e.isConst = false) :
    (constants e.factors).prod ≠ 0 ∧
      arranged 1 (constants e.factors).prod e.factors = e.factors := by
  cases hp : e.isProduct
  · rw [factors_eq_self hp, constants_cons hc, constants_nil, List.prod_nil, arranged, if_pos rfl,
      others_cons hc]
    exact ⟨one_ne_zero, rfl⟩
  · obtain ⟨fs, rfl⟩ := exists_of_isProduct hp
    have hflat : fs.flatMap factors = fs := flatMap_factors_eq_self h.flat_factors
    cases h with
    | product _ heq =>
      obtain ⟨h0, harr, -⟩ := arranged_of_productOf heq
      rw [hflat] at h0 harr
      exact ⟨h0, harr⟩

theorem Constructed.constants_factors {e : Expr} (h : Constructed e) (hc : e.isConst = false) :
    constants e.factors = [] ∨ ∃ c, c ≠ 0 ∧ c ≠ 1 ∧ constants e.factors = [c] := by
  obtain ⟨h0, harr⟩ := h.arranged_factors hc
  have hconstants := constants_arranged 1 (constants e.factors).prod e.factors
  rw [harr] at hconstants
  split at hconstants
  · exact Or.inl hconstants
  · rename_i h1
    exact Or.inr ⟨_, h0, h1, hconstants⟩

/-- The factors of a canonical expression are in normal form, apart from the constant `1`. -/
theorem Canonical.constants_factors {e : Expr} (h : Canonical e) (hc : e.isConst = false) :
    constants e.factors = [] ∨ ∃ c, c ≠ 0 ∧ c ≠ 1 ∧ constants e.factors = [c] :=
  h.constructed.constants_factors hc

theorem Constructed.sort_others_factors {e : Expr} (h : Constructed e) :
    sort (others e.factors) = others e.factors := by
  cases hc : e.isConst
  · rw [← others_arranged_eq 1 (constants e.factors).prod, (h.arranged_factors hc).2]
  · obtain ⟨q, rfl⟩ := exists_of_isConst hc
    rfl

theorem factors_ofFactors_of_ne_nil {fs : List Expr} (h : ∀ f ∈ fs, f.isProduct = false)
    (hne : fs ≠ []) : (ofFactors fs).factors = fs := by
  match fs, h, hne with
  | [f], h, _ => exact factors_eq_self (h f (by simp))
  | _ :: _ :: _, _, _ => rfl

/-- An expression is the product of its constant factor and its other factors. -/
theorem Canonical.productOf_constant_others {e : Expr} (h : Canonical e) :
    productOf (Expr.const (constants e.factors).prod :: others e.factors) = e := by
  have hcons : ∀ g ∈ Expr.const (constants e.factors).prod :: others e.factors, g.isProduct = false :=
    List.forall_mem_cons.mpr ⟨rfl, fun g hg => h.flat_factors g (mem_others.mp hg).1⟩
  refine (productOf_congr ?_ ?_ ?_).trans h.productOf_factors
  · exact List.forall_mem_cons.mpr ⟨.const _, canonical_others h.of_factors⟩
  · rw [flatMap_factors_eq_self hcons, flatMap_factors_eq_self h.flat_factors, others_const,
      others_eq_self (constants_others e.factors)]
  · rw [flatMap_factors_eq_self hcons, flatMap_factors_eq_self h.flat_factors, constants_const,
      constants_others, List.prod_singleton]

/-! ## Coefficients -/

/-- Constructed, no constant and without a constant factor: what a term is a multiple of. -/
structure Primitive (e : Expr) : Prop where
  constructed : Constructed e
  notConst : e.isConst = false
  noConstFactor : constants e.factors = []

/-- Canonical, no constant and without a constant factor. -/
structure Monic (e : Expr) : Prop where
  canonical : Canonical e
  notConst : e.isConst = false
  noConstFactor : constants e.factors = []

theorem Monic.primitive {e : Expr} (h : Monic e) : Primitive e :=
  ⟨h.canonical.constructed, h.notConst, h.noConstFactor⟩

/-- **The coefficient of a term is its constant factor**, and the rest is the product of the other
factors. -/
theorem splitCoefficient_eq {t : Expr} (h : Constructed t) :
    splitCoefficient t = ((constants t.factors).prod, productOf (others t.factors)) := by
  unfold splitCoefficient
  cases hc : t.isConst
  · rcases h.constants_factors hc with hnil | ⟨c, -, -, hsingle⟩
    · rw [takeConst_eq_none hnil, hnil, others_eq_self hnil, h.productOf_factors, List.prod_nil]
    · rw [takeConst_eq_some hsingle, hsingle, List.prod_singleton]
  · obtain ⟨q, rfl⟩ := exists_of_isConst hc
    rw [factors_const, constants_const, constants_nil, List.prod_singleton]
    rfl

theorem Constructed.others_factors_ne_nil {e : Expr} (h : Constructed e) (hc : e.isConst = false) :
    others e.factors ≠ [] := by
  intro hnil
  have heq := h.productOf_factors
  rw [← (h.arranged_factors hc).2, arranged, hnil] at heq
  split at heq
  · rw [← heq] at hc
    cases hc
  · have hsort (q : Rat) : sort ([] ++ [Expr.const q]) = [Expr.const q] := rfl
    rw [← heq, hsort, (Constructed.const _).productOf_singleton] at hc
    cases hc

theorem Constructed.factors_productOf_others {e : Expr} (h : Constructed e)
    (hc : e.isConst = false) : (productOf (others e.factors)).factors = others e.factors := by
  have hflat : ∀ f ∈ others e.factors, f.isProduct = false := fun f hf =>
    h.flat_factors f (mem_others.mp hf).1
  have hnil := constants_others e.factors
  rw [productOf_eq, flatMap_factors_eq_self hflat, hnil, List.prod_nil, if_neg one_ne_zero, arranged,
    if_pos rfl, others_eq_self hnil, h.sort_others_factors]
  exact factors_ofFactors_of_ne_nil hflat (h.others_factors_ne_nil hc)

theorem Constructed.primitive_productOf_others {e : Expr} (h : Constructed e)
    (hc : e.isConst = false) : Primitive (productOf (others e.factors)) := by
  have hconstants : constants (productOf (others e.factors)).factors = [] := by
    rw [h.factors_productOf_others hc, constants_others]
  refine ⟨constructed_productOf fun f hf => h.of_factors f (mem_others.mp hf).1, ?_, hconstants⟩
  cases hq : (productOf (others e.factors)).isConst
  · rfl
  · obtain ⟨q, hq⟩ := exists_of_isConst hq
    rw [hq] at hconstants
    cases hconstants

theorem constructed_scaled {q : Rat} {r : Expr} (hr : Constructed r) : Constructed (scaled q r) := by
  rw [scaled]
  split
  · exact hr
  · exact constructed_productOf (forall_mem_pair (.const q) hr)

/-- The factors of a multiple. -/
theorem Primitive.factors_scaled {q : Rat} {r : Expr} (hr : Primitive r) (h0 : q ≠ 0) :
    (scaled q r).factors = arranged 1 q r.factors := by
  rw [scaled]
  split
  · rename_i h1
    have harr := (hr.constructed.arranged_factors hr.notConst).2
    rw [hr.noConstFactor, List.prod_nil] at harr
    rw [h1, harr]
  · rename_i h1
    have hconstants := constants_arranged 1 q r.factors
    rw [if_neg h1] at hconstants
    have hpair : arranged 1 q ([const q, r].flatMap factors) = arranged 1 q r.factors := by
      simp [arranged]
    rw [productOf_eq, show constants ([const q, r].flatMap factors) = [q] by simp [hr.noConstFactor],
      List.prod_singleton, if_neg h0, hpair]
    refine factors_ofFactors_of_ne_nil (isProduct_arranged hr.constructed.flat_factors) fun hnil => ?_
    rw [hnil] at hconstants
    cases hconstants

/-- **The coefficient and the rest of a multiple are what it was made of.** -/
theorem Primitive.split_scaled {q : Rat} {r : Expr} (hr : Primitive r) (h0 : q ≠ 0) :
    splitCoefficient (scaled q r) = (q, r) := by
  have hprod : (if q = 1 then [] else [q]).prod = q := by
    split
    · rename_i h1
      rw [h1, List.prod_nil]
    · exact List.prod_singleton
  rw [splitCoefficient_eq (constructed_scaled hr.constructed), hr.factors_scaled h0,
    constants_arranged, others_arranged_eq, hr.constructed.sort_others_factors,
    others_eq_self hr.noConstFactor, hr.constructed.productOf_factors, hprod]

theorem isProduct_scaled {q : Rat} {r : Expr} (hr : Primitive r) (h0 : q ≠ 0) (h1 : q ≠ 1) :
    (scaled q r).isProduct = true := by
  by_contra hp
  have hlen := congrArg List.length (hr.factors_scaled h0)
  have hpos := List.length_pos_iff.mpr (hr.constructed.others_factors_ne_nil hr.notConst)
  rw [factors_eq_self (eq_false_of_ne_true hp), arranged, if_neg h1, (sort_perm _).length_eq,
    List.length_append, List.length_singleton, List.length_singleton] at hlen
  omega

theorem isConst_scaled {q : Rat} {r : Expr} (hr : Primitive r) (h0 : q ≠ 0) :
    (scaled q r).isConst = false := by
  by_cases h1 : q = 1
  · rw [scaled, if_pos h1]
    exact hr.notConst
  · obtain ⟨fs, heq⟩ := exists_of_isProduct (isProduct_scaled hr h0 h1)
    rw [heq]
    rfl

theorem isSum_scaled {q : Rat} {r : Expr} (hr : Primitive r) (hs : r.isSum = false) (h0 : q ≠ 0) :
    (scaled q r).isSum = false := by
  by_cases h1 : q = 1
  · rwa [scaled, if_pos h1]
  · obtain ⟨fs, heq⟩ := exists_of_isProduct (isProduct_scaled hr h0 h1)
    rw [heq]
    rfl

/-- **A constructed term that is no constant is a nonzero multiple** of an expression without a constant
factor. -/
theorem Constructed.scaled_split {t : Expr} (ht : Constructed t) (hc : t.isConst = false) :
    Primitive (splitCoefficient t).2 ∧ (splitCoefficient t).1 ≠ 0 ∧
      scaled (splitCoefficient t).1 (splitCoefficient t).2 = t := by
  obtain ⟨h0, harr⟩ := ht.arranged_factors hc
  have hrest := ht.primitive_productOf_others hc
  rw [splitCoefficient_eq ht]
  refine ⟨hrest, h0, ?_⟩
  have hsame : arranged 1 (constants t.factors).prod (others t.factors) = t.factors := by
    rw [arranged, others_eq_self (constants_others t.factors)]
    exact harr
  rw [← (constructed_scaled hrest.constructed).productOf_factors, hrest.factors_scaled h0,
    ht.factors_productOf_others hc, hsame, ht.productOf_factors]

/-- **A canonical term that is no constant is a nonzero multiple of a monic expression.** -/
theorem scaled_split {t : Expr} (ht : Canonical t) (hc : t.isConst = false) :
    Monic (splitCoefficient t).2 ∧ (splitCoefficient t).1 ≠ 0 ∧
      scaled (splitCoefficient t).1 (splitCoefficient t).2 = t := by
  obtain ⟨hrest, h0, heq⟩ := ht.constructed.scaled_split hc
  refine ⟨⟨?_, hrest.notConst, hrest.noConstFactor⟩, h0, heq⟩
  rw [splitCoefficient_eq ht.constructed]
  exact canonical_productOf (canonical_others ht.of_factors)

theorem Monic.factors_ne_nil {r : Expr} (h : Monic r) : r.factors ≠ [] := by
  have hne := h.primitive.constructed.others_factors_ne_nil h.notConst
  rwa [others_eq_self h.noConstFactor] at hne

/-- The factors of a proper multiple of a monic expression. -/
theorem factors_scaled {q : Rat} {r : Expr} (hr : Monic r) (h0 : q ≠ 0) (h1 : q ≠ 1) :
    (scaled q r).factors.Perm (r.factors ++ [const q]) := by
  rw [hr.primitive.factors_scaled h0, arranged, if_neg h1, others_eq_self hr.noConstFactor]
  exact sort_perm _

/-- **The coefficient and the monic part of a multiple are what it was made of.** -/
theorem split_scaled {q : Rat} {r : Expr} (hr : Monic r) (h0 : q ≠ 0) :
    splitCoefficient (scaled q r) = (q, r) :=
  hr.primitive.split_scaled h0

/-- The monic parts of the terms that are no constants, each with its coefficient. -/
def splits (ts : List Expr) : List (Expr × Rat) :=
  (others ts).map fun t => ((splitCoefficient t).2, (splitCoefficient t).1)

/-- The coefficient of a monic expression in a list of terms. -/
def coefficient (k : Expr) (ts : List Expr) : Rat :=
  Tally.total k (splits ts)

theorem primitive_splits {ts : List Expr} (h : ∀ t ∈ ts, Constructed t) :
    ∀ p ∈ splits ts, Primitive p.1 ∧ p.2 ≠ 0 := by
  intro p hp
  obtain ⟨t, ht, rfl⟩ := List.mem_map.mp hp
  obtain ⟨hrest, h0, -⟩ := (h t (mem_others.mp ht).1).scaled_split (mem_others.mp ht).2
  exact ⟨hrest, h0⟩

theorem monic_splits {ts : List Expr} (h : ∀ t ∈ ts, Canonical t) :
    ∀ p ∈ splits ts, Monic p.1 ∧ p.2 ≠ 0 := by
  intro p hp
  obtain ⟨t, ht, rfl⟩ := List.mem_map.mp hp
  obtain ⟨hmonic, h0, -⟩ := scaled_split (h t (mem_others.mp ht).1) (mem_others.mp ht).2
  exact ⟨hmonic, h0⟩

theorem canonical_keys_splits {ts : List Expr} (h : ∀ t ∈ ts, Canonical t) :
    ∀ k ∈ Tally.keys (splits ts), Canonical k := by
  intro k hk
  obtain ⟨p, hp, rfl⟩ := List.mem_map.mp hk
  exact (monic_splits h p hp).1.canonical

/-- The like terms of a list with their coefficients, those that cancel left out. -/
def likeTerms (ts : List Expr) : List (Expr × Rat) :=
  (Tally.ofList (splits ts)).entries.filter fun p => p.2 != 0

theorem ascending_likeTerms (ts : List Expr) : Tally.Ascending (likeTerms ts) :=
  (Tally.ascending_ofList _).sublist List.filter_sublist

/-- A like term is the part of one of the terms, and its coefficient is not `0`. -/
theorem of_mem_likeTerms {ts : List Expr} {p : Expr × Rat} (hp : p ∈ likeTerms ts) :
    p.1 ∈ Tally.keys (splits ts) ∧ p.2 ≠ 0 := by
  obtain ⟨hmem, h0⟩ := List.mem_filter.mp hp
  exact ⟨Tally.mem_keys_of_ofList (List.mem_map_of_mem hmem), bne_iff_ne.mp h0⟩

theorem total_likeTerms (k : Expr) (ts : List Expr) :
    Tally.total k (likeTerms ts) = coefficient k ts := by
  rw [likeTerms, Tally.total_filter_ne_zero, Tally.total_ofList, coefficient]

theorem primitive_likeTerms {ts : List Expr} (h : ∀ t ∈ ts, Constructed t) {p : Expr × Rat}
    (hp : p ∈ likeTerms ts) : Primitive p.1 := by
  obtain ⟨r, hr, heq⟩ := List.mem_map.mp (of_mem_likeTerms hp).1
  rw [← heq]
  exact (primitive_splits h r hr).1

theorem mem_likeTerms {ts : List Expr} (h : ∀ t ∈ ts, Canonical t) {k : Expr} {q : Rat} :
    (k, q) ∈ likeTerms ts ↔ k ∈ Tally.keys (splits ts) ∧ q = coefficient k ts ∧ q ≠ 0 := by
  rw [likeTerms, List.mem_filter, Tally.mem_ofList (canonical_keys_splits h), bne_iff_ne, coefficient,
    and_assoc]

theorem sumOf_append_zero (xs : List Expr) : sumOf (xs ++ [const 0]) = sumOf xs := by
  have ho : others ((xs ++ [const 0]).flatMap terms) = others (xs.flatMap terms) := by simp
  have hc : (constants ((xs ++ [const 0]).flatMap terms)).sum =
      (constants (xs.flatMap terms)).sum := by simp
  rw [sumOf_eq, sumOf_eq, hc, arranged, arranged, ho]

theorem collect_eq (ts : List Expr) :
    collect ts = sumOf ((likeTerms ts).map (fun p => scaled p.2 p.1) ++ [const (constants ts).sum]) := by
  have htally : (ts.filter fun t => !t.isConst).foldl
      (fun tally t => tally.add (splitCoefficient t).2 (splitCoefficient t).1) Tally.empty =
        Tally.ofList (splits ts) := by
    rw [Tally.ofList, splits, List.foldl_map]
    rfl
  have hconst : (ts.filterMap asConst?).foldl (· + ·) 0 = (constants ts).sum := by
    rw [List.sum_eq_foldl]
    rfl
  unfold collect
  dsimp only
  rw [htally, hconst]
  split
  · rename_i h0
    rw [h0, sumOf_append_zero, List.append_nil]
    rfl
  · rfl

/-! ## What is collected -/

section Collect

variable {ts : List Expr} (h : ∀ t ∈ ts, Constructed t)
include h

theorem constructed_collected :
    ∀ t ∈ (likeTerms ts).map (fun p => scaled p.2 p.1) ++ [const (constants ts).sum],
      Constructed t := by
  intro t ht
  rcases List.mem_append.mp ht with ht | ht
  · obtain ⟨p, hp, rfl⟩ := List.mem_map.mp ht
    exact constructed_scaled (primitive_likeTerms h hp).constructed
  · rw [List.mem_singleton.mp ht]
    exact .const _

theorem constructed_collect : Constructed (collect ts) := by
  rw [collect_eq]
  exact constructed_sumOf (constructed_collected h)

variable (hflat : ∀ p ∈ likeTerms ts, p.1.isSum = false)
include hflat

/-- The multiples of the like terms are neither sums nor constants, unless the terms are multiples
of sums. -/
theorem flat_scaled_likeTerms :
    (∀ t ∈ (likeTerms ts).map fun p => scaled p.2 p.1, t.isSum = false) ∧
      constants ((likeTerms ts).map fun p => scaled p.2 p.1) = [] := by
  have hscaled : ∀ t ∈ (likeTerms ts).map fun p => scaled p.2 p.1,
      t.isSum = false ∧ t.isConst = false := by
    intro t ht
    obtain ⟨p, hp, rfl⟩ := List.mem_map.mp ht
    have hrest := primitive_likeTerms h hp
    have h0 := (of_mem_likeTerms hp).2
    exact ⟨isSum_scaled hrest (hflat p hp) h0, isConst_scaled hrest h0⟩
  refine ⟨fun t ht => (hscaled t ht).1, List.eq_nil_iff_forall_not_mem.mpr fun q hq => ?_⟩
  have hconst := (hscaled _ (mem_constants.mp hq)).2
  cases hconst

theorem flat_collected :
    List.flatMap terms
        ((likeTerms ts).map (fun p => scaled p.2 p.1) ++ [Expr.const (constants ts).sum]) =
      (likeTerms ts).map (fun p => scaled p.2 p.1) ++ [Expr.const (constants ts).sum] := by
  refine flatMap_terms_eq_self fun t ht => ?_
  rcases List.mem_append.mp ht with ht | ht
  · exact (flat_scaled_likeTerms h hflat).1 t ht
  · rw [List.mem_singleton.mp ht]
    rfl

/-- **Collected terms are the like terms**, if none of them is a multiple of a sum. -/
theorem splits_terms_collect_perm : (splits (collect ts).terms).Perm (likeTerms ts) := by
  have hperm := others_terms_sumOf (constructed_collected h)
  rw [flat_collected h hflat, others_append, others_eq_self (flat_scaled_likeTerms h hflat).2,
    others_const, others_nil, List.append_nil, ← collect_eq] at hperm
  refine (hperm.map _).trans (List.Perm.of_eq ?_)
  rw [List.map_map]
  refine (List.map_congr_left fun p hp => ?_).trans (List.map_id' _)
  simp only [Function.comp, (primitive_likeTerms h hp).split_scaled (of_mem_likeTerms hp).2]

/-- Collecting keeps the coefficients. -/
theorem coefficient_terms_collect (k : Expr) :
    coefficient k (collect ts).terms = coefficient k ts := by
  rw [coefficient, Tally.total_perm (splits_terms_collect_perm h hflat), total_likeTerms]

theorem constants_terms_collect : (constants (collect ts).terms).sum = (constants ts).sum := by
  have hsum := constants_terms_sumOf (constructed_collected h)
  rw [flat_collected h hflat, constants_append, (flat_scaled_likeTerms h hflat).2, ← collect_eq,
    List.nil_append, constants_const, constants_nil, List.sum_singleton] at hsum
  exact hsum

end Collect

theorem coefficient_append (k : Expr) (xs ys : List Expr) :
    coefficient k (xs ++ ys) = coefficient k xs + coefficient k ys := by
  rw [coefficient, splits, others_append, List.map_append, Tally.total_append]
  rfl

theorem coefficient_perm {xs ys : List Expr} (h : xs.Perm ys) (k : Expr) :
    coefficient k xs = coefficient k ys :=
  Tally.total_perm ((others_perm h).map _) k

theorem mem_keys_of_total_ne_zero {k : Expr} {xs : List (Expr × Rat)} (hk : Canonical k)
    (hxs : ∀ l ∈ Tally.keys xs, Canonical l) (h : Tally.total k xs ≠ 0) : k ∈ Tally.keys xs := by
  by_contra hmem
  refine h (List.sum_eq_zero fun q hq => ?_)
  obtain ⟨p, hp, rfl⟩ := List.mem_map.mp hq
  have hkey : p.1 ∈ Tally.keys xs := List.mem_map_of_mem hp
  refine if_neg fun heq => hmem ?_
  rwa [hk.eq_of_compare (hxs p.1 hkey) heq]

theorem mem_likeTerms_iff {ts : List Expr} (h : ∀ t ∈ ts, Canonical t) {k : Expr} {q : Rat} :
    (k, q) ∈ likeTerms ts ↔ Canonical k ∧ q = coefficient k ts ∧ q ≠ 0 := by
  rw [mem_likeTerms h]
  constructor
  · exact fun ⟨hk, hq⟩ => ⟨canonical_keys_splits h k hk, hq⟩
  · rintro ⟨hk, rfl, h0⟩
    exact ⟨mem_keys_of_total_ne_zero hk (canonical_keys_splits h) h0, rfl, h0⟩

theorem monic_likeTerms {ts : List Expr} (h : ∀ t ∈ ts, Canonical t) {k : Expr} {q : Rat}
    (hmem : (k, q) ∈ likeTerms ts) : Monic k := by
  obtain ⟨p, hp, rfl⟩ := List.mem_map.mp ((mem_likeTerms h).mp hmem).1
  exact (monic_splits h p hp).1

theorem nodup_keys_likeTerms (ts : List Expr) :
    (Tally.keys (likeTerms ts)).Nodup :=
  (Tally.nodup_keys_ofList _).sublist (List.filter_sublist.map _)

theorem canonical_scaled {q : Rat} {t : Expr} (ht : Canonical t) : Canonical (scaled q t) := by
  rw [scaled]
  split
  · exact ht
  · exact canonical_productOf (List.forall_mem_cons.mpr ⟨.const q, List.forall_mem_singleton.mpr ht⟩)

theorem canonical_collected {ts : List Expr} (h : ∀ t ∈ ts, Canonical t) :
    ∀ t ∈ (likeTerms ts).map (fun p => scaled p.2 p.1) ++ [const (constants ts).sum],
      Canonical t := by
  intro t ht
  rcases List.mem_append.mp ht with ht | ht
  · obtain ⟨⟨k, q⟩, hp, rfl⟩ := List.mem_map.mp ht
    exact canonical_scaled (monic_likeTerms h hp).canonical
  · rw [List.mem_singleton.mp ht]
    exact .const _

theorem canonical_collect {ts : List Expr} (h : ∀ t ∈ ts, Canonical t) :
    Canonical (collect ts) := by
  rw [collect_eq]
  exact canonical_sumOf (canonical_collected h)

/-- **Collecting depends on the coefficients and the total of the constants only.** -/
theorem collect_congr {xs ys : List Expr} (hxs : ∀ t ∈ xs, Canonical t)
    (hys : ∀ t ∈ ys, Canonical t)
    (hcoeff : ∀ k, Canonical k → coefficient k xs = coefficient k ys)
    (hconst : (constants xs).sum = (constants ys).sum) : collect xs = collect ys := by
  have hperm : (likeTerms xs).Perm (likeTerms ys) := by
    refine (List.perm_ext_iff_of_nodup (nodup_keys_likeTerms xs).of_map
      (nodup_keys_likeTerms ys).of_map).mpr fun ⟨k, q⟩ => ?_
    rw [mem_likeTerms_iff hxs, mem_likeTerms_iff hys]
    exact and_congr_right fun hk => by rw [hcoeff k hk]
  rw [collect_eq, collect_eq, hconst]
  refine sumOf_perm (fun t ht => ?_) ((hperm.map _).append_right _)
  rw [← hconst] at ht
  exact canonical_collected hxs t ht

theorem collect_perm {xs ys : List Expr} (hxs : ∀ t ∈ xs, Canonical t) (h : xs.Perm ys) :
    collect xs = collect ys :=
  collect_congr hxs (fun t ht => hxs t (h.mem_iff.mpr ht)) (fun k _ => coefficient_perm h k)
    (constants_perm h).sum_eq

@[simp] theorem others_map_const (qs : List Rat) : others (qs.map const) = [] := by
  induction qs with
  | nil => rfl
  | cons q qs ih => rw [List.map_cons, others_const, ih]

@[simp] theorem constants_map_const (qs : List Rat) : constants (qs.map const) = qs := by
  induction qs with
  | nil => rfl
  | cons q qs ih => rw [List.map_cons, constants_const, ih]

@[simp] theorem flatMap_terms_map_const (qs : List Rat) :
    (qs.map const).flatMap terms = qs.map const :=
  flatMap_terms_eq_self fun t ht => by
    obtain ⟨q, -, rfl⟩ := List.mem_map.mp ht
    rfl

/-- **Terms with distinct monic parts stay as they are.** -/
theorem collect_of_nodup {ts : List Expr} (h : ∀ t ∈ ts, Canonical t)
    (hnodup : (Tally.keys (splits ts)).Nodup) : collect ts = sumOf ts := by
  have hperm := Tally.ofList_perm_of_nodup (canonical_keys_splits h) hnodup
  have hlike : (likeTerms ts).Perm (splits ts) := by
    refine (hperm.filter _).trans ?_
    rw [List.filter_eq_self.mpr]
    exact fun p hp => bne_iff_ne.mpr (monic_splits h p hp).2
  have hothers : (splits ts).map (fun p => scaled p.2 p.1) = others ts := by
    rw [splits, List.map_map]
    conv_rhs => rw [← List.map_id (others ts)]
    refine List.map_congr_left fun t ht => ?_
    exact (scaled_split (h t (mem_others.mp ht).1) (mem_others.mp ht).2).2.2
  rw [collect_eq]
  have hmap := hlike.map fun p => scaled p.2 p.1
  rw [hothers] at hmap
  rw [sumOf_perm (canonical_collected h) (hmap.append_right _)]
  have hbase := others_constants_perm ts
  rw [← sumOf_perm (fun t ht => h t (hbase.mem_iff.mp ht)) hbase]
  refine sumOf_congr (fun t ht => ?_) ?_ ?_
  · rcases List.mem_append.mp ht with ht | ht
    · exact h t (mem_others.mp ht).1
    · rw [List.mem_singleton.mp ht]
      exact .const _
  · simp
  · simp

/-- Where a term of the collected sum comes from: it is a constant, or a term of a multiple of the
monic part of a term. -/
theorem mem_terms_collect {t : Expr} {ts : List Expr} (h : ∀ t ∈ ts, Canonical t)
    (ht : t ∈ (collect ts).terms) :
    t.isConst = true ∨ (t.isConst = false ∧
      ∃ p ∈ likeTerms ts, t ∈ (scaled p.2 p.1).terms) := by
  rw [collect_eq] at ht
  rcases mem_terms_sumOf (canonical_collected h) ht with hc | ⟨hc, x, hx, hmem⟩
  · exact Or.inl hc
  · refine Or.inr ⟨hc, ?_⟩
    rcases List.mem_append.mp hx with hx | hx
    · obtain ⟨p, hp, rfl⟩ := List.mem_map.mp hx
      exact ⟨p, hp, hmem⟩
    · rw [List.mem_singleton.mp hx] at hmem
      rw [List.mem_singleton.mp hmem] at hc
      cases hc

end Expr

/-! ## Bases -/

namespace Evaluator

open Expr

/-- A power with a constant exponent, where the exponent `1` is not written. -/
def raised (b : Expr) (x : Rat) : Expr :=
  if x = 1 then b else Expr.power b (.const x)

theorem canonical_raised {b : Expr} {x : Rat} (hb : Canonical b) : Canonical (raised b x) := by
  rw [raised]
  split
  · exact hb
  · exact hb.power (.const x)

theorem canonical_splitExponent {f : Expr} (h : Canonical f) : Canonical (splitExponent f).1 := by
  unfold splitExponent
  split
  · exact h.of_binary.1
  · exact h

/-- The bases of the factors that are no constants, each with its exponent. -/
def exponentsOf (fs : List Expr) : List (Expr × Rat) :=
  (others fs).map splitExponent

theorem canonical_keys_exponentsOf {fs : List Expr} (h : ∀ f ∈ fs, Canonical f) :
    ∀ k ∈ Tally.keys (exponentsOf fs), Canonical k := by
  intro k hk
  obtain ⟨p, hp, rfl⟩ := List.mem_map.mp hk
  obtain ⟨f, hf, rfl⟩ := List.mem_map.mp hp
  exact canonical_splitExponent (h f (mem_others.mp hf).1)

theorem Bases.ofFactors_eq (fs : List Expr) :
    Bases.ofFactors fs = ⟨(constants fs).prod, Tally.ofList (exponentsOf fs)⟩ := by
  rw [ofFactors, Tally.ofList, exponentsOf, List.foldl_map, List.prod_eq_foldl]
  rfl

/-- The factors that a tally of exponents stands for; the exponents `0` vanish. -/
def Bases.powers (b : Bases) : List Expr :=
  (b.exponents.entries.filter fun p => p.2 != 0).map fun p => raised p.1 p.2

theorem productOf_one_cons (xs : List Expr) : productOf (.const 1 :: xs) = productOf xs := by
  have ho : others ((Expr.const 1 :: xs).flatMap factors) = others (xs.flatMap factors) := by simp
  have hc : (constants ((Expr.const 1 :: xs).flatMap factors)).prod =
      (constants (xs.flatMap factors)).prod := by simp
  rw [productOf_eq, productOf_eq, hc, arranged, arranged, ho]

theorem Bases.product_eq (b : Bases) : b.product = productOf (.const b.constant :: b.powers) := by
  rw [product]
  split
  · rename_i h1
    rw [h1, productOf_one_cons, List.nil_append]
    rfl
  · rfl

/-- The powers depend on the totals of the exponents only. -/
theorem Bases.powers_ofFactors_congr {xs ys : List Expr} (hxs : ∀ f ∈ xs, Expr.Canonical f)
    (hys : ∀ f ∈ ys, Expr.Canonical f)
    (htotal : ∀ k, Tally.total k (exponentsOf xs) = Tally.total k (exponentsOf ys)) :
    (Bases.ofFactors xs).powers = (Bases.ofFactors ys).powers := by
  rw [powers, powers, ofFactors_eq, ofFactors_eq]
  refine congrArg _ (Tally.filter_ofList_congr (canonical_keys_exponentsOf hxs)
    (canonical_keys_exponentsOf hys) htotal)

/-- Factors with distinct bases, none with the exponent `0`, are the powers that their tally stands
for. -/
theorem powers_ofFactors_perm {fs : List Expr} (hc : ∀ f ∈ fs, Expr.Canonical f)
    (hself : ∀ f ∈ others fs,
      raised (splitExponent f).1 (splitExponent f).2 = f ∧ (splitExponent f).2 ≠ 0)
    (hnodup : (Tally.keys (exponentsOf fs)).Nodup) :
    (Bases.ofFactors fs).powers.Perm (others fs) := by
  have hentries := Tally.ofList_perm_of_nodup (canonical_keys_exponentsOf hc) hnodup
  rw [Bases.ofFactors_eq, Bases.powers]
  refine ((hentries.filter _).map _).trans (List.Perm.of_eq ?_)
  rw [exponentsOf, List.filter_eq_self.mpr, List.map_map]
  · exact (List.map_congr_left fun f hf => (hself f hf).1).trans (List.map_id' _)
  · intro p hp
    obtain ⟨f, hf, rfl⟩ := List.mem_map.mp hp
    simpa using (hself f hf).2

/-- **Factors with distinct bases stay as they are.** -/
theorem Bases.product_ofFactors {e : Expr} (he : Expr.Canonical e)
    (hself : ∀ f ∈ others e.factors,
      raised (splitExponent f).1 (splitExponent f).2 = f ∧ (splitExponent f).2 ≠ 0)
    (hnodup : (Tally.keys (exponentsOf e.factors)).Nodup) :
    (Bases.ofFactors e.factors).product = e := by
  have hperm := powers_ofFactors_perm he.of_factors hself hnodup
  have hconstant : (Bases.ofFactors e.factors).constant = (constants e.factors).prod := by
    rw [Bases.ofFactors_eq]
  rw [Bases.product_eq, hconstant, productOf_perm (List.forall_mem_cons.mpr ⟨.const _, fun g hg =>
    he.of_factors g (mem_others.mp (hperm.mem_iff.mp hg)).1⟩) (hperm.cons _)]
  exact he.productOf_constant_others

/-- A product of bases has canonical bases. -/
def Bases.Canonical (b : Bases) : Prop :=
  ∀ k ∈ Tally.keys b.exponents.entries, Expr.Canonical k

theorem Bases.canonical_ofFactors {fs : List Expr} (h : ∀ f ∈ fs, Expr.Canonical f) :
    (Bases.ofFactors fs).Canonical := by
  intro k hk
  rw [Bases.ofFactors_eq] at hk
  exact canonical_keys_exponentsOf h k
    ((Tally.mem_keys_ofList (canonical_keys_exponentsOf h)).mp hk)

theorem Bases.Canonical.powers {b : Bases} (h : b.Canonical) :
    ∀ f ∈ b.powers, Expr.Canonical f := by
  intro f hf
  obtain ⟨p, hp, rfl⟩ := List.mem_map.mp hf
  exact canonical_raised (h p.1 (List.mem_map_of_mem (List.mem_filter.mp hp).1))

theorem Bases.Canonical.product {b : Bases} (h : b.Canonical) : Expr.Canonical b.product := by
  rw [product_eq]
  exact canonical_productOf (List.forall_mem_cons.mpr ⟨.const _, h.powers⟩)

theorem mem_entries_erase {t : Tally} {key : Expr} {p : Expr × Rat} :
    p ∈ (t.erase key).entries ↔ p ∈ t.entries ∧ Expr.compare key p.1 ≠ .eq := by
  simp [Tally.erase]

/-- The bases after a replacement are the old ones and the new one. -/
theorem Bases.mem_keys_replace {b : Bases} {base d k : Expr} {x : Rat} (hb : b.Canonical)
    (hd : Expr.Canonical d) (hk : k ∈ Tally.keys (b.replace base x d).exponents.entries) :
    k = d ∨ k ∈ Tally.keys b.exponents.entries := by
  have herase : ∀ {t : Tally} {key l : Expr}, l ∈ Tally.keys (t.erase key).entries →
      l ∈ Tally.keys t.entries := by
    intro t key l hl
    obtain ⟨p, hp, rfl⟩ := List.mem_map.mp hl
    exact List.mem_map_of_mem (mem_entries_erase.mp hp).1
  have hadd : ∀ {t : Tally}, (∀ l ∈ Tally.keys t.entries, l ∈ Tally.keys b.exponents.entries) →
      k ∈ Tally.keys (t.add d x).entries → k = d ∨ k ∈ Tally.keys b.exponents.entries := by
    intro t ht hmem
    rcases (Tally.mem_keys_addTo hd fun l hl => hb l (ht l hl)).mp hmem with h | h
    · exact Or.inl h
    · exact Or.inr (ht k h)
  unfold replace at hk
  split at hk
  · split at hk
    · exact Or.inr (herase hk)
    · exact hadd (fun l hl => herase (herase hl)) hk
  · exact hadd (fun l hl => herase hl) hk

theorem Bases.Canonical.replace {b : Bases} {base d : Expr} {x : Rat} (hb : b.Canonical)
    (hd : Expr.Canonical d) : (b.replace base x d).Canonical := by
  intro k hk
  rcases Bases.mem_keys_replace hb hd hk with rfl | hk
  · exact hd
  · exact hb k hk

theorem canonical_scaledSum {v : Expr → Expr} {base : Expr} {q : Rat}
    (h : ∀ t ∈ base.terms, Expr.Canonical (v (productOf [.const q, t]))) :
    Expr.Canonical (scaledSum v q base) := by
  refine canonical_collect fun t ht => ?_
  obtain ⟨u, hu, htu⟩ := List.mem_flatMap.mp ht
  exact (h u hu).of_terms t htu

end Evaluator

end SymbolicAlgebra
