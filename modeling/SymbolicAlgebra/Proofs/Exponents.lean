import Mathlib.Algebra.Order.BigOperators.Group.List
import Mathlib.Algebra.Order.Floor.Semiring
import Mathlib.Data.Rat.Floor
import SymbolicAlgebra.Proofs.Preservation

/-!
# A bound for the exponents of constants

A base that turns out to be a constant late has by then collected the exponents of all powers of it.
`exponentBound` adds them up beforehand: no visit of an evaluation has a larger bound than the
expression evaluated, and no constant is raised to a power beyond it. Variables count nothing, since
they never become constants; a sum counts one more than its terms, since it may.

Results:
* `SubVisit.exponentBound_le`, `bounded_step`: neither a visit nor a step raises the bound.
* `exactPowers_of_exponentBound_le`: within `Rational.maxExactExponent` all powers are exact.
* `denotes_evaluate`: evaluation preserves the value.
-/

namespace SymbolicAlgebra.Expr

/-! ## The bound -/

/-- The magnitude of an exponent. -/
def magnitude (x : Rat) : Nat :=
  ⌈|x|⌉₊

/-- What a constant factor other than `0` and `1` counts. -/
def constantCount (e : Expr) : Nat :=
  if (constants e.factors).prod = 0 ∨ (constants e.factors).prod = 1 then 0 else 1

mutual

/-- The bound without that for the constant factor. -/
def degree : Expr → Nat
  | const _ => 0
  | var .. => 0
  | sum ts => largestDegree ts + 1
  | product fs => totalDegree fs
  | binary .power b (const n) => magnitude n * (degree b + constantCount b)
  | binary _ l r => max (degree l + constantCount l) (degree r + constantCount r)
  | not a => degree a + constantCount a
  | call .. => 0
  | set _ => 0

/-- The largest degree of a list. -/
def largestDegree : List Expr → Nat
  | [] => 0
  | t :: ts => max (degree t) (largestDegree ts)

/-- The sum of the degrees of a list. -/
def totalDegree : List Expr → Nat
  | [] => 0
  | f :: fs => degree f + totalDegree fs

end

/-- A bound for the exponents to which constants are raised in the evaluation of an expression and of
a power of it. -/
def exponentBound (e : Expr) : Nat :=
  e.degree + e.constantCount

theorem one_le_magnitude {x : Rat} (hx : x ≠ 0) : 1 ≤ magnitude x :=
  Nat.ceil_pos.mpr (abs_pos.mpr hx)

theorem magnitude_add_le (x y : Rat) : magnitude (x + y) ≤ magnitude x + magnitude y :=
  (Nat.ceil_mono (abs_add_le x y)).trans (Nat.ceil_add_le _ _)

theorem magnitude_mul_le (x y : Rat) : magnitude (x * y) ≤ magnitude x * magnitude y := by
  rw [magnitude, Nat.ceil_le, abs_mul, Nat.cast_mul]
  exact mul_le_mul (Nat.le_ceil _) (Nat.le_ceil _) (abs_nonneg _) (Nat.cast_nonneg _)

theorem magnitude_intCast (n : Int) : magnitude (n : Rat) = n.natAbs := by
  rw [magnitude, ← Int.cast_abs, Int.abs_eq_natAbs, Int.cast_natCast, Nat.ceil_natCast]

@[simp] theorem degree_const (q : Rat) : (const q).degree = 0 := by
  rw [degree]

@[simp] theorem degree_power (b : Expr) (n : Rat) :
    (power b (const n)).degree = magnitude n * b.exponentBound := by
  rw [power, degree, exponentBound]

theorem degree_binary {op : BinaryOp} (hop : op ≠ .power) (l r : Expr) :
    (binary op l r).degree = max l.exponentBound r.exponentBound := by
  cases op <;> first | exact absurd rfl hop | (rw [degree, exponentBound, exponentBound]; simp)

theorem largestDegree_le {N : Nat} : ∀ {ts : List Expr},
    largestDegree ts ≤ N ↔ ∀ t ∈ ts, t.degree ≤ N
  | [] => by simp [largestDegree]
  | t :: ts => by simp [largestDegree, @largestDegree_le N ts]

theorem totalDegree_eq (fs : List Expr) : totalDegree fs = (fs.map degree).sum := by
  induction fs with
  | nil => rw [totalDegree, List.map_nil, List.sum_nil]
  | cons f fs ih => rw [totalDegree, ih, List.map_cons, List.sum_cons]

theorem degree_sum_le {N : Nat} {ts : List Expr} :
    (sum ts).degree ≤ N + 1 ↔ ∀ t ∈ ts, t.degree ≤ N := by
  rw [degree, Nat.add_le_add_iff_right, largestDegree_le]

@[simp] theorem degree_product (fs : List Expr) : (product fs).degree = (fs.map degree).sum := by
  rw [degree, totalDegree_eq]

theorem constantCount_le_one (e : Expr) : e.constantCount ≤ 1 := by
  rw [constantCount]
  split <;> omega

theorem degree_le_exponentBound (e : Expr) : e.degree ≤ e.exponentBound :=
  Nat.le_add_right _ _

theorem exponentBound_le_degree_succ (e : Expr) : e.exponentBound ≤ e.degree + 1 :=
  Nat.add_le_add_left (constantCount_le_one e) _

theorem exponentBound_eq_degree {e : Expr} (hc : e.isConst = false) (hp : e.isProduct = false) :
    e.exponentBound = e.degree := by
  rw [exponentBound, constantCount, factors_eq_self hp, constants_cons hc]
  rfl

theorem exponentBound_const_le (q : Rat) : (const q).exponentBound ≤ 1 := by
  have := exponentBound_le_degree_succ (const q)
  rwa [degree_const] at this

theorem exponentBound_const (q : Rat) :
    (const q).exponentBound = if q = 0 ∨ q = 1 then 0 else 1 := by
  rw [exponentBound, degree_const, zero_add, constantCount, factors_const, constants_const,
    constants_nil, List.prod_singleton]

/-! ## Constructors -/

theorem degree_factors (e : Expr) : (e.factors.map degree).sum = e.degree := by
  cases hp : e.isProduct
  · rw [factors_eq_self hp, List.map_singleton, List.sum_singleton]
  · obtain ⟨fs, rfl⟩ := exists_of_isProduct hp
    rw [factors_product, degree_product]

theorem degree_of_mem_factors {f e : Expr} (hf : f ∈ e.factors) : f.degree ≤ e.degree := by
  rw [← degree_factors e]
  exact List.single_le_sum (fun _ _ => Nat.zero_le _) _ (List.mem_map_of_mem hf)

theorem degree_flatMap_factors (xs : List Expr) :
    ((xs.flatMap factors).map degree).sum = (xs.map degree).sum := by
  induction xs with
  | nil => rfl
  | cons x xs ih =>
    rw [List.flatMap_cons, List.map_append, List.sum_append, degree_factors, ih, List.map_cons,
      List.sum_cons]

theorem degree_others (xs : List Expr) : ((others xs).map degree).sum = (xs.map degree).sum := by
  have hconst : (((constants xs).map const).map degree).sum = 0 := by
    rw [List.map_map]
    exact List.sum_eq_zero fun n hn => by
      obtain ⟨q, -, rfl⟩ := List.mem_map.mp hn
      exact degree_const q
  rw [← ((others_constants_perm xs).map degree).sum_eq, List.map_append, List.sum_append, hconst,
    add_zero]

theorem degree_ofFactors (fs : List Expr) : (ofFactors fs).degree = (fs.map degree).sum := by
  match fs with
  | [] => exact degree_const 1
  | [f] => simp [ofFactors]
  | _ :: _ :: _ => exact degree_product _

theorem degree_arranged (neutral c : Rat) (xs : List Expr) :
    ((arranged neutral c xs).map degree).sum = (xs.map degree).sum := by
  rw [arranged, ((sort_perm _).map degree).sum_eq, ← degree_others xs]
  split
  · rfl
  · rw [List.map_append, List.sum_append, List.map_singleton, List.sum_singleton, degree_const,
      add_zero]

theorem degree_productOf_le (xs : List Expr) : (productOf xs).degree ≤ (xs.map degree).sum := by
  rw [productOf_eq]
  split
  · exact Nat.zero_le _
  · rw [degree_ofFactors, degree_arranged, degree_flatMap_factors]

theorem constantCount_productOf_le {xs : List Expr} (h : ∀ x ∈ xs, Canonical x) :
    (productOf xs).constantCount ≤ (xs.map constantCount).sum := by
  rw [constantCount, constants_factors_productOf (constructed_of_canonical h)]
  clear h
  induction xs with
  | nil => exact Nat.le_of_eq (if_pos (Or.inr rfl))
  | cons x xs ih =>
    rw [List.flatMap_cons, constants_append, List.prod_append, List.map_cons, List.sum_cons,
      constantCount]
    split
    · exact Nat.zero_le _
    · rename_i hne
      split
      · rename_i hx
        rcases hx with hx | hx
        · exact absurd (Or.inl (by rw [hx, zero_mul])) hne
        · rw [hx, one_mul] at hne
          rwa [if_neg hne, ← zero_add (List.sum _)] at ih
      · exact Nat.le_add_right _ _

/-- A product has at most the bounds of its factors together. -/
theorem exponentBound_productOf_le {xs : List Expr} (h : ∀ x ∈ xs, Canonical x) :
    (productOf xs).exponentBound ≤ (xs.map exponentBound).sum := by
  have hadd : (xs.map exponentBound).sum = (xs.map degree).sum + (xs.map constantCount).sum :=
    List.sum_map_add
  rw [hadd]
  exact Nat.add_le_add (degree_productOf_le xs) (constantCount_productOf_le h)

/-! ## Like terms -/

theorem degree_of_mem_terms {t e : Expr} (ht : t ∈ e.terms) : t.degree ≤ e.degree := by
  cases hs : e.isSum
  · rw [terms_eq_self hs, List.mem_singleton] at ht
    rw [ht]
  · obtain ⟨ts, rfl⟩ := exists_of_isSum hs
    have h := @degree_sum_le ts.length.succ ts
    rw [terms_sum] at ht
    rw [degree]
    exact Nat.le_succ_of_le (largestDegree_le.mp le_rfl t ht)

theorem exponentBound_ofTerms_le {N : Nat} {ts : List Expr} (h : ∀ t ∈ ts, t.degree ≤ N) :
    (ofTerms ts).exponentBound ≤ N + 1 := by
  match ts, h with
  | [], _ => exact (exponentBound_const_le 0).trans (Nat.succ_le_succ (Nat.zero_le N))
  | [t], h =>
    exact (exponentBound_le_degree_succ t).trans (Nat.succ_le_succ (h t (by simp)))
  | t :: u :: ts, h =>
    change (sum (t :: u :: ts)).exponentBound ≤ N + 1
    rw [exponentBound_eq_degree rfl rfl]
    exact degree_sum_le.mpr h

theorem exponentBound_sumOf_le {N : Nat} {xs : List Expr} (h : ∀ x ∈ xs, x.degree ≤ N) :
    (sumOf xs).exponentBound ≤ N + 1 := by
  rw [sumOf_eq]
  refine exponentBound_ofTerms_le fun t ht => ?_
  rcases mem_arranged ht with ht | ⟨rfl, -⟩
  · obtain ⟨x, hx, htx⟩ := List.mem_flatMap.mp (mem_others.mp ht).1
    exact (degree_of_mem_terms htx).trans (h x hx)
  · exact Nat.zero_le _

theorem degree_splitCoefficient_le (t : Expr) : (splitCoefficient t).2.degree ≤ t.degree := by
  unfold splitCoefficient
  cases htake : takeConst t.factors with
  | none => exact le_rfl
  | some p =>
    obtain ⟨q, rest⟩ := p
    refine (degree_productOf_le rest).trans ?_
    rw [← degree_factors t, ((takeConst_some htake).map degree).sum_eq, List.map_cons,
      List.sum_cons]
    exact Nat.le_add_left _ _

theorem degree_scaled_le (q : Rat) (t : Expr) : (scaled q t).degree ≤ t.degree := by
  rw [scaled]
  split
  · exact le_rfl
  · refine (degree_productOf_le _).trans (Nat.le_of_eq ?_)
    simp

/-- Combining like terms raises no bound: the sum counts one more than its terms. -/
theorem exponentBound_collect_le {N : Nat} {ts : List Expr} (hc : ∀ t ∈ ts, Canonical t)
    (h : ∀ t ∈ ts, t.degree ≤ N) : (collect ts).exponentBound ≤ N + 1 := by
  rw [collect_eq]
  refine exponentBound_sumOf_le fun x hx => ?_
  rcases List.mem_append.mp hx with hx | hx
  · obtain ⟨p, hp, rfl⟩ := List.mem_map.mp hx
    obtain ⟨s, hs, heq⟩ := List.mem_map.mp ((mem_likeTerms hc).mp hp).1
    obtain ⟨t, ht, rfl⟩ := List.mem_map.mp hs
    refine (degree_scaled_le _ _).trans ?_
    rw [← heq]
    exact (degree_splitCoefficient_le t).trans (h t (mem_others.mp ht).1)
  · rw [List.mem_singleton.mp hx, degree_const]
    exact Nat.zero_le N

/-! ## Like bases -/

/-- What bases with their exponents count. -/
def powersBound (xs : List (Expr × Rat)) : Nat :=
  (xs.map fun p => magnitude p.2 * p.1.exponentBound).sum

@[simp] theorem powersBound_cons (p : Expr × Rat) (xs : List (Expr × Rat)) :
    powersBound (p :: xs) = magnitude p.2 * p.1.exponentBound + powersBound xs := by
  rw [powersBound, List.map_cons, List.sum_cons]
  rfl

theorem powersBound_addTo_le {key : Expr} (x : Rat) (hkey : Canonical key) :
    ∀ {xs : List (Expr × Rat)}, (∀ l ∈ Tally.keys xs, Canonical l) →
      powersBound (Tally.addTo key x xs) ≤ magnitude x * key.exponentBound + powersBound xs
  | [], _ => by rw [Tally.addTo, powersBound_cons]
  | (l, y) :: rest, h => by
    obtain ⟨hl, hrest⟩ := List.forall_mem_cons.mp h
    rw [Tally.addTo]
    split
    · rw [powersBound_cons]
    · rename_i heq
      obtain rfl := hkey.eq_of_compare hl heq
      have := Nat.mul_le_mul_right key.exponentBound (magnitude_add_le y x)
      rw [powersBound_cons, powersBound_cons]
      rw [Nat.add_mul] at this
      dsimp only
      omega
    · have := powersBound_addTo_le x hkey hrest
      rw [powersBound_cons, powersBound_cons]
      omega

theorem powersBound_foldl_le (xs : List (Expr × Rat)) : ∀ t : Tally,
    (∀ k ∈ Tally.keys xs, Canonical k) → (∀ k ∈ Tally.keys t.entries, Canonical k) →
      powersBound (xs.foldl (fun t p => t.add p.1 p.2) t).entries ≤
        powersBound t.entries + powersBound xs := by
  induction xs with
  | nil => exact fun t _ _ => Nat.le_refl _
  | cons p xs ih =>
    intro t hxs ht
    obtain ⟨hp, hxs⟩ := List.forall_mem_cons.mp hxs
    have hadd : ∀ k ∈ Tally.keys (t.add p.1 p.2).entries, Canonical k := by
      intro k hk
      rcases (Tally.mem_keys_addTo hp ht).mp hk with rfl | hk
      · exact hp
      · exact ht k hk
    have h₁ := ih _ hxs hadd
    have h₂ := powersBound_addTo_le p.2 hp ht
    change powersBound (t.add p.1 p.2).entries ≤ _ at h₂
    rw [List.foldl_cons, powersBound_cons]
    omega

theorem powersBound_ofList_le {xs : List (Expr × Rat)} (hxs : ∀ k ∈ Tally.keys xs, Canonical k) :
    powersBound (Tally.ofList xs).entries ≤ powersBound xs :=
  (powersBound_foldl_le xs .empty hxs (by simp [Tally.empty])).trans
    (Nat.le_of_eq (Nat.zero_add _))

theorem magnitude_one : magnitude 1 = 1 := magnitude_intCast 1

theorem magnitude_neg_one : magnitude (-1) = 1 := magnitude_intCast (-1)

theorem degree_inverse (b : Expr) : (inverse b).degree = b.exponentBound := by
  rw [inverse, degree_power, magnitude_neg_one, one_mul]

/-- A quotient counts what the numerator and a power of the denominator count. -/
theorem degree_divide_le (a b : Expr) : (divide a b).degree ≤ a.degree + b.exponentBound := by
  have hle := degree_productOf_le [a, inverse b]
  rwa [List.map_cons, List.map_singleton, List.sum_cons, List.sum_singleton, degree_inverse] at hle

theorem exponentBound_symbol (x : String) : (symbol x).exponentBound = 0 := by
  rw [exponentBound_eq_degree rfl rfl, symbol, degree]

theorem degree_splitExponent {f : Expr} (hc : f.isConst = false) (hp : f.isProduct = false) :
    magnitude (Evaluator.splitExponent f).2 * (Evaluator.splitExponent f).1.exponentBound =
      f.degree := by
  unfold Evaluator.splitExponent
  split
  · exact (degree_power _ _).symm
  · rw [magnitude_one, one_mul, exponentBound_eq_degree hc hp]

theorem powersBound_exponentsOf {fs : List Expr} (h : ∀ f ∈ fs, f.isProduct = false) :
    powersBound (Evaluator.exponentsOf fs) = (fs.map degree).sum := by
  rw [← degree_others, powersBound, Evaluator.exponentsOf, List.map_map]
  congr 1
  refine List.map_congr_left fun f hf => ?_
  obtain ⟨hmem, hc⟩ := mem_others.mp hf
  exact degree_splitExponent hc (h f hmem)

theorem exponentBound_raised_le (k : Expr) (x : Rat) :
    (Evaluator.raised k x).exponentBound ≤ magnitude x * k.exponentBound := by
  rw [Evaluator.raised]
  split
  · rename_i h1
    rw [h1, magnitude_one, one_mul]
  · rw [exponentBound_eq_degree rfl rfl, degree_power]

/-- The factors of a canonical product have the bound of the product together. -/
theorem exponentBound_product {fs : List Expr} (h : Canonical (product fs)) :
    (fs.map exponentBound).sum = (product fs).exponentBound := by
  have hadd : (fs.map exponentBound).sum = (fs.map degree).sum + (fs.map constantCount).sum :=
    List.sum_map_add
  have hothers : ((others fs).map constantCount).sum = 0 := by
    refine List.sum_eq_zero fun n hn => ?_
    obtain ⟨f, hf, rfl⟩ := List.mem_map.mp hn
    obtain ⟨hmem, hc⟩ := mem_others.mp hf
    have := exponentBound_eq_degree hc (h.flat_factors f hmem)
    rw [exponentBound] at this
    omega
  rw [hadd, exponentBound, degree_product, Nat.add_left_cancel_iff,
    ← ((others_constants_perm fs).map constantCount).sum_eq, List.map_append, List.sum_append,
    hothers, zero_add, constantCount, factors_product]
  rcases h.constants_factors rfl with hnil | ⟨c, h0, h1, hsingle⟩
  · rw [factors_product] at hnil
    rw [hnil, List.prod_nil, if_pos (Or.inr rfl)]
    rfl
  · rw [factors_product] at hsingle
    rw [hsingle, List.prod_singleton, List.map_singleton, List.map_singleton, List.sum_singleton,
      constantCount, factors_const, constants_const, constants_nil, List.prod_singleton]

end SymbolicAlgebra.Expr

namespace SymbolicAlgebra.Evaluator

open Expr

/-- The bound for the product of the bases. -/
def Bases.bound (b : Bases) : Nat :=
  powersBound b.exponents.entries + (Expr.const b.constant).exponentBound

theorem Bases.sum_powers_le (b : Bases) :
    (b.powers.map exponentBound).sum ≤ powersBound b.exponents.entries := by
  rw [powers, List.map_map, powersBound]
  induction b.exponents.entries with
  | nil => exact Nat.le_refl _
  | cons p xs ih =>
    rw [List.filter_cons, List.map_cons, List.sum_cons]
    split
    · rw [List.map_cons, List.sum_cons]
      exact Nat.add_le_add (exponentBound_raised_le p.1 p.2) ih
    · exact ih.trans (Nat.le_add_left _ _)

/-- Multiplying out the bases raises no bound. -/
theorem Bases.exponentBound_product_le {b : Bases} (h : b.Canonical) :
    b.product.exponentBound ≤ b.bound ∧ b.product.degree ≤ powersBound b.exponents.entries := by
  have hcanon : ∀ f ∈ Expr.const b.constant :: b.powers, Expr.Canonical f :=
    List.forall_mem_cons.mpr ⟨.const _, h.powers⟩
  have hpowers := b.sum_powers_le
  have hdegrees : (b.powers.map degree).sum ≤ (b.powers.map exponentBound).sum :=
    List.sum_le_sum fun f _ => degree_le_exponentBound f
  have h₁ := exponentBound_productOf_le hcanon
  have h₂ := degree_productOf_le (Expr.const b.constant :: b.powers)
  rw [List.map_cons, List.sum_cons] at h₁ h₂
  rw [degree_const] at h₂
  rw [product_eq, bound]
  omega

theorem powersBound_filter_le (keep : Expr × Rat → Bool) (xs : List (Expr × Rat)) :
    powersBound (xs.filter keep) ≤ powersBound xs :=
  (List.filter_sublist.map _).sum_le_sum fun _ _ => Nat.zero_le _

theorem powersBound_erase_le {base : Expr} {x : Rat} : ∀ {xs : List (Expr × Rat)},
    (∀ l ∈ Tally.keys xs, Expr.Canonical l) → (base, x) ∈ xs →
      powersBound (xs.filter fun p => Expr.compare base p.1 != .eq) +
        magnitude x * base.exponentBound ≤ powersBound xs
  | p :: xs, hc, hmem => by
    obtain ⟨hp, hxs⟩ := List.forall_mem_cons.mp hc
    rcases List.mem_cons.mp hmem with rfl | hmem
    · rw [List.filter_cons_of_neg (by simp [Expr.compare_self]), powersBound_cons, Nat.add_comm]
      exact Nat.add_le_add_left (powersBound_filter_le _ xs) _
    · have := powersBound_erase_le hxs hmem
      rw [List.filter_cons]
      split
      · rw [powersBound_cons, powersBound_cons]
        omega
      · rw [powersBound_cons]
        omega

/-- Handing the constant to a sum raises no bound. -/
theorem Bases.bound_replace_le {b : Bases} {base d : Expr} {x : Rat} (hc : b.Canonical)
    (hmem : (base, x) ∈ b.exponents.entries) (hx : x = 1 ∨ x = -1) (hd : Expr.Canonical d)
    (hsum : base.isSum = true) (hle : d.exponentBound ≤ base.exponentBound) :
    (b.replace base x d).bound ≤ powersBound b.exponents.entries := by
  have herase := powersBound_erase_le hc hmem
  change powersBound (b.exponents.erase base).entries + _ ≤ _ at herase
  have hone : magnitude x = 1 := by
    rcases hx with rfl | rfl
    · exact magnitude_one
    · exact magnitude_neg_one
  have hbase : 1 ≤ base.exponentBound := by
    obtain ⟨ts, rfl⟩ := exists_of_isSum hsum
    rw [exponentBound_eq_degree rfl rfl, degree]
    omega
  rw [hone, one_mul] at herase
  have hadd : ∀ t : Tally, (∀ l ∈ Tally.keys t.entries, Expr.Canonical l) →
      powersBound t.entries ≤ powersBound (b.exponents.erase base).entries →
        (Bases.mk 1 (t.add d x)).bound ≤ powersBound b.exponents.entries := by
    intro t ht hle'
    have h := powersBound_addTo_le x hd ht
    change powersBound (t.add d x).entries ≤ _ at h
    rw [hone, one_mul] at h
    have hconst : (Expr.const 1).exponentBound = 0 := by
      rw [exponentBound_const, if_pos (Or.inr rfl)]
    change powersBound (t.add d x).entries + (Expr.const 1).exponentBound ≤ _
    rw [hconst]
    omega
  have hkeys : ∀ l ∈ Tally.keys (b.exponents.erase base).entries, Expr.Canonical l := by
    intro l hl
    obtain ⟨p, hp, rfl⟩ := List.mem_map.mp hl
    exact hc p.1 (List.mem_map_of_mem (mem_entries_erase.mp hp).1)
  unfold replace
  split
  · split
    · rename_i value _
      have := exponentBound_const_le value
      rw [bound]
      dsimp only
      omega
    · refine hadd _ (fun l hl => ?_) (powersBound_filter_le _ _)
      obtain ⟨p, hp, rfl⟩ := List.mem_map.mp hl
      exact hkeys p.1 (List.mem_map_of_mem (mem_entries_erase.mp hp).1)
  · exact hadd _ hkeys le_rfl

/-! ## Steps -/

/-- The visit of `e` raises neither its degree nor its bound. -/
structure Bounded (v : Expr → Expr) (e : Expr) : Prop where
  canonical : Expr.Canonical (v e)
  exponentBound_le : (v e).exponentBound ≤ e.exponentBound
  degree_le : (v e).degree ≤ e.degree

section Steps

variable {v : Expr → Expr}

theorem bounded_sumStep {ts : List Expr} (h : ∀ t ∈ ts, Bounded v t) :
    (sumStep v ts).exponentBound ≤ (Expr.sum ts).degree := by
  rw [degree]
  refine exponentBound_collect_le (fun u hu => ?_) (fun u hu => ?_) <;>
    obtain ⟨r, hr, hur⟩ := List.mem_flatMap.mp hu <;>
    obtain ⟨t, ht, rfl⟩ := List.mem_map.mp hr
  · exact (h t ht).canonical.of_terms u hur
  · exact (degree_of_mem_terms hur).trans
      ((h t ht).degree_le.trans (largestDegree_le.mp le_rfl t ht))

theorem powersBound_visitedBases_le {fs : List Expr} (h : ∀ f ∈ fs, Bounded v f) :
    powersBound (visitedBases v fs).exponents.entries ≤ (Expr.product fs).degree := by
  have hcanon : ∀ r ∈ fs.map v, Expr.Canonical r := by
    intro r hr
    obtain ⟨f, hf, rfl⟩ := List.mem_map.mp hr
    exact (h f hf).canonical
  have hflat := canonical_flatMap_factors hcanon
  rw [visitedBases, Bases.ofFactors_eq, degree_product]
  refine (powersBound_ofList_le (canonical_keys_exponentsOf fun g hg => (hflat g hg).1)).trans ?_
  rw [powersBound_exponentsOf fun g hg => (hflat g hg).2, degree_flatMap_factors, List.map_map]
  exact List.sum_le_sum fun f hf => (h f hf).degree_le

theorem bound_visitedBases_le {fs : List Expr} (he : Expr.Canonical (.product fs))
    (h : ∀ f ∈ fs, Bounded v f) :
    (visitedBases v fs).bound ≤ (Expr.product fs).exponentBound := by
  have hcanon : ∀ r ∈ fs.map v, Expr.Canonical r := by
    intro r hr
    obtain ⟨f, hf, rfl⟩ := List.mem_map.mp hr
    exact (h f hf).canonical
  have hflat := canonical_flatMap_factors hcanon
  have hpowers : powersBound (visitedBases v fs).exponents.entries ≤
      ((fs.map v).map degree).sum := by
    rw [visitedBases, Bases.ofFactors_eq]
    refine (powersBound_ofList_le (canonical_keys_exponentsOf fun g hg => (hflat g hg).1)).trans ?_
    rw [powersBound_exponentsOf fun g hg => (hflat g hg).2, degree_flatMap_factors]
  have hconst : (Expr.const (visitedBases v fs).constant).exponentBound ≤
      ((fs.map v).map constantCount).sum := by
    have := constantCount_productOf_le hcanon
    rw [constantCount, constants_factors_productOf (constructed_of_canonical hcanon)] at this
    rw [visitedBases, Bases.ofFactors_eq, exponentBound_const]
    exact this
  have hsum : ((fs.map v).map degree).sum + ((fs.map v).map constantCount).sum ≤
      (fs.map exponentBound).sum := by
    rw [← List.sum_map_add, List.map_map]
    exact List.sum_le_sum fun f hf => (h f hf).exponentBound_le
  rw [← exponentBound_product he, Bases.bound]
  omega

/-- The terms of the sum that takes over the constant are no larger than the product. -/
theorem degree_scaledTerm_le {fs : List Expr} (h : ∀ f ∈ fs, Bounded v f) {base t : Expr}
    {x scale : Rat} (habs : (visitedBases v fs).absorber? = some (base, x, scale))
    (ht : t ∈ base.terms) :
    (productOf [.const scale, t]).degree + 1 ≤ base.exponentBound ∧
      base.exponentBound ≤ (Expr.product fs).degree := by
  obtain ⟨hmem, hsum, hx⟩ := Bases.absorber?_eq_some habs
  have hle := powersBound_visitedBases_le h
  constructor
  · obtain ⟨ts, rfl⟩ := exists_of_isSum hsum
    have hterm := (@largestDegree_le (largestDegree ts) ts).mp le_rfl t ht
    have hprod := degree_productOf_le [.const scale, t]
    rw [List.map_cons, List.map_singleton, List.sum_cons, List.sum_singleton, degree_const] at hprod
    rw [exponentBound_eq_degree rfl rfl, degree]
    omega
  · refine le_trans ?_ hle
    have hone : magnitude x = 1 := by
      rcases hx with ⟨rfl, -⟩ | ⟨rfl, -⟩
      · exact magnitude_one
      · exact magnitude_neg_one
    have hentry : magnitude x * base.exponentBound ∈
        (visitedBases v fs).exponents.entries.map fun p => magnitude p.2 * p.1.exponentBound :=
      List.mem_map.mpr ⟨_, hmem, rfl⟩
    rw [hone, one_mul] at hentry
    exact List.single_le_sum (fun _ _ => Nat.zero_le _) _ hentry

theorem exponentBound_scaledSum_le {base : Expr} {q : Rat} (hsum : base.isSum = true)
    (h : ∀ t ∈ base.terms, Bounded v (productOf [.const q, t]) ∧
      (productOf [.const q, t]).degree + 1 ≤ base.exponentBound) :
    (scaledSum v q base).exponentBound ≤ base.exponentBound := by
  obtain ⟨ts, rfl⟩ := exists_of_isSum hsum
  have hbase : (Expr.sum ts).exponentBound = largestDegree ts + 1 := by
    rw [exponentBound_eq_degree rfl rfl, degree]
  rw [hbase] at h ⊢
  refine exponentBound_collect_le (fun u hu => ?_) (fun u hu => ?_) <;>
    obtain ⟨t, ht, hut⟩ := List.mem_flatMap.mp hu
  · exact (h t ht).1.canonical.of_terms u hut
  · exact (degree_of_mem_terms hut).trans
      ((h t ht).1.degree_le.trans (Nat.le_of_succ_le_succ (h t ht).2))

/-- The sum that takes over the constant does not raise the bound of the powers. -/
theorem bound_replace_scaledSum_le {fs : List Expr} (h : ∀ f ∈ fs, Bounded v f)
    (hs : ∀ base x scale, (visitedBases v fs).absorber? = some (base, x, scale) →
      ∀ t ∈ base.terms, Bounded v (productOf [.const scale, t])) {base : Expr} {x scale : Rat}
    (habs : (visitedBases v fs).absorber? = some (base, x, scale)) :
    Expr.Canonical (scaledSum v scale base) ∧
      ((visitedBases v fs).replace base x (scaledSum v scale base)).bound ≤
        (Expr.product fs).degree := by
  have hbases : (visitedBases v fs).Canonical :=
    Bases.canonical_ofFactors (canonical_visited fun f hf => (h f hf).canonical)
  obtain ⟨hmem, hsum, hx⟩ := Bases.absorber?_eq_some habs
  have hterm := hs base x scale habs
  have hcanon : Expr.Canonical (scaledSum v scale base) :=
    canonical_scaledSum fun t ht => (hterm t ht).canonical
  have hscaled := exponentBound_scaledSum_le hsum fun t ht =>
    ⟨hterm t ht, (degree_scaledTerm_le h habs ht).1⟩
  exact ⟨hcanon, (Bases.bound_replace_le hbases hmem (hx.imp And.left And.left) hcanon hsum
    hscaled).trans (powersBound_visitedBases_le h)⟩

/-- Handing the constant over raises no degree. -/
theorem powersBound_absorbed_le {fs : List Expr} (h : ∀ f ∈ fs, Bounded v f)
    (hs : ∀ base x scale, (visitedBases v fs).absorber? = some (base, x, scale) →
      ∀ t ∈ base.terms, Bounded v (productOf [.const scale, t])) :
    ((visitedBases v fs).absorbed v).Canonical ∧
      powersBound ((visitedBases v fs).absorbed v).exponents.entries ≤
        (Expr.product fs).degree := by
  have hbases : (visitedBases v fs).Canonical :=
    Bases.canonical_ofFactors (canonical_visited fun f hf => (h f hf).canonical)
  have hpowers := powersBound_visitedBases_le h
  unfold Bases.absorbed
  split
  · exact ⟨hbases, hpowers⟩
  · split
    · exact ⟨hbases, hpowers⟩
    · rename_i base x scale habs
      obtain ⟨hcanon, hreplace⟩ := bound_replace_scaledSum_le h hs habs
      exact ⟨hbases.replace hcanon, (Nat.le_add_right _ _).trans hreplace⟩

/-- Handing the constant over raises no bound. -/
theorem bound_absorbed_le {fs : List Expr} (he : Expr.Canonical (.product fs))
    (h : ∀ f ∈ fs, Bounded v f)
    (hs : ∀ base x scale, (visitedBases v fs).absorber? = some (base, x, scale) →
      ∀ t ∈ base.terms, Bounded v (productOf [.const scale, t])) :
    ((visitedBases v fs).absorbed v).bound ≤ (Expr.product fs).exponentBound := by
  have hbound := bound_visitedBases_le he h
  unfold Bases.absorbed
  split
  · exact hbound
  · split
    · exact hbound
    · rename_i base x scale habs
      obtain ⟨-, hreplace⟩ := bound_replace_scaledSum_le h hs habs
      exact hreplace.trans (degree_le_exponentBound (.product fs))

theorem degree_productStep_le {fs : List Expr} (h : ∀ f ∈ fs, Bounded v f)
    (hs : ∀ base x scale, (visitedBases v fs).absorber? = some (base, x, scale) →
      ∀ t ∈ base.terms, Bounded v (productOf [.const scale, t])) :
    (productStep v fs).degree ≤ (Expr.product fs).degree := by
  obtain ⟨hcanon, hpowers⟩ := powersBound_absorbed_le h hs
  rw [productStep]
  split
  · exact Nat.zero_le _
  · exact (Bases.exponentBound_product_le hcanon).2.trans hpowers

theorem exponentBound_productStep_le {fs : List Expr} (he : Expr.Canonical (.product fs))
    (h : ∀ f ∈ fs, Bounded v f)
    (hs : ∀ base x scale, (visitedBases v fs).absorber? = some (base, x, scale) →
      ∀ t ∈ base.terms, Bounded v (productOf [.const scale, t])) :
    (productStep v fs).exponentBound ≤ (Expr.product fs).exponentBound := by
  rw [productStep]
  split
  · rw [Expr.zero, exponentBound_const]
    exact Nat.zero_le _
  · exact (Bases.exponentBound_product_le (powersBound_absorbed_le h hs).1).1.trans
      (bound_absorbed_le he h hs)

/-- A power of evaluated operands. -/
theorem exponentBound_simplePower_le (b : Expr) (n : Rat) :
    (simplePower b (.const n)).exponentBound ≤ magnitude n * b.exponentBound := by
  unfold simplePower
  split
  · rw [Expr.zero, exponentBound_const]
    exact Nat.zero_le _
  split
  · rw [Expr.one, exponentBound_const, if_pos (Or.inr rfl)]
    exact Nat.zero_le _
  split
  · rw [Expr.one, exponentBound_const, if_pos (Or.inr rfl)]
    exact Nat.zero_le _
  split
  · rename_i h1
    obtain rfl : n = 1 := beq_iff_eq.mp h1
    rw [magnitude_one, one_mul]
  rename_i hz hone hn0 _
  have hpower : (Expr.power b (.const n)).exponentBound ≤ magnitude n * b.exponentBound := by
    rw [exponentBound_eq_degree rfl rfl, degree_power]
  split
  · rename_i p n' heq
    cases heq
    split
    · have hp : ¬(p = 0 ∨ p = 1) := by
        rintro (rfl | rfl)
        · exact hz rfl
        · exact hone rfl
      have hmag : 1 ≤ magnitude n := one_le_magnitude fun h => hn0 (beq_iff_eq.mpr h)
      refine (exponentBound_const_le _).trans ?_
      rwa [exponentBound_const, if_neg hp, mul_one]
    · exact hpower
  · exact hpower

end Steps

/-! ## The whole evaluation -/

section Evaluated

variable {σ : String → Rat}

/-- The powers of the factors of a product count as much as the power of the product. -/
theorem exponentBound_powers_le {fs : List Expr} (h : Expr.Canonical (.product fs)) (n : Rat) :
    (productOf (fs.map fun f => Expr.power f (.const n))).exponentBound ≤
      magnitude n * (Expr.product fs).exponentBound := by
  refine (exponentBound_productOf_le (canonical_powers h (.const n))).trans (Nat.le_of_eq ?_)
  rw [← exponentBound_product h, List.map_map, ← List.sum_map_mul_left]
  refine congrArg List.sum (List.map_congr_left fun f _ => ?_)
  change (Expr.power f (.const n)).exponentBound = _
  rw [exponentBound_eq_degree rfl rfl, degree_power]

theorem exponentBound_powerStep_le {b : Expr} {n : Rat}
    (h : ∀ e', SubVisit evaluated e' (Expr.power b (.const n)) → Bounded evaluated e')
    (hd : Defined σ (Expr.power (evaluated b) (.const n))) :
    (powerStep evaluated b (.const n)).exponentBound ≤ (Expr.power b (.const n)).degree := by
  have hb := h b .left
  have hle : magnitude n * (evaluated b).exponentBound ≤ (Expr.power b (.const n)).degree := by
    rw [degree_power]
    exact Nat.mul_le_mul_left _ hb.exponentBound_le
  refine le_trans ?_ hle
  unfold powerStep
  split
  · rename_i fs heq
    have hcanon : Expr.Canonical (.product fs) := heq ▸ hb.canonical
    rw [heq]
    exact (h _ (.distributed heq)).exponentBound_le.trans (exponentBound_powers_le hcanon n)
  · rename_i b' x' heq
    rw [heq] at hd
    obtain ⟨m, rfl⟩ := exists_const_of_defined_nested hd
    have hinner : (Expr.power b' (.const m)).exponentBound = magnitude m * b'.exponentBound := by
      rw [exponentBound_eq_degree rfl rfl, degree_power]
    change _ = Expr.power b' (.const m) at heq
    rw [evaluated_productOf_const, heq, hinner, ← Nat.mul_assoc]
    exact (exponentBound_simplePower_le _ _).trans
      (Nat.mul_le_mul_right _ (magnitude_mul_le n m))
  · rw [evaluated_const]
    exact exponentBound_simplePower_le _ _

/-- What the induction shows of an expression: its evaluated form has its value and no larger bound. -/
structure Sound (σ : String → Rat) (e : Expr) : Prop where
  denotes : Denotes σ (evaluated e) (value σ e)
  bounded : Bounded evaluated e

theorem Sound.preserves {e : Expr} (h : Sound σ e) : Preserves σ evaluated e :=
  ⟨h.bounded.canonical, fun _ => h.denotes⟩

theorem Defined.of_power {b x : Expr} (h : Defined σ (Expr.power b x)) :
    ∃ n, x = .const n ∧ Defined σ b ∧ b.degree ≤ (Expr.power b (.const n)).degree := by
  cases h with
  | binary hop _ _ => cases hop
  | power hb _ h0 _ =>
    refine ⟨_, rfl, hb, (degree_le_exponentBound b).trans ?_⟩
    rw [degree_power]
    exact Nat.le_mul_of_pos_left _ (one_le_magnitude h0)

/-- **A visit of a step is of a defined expression of no larger degree.** -/
theorem SubVisit.degree_le {e e' : Expr} (hsub : SubVisit evaluated e' e) (hd : Defined σ e)
    (ih : ∀ c, SubVisit evaluated c e → Defined σ c → c.degree ≤ e.degree → Sound σ c) :
    Defined σ e' ∧ e'.degree ≤ e.degree := by
  cases hsub with
  | term ht =>
    rw [degree]
    exact ⟨hd.of_terms e' ht, Nat.le_succ_of_le (largestDegree_le.mp le_rfl e' ht)⟩
  | factor hf => exact ⟨hd.of_factors e' hf, degree_of_mem_factors hf⟩
  | @scaledTerm t base x scale fs habs ht =>
    have hfactor : ∀ f ∈ fs, Sound σ f := fun f hf =>
      ih f (.factor hf) (hd.of_factors f hf) (degree_of_mem_factors hf)
    obtain ⟨w, hw, -⟩ := denotes_visitedBases (fun f hf => (hfactor f hf).preserves) hd.of_factors
    have hbase : Defined σ base := (hw.sound _ (Bases.absorber?_eq_some habs).1).defined
    have hle := degree_scaledTerm_le (fun f hf => (hfactor f hf).bounded) habs ht
    refine ⟨(denotes_productOf_pair ⟨.const scale, rfl⟩ ⟨hbase.of_terms t ht, rfl⟩).defined, ?_⟩
    omega
  | @left op l r =>
    cases hd with
    | power hb hn h0 hneg =>
      obtain ⟨n, hx, hbase, hle⟩ := Defined.of_power (.power hb hn h0 hneg)
      exact ⟨hbase, hx ▸ hle⟩
    | binary hop hl _ =>
      refine ⟨hl, (degree_le_exponentBound e').trans ?_⟩
      rw [degree_binary (by rintro rfl; cases hop)]
      exact le_max_left _ _
  | @right op l r =>
    cases hd with
    | power _ _ _ _ => exact ⟨.const _, Nat.zero_le _⟩
    | binary hop _ hr =>
      refine ⟨hr, (degree_le_exponentBound e').trans ?_⟩
      rw [degree_binary (by rintro rfl; cases hop)]
      exact le_max_right _ _
  | @distributed b x fs heq =>
    obtain ⟨n, rfl, hbase, hle⟩ := Defined.of_power hd
    have hb := ih b .left hbase hle
    obtain ⟨hpow, -⟩ := defined_power_evaluated hb.preserves hd
    rw [heq] at hpow
    have hcanon : Expr.Canonical (.product fs) := heq ▸ hb.bounded.canonical
    refine ⟨(denotes_productOf (denotes_powers hpow).1).defined, ?_⟩
    refine (degree_le_exponentBound _).trans ((exponentBound_powers_le hcanon n).trans ?_)
    rw [degree_power, ← heq]
    exact Nat.mul_le_mul_left _ hb.bounded.exponentBound_le
  | @exponents b x b' x' heq =>
    obtain ⟨n, rfl, hbase, hle⟩ := Defined.of_power hd
    have hb := ih b .left hbase hle
    obtain ⟨hpow, -⟩ := defined_power_evaluated hb.preserves hd
    rw [heq] at hpow
    obtain ⟨m, rfl⟩ := exists_const_of_defined_nested hpow
    rw [evaluated_const, productOf_const_const]
    exact ⟨.const _, Nat.zero_le _⟩
  | operand =>
    cases hd with
    | not ha =>
      rw [degree]
      exact ⟨ha, degree_le_exponentBound e'⟩
  | member hm => cases hd

/-- The exponents of constants are bounded by the degree. -/
theorem exactStep_of_degree_le {e : Expr} (hd : Defined σ e)
    (ih : ∀ c, SubVisit evaluated c e → Defined σ c → c.degree ≤ e.degree → Sound σ c)
    (hle : e.degree ≤ Rational.maxExactExponent) : ExactStep e := by
  intro p n u hraises hp0 hp1 hu
  have hp : (Expr.const p).exponentBound = 1 := by
    rw [exponentBound_const, if_neg fun h => h.elim hp0 hp1]
  have hbounded : ∀ {n : Rat}, Rational.isInteger n = true → magnitude n ≤ e.degree →
      n.num.natAbs ≤ Rational.maxExactExponent := by
    intro n hn hmag
    obtain ⟨i, rfl⟩ := exists_int_of_isInteger hn
    rw [magnitude_intCast] at hmag
    exact hmag.trans hle
  cases hraises with
  | @direct b x _ _ hb hx =>
    obtain ⟨n₀, rfl, hbase, hdeg⟩ := Defined.of_power hd
    obtain rfl : n₀ = n := by
      rw [evaluated_const] at hx
      exact Expr.const.inj hx
    have hsound := ih b .left hbase hdeg
    obtain ⟨hpow, -⟩ := defined_power_evaluated hsound.preserves hd
    have hone := hsound.bounded.exponentBound_le
    rw [hb, hp] at hone
    have hn : Rational.isInteger n₀ = true := by
      cases hpow with
      | power _ hn _ _ => exact hn
      | binary hop _ _ => cases hop
    refine pow?_exact hn (hbounded hn ?_) hu
    rw [degree_power]
    exact Nat.le_mul_of_pos_right _ hone
  | @nested b x x' _ _ hb hx =>
    obtain ⟨n₀, rfl, hbase, hdeg⟩ := Defined.of_power hd
    have hsound := ih b .left hbase hdeg
    obtain ⟨hpow, -⟩ := defined_power_evaluated hsound.preserves hd
    have hbound := hsound.bounded.exponentBound_le
    rw [hb] at hpow hbound
    obtain ⟨m, rfl⟩ := exists_const_of_defined_nested hpow
    obtain rfl : n₀ * m = n := by
      rw [evaluated_productOf_const] at hx
      exact Expr.const.inj hx
    rw [exponentBound_eq_degree rfl rfl, degree_power, hp, Nat.mul_one] at hbound
    obtain ⟨hdefined, -⟩ := denotes_nested hpow
    have hn : Rational.isInteger (n₀ * m) = true := by
      cases hdefined with
      | power _ hn _ _ => exact hn
      | binary hop _ _ => cases hop
    refine pow?_exact hn (hbounded hn ?_) hu
    rw [degree_power]
    exact (magnitude_mul_le n₀ m).trans (Nat.mul_le_mul_left _ hbound)

/-- No step raises degree or bound. -/
theorem bounded_step {e : Expr} (he : Expr.Canonical e) (hd : Defined σ e)
    (h : ∀ c, SubVisit evaluated c e → Sound σ c) : Bounded evaluated e := by
  have hbounded := fun c hc => (h c hc).bounded
  have hatom : ∀ {r : Expr}, e.isConst = false → e.isProduct = false →
      r.exponentBound ≤ e.degree → r.exponentBound ≤ e.exponentBound ∧ r.degree ≤ e.degree := by
    intro r hc hp hr
    rw [exponentBound_eq_degree hc hp]
    exact ⟨hr, (degree_le_exponentBound r).trans hr⟩
  have hboolean : ∀ t : Bool, (Expr.boolean t).exponentBound = 0 := by
    intro t
    cases t
    · exact (exponentBound_const 0).trans (if_pos (Or.inl rfl))
    · exact (exponentBound_const 1).trans (if_pos (Or.inr rfl))
  have hcanon := canonical_evaluated he
  suffices hle : (evaluated e).exponentBound ≤ e.exponentBound ∧ (evaluated e).degree ≤ e.degree from
    ⟨hcanon, hle.1, hle.2⟩
  cases hd with
  | const q => exact ⟨le_rfl, le_rfl⟩
  | var n c => exact ⟨le_rfl, le_rfl⟩
  | sum _ =>
    rw [evaluated_sum he]
    exact hatom rfl rfl (bounded_sumStep fun t ht => hbounded t (.term ht))
  | @product fs _ =>
    rw [evaluated_product he]
    have hfactors := fun f hf => hbounded f (.factor hf)
    have hscaled : ∀ base x scale, (visitedBases evaluated fs).absorber? = some (base, x, scale) →
        ∀ t ∈ base.terms, Bounded evaluated (productOf [.const scale, t]) :=
      fun base x scale habs t ht => hbounded _ (.scaledTerm habs ht)
    exact ⟨exponentBound_productStep_le he hfactors hscaled, degree_productStep_le hfactors hscaled⟩
  | power hb hn h0 hneg =>
    obtain ⟨hpow, -⟩ := defined_power_evaluated (h _ .left).preserves (.power hb hn h0 hneg)
    rw [evaluated_power he]
    exact hatom rfl rfl (exponentBound_powerStep_le hbounded hpow)
  | @binary op l r hop _ _ =>
    have hne : op ≠ .power := by
      rintro rfl
      cases hop
    rw [evaluated_binary hne he]
    refine hatom rfl rfl ?_
    rw [binaryStep]
    split
    · rw [hboolean]
      exact Nat.zero_le _
    · rw [exponentBound_eq_degree rfl rfl, degree_binary hne, degree_binary hne]
      exact max_le_max (hbounded l .left).exponentBound_le (hbounded r .right).exponentBound_le
  | @not a _ =>
    rw [evaluated_not he]
    refine hatom rfl rfl ?_
    rw [notStep]
    split
    · rw [hboolean]
      exact Nat.zero_le _
    · split
      · rw [hboolean]
        exact Nat.zero_le _
      · rw [exponentBound_eq_degree rfl rfl, degree, degree]
        exact (hbounded a .operand).exponentBound_le

theorem sound_of_degree_le {e : Expr} (he : Expr.Canonical e) (hd : Defined σ e)
    (hle : e.degree ≤ Rational.maxExactExponent) : Sound σ e := by
  refine evaluated_induction (motive := fun e => Defined σ e →
    e.degree ≤ Rational.maxExactExponent → Sound σ e) (fun e he ih hd hle => ?_) he hd hle
  have ih' : ∀ c, SubVisit evaluated c e → Defined σ c → c.degree ≤ e.degree → Sound σ c :=
    fun c hc hdc hdeg => ih c hc hdc (hdeg.trans hle)
  have hvisit : ∀ c, SubVisit evaluated c e → Sound σ c := fun c hc =>
    let h := hc.degree_le hd ih'
    ih' c hc h.1 h.2
  exact ⟨preserves_step he (exactStep_of_degree_le hd ih' hle) (fun c hc => (hvisit c hc).preserves)
    hd, bounded_step he hd hvisit⟩

/-- **Within the bound all powers of constants are exact.** -/
theorem exactPowers_of_degree_le {f : Expr} (hf : Expr.Canonical f) (hd : Defined σ f)
    (hle : f.degree ≤ Rational.maxExactExponent) : ExactPowers f := by
  intro e hvisit
  have hsound : ∀ {e}, Expr.Canonical e → Defined σ e → e.degree ≤ Rational.maxExactExponent →
      ∀ c, SubVisit evaluated c e → Defined σ c → c.degree ≤ e.degree → Sound σ c :=
    fun he _ hle c hc hdc hdeg =>
      sound_of_degree_le (hc.lower_evaluated he).1 hdc (hdeg.trans hle)
  have hreached : Expr.Canonical e ∧ Defined σ e ∧ e.degree ≤ Rational.maxExactExponent := by
    induction hvisit using Relation.ReflTransGen.head_induction_on with
    | refl => exact ⟨hf, hd, hle⟩
    | head hsub _ ih =>
      obtain ⟨hc, hdc, hlec⟩ := ih
      obtain ⟨hda, hlea⟩ := hsub.degree_le hdc (hsound hc hdc hlec)
      exact ⟨(hsub.lower_evaluated hc).1, hda, hlea.trans hlec⟩
  obtain ⟨hc, hdc, hlec⟩ := hreached
  exact exactStep_of_degree_le hdc (hsound hc hdc hlec) hlec

end Evaluated

end SymbolicAlgebra.Evaluator

namespace SymbolicAlgebra.Expr

open Evaluator

/-- **Evaluation preserves the value**: where an expression has a value, the evaluated form has the
same value, provided that the powers of constants computed on the way are exact; and they are exact
for an expression whose degree is at most `Rational.maxExactExponent`. -/
theorem denotes_evaluate {σ : String → Rat} {f : Expr} {v : Rat} (hf : Canonical f)
    (h : Denotes σ f v) : (ExactPowers f → ∀ ctx : Context, Denotes σ (f.evaluate ctx) v) ∧
      (f.degree ≤ Rational.maxExactExponent → ExactPowers f) := by
  obtain ⟨hd, rfl⟩ := h
  refine ⟨fun hexact ctx => ?_, exactPowers_of_degree_le hf hd⟩
  rw [evaluate_eq hf]
  exact denotes_evaluated hf hexact hd

/-- The cube of `1 + x` at `x = 1`. -/
theorem denotes_evaluate_cube :
    Denotes (fun _ => 1) ((power (sumOf [const 1, symbol "x"]) (const 3)).evaluate
      (.inert .standard)) 8 := by
  have hterms : ∀ x ∈ [const 1, symbol "x"], Canonical x ∧ Defined (fun _ => 1) x ∧ x.degree ≤ 0 :=
    List.forall_mem_cons.mpr ⟨⟨.const 1, .const 1, by simp⟩,
      List.forall_mem_singleton.mpr ⟨.var "x", .var "x" none, by simp [symbol, degree]⟩⟩
  have hbase : Denotes (fun _ => 1) (sumOf [const 1, symbol "x"]) 2 := by
    obtain ⟨hd, hvalue⟩ := denotes_sumOf fun x hx => (hterms x hx).2.1
    exact ⟨hd, hvalue.trans (by norm_num [symbol])⟩
  have hcube : Denotes (fun _ => 1) (power (sumOf [const 1, symbol "x"]) (const 3)) 8 :=
    ⟨.power hbase.defined rfl (by norm_num) (by norm_num), by
      rw [value_power, hbase.value_eq]
      norm_num⟩
  have hdegree : (power (sumOf [const 1, symbol "x"]) (const 3)).degree ≤
      Rational.maxExactExponent := by
    have hle := exponentBound_sumOf_le fun x hx => (hterms x hx).2.2
    rw [degree_power, show magnitude 3 = 3 from magnitude_intCast 3]
    exact (Nat.mul_le_mul_left 3 hle).trans (by decide)
  have hcanon := (canonical_sumOf fun x hx => (hterms x hx).1).power (.const 3)
  obtain ⟨hvalue, hexact⟩ := denotes_evaluate hcanon hcube
  exact hvalue (hexact hdegree) _

end SymbolicAlgebra.Expr
