import SymbolicAlgebra.Proofs.Echelon

/-!
# Solving linear equations

A system of `n` linear equations in `n` unknowns with a nonsingular coefficient matrix. After row
reduction every unknown leads exactly one row, since a row without leading unknown would let the
homogeneous system have another solution; after back substitution the row of an unknown contains
nothing but it and a constant, from which its value is read off.

Results:
* `solutionsBy_systemOf`: the solutions of a system that is cleared.
* `solveBy_systemOf`: the solver on a square system of rows.
* `solve_eq_unique_solution`: the solver finds the unique solution, whichever rows serve as pivot rows.
-/

namespace SymbolicAlgebra

open Expr Evaluator LinearSystem

variable {n : Nat} {names : Fin n → String}

/-! ## Cleared systems -/

/-- The arrows from the last unknown to the first. -/
def arrows (names : Fin n → String) (v : Fin n → Rat) : List Expr :=
  ((List.finRange n).map fun j => arrow (symbol (names j)) (.const (v j))).reverse

section Cleared

variable (hnames : Function.Injective names)

include hnames

/-- A row with a single unknown determines its value. -/
theorem solveFor_encode {r : Row n} {j : Fin n} (hj : r.1 j ≠ 0) (h : ∀ i, i ≠ j → r.1 i = 0)
    (ctx : Context) :
    (encode names r).solveFor (symbol (names j)) ctx = .const (-r.2 / r.1 j) := by
  have hothers : (encode names r).terms.filter
      (fun p => p.1 != symbol (names j) && !p.2.isZero) =
        [(Expr.one, Expr.const r.2)].filter fun p => !p.2.isZero := by
    have hnone : ((List.finRange n).map fun i => (symbol (names i), Expr.const (r.1 i))).filter
        (fun p => p.1 != symbol (names j) && !p.2.isZero) = [] := by
      refine List.filter_eq_nil_iff.mpr fun e he => ?_
      obtain ⟨i, -, rfl⟩ := List.mem_map.mp he
      by_cases hij : i = j
      · simp [bne, (symbol_beq hnames i j).mpr hij]
      · simp [h i hij, isZero]
    exact (List.filter_append _ _).trans (congrArg (· ++ _) hnone)
  have hrest : Computes (sumOf (([(Expr.one, Expr.const r.2)].filter
      fun p => !p.2.isZero).map fun p => productOf [p.2, p.1])) r.2 := by
    have hproduct : Computes (productOf [.const r.2, .one]) r.2 := by
      have hone := (Computes.const r.2).productOf (.const 1)
      rwa [mul_one] at hone
    by_cases h0 : r.2 = 0
    · simpa [h0, isZero] using @Computes.sumOf_list [] (by simp)
    · have hsum := Computes.sumOf_list (List.forall_mem_singleton.mpr ⟨_, hproduct⟩)
      simpa [h0, isZero, hproduct.denotes.value_eq] using hsum
  have hdivide := hrest.divide (Computes.const (r.1 j)).negate (neg_ne_zero.mpr hj)
  rw [LinearCombination.solveFor, hothers, coefficient_encode hnames, hdivide.evaluate, div_neg,
    neg_div]

/-- **The solutions of a cleared system**, whichever search is used. -/
theorem solutionsBy_systemOf {search : PivotSearch} (hsearch : search.Valid) {S : Fin n → Row n}
    {π : Fin n → Fin n} (hπ : Function.Surjective π) (hlead : ∀ i, (S i).lead = some (π i))
    (h : Cleared S (List.finRange n)) (ctx : Context) {v : Fin n → Rat}
    (hv : ∀ i, v (π i) = -(S i).2 / (S i).1 (π i)) :
    solutionsBy search (systemOf names S) (unknowns names) ctx = arrows names v := by
  have hrow : ∀ j, ((systemOf names S).rowForBy? search (symbol (names j))).map
      (fun row => arrow (symbol (names j)) (row.solveFor (symbol (names j)) ctx)) =
        some (arrow (symbol (names j)) (.const (v j))) := by
    intro j
    obtain ⟨i, rfl⟩ := hπ j
    have hcleared : ∀ k, k ≠ π i → (S i).1 k = 0 := by
      intro k hk
      obtain ⟨q, rfl⟩ := hπ k
      exact h.column q (List.mem_finRange q) (π q) (hlead q) i fun hiq => hk (hiq ▸ rfl)
    rw [rowForBy?_systemOf hnames hsearch h, h.firstWith_of_lead (hlead i), Option.map_some,
      Option.map_some, solveFor_encode hnames (Row.ne_zero_of_lead (hlead i)) hcleared, hv]
  rw [solutionsBy, arrows, unknowns, ← List.map_reverse, List.filterMap_map, ← List.map_reverse,
    ← List.filterMap_eq_map]
  exact List.filterMap_congr fun j _ => hrow j

/-- **The solver on a square system of rows** without homogeneous solutions finds its solution. -/
theorem solveBy_systemOf {search : PivotSearch} (hsearch : search.Valid) {equations : List Expr}
    {ctx : Context} {R : Fin n → Row n}
    (hrows : ofEquations equations (unknowns names) ctx = systemOf names R)
    (hR : ∀ x : Fin n → Rat, (∀ i, ∑ j, (R i).1 j * x j = 0) → x = 0) :
    ∃ v, (∀ x, (∀ i, (R i).eval x = 0) ↔ x = v) ∧
      solveBy search equations (unknowns names) ctx = arrows names v := by
  obtain ⟨T, hreduced, honce, hT⟩ := rowReduceBy_systemOf hnames hsearch R ctx
  -- the leading unknowns of the rows are a permutation of the unknowns
  have hexists := exists_lead fun x hx => hR x ((hreduced.homogeneous x).mpr hx)
  obtain ⟨π, hlead⟩ := Classical.axiomOfChoice hexists
  have hinjective : Function.Injective π := fun i i' h =>
    honce (π i) i i' (hlead i) (h ▸ hlead i')
  have hsurjective := Finite.injective_iff_surjective.mp hinjective
  obtain ⟨S, hback, hkept, hcleared, hS⟩ := backSubstitute_systemOf hnames honce ctx
  have hleadS : ∀ i, (S i).lead = some (π i) := fun i => (hkept i).trans (hlead i)
  obtain ⟨ρ, hρ⟩ := hsurjective.hasRightInverse
  have hρπ : ∀ i, ρ (π i) = i := fun i => hinjective (hρ (π i))
  refine ⟨fun j => -(S (ρ j)).2 / (S (ρ j)).1 j, fun x => ?_, ?_⟩
  · have hrow : ∀ i, (S i).eval x = (S i).1 (π i) * x (π i) + (S i).2 := by
      intro i
      rw [Row.eval, Finset.sum_eq_single (π i)]
      · intro k _ hk
        obtain ⟨q, rfl⟩ := hsurjective k
        rw [hcleared.column q (List.mem_finRange q) (π q) (hleadS q) i fun h => hk (h ▸ rfl),
          zero_mul]
      · exact fun h => absurd (Finset.mem_univ _) h
    have hsolved : ∀ i, (S i).eval x = 0 ↔ x (π i) = -(S i).2 / (S i).1 (π i) := by
      intro i
      rw [hrow, eq_div_iff (Row.ne_zero_of_lead (hleadS i)), mul_comm,
        ← eq_neg_iff_add_eq_zero]
    rw [hreduced.eval, hback.eval]
    refine ⟨fun h => funext fun j => ?_, fun h i => (hsolved i).mpr ?_⟩
    · obtain ⟨i, rfl⟩ := hsurjective j
      rw [hρπ, (hsolved i).mp (h i)]
    · rw [h]
      dsimp only
      rw [hρπ]
  · rw [solveBy, hrows, hT, hS]
    exact solutionsBy_systemOf hnames hsearch hsurjective hleadS hcleared ctx fun i => by rw [hρπ]

end Cleared

/-! ## Linear equations -/

/-- A multiple of an unknown, or a constant. -/
abbrev Summand (n : Nat) := Rat × Option (Fin n)

namespace Summand

/-- The summand as an expression. -/
def expr (names : Fin n → String) : Summand n → Expr
  | (q, some j) => productOf [.const q, symbol (names j)]
  | (q, none) => .const q

/-- The value of the summand for values of the unknowns. -/
def value (x : Fin n → Rat) : Summand n → Rat
  | (q, some j) => q * x j
  | (q, none) => q

/-- The coefficient of an unknown. -/
def coefficient (j : Fin n) : Summand n → Rat
  | (q, some i) => if i = j then q else 0
  | (_, none) => 0

/-- The summand as a row. -/
def row : Summand n → Row n
  | (q, some j) => (Pi.single j q, 0)
  | (q, none) => (0, q)

theorem row_eval (s : Summand n) (x : Fin n → Rat) : s.row.eval x = s.value x := by
  rcases s with ⟨q, - | j⟩
  · exact Row.eval_constant q x
  · exact Row.eval_single j q x

theorem row_fst (s : Summand n) (j : Fin n) : s.row.1 j = s.coefficient j := by
  rcases s with ⟨q, - | i⟩
  · rfl
  · simp [row, coefficient, Pi.single_apply, eq_comm]

theorem affineTerm_expr (names : Fin n → String) (s : Summand n) :
    AffineTerm names (s.expr names) := by
  rcases s with ⟨q, - | j⟩
  · exact .const q
  · rw [expr]
    by_cases h0 : q = 0
    · rw [h0, productOf_eq, if_pos (by simp)]
      exact .const 0
    · rw [← scaled_eq_productOf (monic_symbol _).canonical]
      exact .multiple j h0

theorem value_expr (hnames : Function.Injective names) (s : Summand n) (x : Fin n → Rat) :
    Expr.value (assignment names x) (s.expr names) = s.value x := by
  rcases s with ⟨q, - | j⟩
  · exact value_const q
  · rw [expr, ← scaled_eq_productOf (monic_symbol _).canonical, value_scaled_symbol hnames, value]

end Summand

/-- An equation between two sums of multiples of the unknowns and constants. -/
structure LinearEquation (n : Nat) where
  left : List (Summand n)
  right : List (Summand n)

namespace LinearEquation

/-- The equation as the solver takes it. -/
def expr (names : Fin n → String) (equation : LinearEquation n) : Expr :=
  equal (sumOf (equation.left.map (Summand.expr names)))
    (sumOf (equation.right.map (Summand.expr names)))

/-- Both sides have the same value. -/
def Holds (equation : LinearEquation n) (x : Fin n → Rat) : Prop :=
  (equation.left.map (Summand.value x)).sum = (equation.right.map (Summand.value x)).sum

/-- The coefficient of an unknown in the difference of the sides. -/
def coefficient (equation : LinearEquation n) (j : Fin n) : Rat :=
  (equation.left.map (Summand.coefficient j)).sum -
    (equation.right.map (Summand.coefficient j)).sum

/-- The difference of the sides as a row. -/
def row (equation : LinearEquation n) : Row n :=
  (equation.left.map Summand.row).sum - (equation.right.map Summand.row).sum

theorem eval_sum_row (ss : List (Summand n)) (x : Fin n → Rat) :
    (ss.map Summand.row).sum.eval x = (ss.map (Summand.value x)).sum := by
  induction ss with
  | nil => exact Row.eval_zero x
  | cons s ss ih =>
    rw [List.map_cons, List.map_cons, List.sum_cons, List.sum_cons, Row.eval_add, ih, s.row_eval]

theorem fst_sum_row (ss : List (Summand n)) (j : Fin n) :
    (ss.map Summand.row).sum.1 j = (ss.map (Summand.coefficient j)).sum := by
  induction ss with
  | nil => rfl
  | cons s ss ih =>
    rw [List.map_cons, List.map_cons, List.sum_cons, List.sum_cons, Prod.fst_add, Pi.add_apply, ih,
      s.row_fst]

theorem row_eval (equation : LinearEquation n) (x : Fin n → Rat) :
    equation.row.eval x = 0 ↔ equation.Holds x := by
  rw [row, Row.eval_sub, eval_sum_row, eval_sum_row, sub_eq_zero, Holds]

theorem row_fst (equation : LinearEquation n) (j : Fin n) :
    equation.row.1 j = equation.coefficient j := by
  rw [row, Prod.fst_sub, Pi.sub_apply, fst_sum_row, fst_sum_row, coefficient]

/-- A side of an equation. -/
theorem affine_sumOf (names : Fin n → String) (ss : List (Summand n)) :
    Affine names (sumOf (ss.map (Summand.expr names))) := by
  have hcanon : ∀ e ∈ ss.map (Summand.expr names), Canonical e :=
    List.forall_mem_map.mpr fun s _ => (s.affineTerm_expr names).canonical
  refine ⟨canonical_sumOf hcanon, fun t ht => ?_⟩
  obtain hc | ⟨-, e, he, hmem⟩ := mem_terms_sumOf hcanon ht
  · obtain ⟨q, rfl⟩ := exists_of_isConst hc
    exact .const q
  · obtain ⟨s, -, rfl⟩ := List.mem_map.mp he
    have hterm := s.affineTerm_expr names
    rw [terms_eq_self hterm.isSum, List.mem_singleton] at hmem
    exact hmem ▸ hterm

theorem value_sumOf (hnames : Function.Injective names) (ss : List (Summand n))
    (x : Fin n → Rat) :
    Expr.value (assignment names x) (sumOf (ss.map (Summand.expr names))) =
      (ss.map Summand.row).sum.eval x := by
  have hdenotes := denotes_sumOf (List.forall_mem_map.mpr fun s (_ : s ∈ ss) =>
    @AffineTerm.defined n names (assignment names x) _ (s.affineTerm_expr names))
  rw [hdenotes.value_eq, eval_sum_row, List.map_map]
  exact congrArg List.sum (List.map_congr_left fun s _ => s.value_expr hnames x)

/-- **The linear combination of an equation** is the difference of its sides. -/
theorem ofExpr_equalToZero (hnames : Function.Injective names) (equation : LinearEquation n)
    (ctx : Context) :
    LinearCombination.ofExpr (unknowns names) (equalToZero (equation.expr names)) ctx =
      encode names equation.row :=
  ofExpr_subtract hnames (affine_sumOf names _) (affine_sumOf names _)
    (value_sumOf hnames _) (value_sumOf hnames _) ctx

end LinearEquation

/-- **The rows of a system** of equations. -/
theorem ofEquations_eq_systemOf {m : Nat} (hnames : Function.Injective names)
    (system : Fin m → LinearEquation n) (ctx : Context) :
    ofEquations (List.ofFn fun i => (system i).expr names) (unknowns names) ctx =
      systemOf names fun i => (system i).row := by
  rw [ofEquations, List.map_ofFn, systemOf]
  refine congrArg List.ofFn (funext fun i => ?_)
  rw [Function.comp_apply, (system i).ofExpr_equalToZero hnames]

/-- The coefficient matrix of a system. -/
def coefficientMatrix (system : Fin n → LinearEquation n) : Matrix (Fin n) (Fin n) Rat :=
  Matrix.of fun i j => (system i).coefficient j

theorem homogeneous_eq_zero {system : Fin n → LinearEquation n}
    (hdet : (coefficientMatrix system).det ≠ 0) {x : Fin n → Rat}
    (hx : ∀ i, ∑ j, (system i).row.1 j * x j = 0) : x = 0 := by
  by_contra h0
  refine hdet (Matrix.exists_mulVec_eq_zero_iff.mp ⟨x, h0, funext fun i => ?_⟩)
  have hi := hx i
  simp only [LinearEquation.row_fst] at hi
  exact hi

/-- **The solver finds the unique solution** of a system with a nonsingular coefficient matrix: one
arrow for each unknown, from the last to the first, whichever rows the search takes as pivot rows. -/
theorem solve_eq_unique_solution (hnames : Function.Injective names)
    (system : Fin n → LinearEquation n) (hdet : (coefficientMatrix system).det ≠ 0)
    (ctx : Context) :
    ∃ v : Fin n → Rat, (∀ x, (∀ i, (system i).Holds x) ↔ x = v) ∧
      solve (List.ofFn fun i => (system i).expr names) (unknowns names) ctx = arrows names v ∧
      ∀ search : PivotSearch, search.Valid →
        solveBy search (List.ofFn fun i => (system i).expr names) (unknowns names) ctx =
          arrows names v := by
  have hrows := ofEquations_eq_systemOf hnames system ctx
  have hsolve : ∀ search : PivotSearch, search.Valid →
      ∃ v, (∀ x, (∀ i, (system i).Holds x) ↔ x = v) ∧
        solveBy search (List.ofFn fun i => (system i).expr names) (unknowns names) ctx =
          arrows names v := by
    intro search hsearch
    obtain ⟨v, hv, hsol⟩ := solveBy_systemOf hnames hsearch hrows fun x => homogeneous_eq_zero hdet
    refine ⟨v, fun x => ?_, hsol⟩
    rw [← hv]
    exact forall_congr' fun i => ((system i).row_eval x).symm
  obtain ⟨v, hv, hsol⟩ := hsolve findPivot? findPivot?_valid
  refine ⟨v, hv, hsol, fun search hsearch => ?_⟩
  obtain ⟨w, hw, hsol'⟩ := hsolve search hsearch
  have hwv : w = v := (hv w).mp ((hw w).mpr rfl)
  rw [hsol', hwv]

/-- The equations `x + y == 3` and `x - y == 1`. -/
def sumAndDifference : Fin 2 → LinearEquation 2 :=
  ![⟨[(1, some 0), (1, some 1)], [(3, none)]⟩, ⟨[(1, some 0), (-1, some 1)], [(1, none)]⟩]

theorem det_sumAndDifference : (coefficientMatrix sumAndDifference).det ≠ 0 := by
  rw [Matrix.det_fin_two]
  decide +kernel

theorem holds_sumAndDifference (i : Fin 2) : (sumAndDifference i).Holds ![2, 1] := by
  fin_cases i <;> simp [sumAndDifference, LinearEquation.Holds, Summand.value] <;> norm_num

theorem solve_sumAndDifference :
    Function.Injective !["x", "y"] ∧ (coefficientMatrix sumAndDifference).det ≠ 0 ∧
      PivotSearch.Valid findPivot? ∧
      solve (List.ofFn fun i => (sumAndDifference i).expr !["x", "y"])
        [symbol "x", symbol "y"] (.inert .standard) =
          [arrow (symbol "y") (.const 1), arrow (symbol "x") (.const 2)] := by
  have hnames : Function.Injective !["x", "y"] := by decide
  obtain ⟨v, hv, -, hall⟩ :=
    solve_eq_unique_solution hnames sumAndDifference det_sumAndDifference (.inert .standard)
  obtain rfl := (hv _).mp holds_sumAndDifference
  exact ⟨hnames, det_sumAndDifference, findPivot?_valid, hall findPivot? findPivot?_valid⟩

end SymbolicAlgebra
