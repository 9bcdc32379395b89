import Mathlib.LinearAlgebra.Matrix.ToLinearEquiv
import SymbolicAlgebra.Matrix
import SymbolicAlgebra.Proofs.Closed
import SymbolicAlgebra.Proofs.Sharing

/-!
# The inverse of a matrix of constants

On a matrix of constants every row operation of the elimination is the row operation on rationals.
The right matrix `R` then stays regular with `R * A = L` for the left matrix `L` (`Accumulates`), and
after `k` columns the first `k` columns of `L` are those of the identity (`UnitColumns`). A column
without a pivot is a combination of the columns before it, so that `A` is singular.

Results:
* `column_constants`: what the elimination of one column does.
* `foldlM_column`: what the elimination of the first `k` columns does.
* `inverse_ofConstants`: the inverse is `A⁻¹`, and it is refused exactly if `A` is singular.
-/

namespace SymbolicAlgebra.ExprMatrix

open Expr

variable {m n : Nat}

/-! ## Constant entries -/

/-- A row of constants. -/
def constantRow (v : Fin n → Rat) : List Expr :=
  List.ofFn fun j => .const (v j)

/-- The rows of a matrix of constants. -/
def constantRows (A : Matrix (Fin m) (Fin n) Rat) : List (List Expr) :=
  List.ofFn fun i => constantRow (A i)

/-- The matrix with the entries of `A`. -/
def ofConstants (A : Matrix (Fin n) (Fin n) Rat) : ExprMatrix :=
  ⟨constantRows A, n, n⟩

theorem getElem?_constantRows (A : Matrix (Fin m) (Fin n) Rat) (i : Fin m) :
    (constantRows A)[(i : Nat)]? = some (constantRow (A i)) := by
  rw [constantRows, List.getElem?_ofFn, dif_pos i.isLt]

theorem getD_constantRows (A : Matrix (Fin m) (Fin n) Rat) (i : Fin m) :
    (constantRows A).getD i [] = constantRow (A i) := by
  rw [List.getD_eq_getElem?_getD, getElem?_constantRows, Option.getD_some]

theorem getElem?_constantRow (v : Fin n → Rat) (j : Fin n) :
    (constantRow v)[(j : Nat)]? = some (.const (v j)) := by
  rw [constantRow, List.getElem?_ofFn, dif_pos j.isLt]

theorem entry_constantRows (A : Matrix (Fin m) (Fin n) Rat) (i : Fin m) (j : Fin n) :
    entry (constantRows A) i j = .const (A i j) := by
  rw [entry, getElem?_constantRows, Option.bind_some, getElem?_constantRow, Option.getD_some]

theorem set_constantRows (A : Matrix (Fin m) (Fin n) Rat) (i : Fin m) (v : Fin n → Rat) :
    (constantRows A).set i (constantRow v) = constantRows (A.updateRow i v) := by
  refine List.ext_getElem (by simp [constantRows]) fun k _ _ => ?_
  simp only [constantRows, List.getElem_set, List.getElem_ofFn]
  by_cases hik : (i : Nat) = k
  · subst hik
    rw [if_pos rfl, Matrix.updateRow_self]
  · rw [if_neg hik, Matrix.updateRow_ne fun h => hik (congrArg Fin.val h).symm]

theorem ofRows_constantRows (A : Matrix (Fin n) (Fin n) Rat) :
    ofRows (constantRows A) = ofConstants A := by
  cases n with
  | zero => rfl
  | succ n => simp [ofRows, ofConstants, constantRows, constantRow, List.ofFn_succ]

theorem identity_eq_ofConstants (n : Nat) :
    identity n = ofConstants (1 : Matrix (Fin n) (Fin n) Rat) := by
  have hentry : ∀ i j : Fin n, (if (i : Nat) = j then Expr.one else .zero) =
      .const ((1 : Matrix (Fin n) (Fin n) Rat) i j) := by
    intro i j
    rw [Matrix.one_apply]
    by_cases hij : i = j
    · rw [if_pos (congrArg Fin.val hij), if_pos hij]
      rfl
    · rw [if_neg fun h => hij (Fin.ext h), if_neg hij]
      rfl
  refine congrArg (ExprMatrix.mk · n n) (List.ext_getElem (by simp [constantRows]) fun i hi _ => ?_)
  refine List.ext_getElem (by simp [constantRows, constantRow]) fun j hj _ => ?_
  simp only [List.getElem_map, List.getElem_range, constantRows, constantRow, List.getElem_ofFn]
  simp only [List.length_map, List.length_range, List.getElem_map] at hi hj
  exact hentry ⟨i, hi⟩ ⟨j, hj⟩

/-- Constants are evaluated already. -/
theorem evaluate_ofConstants (A : Matrix (Fin n) (Fin n) Rat) (ctx : Context) :
    (ofConstants A).evaluate ctx = ofConstants A := by
  have hrow : ∀ row ∈ constantRows A, evaluateAll row .empty ctx = row := by
    intro row hrow
    obtain ⟨i, rfl⟩ := List.mem_ofFn.mp hrow
    have hconst : ∀ e ∈ constantRow (A i), ∃ q, e = .const q := fun e he => by
      obtain ⟨j, rfl⟩ := List.mem_ofFn.mp he
      exact ⟨_, rfl⟩
    rw [evaluateAll_eq fun e he => by
      obtain ⟨q, rfl⟩ := hconst e he
      exact .const q]
    refine List.map_congr_left (g := id) (fun e he => ?_) |>.trans (List.map_id _)
    obtain ⟨q, rfl⟩ := hconst e he
    exact (evaluate_eq (.const q) ctx).trans (Evaluator.evaluated_const q)
  rw [evaluate, evaluateWith, ofConstants, List.map_congr_left (g := id) hrow, List.map_id,
    ofRows_constantRows]
  rfl

theorem map_zip_constantRows (v : Fin m → Rat) (B : Matrix (Fin m) (Fin n) Rat) (j : Fin n) :
    ((constantRow v).zip (constantRows B)).map (fun (x, r) => x * r.getD j .zero) =
      ((List.finRange m).map fun k => v k * B k j).map Expr.const := by
  have hfactor : ∀ k, Expr.const (v k) * (constantRow (B k)).getD j .zero =
      .const (v k * B k j) := by
    intro k
    rw [List.getD_eq_getElem?_getD, getElem?_constantRow, Option.getD_some]
    exact Expr.productOf_const_const _ _
  rw [constantRow, constantRows, List.ofFn_eq_map, List.ofFn_eq_map, List.zip_map', List.map_map,
    List.map_map]
  exact List.map_congr_left fun k _ => hfactor k

theorem productEntry_constantRows (v : Fin m → Rat) (B : Matrix (Fin m) (Fin n) Rat) (j : Fin n) :
    productEntry (constantRow v) (constantRows B) j = .const (∑ k, v k * B k j) := by
  rw [productEntry, map_zip_constantRows, sumOf_map_const, Fin.sum_univ_def]

/-- The product of matrices of constants is that of the matrices. -/
theorem product_ofConstants (A B : Matrix (Fin n) (Fin n) Rat) :
    product (ofConstants A) (ofConstants B) = ofConstants (A * B) := by
  have hrow : ∀ i, ((List.range n).map fun j =>
      productEntry (constantRow (A i)) (constantRows B) j) = constantRow ((A * B) i) := by
    intro i
    refine List.ext_getElem (by simp [constantRow]) fun j hj _ => ?_
    rw [List.length_map, List.length_range] at hj
    simp only [List.getElem_map, List.getElem_range, constantRow, List.getElem_ofFn]
    exact productEntry_constantRows (A i) B ⟨j, hj⟩
  have hrows : ((constantRows A).map fun row =>
      (List.range n).map fun j => productEntry row (constantRows B) j) = constantRows (A * B) := by
    change (List.ofFn fun i => constantRow (A i)).map _ = _
    rw [List.map_ofFn]
    exact congrArg List.ofFn (funext hrow)
  exact (congrArg ofRows hrows).trans (ofRows_constantRows _)

/-! ## Row operations -/

-- The operators are stated apart: where `evaluate` is compared at `a * b` and at the product of the
-- two, the kernel would run the evaluator.
theorem computes_mul {a b : Expr} {p q : Rat} (ha : Computes a p) (hb : Computes b q) :
    Computes (a * b) (p * q) :=
  ha.productOf hb

theorem computes_add {a b : Expr} {p q : Rat} (ha : Computes a p) (hb : Computes b q) :
    Computes (a + b) (p + q) :=
  ha.sumOf hb

theorem scaleRow_constantRow (ctx : Context) (c : Rat) (v : Fin n → Rat) :
    scaleRow ctx (.const c) (constantRow v) = constantRow (c • v) := by
  rw [scaleRow, constantRow, List.map_ofFn]
  refine congrArg List.ofFn (funext fun j => ?_)
  rw [Pi.smul_apply, smul_eq_mul, mul_comm, Function.comp_apply]
  exact (computes_mul (.const (v j)) (.const c)).evaluate ctx

theorem addRow_constantRow (ctx : Context) (c : Rat) (source target : Fin n → Rat) :
    addRow ctx (.const c) (constantRow source) (constantRow target) =
      constantRow (target + c • source) := by
  rw [addRow, constantRow, constantRow, constantRow, List.ofFn_eq_map, List.ofFn_eq_map,
    List.ofFn_eq_map, List.zip_map', List.map_map]
  refine List.map_congr_left fun j _ => ?_
  rw [Pi.add_apply, Pi.smul_apply, smul_eq_mul, mul_comm c, Function.comp_apply]
  exact (computes_add (.const (target j)) (computes_mul (.const (source j)) (.const c))).evaluate ctx

theorem swapRows_constantRows (A : Matrix (Fin m) (Fin n) Rat) (i p : Fin m) :
    swapRows (constantRows A) i p = constantRows (A.submatrix (Equiv.swap i p) id) := by
  rw [swapRows, getD_constantRows, getD_constantRows, set_constantRows, set_constantRows]
  refine congrArg constantRows (funext fun k => ?_)
  by_cases hp : k = p
  · subst hp
    rw [Matrix.updateRow_self]
    exact congrArg A (Equiv.swap_apply_right i k).symm
  · rw [Matrix.updateRow_ne hp]
    by_cases hi : k = i
    · subst hi
      rw [Matrix.updateRow_self]
      exact congrArg A (Equiv.swap_apply_left k p).symm
    · rw [Matrix.updateRow_ne hi]
      exact congrArg A (Equiv.swap_apply_of_ne_of_ne hi hp).symm

/-- The elimination of matrices of constants. -/
def eliminationOf (L R : Matrix (Fin n) (Fin n) Rat) : Elimination :=
  ⟨constantRows L, constantRows R⟩

/-- Row `p` with the entry in the column of row `i` cleared. -/
def clearedRow (i p : Fin n) (L M : Matrix (Fin n) (Fin n) Rat) : Matrix (Fin n) (Fin n) Rat :=
  M.updateRow p (M p + -L p i • M i)

theorem clearRow_eliminationOf (ctx : Context) {i p : Fin n} (hp : p ≠ i)
    (L R : Matrix (Fin n) (Fin n) Rat) :
    Elimination.clearRow ctx i (eliminationOf L R) p =
      eliminationOf (clearedRow i p L L) (clearedRow i p L R) := by
  have hfactor : (-(entry (constantRows L) p i)).evaluate ctx = .const (-L p i) := by
    rw [entry_constantRows]
    exact (Computes.const (L p i)).negate.evaluate ctx
  rw [Elimination.clearRow, if_neg fun h => hp (Fin.ext h)]
  simp only [eliminationOf, hfactor, getD_constantRows, addRow_constantRow, set_constantRows]
  rfl

/-! ## What the elimination keeps -/

/-- The right matrix is regular and turns `A` into the left one. -/
structure Accumulates (A L R : Matrix (Fin n) (Fin n) Rat) : Prop where
  product : R * A = L
  regular : R.det ≠ 0

variable {A L R : Matrix (Fin n) (Fin n) Rat}

theorem Accumulates.swap (h : Accumulates A L R) (i p : Fin n) :
    Accumulates A (L.submatrix (Equiv.swap i p) id) (R.submatrix (Equiv.swap i p) id) where
  product := by rw [← h.product]; rfl
  regular := by
    rw [Matrix.det_permute]
    refine mul_ne_zero ?_ h.regular
    exact_mod_cast (Equiv.Perm.sign (Equiv.swap i p)).ne_zero

theorem Accumulates.vecMul (h : Accumulates A L R) (i : Fin n) :
    Matrix.vecMul (R i) A = L i := by
  rw [← h.product]
  rfl

theorem Accumulates.scale (h : Accumulates A L R) (i : Fin n) {c : Rat} (hc : c ≠ 0) :
    Accumulates A (L.updateRow i (c • L i)) (R.updateRow i (c • R i)) where
  product := by rw [Matrix.updateRow_mul, h.product, Matrix.smul_vecMul, h.vecMul]
  regular := by
    rw [Matrix.det_updateRow_smul, Matrix.updateRow_eq_self]
    exact mul_ne_zero hc h.regular

theorem Accumulates.clear (h : Accumulates A L R) {i p : Fin n} (hp : p ≠ i) :
    Accumulates A (clearedRow i p L L) (clearedRow i p L R) where
  product := by
    rw [clearedRow, Matrix.updateRow_mul, h.product, Matrix.add_vecMul, Matrix.smul_vecMul, h.vecMul,
      h.vecMul]
    rfl
  regular := by
    rw [clearedRow, Matrix.det_updateRow_add_smul_self R hp]
    exact h.regular

/-- The first `k` columns are those of the identity. -/
def UnitColumns (k : Nat) (L : Matrix (Fin n) (Fin n) Rat) : Prop :=
  ∀ p j : Fin n, (j : Nat) < k → L p j = (1 : Matrix (Fin n) (Fin n) Rat) p j

/-! ## One column -/

theorem UnitColumns.zero (L : Matrix (Fin n) (Fin n) Rat) : UnitColumns 0 L :=
  fun _ _ h => absurd h (Nat.not_lt_zero _)

theorem UnitColumns.eq_one (h : UnitColumns n L) : L = 1 :=
  funext fun p => funext fun j => h p j j.isLt

/-- Rows from the pivot on have zeros in the columns before it. -/
theorem UnitColumns.eq_zero {i p j : Fin n} (h : UnitColumns i L) (hip : i ≤ p) (hj : j < i) :
    L p j = 0 :=
  (h p j hj).trans (Matrix.one_apply_ne (hj.trans_le hip).ne')

theorem UnitColumns.updateRow {i p : Fin n} {v : Fin n → Rat} (h : UnitColumns i L)
    (hv : ∀ j < i, v j = L p j) : UnitColumns i (L.updateRow p v) := by
  intro q j hj
  by_cases hq : q = p
  · subst hq
    rw [Matrix.updateRow_self, hv j hj, h q j hj]
  · rw [Matrix.updateRow_ne hq, h q j hj]

theorem UnitColumns.scale {i : Fin n} (h : UnitColumns i L) (c : Rat) :
    UnitColumns i (L.updateRow i (c • L i)) :=
  h.updateRow fun j hj => by rw [Pi.smul_apply, h.eq_zero le_rfl hj, smul_zero]

theorem UnitColumns.clear {i : Fin n} (h : UnitColumns i L) (p : Fin n) :
    UnitColumns i (clearedRow i p L L) :=
  h.updateRow fun j hj => by
    rw [Pi.add_apply, Pi.smul_apply, h.eq_zero le_rfl hj, smul_zero, add_zero]

theorem UnitColumns.swap {i p : Fin n} (h : UnitColumns i L) (hip : i ≤ p) :
    UnitColumns i (L.submatrix (Equiv.swap i p) id) := by
  intro q j hj
  rw [Matrix.submatrix_apply, id]
  by_cases hi : q = i
  · rw [hi, Equiv.swap_apply_left, h.eq_zero hip hj, ← h i j hj, h.eq_zero le_rfl hj]
  · by_cases hp : q = p
    · rw [hp, Equiv.swap_apply_right, h.eq_zero le_rfl hj, ← h p j hj, h.eq_zero hip hj]
    · rw [Equiv.swap_apply_of_ne_of_ne hi hp, h q j hj]

/-- A column without a pivot is the combination of the columns before it with the entries above the
diagonal as coefficients. -/
theorem UnitColumns.det_eq_zero {i : Fin n} (h : UnitColumns i L) (hzero : ∀ p, i ≤ p → L p i = 0) :
    L.det = 0 := by
  let w : Fin n → Rat := fun j => if j < i then L j i else 0
  have hw : L.mulVec w = w := by
    funext p
    have hterm : ∀ j, L p j * w j = (1 : Matrix (Fin n) (Fin n) Rat) p j * w j := by
      intro j
      by_cases hj : j < i
      · rw [h p j hj]
      · simp only [w, if_neg hj, mul_zero]
    calc L.mulVec w p = ∑ j, L p j * w j := rfl
      _ = ∑ j, (1 : Matrix (Fin n) (Fin n) Rat) p j * w j := Finset.sum_congr rfl fun j _ => hterm j
      _ = w p := congrFun (Matrix.one_mulVec w) p
  have hcolumn : L.mulVec (Pi.single i 1) = w := by
    rw [Matrix.mulVec_single_one]
    funext p
    by_cases hp : p < i
    · exact (if_pos hp).symm
    · exact (hzero p (not_lt.mp hp)).trans (if_neg hp).symm
  refine Matrix.exists_mulVec_eq_zero_iff.mp ⟨w - Pi.single i 1, fun hv => ?_, ?_⟩
  · have := congrFun hv i
    simp [w] at this
  · rw [Matrix.mulVec_sub, hw, hcolumn, sub_self]

/-- Column `i` is that of the identity in the rows before `k`, and so are the columns before it. -/
structure ClearedBelow (i : Fin n) (k : Nat) (L : Matrix (Fin n) (Fin n) Rat) : Prop where
  columns : UnitColumns i L
  pivot : L i i = 1
  cleared : ∀ p : Fin n, (p : Nat) < k → p ≠ i → L p i = 0

theorem ClearedBelow.unitColumns {i : Fin n} (h : ClearedBelow i n L) : UnitColumns (i + 1) L := by
  intro p j hj
  rcases Nat.lt_succ_iff_lt_or_eq.mp hj with hj | hj
  · exact h.columns p j hj
  · rw [Fin.ext hj]
    by_cases hp : p = i
    · rw [hp, h.pivot, Matrix.one_apply_eq]
    · rw [h.cleared p p.isLt hp, Matrix.one_apply_ne hp]

theorem clearedRow_apply_self {i p : Fin n} (hi : L i i = 1) : clearedRow i p L L p i = 0 := by
  rw [clearedRow, Matrix.updateRow_self, Pi.add_apply, Pi.smul_apply, hi, smul_eq_mul, mul_one,
    add_neg_cancel]

theorem clearedRow_apply_of_ne {i p q : Fin n} (hq : q ≠ p) (j : Fin n) :
    clearedRow i p L L q j = L q j := by
  rw [clearedRow, Matrix.updateRow_ne hq]

theorem ClearedBelow.step {i k : Fin n} (h : ClearedBelow i k L) (hk : k ≠ i) :
    ClearedBelow i (k + 1) (clearedRow i k L L) where
  columns := h.columns.clear k
  pivot := (clearedRow_apply_of_ne hk.symm i).trans h.pivot
  cleared p hp hpi := by
    rcases Nat.lt_succ_iff_lt_or_eq.mp hp with hp | hp
    · rw [clearedRow_apply_of_ne fun h' => absurd hp (by rw [h']; exact lt_irrefl _)]
      exact h.cleared p hp hpi
    · cases Fin.ext hp
      exact clearedRow_apply_self h.pivot

theorem ClearedBelow.skip {i : Fin n} (h : ClearedBelow i i L) : ClearedBelow i (i + 1) L where
  columns := h.columns
  pivot := h.pivot
  cleared p hp hpi :=
    h.cleared p ((Nat.lt_succ_iff_lt_or_eq.mp hp).resolve_right fun h' => hpi (Fin.ext h')) hpi

/-- The pivot row clears the rows of a column one after the other. -/
theorem foldl_clearRow (ctx : Context) {i : Fin n} (ha : Accumulates A L R)
    (hc : ClearedBelow i 0 L) (k : Nat) (hk : k ≤ n) : ∃ L' R',
      (List.range k).foldl (Elimination.clearRow ctx i) (eliminationOf L R) = eliminationOf L' R' ∧
        Accumulates A L' R' ∧ ClearedBelow i k L' := by
  induction k with
  | zero => exact ⟨L, R, rfl, ha, hc⟩
  | succ k ih =>
    obtain ⟨L', R', hfold, ha', hc'⟩ := ih (Nat.le_of_succ_le hk)
    rw [List.range_succ, List.foldl_append, hfold, List.foldl_cons, List.foldl_nil]
    by_cases hki : k = i
    · subst hki
      rw [Elimination.clearRow, if_pos rfl]
      exact ⟨L', R', rfl, ha', hc'.skip⟩
    · have hne : (⟨k, hk⟩ : Fin n) ≠ i := fun h => hki (congrArg Fin.val h)
      exact ⟨_, _, clearRow_eliminationOf ctx hne L' R', ha'.clear hne,
        ClearedBelow.step (k := ⟨k, hk⟩) hc' hne⟩

theorem pivotRow?_constantRows (L : Matrix (Fin n) (Fin n) Rat) (i : Fin n) :
    (pivotRow? (constantRows L) n i = none ∧ ∀ p, i ≤ p → L p i = 0) ∨
      ∃ p : Fin n, pivotRow? (constantRows L) n i = some (p : Nat) ∧ i ≤ p ∧ L p i ≠ 0 := by
  have hmem : ∀ p, p ∈ List.range' i (n - i) ↔ (i : Nat) ≤ p ∧ p < n := fun p => by
    rw [List.mem_range'_1]
    omega
  have hzero : ∀ q : Rat, (Expr.const q).isZero = true ↔ q = 0 := fun q => beq_iff_eq
  cases hp : pivotRow? (constantRows L) n i with
  | none =>
    refine .inl ⟨rfl, fun p hip => ?_⟩
    have := List.find?_eq_none.mp hp p ((hmem p).mpr ⟨hip, p.isLt⟩)
    rw [entry_constantRows] at this
    simpa [hzero] using this
  | some p =>
    obtain ⟨hip, hpn⟩ := (hmem p).mp (List.mem_of_find?_eq_some hp)
    have hpivot := List.find?_some hp
    rw [show entry (constantRows L) p i = _ from entry_constantRows L ⟨p, hpn⟩ i,
      Bool.not_eq_true'] at hpivot
    refine .inr ⟨⟨p, hpn⟩, rfl, hip, fun h0 => ?_⟩
    rw [(hzero _).mpr h0] at hpivot
    cases hpivot

theorem Accumulates.det_eq_zero (h : Accumulates A L R) (hL : L.det = 0) : A.det = 0 := by
  rw [← h.product, Matrix.det_mul] at hL
  exact (mul_eq_zero.mp hL).resolve_left h.regular

/-- **One column**: it becomes that of the identity, unless `A` is singular. -/
theorem column_constants (ctx : Context) {i : Fin n} (ha : Accumulates A L R)
    (hu : UnitColumns i L) :
    (A.det = 0 ∧ Elimination.column ctx n (eliminationOf L R) i = refuse .singularMatrix) ∨
      ∃ L' R', Elimination.column ctx n (eliminationOf L R) i = .ok (eliminationOf L' R') ∧
        Accumulates A L' R' ∧ UnitColumns (i + 1) L' := by
  obtain ⟨hp, hzero⟩ | ⟨p, hp, hip, hpivot⟩ := pivotRow?_constantRows L i
  · refine .inl ⟨ha.det_eq_zero (hu.det_eq_zero hzero), ?_⟩
    simp only [Elimination.column, eliminationOf, hp]
  · have hswap := ha.swap i p
    have hcolumns := hu.swap hip
    have hself : L.submatrix (Equiv.swap i p) id i i = L p i := by
      rw [Matrix.submatrix_apply, Equiv.swap_apply_left, id]
    simp only [Elimination.column, eliminationOf, hp, swapRows_constantRows]
    generalize L.submatrix (Equiv.swap i p) id = M at hswap hself hcolumns ⊢
    generalize R.submatrix (Equiv.swap i p) id = S at hswap ⊢
    have hM : M i i ≠ 0 := hself ▸ hpivot
    have hinverse : (Expr.inverse (entry (constantRows M) i i)).evaluate ctx =
        .const (M i i)⁻¹ := by
      rw [entry_constantRows]
      exact ((Computes.const (M i i)).inverse hM).evaluate ctx
    simp only [hinverse, getD_constantRows, scaleRow_constantRow, set_constantRows]
    have hunit : M.updateRow i ((M i i)⁻¹ • M i) i i = 1 := by
      rw [Matrix.updateRow_self, Pi.smul_apply, smul_eq_mul, inv_mul_cancel₀ hM]
    have hcleared : ClearedBelow i 0 (M.updateRow i ((M i i)⁻¹ • M i)) :=
      ⟨hcolumns.scale _, hunit, fun _ h => absurd h (Nat.not_lt_zero _)⟩
    obtain ⟨L', R', hfold, ha', hc'⟩ :=
      foldl_clearRow ctx (hswap.scale i (inv_ne_zero hM)) hcleared n le_rfl
    exact .inr ⟨L', R', congrArg Except.ok hfold, ha', hc'.unitColumns⟩

/-- **The first `k` columns**: they become those of the identity, unless `A` is singular. -/
theorem foldlM_column (ctx : Context) (A : Matrix (Fin n) (Fin n) Rat) (k : Nat) (hk : k ≤ n) :
    (A.det = 0 ∧ (List.range k).foldlM (Elimination.column ctx n) (eliminationOf A 1) =
        refuse .singularMatrix) ∨
      ∃ L R, (List.range k).foldlM (Elimination.column ctx n) (eliminationOf A 1) =
          .ok (eliminationOf L R) ∧ Accumulates A L R ∧ UnitColumns k L := by
  induction k with
  | zero =>
    refine .inr ⟨A, 1, rfl, ⟨one_mul A, ?_⟩, .zero A⟩
    rw [Matrix.det_one]
    exact one_ne_zero
  | succ k ih =>
    have hsplit : (List.range (k + 1)).foldlM (Elimination.column ctx n) (eliminationOf A 1) =
        (List.range k).foldlM (Elimination.column ctx n) (eliminationOf A 1) >>= fun e =>
          Elimination.column ctx n e k := by
      rw [List.range_succ, List.foldlM_append]
      simp
    rw [hsplit]
    obtain ⟨hdet, hrun⟩ | ⟨L, R, hrun, ha, hu⟩ := ih (Nat.le_of_succ_le hk)
    · rw [hrun]
      exact .inl ⟨hdet, rfl⟩
    · rw [hrun]
      exact column_constants ctx (i := ⟨k, hk⟩) ha hu

/-! ## The inverse -/

/-- **The inverse of a matrix of constants** is `A⁻¹`, and its products with the matrix on both sides
evaluate to the identity; it is refused as singular exactly if the determinant is `0`. -/
theorem inverse_ofConstants (A : Matrix (Fin n) (Fin n) Rat) (ctx : Context) :
    if A.det = 0 then ∃ cause, (ofConstants A).inverse ctx = .error (.invalidArgument cause) ∧
      cause.message = "singular matrix"
    else (ofConstants A).inverse ctx = .ok (ofConstants A⁻¹) ∧
      ((ofConstants A).multiply? (ofConstants A⁻¹)).map (·.evaluate ctx) = some (identity n) ∧
      ((ofConstants A⁻¹).multiply? (ofConstants A)).map (·.evaluate ctx) = some (identity n) := by
  have hmultiply : ∀ B C : Matrix (Fin n) (Fin n) Rat,
      ((ofConstants B).multiply? (ofConstants C)).map (·.evaluate ctx) =
        some (ofConstants (B * C)) := by
    intro B C
    have hfits : (ofConstants B).columnCount = (ofConstants C).rowCount := rfl
    rw [multiply?, if_pos hfits, Option.map_some, product_ofConstants, evaluate_ofConstants]
  have hsquare : (ofConstants A).isSquare = true := beq_self_eq_true n
  have hinverse : (ofConstants A).inverse ctx = do
      let final ← (List.range n).foldlM (Elimination.column ctx n) (eliminationOf A 1)
      return ⟨final.right, n, n⟩ := by
    have hstart : eliminationOf A 1 = ⟨(ofConstants A).rows, (identity n).rows⟩ := by
      rw [identity_eq_ofConstants]
      rfl
    rw [inverse, hsquare, evaluate_ofConstants, hstart]
    rfl
  rw [identity_eq_ofConstants, hmultiply, hmultiply, hinverse]
  obtain ⟨hdet, hrun⟩ | ⟨L, R, hrun, ha, hu⟩ := foldlM_column ctx A n le_rfl
  · rw [if_pos hdet, hrun]
    exact ⟨.singularMatrix, rfl, rfl⟩
  · have hleft : R * A = 1 := ha.product.trans hu.eq_one
    have hdet : IsUnit A.det := Matrix.isUnit_det_of_left_inverse hleft
    rw [if_neg hdet.ne_zero, hrun, Matrix.inv_eq_left_inv hleft, hleft,
      mul_eq_one_comm.mp hleft]
    exact ⟨rfl, rfl, rfl⟩

end SymbolicAlgebra.ExprMatrix
