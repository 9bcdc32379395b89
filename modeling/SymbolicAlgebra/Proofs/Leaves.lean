import Mathlib.Data.ENat.Basic
import SymbolicAlgebra.Proofs.Counts
import SymbolicAlgebra.Proofs.Slope

/-!
# Evaluation adds no variables

The leaves of an arithmetic expression are its occurrences of variables; an expression with a call, a
relation, a condition or an exponent that is no constant counts as infinite, so that one bound says
both that an expression is arithmetic and how large it is. Evaluation copies nothing: like terms and
like bases are combined, constants are multiplied into sums term by term, and a power is distributed
over a product with its exponent only.

Results:
* `leaves_evaluated_le`: evaluation adds no leaves.
* `isRational_of_leaves`: an arithmetic expression is rational where its value is meant.
-/

namespace SymbolicAlgebra

namespace Expr

/-! ## Leaves -/

mutual

/-- The number of occurrences of variables. -/
def leaves : Expr → ℕ∞
  | const _ => 0
  | var _ none => 1
  | sum ts => leavesList ts
  | product fs => leavesList fs
  | binary .power b (const _) => leaves b
  | _ => ⊤

/-- The number of occurrences in a list. -/
def leavesList : List Expr → ℕ∞
  | [] => 0
  | t :: ts => leaves t + leavesList ts

end

theorem leavesList_eq (xs : List Expr) : leavesList xs = (xs.map leaves).sum := by
  induction xs with
  | nil => rw [leavesList, List.map_nil, List.sum_nil]
  | cons x xs ih => rw [leavesList, ih, List.map_cons, List.sum_cons]

@[simp] theorem leaves_const (q : Rat) : (const q).leaves = 0 := by rw [leaves]

@[simp] theorem leaves_symbol (n : String) : (symbol n).leaves = 1 := by rw [symbol, leaves]

@[simp] theorem leaves_sum (ts : List Expr) : (sum ts).leaves = (ts.map leaves).sum := by
  rw [leaves, leavesList_eq]

@[simp] theorem leaves_product (fs : List Expr) : (product fs).leaves = (fs.map leaves).sum := by
  rw [leaves, leavesList_eq]

@[simp] theorem leaves_power_const (b : Expr) (n : Rat) :
    (power b (.const n)).leaves = b.leaves := by
  rw [power, leaves]

theorem leaves_power {b x : Expr} (hx : x.isConst = false) : (power b x).leaves = ⊤ := by
  cases x with
  | const q => cases hx
  | _ => rfl

theorem leaves_binary {op : BinaryOp} (hop : op ≠ .power) (l r : Expr) :
    (binary op l r).leaves = ⊤ := by
  cases op with
  | power => exact absurd rfl hop
  | _ => rfl

theorem leaves_le_sum {x : Expr} {xs : List Expr} (hx : x ∈ xs) : x.leaves ≤ (xs.map leaves).sum :=
  List.single_le_sum (fun _ _ => zero_le) _ (List.mem_map_of_mem hx)

/-- **An arithmetic expression is rational where its value is meant.** -/
theorem isRational_of_leaves {σ : String → Rat} {e : Expr} (hd : Defined σ e)
    (h : e.leaves ≠ ⊤) : IsRational e := by
  induction hd with
  | const q => exact .const q
  | var n c =>
    cases c with
    | none => exact .var n
    | some c => exact absurd rfl h
  | sum _ ih =>
    rw [leaves_sum] at h
    exact .sum fun t ht => ih t ht (ne_top_of_le_ne_top h (leaves_le_sum ht))
  | product _ ih =>
    rw [leaves_product] at h
    exact .product fun f hf => ih f hf (ne_top_of_le_ne_top h (leaves_le_sum hf))
  | power _ hn h0 _ ih =>
    rw [leaves_power_const] at h
    exact .power (ih h) hn h0
  | binary hop _ _ => exact absurd (leaves_binary (by rintro rfl; cases hop) _ _) h
  | not _ => exact absurd rfl h

/-- Leaves add up over the operands of sums and products. -/
theorem counts_leaves : Counts leaves := ⟨leaves_const, leaves_sum, leaves_product⟩

theorem leaves_sumOf (xs : List Expr) : (sumOf xs).leaves = (xs.map leaves).sum :=
  counts_leaves.sumOf xs

theorem leaves_productOf_le (xs : List Expr) : (productOf xs).leaves ≤ (xs.map leaves).sum :=
  counts_leaves.productOf_le xs

end Expr

namespace Evaluator

open Expr

theorem leaves_splitExponent (f : Expr) : (splitExponent f).1.leaves = f.leaves := by
  unfold splitExponent
  split
  · exact (leaves_power_const _ _).symm
  · rfl

theorem leaves_raised (b : Expr) (x : Rat) : (raised b x).leaves = b.leaves := by
  rw [raised]
  split
  · rfl
  · exact leaves_power_const b x

/-! ## Steps -/

theorem totalOfKeys_exponentsOf_leaves (fs : List Expr) :
    totalOfKeys Expr.leaves (exponentsOf fs) = (fs.map Expr.leaves).sum := by
  rw [← counts_leaves.others, totalOfKeys, exponentsOf, List.map_map]
  exact congrArg List.sum (List.map_congr_left fun f _ => leaves_splitExponent f)

theorem leaves_productStep_le {v : Expr → Expr} {fs : List Expr}
    (h : ∀ f ∈ fs, (v f).leaves ≤ f.leaves)
    (hs : ∀ base x scale, (visitedBases v fs).absorber? = some (base, x, scale) →
      ∀ t ∈ base.terms, (v (productOf [.const scale, t])).leaves ≤ t.leaves) :
    (productStep v fs).leaves ≤ (Expr.product fs).leaves := by
  refine (Counts.productStep_le counts_leaves (fun k x => (leaves_raised k x).le)
    (fun _ _ => id) hs).trans ?_
  rw [visitedBases, Bases.ofFactors_eq, leaves_product]
  refine (totalOfKeys_ofList_le _).trans ?_
  rw [totalOfKeys_exponentsOf_leaves, Expr.Counts.flatMap counts_leaves.factors, List.map_map]
  exact List.sum_le_sum h

theorem leaves_simplePower_le (b : Expr) (n : Rat) : (simplePower b (.const n)).leaves ≤ b.leaves := by
  obtain ⟨q, h⟩ | ⟨-, h⟩ | ⟨h, -⟩ := simplePower_cases b (.const n)
  · rw [h]
    exact zero_le
  · rw [h]
  · rw [h, leaves_power_const]

theorem leaves_powerStep_le {b : Expr} {n : Rat}
    (h : ∀ e', SubVisit evaluated e' (Expr.power b (.const n)) →
      (evaluated e').leaves ≤ e'.leaves) :
    (powerStep evaluated b (.const n)).leaves ≤ (Expr.power b (.const n)).leaves := by
  have hb := h b .left
  rw [leaves_power_const]
  refine le_trans ?_ hb
  unfold powerStep
  split
  · next fs heq =>
    have hpowers : (fs.map fun f => Expr.power f (.const n)).map Expr.leaves =
        fs.map Expr.leaves := by
      rw [List.map_map]
      exact List.map_congr_left fun f _ => leaves_power_const f n
    refine (h _ (.distributed heq)).trans ((leaves_productOf_le _).trans ?_)
    rw [hpowers, heq, leaves_product]
  · next b' x' heq =>
    rw [heq]
    cases hx : x'.isConst
    · exact le_top.trans_eq (leaves_power hx).symm
    · obtain ⟨m, rfl⟩ := exists_of_isConst hx
      rw [evaluated_productOf_const]
      exact (leaves_simplePower_le b' _).trans_eq (leaves_power_const b' m).symm
  · rw [evaluated_const]
    exact leaves_simplePower_le _ n

/-- **Evaluation adds no leaves.** -/
theorem leaves_evaluated_le {e : Expr} (he : Expr.Canonical e) :
    (evaluated e).leaves ≤ e.leaves := by
  refine evaluated_induction (motive := fun e => (evaluated e).leaves ≤ e.leaves)
    (fun e he ih => ?_) he
  cases e with
  | const q => exact le_rfl
  | var n c => rw [evaluated_var]
  | sum ts =>
    rw [evaluated_sum he]
    exact Counts.sumStep_le counts_leaves fun t ht => ih t (.term ht)
  | product fs =>
    rw [evaluated_product he]
    refine leaves_productStep_le (fun f hf => ih f (.factor hf)) fun base x scale habs t ht => ?_
    exact (ih _ (.scaledTerm habs ht)).trans (counts_leaves.productOf_const_le scale t)
  | binary op l r =>
    by_cases hop : op = .power
    · subst hop
      cases hx : r.isConst
      · exact le_top.trans_eq (leaves_power hx).symm
      · obtain ⟨n, rfl⟩ := exists_of_isConst hx
        change (evaluated (Expr.power l (.const n))).leaves ≤ (Expr.power l (.const n)).leaves
        rw [evaluated_power he]
        exact leaves_powerStep_le ih
    · exact le_top.trans_eq (leaves_binary hop l r).symm
  | not a => exact le_top
  | call f args => exact le_top
  | set ms => exact le_top

end Evaluator

end SymbolicAlgebra
