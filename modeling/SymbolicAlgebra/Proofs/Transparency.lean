import SymbolicAlgebra.Proofs.Outcome
import SymbolicAlgebra.Proofs.Termination

/-!
# Evaluation of canonical expressions

On canonical expressions, which have no calls, the outcome of an evaluation is `evaluated`, whatever
the context, and the depth set aside for an expression is enough for it.

Results:
* `outcome?_eq_evaluated`: above the height the outcome is the evaluated form.
* `evaluateHolding_of_outcome?`: what is evaluated is the outcome, for any expression that has one.
* `evaluate_eq`: `evaluate` is `evaluated` on canonical expressions, whatever the context.
* `distribute_eq`: the same for multiplying out.
-/

namespace SymbolicAlgebra.Evaluator

open Expr

/-- **Above the height the outcome is the evaluated form.** -/
theorem outcome?_eq_evaluated (settings : Settings) : ∀ {n : Nat} {e : Expr}, Canonical e →
    e.height < n → outcome? settings n e = some (evaluated e)
  | n + 1, e, he, hn => by
    rw [outcome?, if_pos (builtIn_of_plain he.plain), evaluated_eq he]
    refine Agreement.option.step he.plain fun e' hsub => ?_
    obtain ⟨he', hlt⟩ := hsub.lower_evaluated he
    exact outcome?_eq_evaluated settings he' (Nat.lt_of_lt_of_le hlt (Nat.le_of_lt_succ hn))

/-- Multiplying out visits below the threshold. -/
theorem distribute_gives (settings : Settings) {depth : Nat} {x a : Expr}
    (h : ∀ e ∈ distributeVisits x a, Canonical e ∧ e.height < depth) :
    (memoAgreement settings (depth + 1)).Gives (Evaluator.distribute (visitTo settings depth) x a)
      (distributed evaluated x a) :=
  (memoAgreement settings (depth + 1)).distribute fun e he =>
    visitTo_gives settings depth (outcome?_eq_evaluated settings (h e he).1 (h e he).2)
      (Nat.lt_succ_self depth) le_rfl

theorem height_lt_depthFor (e : Expr) : e.height < depthFor e := by
  have h₁ := height_add_le e
  have h₂ : 6 * (e.size + 1000) ≤ Nat.pow (e.size + 1000) 3 := by
    rw [Nat.pow_eq, pow_succ]
    refine Nat.mul_le_mul_right _ ?_
    rw [pow_two]
    exact Nat.le_trans (by omega) (Nat.le_mul_self (e.size + 1000))
  rw [depthFor]
  omega

end SymbolicAlgebra.Evaluator

namespace SymbolicAlgebra.Expr

open Evaluator

-- The equations are checked between functions: between their values the kernel would run the
-- evaluator.
theorem evaluate_def (f : Expr) (ctx : Context) :
    f.evaluate ctx = ((Evaluator.new ctx).visit f).1 :=
  have h : evaluate = fun f ctx => ((Evaluator.new ctx).visit f).1 := rfl
  congrFun (congrFun h f) ctx

theorem evaluateHolding_def (f : Expr) (held : List Expr) (ctx : Context) :
    f.evaluateHolding held ctx = ((Evaluator.holding ctx held).visit f).1 :=
  have h : evaluateHolding = fun f held ctx => ((Evaluator.holding ctx held).visit f).1 := rfl
  congrFun (congrFun (congrFun h f) held) ctx

theorem distribute_def (x a : Expr) (ctx : Context) :
    x.distribute a ctx = ((Evaluator.new ctx).multiplyOut x a).1 :=
  have h : distribute = fun x a ctx => ((Evaluator.new ctx).multiplyOut x a).1 := rfl
  congrFun (congrFun (congrFun h x) a) ctx

theorem fst_run {α : Type} (v : Evaluator) (action : StateM State α) :
    (v.run action).1 = (action.run v.state).1 := rfl

/-- **What is evaluated is the outcome**, where there is one at the depth set aside. -/
theorem evaluateHolding_of_outcome? {f r : Expr} {held : List Expr} {ctx : Context} {n : Nat}
    (h : outcome? ⟨ctx, held⟩ n f = some r) (hn : n ≤ depthFor f) :
    f.evaluateHolding held ctx = r := by
  rw [evaluateHolding_def, Evaluator.visit, fst_run]
  exact (visitTo_gives _ n h (Nat.lt_succ_self n) hn _ (consistent_empty _ _)).1

theorem evaluate_of_outcome? {f r : Expr} {ctx : Context} {n : Nat}
    (h : outcome? ⟨ctx, []⟩ n f = some r) (hn : n ≤ depthFor f) : f.evaluate ctx = r := by
  rw [evaluate_def, Evaluator.visit, fst_run]
  exact (visitTo_gives _ n h (Nat.lt_succ_self n) hn _ (consistent_empty _ _)).1

/-- **`evaluate` is `evaluated`** on canonical expressions, whatever the context. -/
theorem evaluate_eq {f : Expr} (hf : Canonical f) (ctx : Context) :
    f.evaluate ctx = evaluated f :=
  evaluate_of_outcome? (outcome?_eq_evaluated _ hf (Nat.lt_succ_self _)) (height_lt_depthFor f)

/-- Nor do held calls make a difference, as there are no calls. -/
theorem evaluateHolding_eq {f : Expr} (hf : Canonical f) (held : List Expr) (ctx : Context) :
    f.evaluateHolding held ctx = evaluated f :=
  evaluateHolding_of_outcome? (outcome?_eq_evaluated _ hf (Nat.lt_succ_self _))
    (height_lt_depthFor f)

/-- **`distribute` is `distributed`** where the products that it visits are not too high. -/
theorem distribute_eq {x a : Expr} (h : ∀ e ∈ distributeVisits x a,
      Canonical e ∧ e.height < depthFor (productOf [x, a])) (ctx : Context) :
    x.distribute a ctx = distributed evaluated x a := by
  rw [distribute_def, Evaluator.multiplyOut, fst_run]
  exact (distribute_gives _ h _ (consistent_empty _ _)).1

end SymbolicAlgebra.Expr
