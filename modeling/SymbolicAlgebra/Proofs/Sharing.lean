import SymbolicAlgebra.Proofs.Replacement
import SymbolicAlgebra.Proofs.Transparency

/-!
# One evaluator for several expressions

An evaluator keeps its table from one visit to the next. Between two visits it is at rest: its results
are outcomes, and nothing that has an outcome is in flight. A visit that has an outcome at the depth
set aside gives this outcome, whatever was visited before, and leaves the evaluator at rest; so a list
of visits gives what each expression would have given alone.

Results:
* `AtRest.visit`: one visit by an evaluator at rest.
* `AtRest.visitAll`: a run of visits, each with its own outcome.
* `evaluateAll_eq`: `evaluateAll` evaluates each of its expressions as if it were the only one.
* `visitAll_eq_map_evaluate`: a shared evaluator gives canonical expressions the evaluated forms that
  fresh ones give, also after a substitution.
-/

namespace SymbolicAlgebra.Evaluator

open Expr

/-- The results that the evaluator has found are outcomes, and nothing that has one is in flight. -/
def AtRest (v : Evaluator) : Prop :=
  ∀ k, Consistent v.settings k v.state

theorem atRest_new (ctx : Context) : (Evaluator.new ctx).AtRest :=
  fun k => consistent_empty _ k

-- These are checked for any action: for a visit the kernel would run the evaluator.
section Run

variable {α : Type} (v : Evaluator)

theorem settings_run (action : StateM State α) : (v.run action).2.settings = v.settings := rfl

theorem AtRest.run {v : Evaluator} {action : StateM State α}
    (h : ∀ k, Consistent v.settings k (action.run v.state).2) : (v.run action).2.AtRest := h

theorem run_visitList_cons (visit : Visit (StateM State)) (e : Expr) (es : List Expr) :
    (v.run (visitList visit (e :: es))).1 =
        (v.run (visit e)).1 :: ((v.run (visit e)).2.run (visitList visit es)).1 ∧
      (v.run (visitList visit (e :: es))).2 =
        ((v.run (visit e)).2.run (visitList visit es)).2 := ⟨rfl, rfl⟩

end Run

theorem settings_visit (v : Evaluator) (e : Expr) : (v.visit e).2.settings = v.settings := by
  rw [Evaluator.visit, settings_run]

/-- **One visit by an evaluator at rest** gives the outcome, whatever was visited before. -/
theorem AtRest.visit {v : Evaluator} (hv : v.AtRest) {e r : Expr} {n : Nat}
    (h : outcome? v.settings n e = some r) (hn : n ≤ depthFor e) :
    (v.visit e).1 = r ∧ (v.visit e).2.AtRest := by
  have hgives (k : Nat) (hk : n < k) := visitTo_gives v.settings n h hk hn v.state (hv k)
  rw [Evaluator.visit, fst_run]
  refine ⟨(hgives (n + 1) (Nat.lt_succ_self n)).1, .run fun k => ?_⟩
  -- above the threshold the visit does not see what is in flight
  exact (hgives (max k (n + 1)) (Nat.le_max_right k (n + 1))).2.1.mono (Nat.le_max_left k (n + 1))

/-- The first visit, then the others by the evaluator that it leaves behind. -/
theorem visitAll_cons (v : Evaluator) (e : Expr) (es : List Expr) :
    (v.visitAll (e :: es)).1 = (v.visit e).1 :: ((v.visit e).2.visitAll es).1 ∧
      (v.visitAll (e :: es)).2 = ((v.visit e).2.visitAll es).2 := by
  rw [visitAll, visitAll, settings_visit, Evaluator.visit]
  exact run_visitList_cons v _ e es

/-- **A run of visits** gives each expression its own outcome. -/
theorem AtRest.visitAll {v : Evaluator} (hv : v.AtRest) {es : List Expr} {r : Expr → Expr}
    (h : ∀ e ∈ es, ∃ n ≤ depthFor e, outcome? v.settings n e = some (r e)) :
    (v.visitAll es).1 = es.map r ∧ (v.visitAll es).2.AtRest := by
  induction es generalizing v with
  | nil => exact ⟨rfl, hv⟩
  | cons e es ih =>
    obtain ⟨⟨n, hn, hfirst⟩, hrest⟩ := List.forall_mem_cons.mp h
    obtain ⟨heq, hv'⟩ := hv.visit hfirst hn
    obtain ⟨heqs, hv''⟩ := ih hv' (by rwa [settings_visit])
    obtain ⟨hfst, hsnd⟩ := visitAll_cons v e es
    rw [hfst, hsnd, heq, heqs]
    exact ⟨rfl, hv''⟩

end SymbolicAlgebra.Evaluator

namespace SymbolicAlgebra.Expr

open Evaluator

/-- One evaluator gives canonical expressions the evaluated forms that fresh ones give. -/
theorem visitAll_eq {fs : List Expr} (h : ∀ f ∈ fs, Canonical f) (ctx : Context) :
    ((Evaluator.new ctx).visitAll fs).1 = fs.map (·.evaluate ctx) := by
  rw [((atRest_new ctx).visitAll fun f hf => ⟨f.height + 1, height_lt_depthFor f,
    outcome?_eq_evaluated _ (h f hf) (Nat.lt_succ_self _)⟩).1]
  exact List.map_congr_left fun f hf => (evaluate_eq (h f hf) ctx).symm

theorem evaluateAll_def (fs : List Expr) (b : Bindings) (ctx : Context) :
    evaluateAll fs b ctx = ((Evaluator.new ctx).visitAll (fs.map fun f => f.substitute b)).1 :=
  have h : evaluateAll = fun fs b ctx =>
    ((Evaluator.new ctx).visitAll (fs.map fun f => f.substitute b)).1 := rfl
  congrFun (congrFun (congrFun h fs) b) ctx

/-- **`evaluateAll` evaluates each expression** as if it were the only one. -/
theorem evaluateAll_eq {fs : List Expr} {b : Bindings} (h : ∀ f ∈ fs, Canonical (f.substitute b))
    (ctx : Context) : evaluateAll fs b ctx = fs.map fun f => (f.substitute b).evaluate ctx := by
  rw [evaluateAll_def, visitAll_eq (List.forall_mem_map.mpr h), List.map_map]
  rfl

/-- **Sharing an evaluator changes nothing.** Canonical expressions visited one after the other get the
evaluated forms that each has alone, and so do the expressions after a substitution of canonical
values. -/
theorem visitAll_eq_map_evaluate {fs : List Expr} (hfs : ∀ f ∈ fs, Canonical f) {b : Bindings}
    (hb : ∀ p ∈ b.entries, Canonical p.2) (ctx : Context) :
    ((Evaluator.new ctx).visitAll fs).1 = fs.map (·.evaluate ctx) ∧
      evaluateAll fs b ctx = fs.map fun f => (f.substitute b).evaluate ctx :=
  ⟨visitAll_eq hfs ctx, evaluateAll_eq (fun f hf => canonical_substitute hb (hfs f hf)) ctx⟩

/-- `x * x`, then `x * x + x * x`, then `x * x` again, also with `y + 1` for `x`. -/
theorem visitAll_eq_map_evaluate_square :
    let square := productOf [symbol "x", symbol "x"]
    let fs := [square, sumOf [square, square], square]
    let b := Bindings.singleton (symbol "x") (sumOf [symbol "y", const 1])
    ((Evaluator.new (.inert .standard)).visitAll fs).1 = fs.map (·.evaluate (.inert .standard)) ∧
      evaluateAll fs b (.inert .standard) =
        fs.map fun f => (f.substitute b).evaluate (.inert .standard) := by
  intro square fs b
  have hsquare : Canonical square := canonical_productOf (forall_mem_pair (.var "x") (.var "x"))
  have hdouble := canonical_sumOf (forall_mem_pair hsquare hsquare)
  have hvalue := canonical_sumOf (forall_mem_pair (.var "y") (.const 1))
  exact visitAll_eq_map_evaluate
    (List.forall_mem_cons.mpr ⟨hsquare, forall_mem_pair hdouble hsquare⟩)
    (List.forall_mem_singleton.mpr hvalue) _

end SymbolicAlgebra.Expr
