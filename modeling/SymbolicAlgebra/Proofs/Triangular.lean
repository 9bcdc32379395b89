import SymbolicAlgebra.Proofs.Answers
import SymbolicAlgebra.Proofs.Occurrence
import SymbolicAlgebra.Proofs.Substitution

/-!
# Solutions with later unknowns

Without back substitution the arrow of an unknown comes from the row that leads with it, and its right
side mentions the later unknowns of that row. In a square system with a nonsingular coefficient matrix
the rows lead with different unknowns, so every unknown has such an arrow. Read from the last unknown
to the first, each right side becomes a constant once the values found so far are put in, and that
constant is the value of the unknown in the unique solution.

Results:
* `affine_evaluated_divide`: a quotient of an affine expression by a constant is evaluated to an affine
  expression.
* `Affine.computes_substituteWith`: with constants for its unknowns an affine expression computes its
  value.
* `resolve_arrows`: arrows that mention later unknowns only are resolved to the values they move to.
* `resolve_partialSolve`: the solutions without back substitution, resolved, are those of the solver.
-/

namespace SymbolicAlgebra

open Expr Evaluator LinearSystem

variable {n : Nat} {names : Fin n → String}

/-! ## Quotients by a constant -/

namespace Evaluator

theorem evaluated_inverse_const {d : Rat} (hd : d ≠ 0) :
    evaluated (inverse (.const d)) = .const d⁻¹ :=
  ((Computes.const d).inverse hd).evaluated

/-- A multiple divided by a constant evaluates by the step for the constant and the rest. -/
theorem evaluated_divide_const {q d : Rat} {r : Expr} (hr : Monic r) (hprod : r.isProduct = false)
    (h0 : q ≠ 0) (hd : d ≠ 0) :
    evaluated (divide (scaled q r) (.const d)) = productStep evaluated [.const (q / d), r] := by
  rw [evaluated_divide_scaled hr hprod h0 (.const d)]
  refine productStep_congr ?_
  have hmap : ∀ a b : Expr, ([.const q, a, b] : List Expr).flatMap factors =
      .const q :: (a.factors ++ b.factors) := fun a b => by simp
  have hmap' : ∀ a : Expr, ([.const (q / d), a] : List Expr).flatMap factors =
      .const (q / d) :: a.factors := fun a => by simp
  have hlast : constants ((evaluated r).factors ++ [.const d⁻¹]) =
      constants (evaluated r).factors ++ [d⁻¹] := List.filterMap_append
  have hothers : others ((evaluated r).factors ++ [.const d⁻¹]) = others (evaluated r).factors :=
    (List.filter_append _ _).trans (List.append_nil _)
  simp only [visitedBases, List.map_cons, List.map_nil, evaluated_const, evaluated_inverse_const hd]
  rw [hmap, hmap', factors_const, Bases.ofFactors_eq, Bases.ofFactors_eq, constants_const,
    constants_const, exponentsOf, exponentsOf, others_const, others_const, hlast, hothers,
    List.prod_cons, List.prod_cons, List.prod_append, List.prod_singleton, div_eq_mul_inv]
  refine congrArg (Bases.mk · _) ?_
  ring

/-- A sum times `1`. -/
theorem productStep_one_sum {e : Expr} (he : Expr.Canonical (evaluated e))
    (hs : (evaluated e).isSum = true) : productStep evaluated [.const 1, e] = evaluated e := by
  obtain ⟨us, heq⟩ := exists_of_isSum hs
  have hbases : visitedBases evaluated [.const 1, e] = ⟨1, ⟨[(.sum us, 1)]⟩⟩ := by
    rw [visitedBases, List.map_cons, List.map_singleton, heq, evaluated_const, Bases.ofFactors_eq]
    exact congrArg (Bases.mk · _) List.prod_singleton
  rw [productStep, hbases, if_neg one_ne_zero, Bases.absorbed, if_pos rfl, Bases.product_eq, heq]
  change productOf [.const 1, .sum us] = _
  rw [← scaled_eq_productOf (heq ▸ he), scaled, if_pos rfl]

end Evaluator

namespace Expr

theorem Affine.normal {e : Expr} (h : Affine names e) (hs : e.isSum = false) : Normal e := by
  cases h.of_isSum hs with
  | const q => exact normal_const q
  | multiple j h0 =>
    exact (normal_scaled_iff (monic_symbol _) h0).mpr
      (IsLetter.normal ⟨names j, 1, one_ne_zero, rfl⟩)

/-- A constant times what is evaluated to an affine expression. -/
theorem affine_productStep {p : Rat} {e : Expr} (h : Affine names (evaluated e)) (h0 : p ≠ 0) :
    Affine names (productStep evaluated [.const p, e]) := by
  cases hs : (evaluated e).isSum
  · rw [productStep_const_normal (h.normal hs)]
    exact ((h.of_isSum hs).productOf_const p).affine
  by_cases h1 : p = 1
  · rw [h1, productStep_one_sum h.canonical hs]
    exact h
  · have hterms : ∀ t ∈ (evaluated e).terms.flatMap fun t =>
        (evaluated (productOf [.const p, t])).terms, AffineTerm names t := by
      intro t ht
      obtain ⟨u, hu, ht⟩ := List.mem_flatMap.mp ht
      have hmultiple := (h.terms u hu).productOf_const p
      rw [hmultiple.evaluated, terms_eq_self hmultiple.isSum, List.mem_singleton] at ht
      exact ht ▸ hmultiple
    have hscaled : Affine names (scaledSum evaluated p (evaluated e)) := (affine_collect hterms).1
    rw [productStep_const_sum h0 h1 hs hscaled.canonical]
    exact hscaled

/-- **A quotient of an affine expression by a constant evaluates to an affine expression.** -/
theorem affine_evaluated_divide {e : Expr} {d : Rat} (h : Affine names e) (hd : d ≠ 0) :
    Affine names (evaluated (divide e (.const d))) := by
  cases hs : e.isSum
  · cases h.of_isSum hs with
    | const q =>
      rw [((Computes.const q).divide (.const d) hd).evaluated]
      exact (AffineTerm.const _).affine
    | @multiple q j h0 =>
      have hsymbol : Affine names (evaluated (symbol (names j))) := by
        have := (AffineTerm.multiple j one_ne_zero : AffineTerm names _).affine
        rwa [scaled, if_pos rfl] at this
      rw [evaluated_divide_const (monic_symbol _) rfl h0 hd]
      exact affine_productStep hsymbol (div_ne_zero h0 hd)
  · have hself : scaled 1 e = e := by rw [scaled, if_pos rfl]
    have hvisit : Affine names (evaluated e) := by
      rw [evaluated_affine h hs]
      exact (affine_collect h.terms).1
    rw [← hself, evaluated_divide_const (monic_of_isSum h.canonical hs) (isProduct_of_isSum hs)
      one_ne_zero hd]
    exact affine_productStep hvisit (div_ne_zero one_ne_zero hd)

/-! ## Constants for the unknowns -/

section Substitution

variable {b : Bindings} {i : Bool}

/-- Nothing is replaced where there is nothing to replace. -/
theorem substituteWith_of_isEmpty (hb : b.isEmpty = true) {e : Expr} (he : Canonical e) :
    substituteWith i b e = e := by
  have hvars : b.OfVariables := by
    intro p hp
    rw [List.isEmpty_iff.mp hb] at hp
    cases hp
  have hmap {xs : List Expr} (h : ∀ x ∈ xs, substituteWith i b x = x) :
      xs.map (substituteWith i b) = xs := by
    conv_rhs => rw [← List.map_id xs]
    exact List.map_congr_left h
  induction he with
  | const q => exact substituteWith_const hvars q
  | var x =>
    change substituteWith i b (symbol x) = symbol x
    rw [substituteWith_symbol, Bindings.get?, List.isEmpty_iff.mp hb]
    rfl
  | sum hts heq ih => rw [substituteWith_sum hvars, hmap ih, heq]
  | product hfs heq ih => rw [substituteWith_product hvars, hmap ih, heq]
  | binary _ _ _ ihl ihr => rw [substituteWith_binary hvars, ihl, ihr]
  | not _ ih => rw [substituteWith_not hvars, ih]
  | set hms heq ih =>
    rw [substituteWith, Bindings.get?_eq_none hvars rfl, substituteList_eq, hmap ih]
    exact heq

theorem substitute_eq {e : Expr} (he : Canonical e) : e.substitute b = substituteWith false b e := by
  rw [substitute]
  split
  · next hempty => rw [substituteWith_of_isEmpty hempty he]
  · rfl

variable (hb : b.OfVariables)

include hb

theorem AffineTerm.closed_substituteWith {t : Expr} (h : AffineTerm names t)
    (hbound : ∀ j, t.dependsOn (symbol (names j)) = true →
      Closed (substituteWith i b (symbol (names j)))) : Closed (substituteWith i b t) := by
  cases h with
  | const q =>
    rw [substituteWith_const hb]
    exact .const q
  | multiple j h0 =>
    obtain heq | ⟨fs, heq, hperm⟩ := scaled_symbol_cases (names j) h0
    · rw [heq] at hbound ⊢
      exact hbound j (dependsOn_symbol _)
    · rw [heq] at hbound ⊢
      rw [substituteWith_product hb]
      refine closed_productOf (List.forall_mem_map.mpr fun f hf => ?_)
      rcases List.mem_cons.mp (hperm.mem_iff.mp hf) with rfl | hq
      · exact hbound j (dependsOn_product hf (dependsOn_symbol _))
      · rw [List.mem_singleton.mp hq, substituteWith_const hb]
        exact .const _

omit hb in
theorem Affine.isRational {e : Expr} (h : Affine names e) : IsRational e := by
  have hterm : ∀ {t}, AffineTerm names t → IsRational t := by
    intro t ht
    cases ht with
    | const q => exact .const q
    | multiple j h0 =>
      obtain heq | ⟨fs, heq, hperm⟩ := scaled_symbol_cases (names j) h0
      · rw [heq]
        exact .var _
      · rw [heq]
        refine .product fun f hf => ?_
        rcases List.mem_cons.mp (hperm.mem_iff.mp hf) with rfl | hq
        · exact .var _
        · exact List.mem_singleton.mp hq ▸ .const _
  cases hs : e.isSum
  · exact hterm (h.of_isSum hs)
  · obtain ⟨ts, rfl⟩ := exists_of_isSum hs
    exact .sum fun t ht => hterm (h.terms t ht)

/-- **With constants for its unknowns an affine expression computes its value.** -/
theorem Affine.computes_substituteWith {e : Expr} (h : Affine names e)
    (hconst : ∀ p ∈ b.entries, ∃ q, p.2 = .const q)
    (hbound : ∀ j, e.dependsOn (symbol (names j)) = true → b.contains (symbol (names j)) = true) :
    Computes (substituteWith i b e) (value (b.valuation fun _ => 0) e) := by
  have hclosed : ∀ j, b.contains (symbol (names j)) = true →
      Closed (substituteWith i b (symbol (names j))) := by
    intro j hj
    obtain ⟨v, hv⟩ := Option.isSome_iff_exists.mp hj
    obtain ⟨p, hp, rfl⟩ := Bindings.exists_of_get? hv
    obtain ⟨q, hq⟩ := hconst p hp
    rw [substituteWith_of_get? hv, hq]
    exact .const q
  refine ⟨canonical_substituteWith (fun p hp => ?_) h.canonical.plain, ?_,
    denotes_substituteWith hb (fun p hp => ?_) h.isRational h.defined⟩
  · obtain ⟨q, hq⟩ := hconst p hp
    exact hq ▸ .const q
  · cases hs : e.isSum
    · exact (h.of_isSum hs).closed_substituteWith hb fun j hj => hclosed j (hbound j hj)
    · obtain ⟨ts, rfl⟩ := exists_of_isSum hs
      rw [substituteWith_sum hb]
      exact closed_sumOf (List.forall_mem_map.mpr fun t ht =>
        (h.terms t ht).closed_substituteWith hb fun j hj => hclosed j (hbound j (dependsOn_sum ht hj)))
  · obtain ⟨q, hq⟩ := hconst p hp
    exact hq ▸ .const q

end Substitution

end Expr

/-! ## Resolving arrows -/

/-- The arrows read one after the other, the values found so far put into the right sides of the
following ones and evaluated. -/
def resolve (answers : List Expr) (ctx : Context) : List Expr :=
  answers.foldl (fun known answer =>
    known ++ (answer.asArrow?.map fun (x, side) => arrow x (side.evaluateAt known ctx)).toList) []

section Resolve

variable (hnames : Function.Injective names)

include hnames

theorem pairwise_symbols {js : List (Fin n)} (hjs : js.Nodup) :
    (js.map fun j => symbol (names j)).Pairwise fun k l => (k == l) = false :=
  List.pairwise_map.mpr (hjs.imp fun hij =>
    Bool.eq_false_iff.mpr fun h => hij ((symbol_beq hnames _ _).mp h))

/-- Arrows of different unknowns are all bound. -/
theorem ofArrows_map {js : List (Fin n)} (hjs : js.Nodup) (v : Fin n → Expr) :
    Bindings.ofArrows (js.map fun j => arrow (symbol (names j)) (v j)) =
      ⟨js.map fun j => (symbol (names j), v j)⟩ := by
  have harrow : (asArrow? ∘ fun j => arrow (symbol (names j)) (v j)) =
      fun j => some (symbol (names j), v j) := rfl
  rw [Bindings.ofArrows, List.filterMap_map, harrow, List.filterMap_eq_map']
  refine Bindings.ofList_of_distinct ?_
  rw [List.map_map]
  exact pairwise_symbols hnames hjs

/-- **A right side whose unknowns all have values** becomes its value. -/
theorem evaluateAt_arrows {e : Expr} (he : Affine names e) {js : List (Fin n)} (hjs : js.Nodup)
    (hmem : ∀ j, e.dependsOn (symbol (names j)) = true → j ∈ js)
    (honly : ∀ s, e.dependsOn (symbol s) = true → ∃ j, s = names j) (x : Fin n → Rat)
    (ctx : Context) :
    e.evaluateAt (js.map fun j => arrow (symbol (names j)) (.const (x j))) ctx =
      .const (value (assignment names x) e) := by
  rw [evaluateAt, ofArrows_map hnames hjs, substitute_eq he.canonical]
  let b : Bindings := ⟨js.map fun j => (symbol (names j), .const (x j))⟩
  have hvars : b.OfVariables := List.forall_mem_map.mpr fun j _ => rfl
  have hget : ∀ j ∈ js, b.get? (symbol (names j)) = some (.const (x j)) := by
    intro j hj
    refine MatchState.get?_of_mem ?_ (List.mem_map.mpr ⟨j, hj, rfl⟩)
    rw [List.map_map]
    exact pairwise_symbols hnames hjs
  have hcomputes : Computes (substituteWith false b e) (value (b.valuation fun _ => 0) e) :=
    he.computes_substituteWith hvars (List.forall_mem_map.mpr fun j _ => ⟨x j, rfl⟩)
      fun j hj => by rw [Bindings.contains, hget j (hmem j hj)]; rfl
  rw [hcomputes.evaluate]
  refine congrArg Expr.const (value_eq_of_occurring he.isRational fun s hs => ?_)
  obtain ⟨j, rfl⟩ := honly s hs
  rw [Bindings.valuation, hget j (hmem j hs), assignment_apply hnames]
  exact value_const (x j)

/-- **Arrows that mention later unknowns only** are resolved from the last unknown to the first. -/
theorem resolve_arrows {side : Fin n → Expr} {x : Fin n → Rat}
    (haffine : ∀ j, Affine names (side j))
    (hlater : ∀ j s, (side j).dependsOn (symbol s) = true → ∃ k, j < k ∧ s = names k)
    (hvalue : ∀ j, value (assignment names x) (side j) = x j) (ctx : Context) :
    resolve ((List.finRange n).map fun j => arrow (symbol (names j)) (side j)).reverse ctx =
      arrows names x := by
  -- `done` are the unknowns with values; the later ones of every other unknown are among them
  have hfold : ∀ js done : List (Fin n), done ++ js = (List.finRange n).reverse →
      (js.map fun j => arrow (symbol (names j)) (side j)).foldl (fun known answer =>
          known ++ (answer.asArrow?.map fun (x, e) => arrow x (e.evaluateAt known ctx)).toList)
        (done.map fun j => arrow (symbol (names j)) (.const (x j))) =
        (done ++ js).map fun j => arrow (symbol (names j)) (.const (x j)) := by
    intro js
    induction js with
    | nil =>
      intro done _
      rw [List.append_nil]
      rfl
    | cons j js ih =>
      intro done hdone
      have hsorted : (done ++ j :: js).Pairwise (· > ·) := by
        rw [hdone, List.pairwise_reverse]
        exact List.pairwise_lt_finRange n
      have hmem : ∀ k, j < k → k ∈ done := by
        intro k hk
        have hall : k ∈ done ++ j :: js := by
          rw [hdone, List.mem_reverse]
          exact List.mem_finRange k
        refine (List.mem_append.mp hall).resolve_right fun hrest => ?_
        rcases List.mem_cons.mp hrest with rfl | hrest
        · exact lt_irrefl k hk
        · exact lt_asymm hk ((List.pairwise_cons.mp (List.pairwise_append.mp hsorted).2.1).1 k hrest)
      have hnodup : done.Nodup := (List.pairwise_append.mp hsorted).1.imp ne_of_gt
      have hstep : (side j).evaluateAt (done.map fun j => arrow (symbol (names j)) (.const (x j)))
          ctx = .const (x j) := by
        rw [evaluateAt_arrows hnames (haffine j) hnodup (fun k hk => ?_) (fun s hs => ?_), hvalue]
        · obtain ⟨l, hl, heq⟩ := hlater j _ hk
          exact hmem k (hnames heq ▸ hl)
        · obtain ⟨k, -, heq⟩ := hlater j s hs
          exact ⟨k, heq⟩
      have happend : done ++ j :: js = (done ++ [j]) ++ js := by simp
      have hnext := ih (done ++ [j]) (happend ▸ hdone)
      rw [List.map_append, List.map_singleton] at hnext
      rw [List.map_cons, List.foldl_cons, happend, ← hnext]
      change List.foldl _ (_ ++ [arrow (symbol (names j)) ((side j).evaluateAt _ ctx)]) _ = _
      rw [hstep]
  have hall := hfold (List.finRange n).reverse [] rfl
  rw [List.nil_append, List.map_reverse, List.map_reverse] at hall
  exact hall

/-! ## Elimination without back substitution -/

/-- Where every unknown leads at most one row, the search finds that row. -/
theorem rowForBy?_of_lead {m : Nat} {search : PivotSearch} (hsearch : search.Valid)
    {T : Fin m → Row n} {i : Fin m} {j : Fin n} (honce : LeadsOnce T j) (hi : (T i).lead = some j) :
    (systemOf names T).rowForBy? search (symbol (names j)) = some (encode names (T i)) := by
  rcases search_systemOf hnames hsearch T j with ⟨p, hfound, hp⟩ | ⟨-, hnone⟩
  · rw [rowForBy?, hfound, Option.bind_some, getElem?_systemOf, honce p i hp hi]
  · exact absurd hi (hnone i)

/-- The right side of the arrow of an unknown from a row. -/
theorem affine_solveFor {r : Row n} {j : Fin n} (hj : r.1 j ≠ 0) (ctx : Context) :
    Affine names ((encode names r).solveFor (symbol (names j)) ctx) := by
  have hrest := LinearEquation.affine_sumOf names (r.rest j)
  rw [solveFor_eq hnames, evaluate_eq (canonical_divide hrest.canonical (.const _))]
  exact affine_evaluated_divide hrest (neg_ne_zero.mpr hj)

/-- It mentions only unknowns of the row that come after the leading one. -/
theorem dependsOn_solveFor {r : Row n} {j : Fin n} (hj : r.lead = some j) (ctx : Context) {s : String}
    (hs : ((encode names r).solveFor (symbol (names j)) ctx).dependsOn (symbol s) = true) :
    ∃ k, j < k ∧ s = names k := by
  by_contra hnot
  have hrest := LinearEquation.affine_sumOf names (r.rest j)
  have hcanon := canonical_divide hrest.canonical (.const (-r.1 j))
  have hvar : ∀ x ∈ [symbol s], x.isVar = true := List.forall_mem_singleton.mpr rfl
  have hP := contains_eq_false hvar
  have hconst := throughout_of_const hP
  have hunknown : ∀ k, k ≠ j → r.1 k ≠ 0 →
      Throughout (fun c => [symbol s].contains c = false) (symbol (names k)) := by
    intro k hkj hk
    refine throughout_of ?_ fun c hc => by cases hc
    have hjk : j < k := hkj.symm.lt_of_le (not_lt.mp fun h => hk (Row.eq_zero_of_lt_lead hj h))
    have hne : (symbol (names k) == symbol s) = false := by
      rw [symbol, beq_symbol]
      exact decide_eq_false fun h => hnot ⟨k, hjk, h.symm⟩
    rw [List.contains_cons, hne]
    rfl
  have hsummand : ∀ e ∈ (r.rest j).map (Summand.expr names),
      Throughout (fun c => [symbol s].contains c = false) e := by
    refine List.forall_mem_map.mpr fun t ht => ?_
    rcases List.mem_append.mp ht with ht | ht
    · obtain ⟨k, hk, rfl⟩ := List.mem_map.mp ht
      have hmem : k ≠ j ∧ r.1 k ≠ 0 := by simpa using (List.mem_filter.mp hk).2
      exact throughout_product hP (forall_mem_pair (.const _) (.var _))
        (forall_mem_pair (hconst _) (hunknown k hmem.1 hmem.2))
    · split at ht
      · cases ht
      · rw [List.mem_singleton.mp ht]
        exact hconst _
  have hquotient : Throughout (fun c => [symbol s].contains c = false)
      (divide (sumOf ((r.rest j).map (Summand.expr names))) (.const (-r.1 j))) :=
    throughout_product hP (forall_mem_pair hrest.canonical (canonical_inverse (.const _)))
      (forall_mem_pair (throughout_sumOf hP (List.forall_mem_map.mpr fun t _ =>
        (t.affineTerm_expr names).canonical) hsummand)
        (throughout_power (hP _ rfl) (hconst _) (hconst _)))
  rw [solveFor_eq hnames, evaluate_eq hcanon] at hs
  have hfree := dependsOnAny_evaluated hvar hcanon ((mentions_eq_false_iff hcanon.plain).mpr hquotient)
  exact Bool.noConfusion (hfree.symm.trans hs)

/-- **Elimination without back substitution** of a square system of rows without homogeneous
solutions: one arrow for each unknown, that mentions later unknowns only and moves the unknown to its
value in the solution. -/
theorem solutionsBy_rowReduceBy {search : PivotSearch} (hsearch : search.Valid)
    {R : Fin n → Row n} (hR : ∀ x : Fin n → Rat, (∀ i, ∑ j, (R i).1 j * x j = 0) → x = 0)
    {x : Fin n → Rat} (hx : ∀ i, (R i).eval x = 0) (ctx : Context) :
    ∃ side : Fin n → Expr, (∀ j, Affine names (side j)) ∧
      (∀ j s, (side j).dependsOn (symbol s) = true → ∃ k, j < k ∧ s = names k) ∧
      (∀ j, value (assignment names x) (side j) = x j) ∧
      solutionsBy search (rowReduceBy search (systemOf names R) (unknowns names) ctx)
          (unknowns names) ctx =
        ((List.finRange n).map fun j => arrow (symbol (names j)) (side j)).reverse := by
  obtain ⟨T, hreduced, honce, hT⟩ := rowReduceBy_systemOf hnames hsearch R ctx
  -- the leading unknowns of the rows are a permutation of the unknowns
  have hexists := exists_lead fun y hy => hR y ((hreduced.homogeneous y).mpr hy)
  obtain ⟨π, hlead⟩ := Classical.axiomOfChoice hexists
  have hinjective : Function.Injective π := fun i i' h =>
    honce (π i) i i' (hlead i) (h ▸ hlead i')
  obtain ⟨ρ, hρ⟩ := (Finite.injective_iff_surjective.mp hinjective).hasRightInverse
  have hleadρ : ∀ j, (T (ρ j)).lead = some j := fun j => (hlead (ρ j)).trans (congrArg some (hρ j))
  have hne : ∀ j, (T (ρ j)).1 j ≠ 0 := fun j => Row.ne_zero_of_lead (hleadρ j)
  refine ⟨fun j => (encode names (T (ρ j))).solveFor (symbol (names j)) ctx,
    fun j => affine_solveFor hnames (hne j) ctx, fun j s => dependsOn_solveFor hnames (hleadρ j) ctx,
    fun j => ?_, ?_⟩
  · rw [value_solveFor hnames (hne j), (hreduced.eval x).mp hx, zero_div, sub_zero]
  · have hrow : ∀ j, ((systemOf names T).rowForBy? search (symbol (names j))).map
        (fun row => arrow (symbol (names j)) (row.solveFor (symbol (names j)) ctx)) =
          some (arrow (symbol (names j)) ((encode names (T (ρ j))).solveFor (symbol (names j)) ctx)) :=
      fun j => by rw [rowForBy?_of_lead hnames hsearch (honce j) (hleadρ j), Option.map_some]
    rw [hT, solutionsBy, unknowns, ← List.map_reverse, List.filterMap_map, ← List.map_reverse,
      ← List.filterMap_eq_map]
    exact List.filterMap_congr fun j _ => hrow j

/-- **The solutions without back substitution agree with those of the solver**, on a system with a
nonsingular coefficient matrix: there is one arrow for each unknown, from the last to the first, the
right side of an arrow mentions later unknowns only, and the arrows are resolved to the answers of the
solver, which are the unique solution. -/
theorem resolve_partialSolve (system : Fin n → LinearEquation n)
    (hdet : (coefficientMatrix system).det ≠ 0) (ctx : Context) :
    ∃ (side : Fin n → Expr) (v : Fin n → Rat),
      partialSolve (List.ofFn fun i => (system i).expr names) (unknowns names) ctx =
        ((List.finRange n).map fun j => arrow (symbol (names j)) (side j)).reverse ∧
      (∀ j s, (side j).dependsOn (symbol s) = true → ∃ k, j < k ∧ s = names k) ∧
      resolve (partialSolve (List.ofFn fun i => (system i).expr names) (unknowns names) ctx) ctx =
        solve (List.ofFn fun i => (system i).expr names) (unknowns names) ctx ∧
      solve (List.ofFn fun i => (system i).expr names) (unknowns names) ctx = arrows names v ∧
      ∀ x, (∀ i, (system i).Holds x) ↔ x = v := by
  have hrows := ofEquations_eq_systemOf hnames system ctx
  have hR : ∀ x : Fin n → Rat, (∀ i, ∑ j, (system i).row.1 j * x j = 0) → x = 0 :=
    fun x => homogeneous_eq_zero hdet
  obtain ⟨v, hv, hsolve⟩ := solveBy_systemOf hnames findPivot?_valid hrows hR
  obtain ⟨side, haffine, hlater, hvalue, hside⟩ :=
    solutionsBy_rowReduceBy hnames findPivot?_valid hR ((hv v).mpr rfl) ctx
  have hpartial : partialSolve (List.ofFn fun i => (system i).expr names) (unknowns names) ctx =
      ((List.finRange n).map fun j => arrow (symbol (names j)) (side j)).reverse := by
    rw [partialSolve, hrows]
    exact hside
  refine ⟨side, v, hpartial, hlater, ?_, hsolve, fun x => ?_⟩
  · rw [hpartial, resolve_arrows hnames haffine hlater hvalue]
    exact hsolve.symm
  · rw [← hv]
    exact forall_congr' fun i => ((system i).row_eval x).symm

end Resolve

/-- The equations `x + y == 3` and `x - y == 1`, where the arrow of `x` mentions `y`. -/
theorem resolve_partialSolve_sumAndDifference :
    Function.Injective !["x", "y"] ∧ (coefficientMatrix sumAndDifference).det ≠ 0 ∧
      resolve (partialSolve (List.ofFn fun i => (sumAndDifference i).expr !["x", "y"])
        [symbol "x", symbol "y"] (.inert .standard)) (.inert .standard) =
          [arrow (symbol "y") (.const 1), arrow (symbol "x") (.const 2)] := by
  have hnames : Function.Injective !["x", "y"] := by decide
  obtain ⟨side, v, -, -, hresolve, hsolve, hv⟩ :=
    resolve_partialSolve hnames sumAndDifference det_sumAndDifference (.inert .standard)
  obtain rfl := (hv _).mp holds_sumAndDifference
  exact ⟨hnames, det_sumAndDifference, hresolve.trans hsolve⟩

end SymbolicAlgebra
