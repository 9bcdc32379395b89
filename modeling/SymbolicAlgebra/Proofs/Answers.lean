import SymbolicAlgebra.Proofs.Instances
import SymbolicAlgebra.Proofs.Solve

/-!
# The answers of the solver

In a cleared system the arrow of an unknown comes from the first row with it, and it moves the unknown
to where that row is zero (`adjusted`). In a solution nothing moves. Outside of the solutions the arrows
of two unknowns from one row both make up for the same difference, so that the arrows together solve
the equations only if no row has another unknown than the one it leads with; the unknowns are then
determined by the system, or free.

Results:
* `eval_adjusted_eq_zero_iff`: when the arrows together solve a cleared system.
* `singleUnknowns_iff`: this is so iff every unknown is determined or free.
* `solve_satisfies_iff`: the answers of the solver on a system of linear equations.
-/

namespace SymbolicAlgebra

open Expr Evaluator LinearSystem

variable {m n : Nat} {names : Fin n → String}

/-! ## Cleared systems -/

section Rows

variable {S : Fin m → Row n}

/-- Moves every unknown to where the first row with it is zero. -/
def adjusted (S : Fin m → Row n) (x : Fin n → Rat) (j : Fin n) : Rat :=
  match firstWith S j with
  | some i => x j - (S i).eval x / (S i).1 j
  | none => x j

/-- No row has another unknown than the one it leads with. -/
def SingleUnknowns (S : Fin m → Row n) : Prop :=
  ∀ i j, (S i).1 j ≠ 0 → (S i).lead = some j

theorem Row.eval_eq_add_sum (r : Row n) (x y : Fin n → Rat) :
    r.eval y = r.eval x + ∑ j, r.1 j * (y j - x j) := by
  simp only [Row.eval, mul_sub, Finset.sum_sub_distrib]
  ring

/-- If only one unknown of the row moves, then its value changes by the multiple of that. -/
theorem Row.eval_eq_add_mul {r : Row n} {x y : Fin n → Rat} (j : Fin n)
    (h : ∀ k, k ≠ j → r.1 k ≠ 0 → y k = x k) : r.eval y = r.eval x + r.1 j * (y j - x j) := by
  rw [r.eval_eq_add_sum x y, Finset.sum_eq_single j]
  · intro k _ hk
    by_cases h0 : r.1 k = 0
    · rw [h0, zero_mul]
    · rw [h k hk h0, sub_self, mul_zero]
  · exact fun hj => absurd (Finset.mem_univ j) hj

theorem Row.eval_update (r : Row n) (x : Fin n → Rat) (j : Fin n) (q : Rat) :
    r.eval (Function.update x j q) = r.eval x + r.1 j * (q - x j) := by
  rw [r.eval_eq_add_mul (x := x) j fun k hk _ => Function.update_of_ne hk q x,
    Function.update_self]

/-- A row without leading unknown has the same value everywhere. -/
theorem Row.eval_of_lead_eq_none {r : Row n} (h : r.lead = none) (x y : Fin n → Rat) :
    r.eval x = r.eval y := by
  simp [Row.eval, Row.lead_eq_none.mp h]

/-- If every unknown of row `i` moves to where the row is zero, then the value of the row is taken off
as often as it has unknowns. -/
theorem eval_of_moved {i : Fin m} {x y : Fin n → Rat}
    (h : ∀ j, (S i).1 j ≠ 0 → y j = x j - (S i).eval x / (S i).1 j) :
    (S i).eval y =
      (1 - ((Finset.univ.filter fun j => (S i).1 j ≠ 0).card : Rat)) * (S i).eval x := by
  have hterm : ∀ j, (S i).1 j * (y j - x j) = if (S i).1 j ≠ 0 then -(S i).eval x else 0 := by
    intro j
    by_cases hj : (S i).1 j = 0
    · simp [hj]
    · rw [if_pos hj, h j hj]
      field_simp
      ring
  rw [Row.eval_eq_add_sum _ x y, Finset.sum_congr rfl fun j _ => hterm j, ← Finset.sum_filter,
    Finset.sum_const, nsmul_eq_mul]
  ring

theorem adjusted_of_firstWith {i : Fin m} {j : Fin n} (h : firstWith S j = some i)
    (x : Fin n → Rat) : adjusted S x j = x j - (S i).eval x / (S i).1 j := by
  rw [adjusted, h]

/-- The rows before the first one with two unknowns have none of its unknowns. -/
theorem Cleared.firstWith_of_before (h : Cleared S (List.finRange m)) {i : Fin m} {j : Fin n}
    (hbefore : ∀ i' < i, ∀ k, (S i').1 k ≠ 0 → (S i').lead = some k) (hj : (S i).1 j ≠ 0) :
    firstWith S j = some i := by
  refine firstWith_eq_some.mpr ⟨hj, fun i' hi' => ?_⟩
  by_contra hne
  exact hj (h.column i' (List.mem_finRange i') j (hbefore i' hi' j hne) i hi'.ne')

/-- **The arrows together solve a cleared system** that has solutions iff no row has another unknown
than the one it leads with. -/
theorem eval_adjusted_eq_zero_iff (h : Cleared S (List.finRange m))
    {x₀ : Fin n → Rat} (hx₀ : ∀ i, (S i).eval x₀ = 0) :
    (∀ x i, (S i).eval (adjusted S x) = 0) ↔ SingleUnknowns S := by
  constructor
  · intro hzero i
    -- the first row with two unknowns is the one from which all its unknowns are moved
    induction i using WellFoundedLT.induction with
    | ind i hbefore =>
      intro k hk
      have hmoved : ∀ x, (S i).eval (adjusted S x) =
          (1 - ((Finset.univ.filter fun j => (S i).1 j ≠ 0).card : Rat)) * (S i).eval x :=
        fun x => eval_of_moved fun j hj =>
          adjusted_of_firstWith (h.firstWith_of_before hbefore hj) x
      have hvalue := (hmoved (Function.update x₀ k (x₀ k + 1))).symm.trans (hzero _ i)
      rw [Row.eval_update, hx₀, zero_add, add_sub_cancel_left, mul_one] at hvalue
      have hcard : (Finset.univ.filter fun j => (S i).1 j ≠ 0).card = 1 := by
        have := sub_eq_zero.mp ((mul_eq_zero.mp hvalue).resolve_right hk)
        exact_mod_cast this.symm
      cases hlead : (S i).lead with
      | none => exact absurd (Row.lead_eq_none.mp hlead k) hk
      | some l =>
        refine congrArg some (Finset.card_le_one.mp hcard.le l ?_ k ?_)
        · simpa using Row.ne_zero_of_lead hlead
        · simpa using hk
  · intro hsingle x i
    cases hlead : (S i).lead with
    | none => rw [Row.eval_of_lead_eq_none hlead _ x₀, hx₀]
    | some j =>
      have hother : ∀ k, k ≠ j → (S i).1 k ≠ 0 → adjusted S x k = x k := fun k hkj hk =>
        absurd (Option.some.inj ((hsingle i k hk).symm.trans hlead)) hkj
      rw [Row.eval_eq_add_mul (x := x) j hother, adjusted_of_firstWith (h.firstWith_of_lead hlead), sub_sub_cancel_left, mul_neg,
        mul_div_cancel₀ _ (Row.ne_zero_of_lead hlead), add_neg_cancel]

/-! ## Determined and free unknowns -/

/-- All solutions agree on the unknown. -/
def Determined (Solves : (Fin n → Rat) → Prop) (j : Fin n) : Prop :=
  ∀ x y, Solves x → Solves y → x j = y j

/-- A solution remains one whatever the unknown is changed to. -/
def Free (Solves : (Fin n → Rat) → Prop) (j : Fin n) : Prop :=
  ∀ x q, Solves x → Solves (Function.update x j q)

/-- The free unknowns are those that no row has. -/
theorem free_iff {x₀ : Fin n → Rat} (hx₀ : ∀ i, (S i).eval x₀ = 0) (j : Fin n) :
    Free (fun x => ∀ i, (S i).eval x = 0) j ↔ ∀ i, (S i).1 j = 0 := by
  constructor
  · intro hfree i
    have := hfree x₀ (x₀ j + 1) hx₀ i
    rwa [Row.eval_update, hx₀, zero_add, add_sub_cancel_left, mul_one] at this
  · intro hzero x q hx i
    rw [Row.eval_update, hx, hzero, zero_mul, add_zero]

/-- Moves every leading unknown to where its row is zero. -/
def settledLeads (S : Fin m → Row n) (x : Fin n → Rat) (j : Fin n) : Rat :=
  match (List.finRange m).find? fun i => (S i).lead == some j with
  | some i => x j - (S i).eval x / (S i).1 j
  | none => x j

theorem settledLeads_of_lead (h : Cleared S (List.finRange m)) {i : Fin m} {j : Fin n}
    (hi : (S i).lead = some j) (x : Fin n → Rat) :
    settledLeads S x j = x j - (S i).eval x / (S i).1 j := by
  have hfind : (List.finRange m).find? (fun i => (S i).lead == some j) = some i :=
    find?_finRange fun i' => ⟨fun hi' => h.once j i' i (beq_iff_eq.mp hi') hi,
      fun heq => heq ▸ beq_iff_eq.mpr hi⟩
  rw [settledLeads, hfind]

theorem settledLeads_of_ne {j : Fin n} (hj : ∀ i, (S i).lead ≠ some j) (x : Fin n → Rat) :
    settledLeads S x j = x j := by
  have hfind : (List.finRange m).find? (fun i => (S i).lead == some j) = none :=
    List.find?_eq_none.mpr fun i _ hi => hj i (beq_iff_eq.mp hi)
  rw [settledLeads, hfind]

/-- In a cleared system the other unknowns can have any values. -/
theorem eval_settledLeads (h : Cleared S (List.finRange m)) {x₀ : Fin n → Rat}
    (hx₀ : ∀ i, (S i).eval x₀ = 0) (x : Fin n → Rat) (i : Fin m) :
    (S i).eval (settledLeads S x) = 0 := by
  cases hlead : (S i).lead with
  | none => rw [Row.eval_of_lead_eq_none hlead _ x₀, hx₀]
  | some j =>
    have hother : ∀ k, k ≠ j → (S i).1 k ≠ 0 → settledLeads S x k = x k := by
      intro k hkj hk
      refine settledLeads_of_ne (fun i' hi' => ?_) x
      by_cases hii : i = i'
      · subst hii
        exact hkj (Option.some.inj (hi'.symm.trans hlead))
      · exact hk (h.column i' (List.mem_finRange i') k hi' i hii)
    rw [Row.eval_eq_add_mul (x := x) j hother, settledLeads_of_lead h hlead, sub_sub_cancel_left,
      mul_neg, mul_div_cancel₀ _ (Row.ne_zero_of_lead hlead), add_neg_cancel]

/-- **No row of a cleared system has two unknowns** iff each unknown is determined or free. -/
theorem singleUnknowns_iff (h : Cleared S (List.finRange m)) {x₀ : Fin n → Rat}
    (hx₀ : ∀ i, (S i).eval x₀ = 0) :
    SingleUnknowns S ↔ ∀ j, Determined (fun x => ∀ i, (S i).eval x = 0) j ∨
      Free (fun x => ∀ i, (S i).eval x = 0) j := by
  constructor
  · intro hsingle j
    by_cases hj : ∃ i, (S i).1 j ≠ 0
    · obtain ⟨i, hi⟩ := hj
      refine .inl fun x y hx hy => ?_
      have hlead := hsingle i j hi
      have hrow := (S i).eval_eq_add_mul (x := y) (y := x) j fun k hkj hk =>
        absurd (Option.some.inj ((hsingle i k hk).symm.trans hlead)) hkj
      rw [hx, hy, zero_add] at hrow
      exact sub_eq_zero.mp ((mul_eq_zero.mp hrow.symm).resolve_left hi)
    · exact .inr ((free_iff hx₀ j).mpr fun i => not_not.mp (not_exists.mp hj i))
  · intro hall i k hk
    by_contra hlead
    have hnot : ∀ i', (S i').lead ≠ some k := by
      intro i' hi'
      by_cases hii : i = i'
      · exact hlead (hii ▸ hi')
      · exact hk (h.column i' (List.mem_finRange i') k hi' i hii)
    rcases hall k with hdetermined | hfree
    · have := hdetermined _ x₀ (eval_settledLeads h hx₀ (Function.update x₀ k (x₀ k + 1))) hx₀
      rw [settledLeads_of_ne hnot, Function.update_self] at this
      linarith
    · exact hk ((free_iff hx₀ k).mp hfree i)

end Rows

/-- Pairs with distinct keys are all bound. -/
theorem Bindings.foldl_insert_of_distinct : ∀ (rest done : List (Expr × Expr)),
    ((done ++ rest).map Prod.fst).Pairwise (fun k l => (k == l) = false) →
      rest.foldl (fun (b : Bindings) (k, v) => b.insert k v) ⟨done⟩ = ⟨done ++ rest⟩
  | [], done, _ => by
    rw [List.append_nil]
    rfl
  | (k, v) :: rest, done, hdistinct => by
    have hnew : (⟨done⟩ : Bindings).contains k = false := by
      rw [contains, MatchState.get?_eq_none_iff.mpr fun l hl => ?_]
      · rfl
      · rw [List.map_append] at hdistinct
        exact (List.pairwise_append.mp hdistinct).2.2 l hl k List.mem_cons_self
    have hinsert : (⟨done⟩ : Bindings).insert k v = ⟨done ++ [(k, v)]⟩ := by
      rw [Bindings.insert, hnew]
      rfl
    rw [List.foldl_cons]
    dsimp only
    rw [hinsert, foldl_insert_of_distinct rest (done ++ [(k, v)]) (by simpa using hdistinct)]
    simp

theorem Bindings.ofList_of_distinct {pairs : List (Expr × Expr)}
    (h : (pairs.map Prod.fst).Pairwise fun k l => (k == l) = false) : ofList pairs = ⟨pairs⟩ :=
  foldl_insert_of_distinct pairs [] h

/-! ## Arrows -/

namespace Row

/-- What a row has beside an unknown. -/
def rest (r : Row n) (j : Fin n) : List (Summand n) :=
  ((List.finRange n).filter fun k => k ≠ j ∧ r.1 k ≠ 0).map (fun k => (r.1 k, some k)) ++
    if r.2 = 0 then [] else [(r.2, none)]

theorem sum_rest (r : Row n) (j : Fin n) (x : Fin n → Rat) :
    ((r.rest j).map (Summand.value x)).sum = r.eval x - r.1 j * x j := by
  have hterm : ∀ k, (if k ≠ j ∧ r.1 k ≠ 0 then r.1 k * x k else 0) =
      r.1 k * x k - if k = j then r.1 j * x j else 0 := by
    intro k
    by_cases hkj : k = j
    · simp [hkj]
    · by_cases h0 : r.1 k = 0 <;> simp [hkj, h0]
  have hunknowns : (((List.finRange n).filter fun k => k ≠ j ∧ r.1 k ≠ 0).map
      fun k => r.1 k * x k).sum = ∑ k, r.1 k * x k - r.1 j * x j := by
    have hfilter := List.sum_map_ite (fun k => k ≠ j ∧ r.1 k ≠ 0) (fun k => r.1 k * x k)
      (fun _ => 0) (List.finRange n)
    rw [List.map_congr_left fun k _ => hterm k, ← Fin.sum_univ_def, Finset.sum_sub_distrib,
      Finset.sum_ite_eq' Finset.univ j, if_pos (Finset.mem_univ j)] at hfilter
    simpa using hfilter.symm
  have hconstant : ((if r.2 = 0 then [] else [(r.2, none)] : List (Summand n)).map
      (Summand.value x)).sum = r.2 := by
    by_cases h0 : r.2 = 0
    · simp [h0]
    · simp [h0, Summand.value]
  rw [rest, List.map_append, List.sum_append, List.map_map, hconstant]
  exact (congrArg (· + r.2) hunknowns).trans (by rw [Row.eval]; ring)

end Row

section Arrows

variable (hnames : Function.Injective names)

include hnames

/-- The other unknowns of a row as the terms of an arrow. -/
theorem map_unknowns (r : Row n) (j : Fin n) :
    (((List.finRange n).map fun k => (symbol (names k), Expr.const (r.1 k))).filter
      fun (b, a) => b != symbol (names j) && !a.isZero).map (fun (b, a) => productOf [a, b]) =
      (((List.finRange n).filter fun k => k ≠ j ∧ r.1 k ≠ 0).map fun k => (r.1 k, some k)).map
        (Summand.expr names) := by
  rw [List.filter_map, List.map_map, List.map_map]
  refine congrArg (List.map _) (List.filter_congr fun k _ => ?_)
  have hne : (symbol (names k) == symbol (names j)) = decide (k = j) := by
    rw [Bool.eq_iff_iff, symbol_beq hnames, decide_eq_true_iff]
  simp [bne, hne, isZero, beq_eq_decide]

omit hnames in
/-- The constant of a row as a term of an arrow. -/
theorem map_constant (r : Row n) (j : Fin n) :
    ([(Expr.one, Expr.const r.2)].filter
      fun (b, a) => b != symbol (names j) && !a.isZero).map (fun (b, a) => productOf [a, b]) =
      (if r.2 = 0 then [] else [(r.2, none)] : List (Summand n)).map (Summand.expr names) := by
  have hone : productOf [.const r.2, .one] = .const r.2 := by
    rw [Expr.one, productOf_const_const, mul_one]
  have hne : (Expr.one == symbol (names j)) = false := rfl
  by_cases h0 : r.2 = 0
  · simp [h0, isZero]
  · simp [h0, isZero, bne, hne, hone, Summand.expr]

theorem solveFor_eq (r : Row n) (j : Fin n) (ctx : Context) :
    (encode names r).solveFor (symbol (names j)) ctx =
      (divide (sumOf ((r.rest j).map (Summand.expr names))) (.const (-r.1 j))).evaluate ctx := by
  have hnegate : negate (.const (r.1 j)) = .const (-r.1 j) := by
    rw [negate, productOf_const_const, neg_one_mul]
  rw [LinearCombination.solveFor, coefficient_encode hnames, hnegate, Row.rest, List.map_append,
    ← map_unknowns hnames, ← map_constant, ← List.map_append, ← List.filter_append]
  rfl

/-- **An arrow moves the unknown** to where the row is zero. -/
theorem value_solveFor {r : Row n} {j : Fin n} (hj : r.1 j ≠ 0) (x : Fin n → Rat) (ctx : Context) :
    value (assignment names x) ((encode names r).solveFor (symbol (names j)) ctx) =
      x j - r.eval x / r.1 j := by
  have hrest := LinearEquation.affine_sumOf names (r.rest j)
  have hcanon := canonical_divide hrest.canonical (.const (-r.1 j))
  have hdenotes := denotes_divide ⟨hrest.defined, rfl⟩
    (⟨.const _, value_const _⟩ : Denotes (assignment names x) (.const (-r.1 j)) (-r.1 j))
    (neg_ne_zero.mpr hj)
  have hdegree : (divide (sumOf ((r.rest j).map (Summand.expr names))) (.const (-r.1 j))).degree ≤
      Rational.maxExactExponent := by
    have hrestDegree : (sumOf ((r.rest j).map (Summand.expr names))).degree ≤ 1 := by
      refine (degree_le_exponentBound _).trans (exponentBound_sumOf_le (N := 0) fun e he => ?_)
      obtain ⟨s, -, rfl⟩ := List.mem_map.mp he
      exact (s.affineTerm_expr names).degree.le
    refine (degree_divide_le _ _).trans ?_
    exact (Nat.add_le_add hrestDegree (exponentBound_const_le _)).trans (by decide)
  rw [solveFor_eq hnames, evaluate_eq hcanon,
    (sound_of_degree_le hcanon hdenotes.defined hdegree).denotes.value_eq, hdenotes.value_eq,
    LinearEquation.value_sumOf hnames, LinearEquation.eval_sum_row, Row.sum_rest]
  field_simp
  ring

/-- The value that an arrow gives an unknown. -/
def answer (names : Fin n → String) (S : Fin m → Row n) (ctx : Context) (j : Fin n) :
    Option Expr :=
  (firstWith S j).map fun i => (encode names (S i)).solveFor (symbol (names j)) ctx

/-- The arrows from the last unknown to the first. -/
def answerArrows (names : Fin n → String) (S : Fin m → Row n) (ctx : Context) : List Expr :=
  (List.finRange n).reverse.filterMap fun j =>
    (answer names S ctx j).map fun v => arrow (symbol (names j)) v

/-- Whichever search is used, the solutions of a cleared system are its arrows. -/
theorem solutionsBy_of_cleared {search : PivotSearch} (hsearch : search.Valid) {S : Fin m → Row n}
    (h : Cleared S (List.finRange m)) (ctx : Context) :
    solutionsBy search (systemOf names S) (unknowns names) ctx = answerArrows names S ctx := by
  rw [solutionsBy, unknowns, ← List.map_reverse, List.filterMap_map, answerArrows]
  refine List.filterMap_congr fun j _ => ?_
  -- Written out, both compositions are one function; to compare their parts would run the evaluator.
  simp only [Function.comp_apply, rowForBy?_systemOf hnames hsearch h, answer, Option.map_map,
    Function.comp_def]

omit hnames in
theorem mem_answerArrows {S : Fin m → Row n} {ctx : Context} {e : Expr} :
    e ∈ answerArrows names S ctx ↔
      ∃ j v, answer names S ctx j = some v ∧ e = arrow (symbol (names j)) v := by
  simp only [answerArrows, List.mem_filterMap, List.mem_reverse, List.mem_finRange, true_and,
    Option.map_eq_some_iff]
  exact exists_congr fun j => exists_congr fun v => and_congr_right fun _ => eq_comm

/-- The arrows bind the unknowns that some row has. -/
theorem get?_answerArrows (S : Fin m → Row n) (ctx : Context) :
    (Bindings.ofArrows (answerArrows names S ctx)).OfVariables ∧
      (∀ j, (Bindings.ofArrows (answerArrows names S ctx)).get? (symbol (names j)) =
        answer names S ctx j) ∧
      ∀ s, (∀ j, names j ≠ s) →
        (Bindings.ofArrows (answerArrows names S ctx)).get? (symbol s) = none := by
  let pairs := (List.finRange n).reverse.filterMap fun j =>
    (answer names S ctx j).map fun v => (symbol (names j), v)
  have hmem : ∀ {k v}, (k, v) ∈ pairs ↔
      ∃ j, k = symbol (names j) ∧ answer names S ctx j = some v := by
    intro k v
    simp only [pairs, List.mem_filterMap, List.mem_reverse, List.mem_finRange, true_and,
      Option.map_eq_some_iff, Prod.mk.injEq]
    constructor
    · rintro ⟨j, w, hw, rfl, rfl⟩
      exact ⟨j, rfl, hw⟩
    · rintro ⟨j, rfl, hv⟩
      exact ⟨j, v, hv, rfl, rfl⟩
  have hdistinct : (pairs.map Prod.fst).Pairwise fun k l => (k == l) = false := by
    refine List.pairwise_map.mpr (List.Pairwise.filterMap _ (fun i j hij p hp q hq => ?_)
      (List.nodup_reverse.mpr (List.nodup_finRange n)))
    obtain ⟨v, -, rfl⟩ := Option.map_eq_some_iff.mp hp
    obtain ⟨w, -, rfl⟩ := Option.map_eq_some_iff.mp hq
    exact Bool.eq_false_iff.mpr fun h => hij ((symbol_beq hnames i j).mp h)
  have hbindings : Bindings.ofArrows (answerArrows names S ctx) = ⟨pairs⟩ := by
    rw [Bindings.ofArrows, answerArrows, List.filterMap_filterMap]
    refine Eq.trans (congrArg Bindings.ofList (List.filterMap_congr fun j _ => ?_))
      (Bindings.ofList_of_distinct hdistinct)
    cases answer names S ctx j <;> rfl
  have hnone : ∀ s, (∀ j, names j = s → answer names S ctx j = none) →
      (⟨pairs⟩ : Bindings).get? (symbol s) = none := by
    intro s hs
    refine MatchState.get?_eq_none_iff.mpr fun k hk => ?_
    obtain ⟨⟨k, v⟩, hp, rfl⟩ := List.mem_map.mp hk
    obtain ⟨j, rfl, hv⟩ := hmem.mp hp
    refine Bool.eq_false_iff.mpr fun h => ?_
    rw [hs j (beq_iff_eq.mp (show (names j == s) = true from h))] at hv
    cases hv
  rw [hbindings]
  refine ⟨fun p hp => ?_, fun j => ?_, fun s hs => hnone s fun j hj => absurd hj (hs j)⟩
  · obtain ⟨j, hj, -⟩ := hmem.mp hp
    rw [hj]
    rfl
  · cases hanswer : answer names S ctx j with
    | none => exact hnone _ fun i hi => hnames hi ▸ hanswer
    | some v => exact MatchState.get?_of_mem hdistinct (hmem.mpr ⟨j, rfl, hanswer⟩)

/-- **All arrows together** stand for the adjusted values of the unknowns. -/
theorem valuation_answerArrows (S : Fin m → Row n) (ctx : Context) (x : Fin n → Rat) :
    (Bindings.ofArrows (answerArrows names S ctx)).valuation (assignment names x) =
      assignment names (adjusted S x) := by
  obtain ⟨-, hbound, hfree⟩ := get?_answerArrows hnames S ctx
  funext s
  rw [Bindings.valuation]
  by_cases hs : ∃ j, names j = s
  · obtain ⟨j, rfl⟩ := hs
    rw [hbound, answer, assignment_apply hnames, assignment_apply hnames, adjusted]
    cases hfirst : firstWith S j with
    | none => rfl
    | some i => exact value_solveFor hnames (firstWith_eq_some.mp hfirst).1 x ctx
  · rw [hfree s fun j hj => hs ⟨j, hj⟩, assignment, assignment, Function.extend_apply' _ _ _ hs,
      Function.extend_apply' _ _ _ hs]

end Arrows

/-! ## The solver -/

namespace LinearEquation

/-- A side of an equation as an expression. -/
abbrev side (names : Fin n → String) (ss : List (Summand n)) : Expr :=
  sumOf (ss.map (Summand.expr names))

theorem cancellable_side (names : Fin n → String) (ss : List (Summand n)) :
    Cancellable (fun _ => 1) (side names ss) := by
  refine cancellable_sumOf fun e he => ?_
  obtain ⟨s, -, rfl⟩ := List.mem_map.mp he
  rcases s with ⟨q, - | j⟩
  · exact .const q
  · refine cancellable_productOf (List.forall_mem_cons.mpr
      ⟨⟨.const q, fun h => by cases h⟩, List.forall_mem_singleton.mpr ⟨.var _ _, fun _ => ?_⟩⟩)
    rw [symbol, value_var]
    exact one_ne_zero

/-- The equation with the arrows substituted into both sides holds wherever its difference is zero at
the adjusted values. -/
theorem value_side_answerArrows (hnames : Function.Injective names) (ss : List (Summand n))
    (S : Fin m → Row n) (ctx : Context) (x : Fin n → Rat) :
    value (assignment names x) ((side names ss).substitute (.ofArrows (answerArrows names S ctx))) =
      (ss.map (Summand.value (adjusted S x))).sum := by
  rw [value_substitute (get?_answerArrows hnames S ctx).1 (cancellable_side names ss),
    valuation_answerArrows hnames, value_sumOf hnames, eval_sum_row]

end LinearEquation

/-- All equations hold. -/
def Solves (system : Fin m → LinearEquation n) (x : Fin n → Rat) : Prop :=
  ∀ i, (system i).Holds x

/-- The arrows of the solver are those of a cleared system with the same solutions. -/
theorem solve_eq_answerArrows (hnames : Function.Injective names)
    (system : Fin m → LinearEquation n) (ctx : Context) :
    ∃ S : Fin m → Row n, Cleared S (List.finRange m) ∧
      (∀ x, Solves system x ↔ ∀ i, (S i).eval x = 0) ∧
      solve (List.ofFn fun i => (system i).expr names) (unknowns names) ctx =
        answerArrows names S ctx := by
  obtain ⟨T, hreduced, honce, hT⟩ :=
    rowReduceBy_systemOf hnames findPivot?_valid (fun i => (system i).row) ctx
  obtain ⟨S, hback, -, hcleared, hS⟩ := backSubstitute_systemOf hnames honce ctx
  refine ⟨S, hcleared, fun x => ?_, ?_⟩
  · rw [← hback.eval, ← hreduced.eval]
    exact forall_congr' fun i => ((system i).row_eval x).symm
  · rw [solve, solveBy, ofEquations_eq_systemOf hnames, hT, hS,
      solutionsBy_of_cleared hnames findPivot?_valid hcleared]

/-- **The answers of the solver** on a system with solutions. An unknown has an arrow iff it is not
free, every arrow holds in every solution, and all arrows together solve the equations iff every unknown
is determined or free. -/
theorem solve_satisfies_iff (hnames : Function.Injective names)
    (system : Fin m → LinearEquation n) (hsolvable : ∃ x, Solves system x) (ctx : Context) :
    let answers := solve (List.ofFn fun i => (system i).expr names) (unknowns names) ctx
    (∀ j, (∃ v, arrow (symbol (names j)) v ∈ answers) ↔ ¬Free (Solves system) j) ∧
    (∀ e ∈ answers, ∃ j v, e = arrow (symbol (names j)) v ∧
      ∀ x, Solves system x → value (assignment names x) v = x j) ∧
    ((∀ i x, value (assignment names x)
          ((LinearEquation.side names (system i).left).substitute (.ofArrows answers)) =
        value (assignment names x)
          ((LinearEquation.side names (system i).right).substitute (.ofArrows answers))) ↔
      ∀ j, Determined (Solves system) j ∨ Free (Solves system) j) := by
  obtain ⟨S, hcleared, hsame, hsolve⟩ := solve_eq_answerArrows hnames system ctx
  obtain ⟨x₀, hx₀⟩ := hsolvable
  have hx₀ := (hsame x₀).mp hx₀
  have hsolves : Solves system = fun x => ∀ i, (S i).eval x = 0 := funext fun x => propext (hsame x)
  intro answers
  have hanswers : answers = answerArrows names S ctx := hsolve
  refine ⟨fun j => ?_, fun e he => ?_, ?_⟩
  · rw [hsolves, free_iff hx₀, hanswers]
    constructor
    · rintro ⟨v, hv⟩ hzero
      obtain ⟨k, w, hw, heq⟩ := mem_answerArrows.mp hv
      obtain ⟨i, hi, -⟩ := Option.map_eq_some_iff.mp hw
      have hkj : names j = names k := by
        injection heq with _ hsymbol
        injection hsymbol
      rw [← hnames hkj] at hi
      exact (firstWith_eq_some.mp hi).1 (hzero i)
    · intro hnot
      cases hfirst : firstWith S j with
      | none => exact absurd (firstWith_eq_none.mp hfirst) hnot
      | some i => exact ⟨_, mem_answerArrows.mpr ⟨j, _, by rw [answer, hfirst]; rfl, rfl⟩⟩
  · obtain ⟨j, v, hv, rfl⟩ := mem_answerArrows.mp (hanswers ▸ he)
    obtain ⟨i, hi, rfl⟩ := Option.map_eq_some_iff.mp hv
    refine ⟨j, _, rfl, fun x hx => ?_⟩
    rw [value_solveFor hnames (firstWith_eq_some.mp hi).1, (hsame x).mp hx i, zero_div, sub_zero]
  · rw [hsolves, ← singleUnknowns_iff hcleared hx₀, ← eval_adjusted_eq_zero_iff hcleared hx₀,
      hanswers]
    simp only [LinearEquation.value_side_answerArrows hnames]
    rw [forall_comm]
    exact forall_congr' fun x => hsame (adjusted S x)

/-- The equation `x + y == 3`. -/
def sumIsThree : Fin 1 → LinearEquation 2 :=
  ![⟨(List.finRange 2).map fun j => (1, some j), [(3, none)]⟩]

/-- Its two unknowns are neither determined nor free, and the arrows together do not solve it. -/
theorem solve_sumIsThree :
    Function.Injective !["x", "y"] ∧ (∃ x, Solves sumIsThree x) ∧
      ¬∀ i x, value (assignment !["x", "y"] x)
          ((LinearEquation.side !["x", "y"] (sumIsThree i).left).substitute
            (.ofArrows (solve (List.ofFn fun i => (sumIsThree i).expr !["x", "y"])
              [symbol "x", symbol "y"] (.inert .standard)))) =
        value (assignment !["x", "y"] x)
          ((LinearEquation.side !["x", "y"] (sumIsThree i).right).substitute
            (.ofArrows (solve (List.ofFn fun i => (sumIsThree i).expr !["x", "y"])
              [symbol "x", symbol "y"] (.inert .standard)))) := by
  have hnames : Function.Injective !["x", "y"] := by decide
  have hholds : ∀ x, Solves sumIsThree x ↔ x 0 + x 1 = 3 := by
    intro x
    simp [Solves, sumIsThree, LinearEquation.Holds, Summand.value, List.finRange_succ]
  have hsolvable : ∃ x, Solves sumIsThree x := ⟨![1, 2], (hholds _).mpr (by norm_num)⟩
  obtain ⟨-, -, hiff⟩ := solve_satisfies_iff hnames sumIsThree hsolvable (.inert .standard)
  refine ⟨hnames, hsolvable, fun hall => ?_⟩
  rcases hiff.mp hall 0 with hdetermined | hfree
  · have := hdetermined ![1, 2] ![2, 1] ((hholds _).mpr (by norm_num)) ((hholds _).mpr (by norm_num))
    norm_num at this
  · have := (hholds _).mp (hfree ![1, 2] 0 ((hholds _).mpr (by norm_num)))
    norm_num [Function.update] at this

end SymbolicAlgebra
