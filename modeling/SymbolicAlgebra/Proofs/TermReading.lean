import Mathlib.Data.List.Permutation
import SymbolicAlgebra.Proofs.Division
import SymbolicAlgebra.Proofs.OperatorRules

/-!
# Reading terms of polynomials

A term is read by matching it with `_c*x^_n`, where `_c` stands for something free of `x` and `_n` for
an integer. What a success of the match can mean is read off the search (`Attempt.Ensures`): the
factors of the term are shared out between the coefficient and the power, or a root of the power was
taken and `_n` was not bound. In the second case there is no degree, and the term is not read.

Which part of the pattern comes first depends on the name of the variable. A term with a constant
coefficient is read back either way: the search finds the power before it takes a root, and the root
of a constant is no variable.

Results:
* `reads_of_readTerm`: a term that is read is the product of the coefficient and the power.
* `readTerm_term`: a term with a constant coefficient is read back.
* `readTerm_zero`: `0` is not read, as it has no degree.
-/

namespace SymbolicAlgebra

open Expr Evaluator

/-! ## What a success ensures -/

namespace Attempt

open MatchState Matching

variable {ok : Expr → Expr → Prop} {s : MatchState} {R R' : MatchState → Prop} {a b : Attempt}

/-- Every state that a success leads to from `s` satisfies `R`. -/
def Ensures (s : MatchState) (R : MatchState → Prop) (a : Attempt) : Prop :=
  ∀ t, a.run s = (true, t) → R t

theorem ensures_fails (s : MatchState) (R : MatchState → Prop) : Ensures s R (pure false) :=
  fun _ h => by cases h

theorem Ensures.mono (h : Ensures s R a) (himp : ∀ t, R t → R' t) : Ensures s R' a :=
  fun t ht => himp t (h t ht)

theorem Ensures.tentatively (h : Ensures s R a) : Ensures s R (tentatively a) := by
  intro t ht
  rw [run_tentatively] at ht
  split at ht
  · next hrun =>
    cases ht
    exact h _ (Prod.ext hrun rfl)
  · cases ht

theorem Ensures.andThen (h : Ensures s (fun t => Ensures t R b) a) : Ensures s R (a.andThen b) := by
  intro t ht
  rw [run_andThen] at ht
  split at ht
  · next hrun => exact h _ (Prod.ext hrun rfl) t ht
  · cases ht

/-- The second attempt starts where the first one did. -/
theorem Ensures.orElse (hs : s.Consistent) (hclean : Clean ok a) (h : Ensures s R a)
    (h' : Ensures s R b) : Ensures s R (a.orElse b) := by
  intro t ht
  rw [run_orElse] at ht
  split at ht
  · next hrun =>
    cases ht
    exact h _ (Prod.ext hrun rfl)
  · next hrun =>
    rw [hclean.restores s hs (eq_false_of_ne_true hrun)] at ht
    exact h' t ht

theorem clean_ensures_orElse (hs : s.Consistent) (h : Clean ok a ∧ Ensures s R a)
    (h' : Clean ok b ∧ Ensures s R b) : Clean ok (a.orElse b) ∧ Ensures s R (a.orElse b) :=
  ⟨h.1.orElse h'.1, h.2.orElse hs h.1 h'.2⟩

theorem ensures_anyM (hs : s.Consistent) {α : Type} {attempt : α → Attempt} {xs : List α}
    (h : ∀ x ∈ xs, Clean ok (attempt x) ∧ Ensures s R (attempt x)) :
    Ensures s R (xs.anyM attempt) :=
  (anyM_induction (P := fun a => Clean ok a ∧ Ensures s R a) ⟨clean_pure false, ensures_fails s R⟩
    (clean_ensures_orElse hs) h).2

theorem ensures_anySubset (hs : s.Consistent) {α : Type} {attempt : List α → List α → Attempt}
    {items : List α} (h : ∀ chosen others, (chosen ++ others).Perm items →
      Clean ok (attempt chosen others) ∧ Ensures s R (attempt chosen others)) :
    Ensures s R (anySubset attempt items) :=
  (anySubset_induction (P := fun a => Clean ok a ∧ Ensures s R a)
    ⟨clean_pure false, ensures_fails s R⟩ (clean_ensures_orElse hs) h).2

end Attempt

namespace MatchState

variable {s : MatchState} {key k v : Expr}

theorem get?_add (s : MatchState) (key v k : Expr) : (s.add key v).bindings.get? k =
    (s.bindings.get? k).or (if key == k then some v else none) := by
  refine get?_append.trans (congrArg _ ?_)
  cases h : key == k <;> simp [Bindings.get?, h]

theorem get?_add_self (h : s.bindings.get? key = none) :
    (s.add key v).bindings.get? key = some v := by
  rw [get?_add, h, BEq.rfl]
  rfl

theorem get?_add_of_ne (h : (key == k) = false) :
    (s.add key v).bindings.get? k = s.bindings.get? k := by
  rw [get?_add, h]
  exact Option.or_none

end MatchState

namespace Polynomial

open Attempt Matching MatchState

variable {ctx : Context} {name : String} {s : MatchState} {e t c : Expr} {n : Int}

/-! ## The pattern of a term -/

/-- The state in which a term is read: the variable stands for itself. -/
def fixed (name : String) : MatchState :=
  MatchState.empty.add (symbol name) (symbol name)

theorem consistent_fixed (name : String) : (fixed name).Consistent :=
  consistent_add consistent_empty _ rfl

theorem get?_fixed (name : String) :
    (fixed name).bindings.get? (symbol name) = some (symbol name) :=
  get?_add_self rfl

theorem get?_fixed_pattern (name n : String) (c : Condition) :
    (fixed name).bindings.get? (pattern n c) = if name = n then some (symbol name) else none := by
  have hbeq : (symbol name == pattern n c) = decide (name = n) := beq_var name n none (some c)
  have hget := get?_add .empty (symbol name) (symbol name) (pattern n c)
  rw [hbeq] at hget
  refine hget.trans ?_
  by_cases h : name = n <;> simp [h, MatchState.empty, Bindings.get?, Bindings.empty]

theorem get?_fixed_coefficient (hc : name ≠ "_c") :
    (fixed name).bindings.get? (coefficientPattern (symbol name)) = none := by
  rw [coefficientPattern, get?_fixed_pattern, if_neg hc]

theorem get?_fixed_degree (hn : name ≠ "_n") : (fixed name).bindings.get? degreePattern = none := by
  rw [degreePattern, get?_fixed_pattern, if_neg hn]

/-- A variable with a condition, where it is not bound. -/
theorem run_matching_pattern {m : String} {condition : Condition}
    (h : s.bindings.get? (pattern m condition) = none) (e : Expr) :
    ((pattern m condition).matching e ctx).run s =
      if condition.accepts e then (true, s.add (pattern m condition) e) else (false, s) := by
  rw [Expr.matching_eq]
  change StateT.run (if condition.accepts e = true then _ else _) s = _
  split
  · exact run_bind_of_unbound h
  · rfl

theorem ensures_matching_pattern {m : String} {condition : Condition}
    (h : s.bindings.get? (pattern m condition) = none) (e : Expr) :
    Ensures s (fun t => t = s.add (pattern m condition) e ∧ condition.accepts e = true)
      ((pattern m condition).matching e ctx) := by
  intro t ht
  rw [run_matching_pattern h] at ht
  split at ht
  · cases ht
    exact ⟨rfl, ‹_›⟩
  · cases ht

/-! ### The power -/

/-- The variable stands for itself, and the degree is not bound. -/
structure Ready (name : String) (s : MatchState) : Prop where
  consistent : s.Consistent
  variable_bound : s.bindings.get? (symbol name) = some (symbol name)
  degree_unbound : s.bindings.get? degreePattern = none

theorem Ready.run_variable (h : Ready name s) (e : Expr) :
    ((symbol name).matching e ctx).run s = (symbol name == e, s) :=
  run_matching_bound h.variable_bound e

theorem Ready.run_degree (h : Ready name s) (n : Int) :
    (degreePattern.matching (int n) ctx).run s = (true, s.add degreePattern (int n)) :=
  run_matching_pattern h.degree_unbound (int n)

/-- The expressions that are read as the power `n` of a variable. -/
inductive IsPower (name : String) : Int → Expr → Prop
  | one : IsPower name 0 one
  | self {e : Expr} : (symbol name == e) = true → IsPower name 1 e
  | power {b : Expr} (n : Int) : (symbol name == b) = true → IsPower name n (power b (int n))

theorem not_isPower_zero : ¬ IsPower name n .zero := by
  rintro (_ | h | _)
  cases h

theorem exists_int_of_accepts (h : Condition.integer.accepts e = true) : ∃ n : Int, e = int n := by
  cases e with
  | const q =>
    obtain ⟨n, rfl⟩ := exists_int_of_isInteger h
    exact ⟨n, rfl⟩
  | _ => cases h

theorem eq_power_of_asPower? {b y : Expr} (h : e.asPower? = some (b, y)) : e = Expr.power b y := by
  unfold asPower? at h
  split at h
  · cases h
    rfl
  · cases h

/-- The pattern `x^_n` against `1`, as the power `0`. -/
theorem Ready.run_matching_power_one (h : Ready name s) :
    ((Expr.power (symbol name) degreePattern).matching .one ctx).run s =
      (true, s.add degreePattern (int 0)) := by
  rw [Expr.matching_eq]
  change StateT.run
    (matchPower ctx (fun p e => p.matching e ctx) (symbol name) degreePattern .one) s = _
  unfold matchPower
  simp only [anyM_cons]
  refine (run_orElse_of_fails (run_tentatively_of_fails ?_)).trans
    (run_orElse_of_succeeds (run_tentatively_of_succeeds (h.run_degree 0)))
  have hget : ((get : StateM MatchState MatchState).run s).1.bindings.get? degreePattern = none :=
    h.degree_unbound
  simp only [run_seq, hget]
  rfl

/-- The degree is bound to `1`, and the variable must meet what it stands for. -/
theorem Ready.run_matching_first (h : Ready name s) (e : Expr) :
    ((degreePattern.matching .one ctx).andThen ((symbol name).matching e ctx)).run s =
      (symbol name == e, s.add degreePattern (int 1)) := by
  have hvariable : (s.add degreePattern (int 1)).bindings.get? (symbol name) = some (symbol name) := by
    rw [get?_add, h.variable_bound]
    rfl
  exact (run_andThen_of_succeeds (h.run_degree 1)).trans (run_matching_bound hvariable e)

/-- What a match of `x^_n` with `e` comes to: the exponent is bound, or a root was taken and nothing
is. -/
def PowerMatched (name : String) (s : MatchState) (e : Expr) (t : MatchState) : Prop :=
  t = s ∨ ∃ n, IsPower name n e ∧ t = s.add degreePattern (int n)

theorem Ready.ensures_matching_power (h : Ready name s) (e : Expr) :
    Ensures s (PowerMatched name s e) ((Expr.power (symbol name) degreePattern).matching e ctx) := by
  cases hone : e.isOne
  · have hparts : Ensures s (PowerMatched name s e) (asPower (symbol name) degreePattern ctx e) := by
      unfold asPower
      cases hpower : e.asPower? with
      | none => exact ensures_fails _ _
      | some parts =>
        obtain ⟨b, y⟩ := parts
        refine Ensures.andThen fun t ht => ?_
        obtain ⟨hb, rfl⟩ := Prod.mk.inj ((h.run_variable b).symm.trans ht)
        refine (ensures_matching_pattern h.degree_unbound y).mono fun u hu => ?_
        obtain ⟨n, rfl⟩ := exists_int_of_accepts hu.2
        exact .inr ⟨n, eq_power_of_asPower? hpower ▸ .power n hb, hu.1⟩
    have hfirst : Ensures s (PowerMatched name s e)
        ((degreePattern.matching .one ctx).andThen ((symbol name).matching e ctx)) := by
      intro t ht
      obtain ⟨he, rfl⟩ := Prod.mk.inj ((h.run_matching_first e).symm.trans ht)
      exact .inr ⟨1, .self he, rfl⟩
    have hroot : Ensures s (PowerMatched name s e)
        ((symbol name).matching ((Expr.power e (inverse degreePattern)).evaluate ctx) ctx) :=
      fun t ht => .inl (Prod.mk.inj ((h.run_variable _).symm.trans ht)).2.symm
    have hclean := (Expr.clean_matching degreePattern .one ctx).adds.andThen
      (Expr.clean_matching (symbol name) e ctx).adds
    intro t ht
    rw [run_matching_power h.degree_unbound hone fun _ => h.run_variable .zero] at ht
    exact Ensures.orElse h.consistent (adds_asPower _ _ ctx e).tentatively hparts.tentatively
      (Ensures.orElse h.consistent hclean.tentatively hfirst.tentatively hroot.tentatively) t ht
  · intro t ht
    obtain rfl := eq_const_of_isOne hone
    obtain ⟨-, rfl⟩ := Prod.mk.inj (h.run_matching_power_one.symm.trans ht)
    exact .inr ⟨0, .one, rfl⟩

/-! ### The product -/

/-- The coefficient against `c`, then the power against `e`. -/
def coefficientThenPower (name : String) (ctx : Context) (c e : Expr) : Attempt :=
  tentatively (andThen ((coefficientPattern (symbol name)).matching c ctx)
    ((Expr.power (symbol name) degreePattern).matching e ctx))

/-- The power against `e`, then the coefficient against `c`. -/
def powerThenCoefficient (name : String) (ctx : Context) (e c : Expr) : Attempt :=
  tentatively (andThen ((Expr.power (symbol name) degreePattern).matching e ctx)
    ((coefficientPattern (symbol name)).matching c ctx))

theorem clean_coefficientThenPower (name : String) (ctx : Context) (c e : Expr) :
    Clean Accepts (coefficientThenPower name ctx c e) :=
  ((Expr.clean_matching _ c ctx).adds.andThen (Expr.clean_matching _ e ctx).adds).tentatively

theorem clean_powerThenCoefficient (name : String) (ctx : Context) (e c : Expr) :
    Clean Accepts (powerThenCoefficient name ctx e c) :=
  ((Expr.clean_matching _ e ctx).adds.andThen (Expr.clean_matching _ c ctx).adds).tentatively

/-- The coefficient takes some of the factors, all of them or none. -/
theorem run_matchPart_coefficient (hc : name ≠ "_c") (ctx : Context) (t : Expr) :
    (matchPart .product ctx (fun p e => p.matching e ctx) (coefficientPattern (symbol name))
      (Expr.power (symbol name) degreePattern) t).run (fixed name) =
      ((anySubset (fun chosen others =>
        coefficientThenPower name ctx (productOf chosen) (productOf others)) t.factors).orElse
          (coefficientThenPower name ctx .one t)).run (fixed name) := by
  rw [coefficientPattern, pattern, run_matchPart_var, ← pattern, ← coefficientPattern,
    get?_fixed_coefficient hc]
  rfl

/-- The power takes a single factor. -/
theorem matchPart_power (name : String) (ctx : Context) (t : Expr) :
    matchPart .product ctx (fun p e => p.matching e ctx) (Expr.power (symbol name) degreePattern)
      (coefficientPattern (symbol name)) t =
      (picks t.factors).anyM fun pick =>
        powerThenCoefficient name ctx pick.1 (productOf pick.2) := rfl

/-- The factors of a term shared out between its coefficient and the power of the variable. -/
def Reads (name : String) (t : Expr) (n : Int) (c : Expr) : Prop :=
  ∃ chosen others : List Expr, (chosen ++ others).Perm t.factors ∧ c = productOf chosen ∧
    IsPower name n (productOf others)

/-- What a match of a term comes to: the term is read, or there is no degree. -/
def TermMatched (name : String) (t : Expr) (u : MatchState) : Prop :=
  u.bindings.get? degreePattern = none ∨ ∃ n c, Reads name t n c ∧
    u.bindings.get? degreePattern = some (int n) ∧
    u.bindings.get? (coefficientPattern (symbol name)) = some c

theorem ready_fixed (hn : name ≠ "_n") : Ready name (fixed name) :=
  ⟨consistent_fixed name, get?_fixed name, get?_fixed_degree hn⟩

section Split

variable (hc : name ≠ "_c") (hn : name ≠ "_n")
include hc hn

/-- After the coefficient is bound. -/
theorem ready_add_coefficient (c : Expr) :
    Ready name ((fixed name).add (coefficientPattern (symbol name)) c) where
  consistent := consistent_add (consistent_fixed name) _ (get?_fixed_coefficient hc)
  variable_bound := by
    have hbase : (coefficientPattern (symbol name) == symbol name) = false :=
      (beq_var "_c" name _ none).trans (decide_eq_false (Ne.symm hc))
    rw [get?_add_of_ne hbase, get?_fixed]
  degree_unbound := (get?_add_of_ne rfl).trans (get?_fixed_degree hn)

theorem ensures_coefficientThenPower {chosen others : List Expr}
    (h : (chosen ++ others).Perm t.factors) : Ensures (fixed name) (TermMatched name t)
      (coefficientThenPower name ctx (productOf chosen) (productOf others)) := by
  refine (Ensures.andThen fun u hu => ?_).tentatively
  have hnone := get?_fixed_coefficient hc
  obtain ⟨rfl, -⟩ := ensures_matching_pattern hnone _ u hu
  have hready := ready_add_coefficient hc hn (productOf chosen)
  refine (hready.ensures_matching_power _).mono fun v hv => ?_
  rcases hv with rfl | ⟨n, hpower, rfl⟩
  · exact .inl hready.degree_unbound
  · exact .inr ⟨n, _, ⟨chosen, others, h, rfl, hpower⟩, get?_add_self hready.degree_unbound,
      (get?_add_of_ne rfl).trans (get?_add_self hnone)⟩

theorem ensures_powerThenCoefficient {chosen others : List Expr}
    (h : (chosen ++ others).Perm t.factors) : Ensures (fixed name) (TermMatched name t)
      (powerThenCoefficient name ctx (productOf others) (productOf chosen)) := by
  refine (Ensures.andThen fun u hu => ?_).tentatively
  have hnone := get?_fixed_coefficient hc
  have hdegree := get?_fixed_degree hn
  rcases (ready_fixed hn).ensures_matching_power _ u hu with rfl | ⟨n, hpower, rfl⟩
  · refine (ensures_matching_pattern hnone _).mono fun v hv => .inl ?_
    rw [hv.1, get?_add_of_ne rfl, hdegree]
  · have hnone' : ((fixed name).add degreePattern (int n)).bindings.get?
        (coefficientPattern (symbol name)) = none := (get?_add_of_ne rfl).trans hnone
    refine (ensures_matching_pattern hnone' _).mono fun v hv => ?_
    rw [hv.1]
    exact .inr ⟨n, _, ⟨chosen, others, h, rfl, hpower⟩,
      (get?_add_of_ne rfl).trans (get?_add_self hdegree), get?_add_self hnone'⟩

theorem ensures_matchPart_coefficient (ht : Canonical t) :
    Ensures (fixed name) (TermMatched name t) (matchPart .product ctx (fun p e => p.matching e ctx)
      (coefficientPattern (symbol name)) (Expr.power (symbol name) degreePattern) t) := by
  have hsubsets : Ensures (fixed name) (TermMatched name t) (anySubset (fun chosen others =>
      coefficientThenPower name ctx (productOf chosen) (productOf others)) t.factors) :=
    ensures_anySubset (consistent_fixed name) fun chosen others hperm =>
      ⟨clean_coefficientThenPower name ctx _ _, ensures_coefficientThenPower hc hn hperm⟩
  have hperm : ([] ++ t.factors).Perm t.factors := List.Perm.refl _
  have hnone : Ensures (fixed name) (TermMatched name t)
      (coefficientThenPower name ctx (productOf []) (productOf t.factors)) :=
    ensures_coefficientThenPower hc hn hperm
  rw [ht.productOf_factors] at hnone
  intro u hu
  rw [run_matchPart_coefficient hc] at hu
  exact hsubsets.orElse (consistent_fixed name)
    (clean_anySubset (fun _ _ => clean_coefficientThenPower name ctx _ _) _) hnone u hu

theorem ensures_matchPart_power (ht : Canonical t) :
    Ensures (fixed name) (TermMatched name t) (matchPart .product ctx (fun p e => p.matching e ctx)
      (Expr.power (symbol name) degreePattern) (coefficientPattern (symbol name)) t) := by
  rw [matchPart_power]
  refine ensures_anyM (consistent_fixed name) fun pick hpick =>
    ⟨clean_powerThenCoefficient name ctx _ _, ?_⟩
  obtain ⟨part, others⟩ := pick
  have hperm := (List.perm_append_singleton part others).trans (perm_of_mem_picks hpick)
  have hpart : Ensures (fixed name) (TermMatched name t)
      (powerThenCoefficient name ctx (productOf [part]) (productOf others)) :=
    ensures_powerThenCoefficient hc hn hperm
  rwa [(ht.of_factors part (hperm.mem_iff.mp (by simp))).constructed.productOf_singleton] at hpart

end Split

/-- The pattern of a term is the product of its two parts, in the order of the names. -/
theorem exists_termPattern (name : String) : ∃ ps, termPattern (symbol name) = .product ps ∧
    ps.Perm [coefficientPattern (symbol name), Expr.power (symbol name) degreePattern] :=
  ⟨_, productOf_eq_product rfl (forall_mem_pair rfl rfl) le_rfl, sort_perm _⟩

theorem partition_of_perm {ps : List Expr}
    (h : ps.Perm [coefficientPattern (symbol name), Expr.power (symbol name) degreePattern]) :
    ps.partition isConst = ([], ps) := by
  have hconst : ∀ p ∈ ps, p.isConst = false := fun p hp =>
    forall_mem_pair (P := fun p => p.isConst = false) rfl rfl p (h.mem_iff.mp hp)
  rw [List.partition_eq_filter_filter, List.filter_eq_nil_iff.mpr fun p hp => by simp [hconst p hp],
    List.filter_eq_self.mpr fun p hp => by simp [hconst p hp]]

/-- A term other than `0` is matched with one part of the pattern first, then the other. -/
theorem exists_matching_term (name : String) (ctx : Context) (h0 : t.isZero = false) : ∃ ps,
    ps.Perm [coefficientPattern (symbol name), Expr.power (symbol name) degreePattern] ∧
      (termPattern (symbol name)).matching t ctx = (picks ps).anyM fun pick =>
        matchPart .product ctx (fun p e => p.matching e ctx) pick.1 (productOf pick.2) t := by
  obtain ⟨ps, heq, hperm⟩ := exists_termPattern name
  have hne : ps.isEmpty = false := by
    cases ps with
    | nil => cases hperm.length_eq
    | cons => rfl
  refine ⟨ps, hperm, ?_⟩
  rw [heq, Expr.matching_eq]
  change (if t.isZero = true then _ else matchCommutative .product ctx _ ps t) = _
  rw [h0, if_neg Bool.false_ne_true, matchCommutative, partition_of_perm hperm]
  dsimp only
  rw [hne]
  rfl

theorem exists_matching_zero (name : String) (ctx : Context) : ∃ ps : List Expr,
    ps.Perm [coefficientPattern (symbol name), Expr.power (symbol name) degreePattern] ∧
      (termPattern (symbol name)).matching .zero ctx =
        ps.anyM fun p => tentatively (p.matching .zero ctx) := by
  obtain ⟨ps, heq, hperm⟩ := exists_termPattern name
  exact ⟨ps, hperm, by rw [heq, Expr.matching_eq]; rfl⟩

/-- One part of the pattern matches `0`, and it is not the power. -/
theorem ensures_matching_zero (hc : name ≠ "_c") (hn : name ≠ "_n") :
    Ensures (fixed name) (fun u => u.bindings.get? degreePattern = none)
      ((termPattern (symbol name)).matching .zero ctx) := by
  obtain ⟨ps, hperm, heq⟩ := exists_matching_zero name ctx
  have hdegree := get?_fixed_degree hn
  rw [heq]
  refine @ensures_anyM Accepts _ _ (consistent_fixed name) _ _ _ fun p hp =>
    ⟨(Expr.clean_matching p .zero ctx).adds.tentatively, Ensures.tentatively ?_⟩
  rcases List.mem_pair.mp (hperm.mem_iff.mp hp) with rfl | rfl
  · refine (ensures_matching_pattern (get?_fixed_coefficient hc) .zero).mono fun u hu => ?_
    rw [hu.1, get?_add_of_ne rfl, hdegree]
  · refine ((ready_fixed hn).ensures_matching_power .zero).mono fun u hu => ?_
    rcases hu with rfl | ⟨n, hpower, -⟩
    · exact hdegree
    · exact absurd hpower not_isPower_zero

/-- **A match of a term** shares out its factors, or does not find a degree. -/
theorem ensures_matching_term (hc : name ≠ "_c") (hn : name ≠ "_n") (ht : Canonical t) :
    Ensures (fixed name) (TermMatched name t) ((termPattern (symbol name)).matching t ctx) := by
  cases h0 : t.isZero
  · obtain ⟨ps, hperm, heq⟩ := exists_matching_term name ctx h0
    rw [heq]
    refine @ensures_anyM Accepts _ _ (consistent_fixed name) _ _ _ fun pick hpick =>
      ⟨clean_matchPart (fun p e => p.clean_matching e ctx) .product _ _ t, ?_⟩
    obtain ⟨p, others⟩ := pick
    have hpick := (perm_of_mem_picks hpick).trans hperm
    rcases List.perm_pair.mp hpick with h | h <;> obtain ⟨rfl, rfl⟩ := List.cons.inj h
    · exact ensures_matchPart_coefficient hc hn ht
    · exact ensures_matchPart_power hc hn ht
  · obtain rfl := eq_const_of_isZero h0
    exact (ensures_matching_zero hc hn).mono fun u hu => .inl hu

/-! ## Reading a term -/

theorem bindings?_eq_some {a : Attempt} {b : Bindings} (h : a.bindings? s = some b) :
    ∃ u, a.run s = (true, u) ∧ u.bindings = b := by
  unfold bindings? at h
  rcases hrun : a.run s with ⟨found, u⟩
  rw [hrun] at h
  dsimp only at h
  split at h
  · next hfound => exact ⟨u, by rw [hfound], Option.some.inj h⟩
  · cases h

theorem readTerm_eq (f t : Expr) (name : String) (ctx : Context) :
    readTerm f (symbol name) t ctx =
      match ((termPattern (symbol name)).matching t ctx).bindings? (fixed name) with
      | none => refuse (.notPolynomial f (symbol name))
      | some b =>
        match ((b.get? degreePattern).bind asConst?).bind Rational.toInt64? with
        | some n => .ok (n, (b.get? (coefficientPattern (symbol name))).getD .one)
        | none => refuse (.degreeTooLarge t) := rfl

/-- A term is read where its match binds `_n` to an integer of 64 bits. -/
theorem exists_of_readTerm {f : Expr} (h : readTerm f (symbol name) t ctx = .ok (n, c)) :
    ∃ u, ((termPattern (symbol name)).matching t ctx).run (fixed name) = (true, u) ∧
      ((u.bindings.get? degreePattern).bind asConst?).bind Rational.toInt64? = some n ∧
      (u.bindings.get? (coefficientPattern (symbol name))).getD .one = c := by
  rw [readTerm_eq] at h
  split at h
  · cases h
  · next b hb =>
    obtain ⟨u, hrun, rfl⟩ := bindings?_eq_some hb
    split at h
    · next n' hn =>
      obtain ⟨rfl, rfl⟩ := Prod.mk.inj (Except.ok.inj h)
      exact ⟨u, hrun, hn, rfl⟩
    · cases h

/-- **A term that is read is the product of the coefficient and the power**, for every variable but
`_c`. For the variable `_n` no term is read. -/
theorem reads_of_readTerm {f : Expr} (hc : name ≠ "_c") (ht : Canonical t)
    (h : readTerm f (symbol name) t ctx = .ok (n, c)) : Reads name t n c := by
  obtain ⟨u, hrun, hdegree, hcoefficient⟩ := exists_of_readTerm h
  by_cases hn : name = "_n"
  · have hget : (fixed name).bindings.get? degreePattern = some (symbol name) := by
      rw [degreePattern, get?_fixed_pattern, if_pos hn]
    have hgrows := ((termPattern (symbol name)).clean_matching t ctx).adds _ (consistent_fixed name)
    rw [hrun] at hgrows
    obtain ⟨_, hextends⟩ := hgrows.extends (consistent_fixed name)
    rw [hextends.keeps _ _ hget] at hdegree
    cases hdegree
  · rcases ensures_matching_term hc hn ht u hrun with hnone | ⟨m, c', hreads, hm, hc'⟩
    · rw [hnone] at hdegree
      cases hdegree
    · rw [hm] at hdegree
      obtain rfl : m = n := by exact_mod_cast eq_of_toInt64? hdegree
      rw [hc'] at hcoefficient
      exact hcoefficient ▸ hreads

end Polynomial

namespace Evaluator

/-! ## Roots of constants -/

theorem fst_visitTo_const (settings : Settings) (depth : Nat) {q : Rat} {s : State}
    (h : s.memo.find? (.const q) = none) :
    ((visitTo settings depth (.const q)).run s).1 = .const q := by
  cases depth with
  | zero => rfl
  | succ depth =>
    rw [visitTo, run_memoized h]
    rfl

theorem exists_visitPower_const {visit : Visit (StateM State)} {b : Expr} {q : Rat} {s : State}
    (h : ((visit b).run s).1 = .const q) (y : Expr) :
    ∃ r, ((visitPower visit b y).run s).1 = simplePower (.const q) r := by
  rcases hrun : (visit b).run s with ⟨l, s'⟩
  obtain rfl : l = .const q := by rwa [hrun] at h
  refine ⟨((visit y).run s').1, ?_⟩
  unfold visitPower
  rw [StateT.run_bind, hrun]
  rfl

/-- The power of a constant is evaluated to a constant or a power, whatever the exponent. -/
theorem exists_evaluate_power_const (q : Rat) (y : Expr) (ctx : Context) :
    ∃ r, (Expr.power (.const q) y).evaluate ctx =
      keepIfEqual (Expr.power (.const q) y) (simplePower (.const q) r) := by
  obtain ⟨depth, hdepth⟩ : ∃ depth, depthFor (Expr.power (.const q) y) = depth + 1 :=
    Nat.exists_eq_succ_of_ne_zero (Nat.pow_pos (Nat.succ_pos _)).ne'
  let started : State := ⟨Memo.empty.start (Expr.power (.const q) y), []⟩
  have hnew : started.memo.find? (.const q) = none := by
    refine (Memo.find?_start _ _ _).trans ?_
    exact (if_neg Bool.false_ne_true).trans (Memo.find?_empty _)
  obtain ⟨r, hr⟩ := exists_visitPower_const (fst_visitTo_const ⟨ctx, []⟩ depth hnew) y
  refine ⟨r, ?_⟩
  rw [evaluate_def, Evaluator.visit, fst_run, hdepth, visitTo]
  exact (congrArg Prod.fst (run_memoized (Memo.find?_empty _))).trans (congrArg (keepIfEqual _) hr)

theorem beq_symbol_evaluate_power_const (name : String) (q : Rat) (y : Expr) (ctx : Context) :
    (symbol name == (Expr.power (.const q) y).evaluate ctx) = false := by
  obtain ⟨r, hr⟩ := exists_evaluate_power_const q y ctx
  rw [hr, keepIfEqual]
  split
  · rfl
  · obtain ⟨p, hp⟩ | ⟨-, hp⟩ | ⟨hp, -⟩ := simplePower_cases (.const q) r <;> rw [hp] <;> rfl

end Evaluator

namespace Polynomial

open Attempt Matching MatchState

variable {ctx : Context} {name : String} {s : MatchState} {t : Expr} {d : Int} {q : Rat}

/-! ## Reading a term back -/

theorem term_const (name : String) (d : Int) (q : Rat) :
    term (symbol name) d (.const q) = SymbolicAlgebra.term name (q, .power d) := by
  by_cases h0 : d = 0
  · rw [h0, term_power_zero]
    rfl
  rw [term, if_neg h0, SymbolicAlgebra.term, Generator.expr, if_neg h0]
  split <;> rfl

/-- A power of the variable against the pattern of powers. -/
theorem Ready.run_matching_generator (h : Ready name s) (d : Int) :
    ((Expr.power (symbol name) degreePattern).matching ((Generator.power d).expr name) ctx).run s =
      (true, s.add degreePattern (int d)) := by
  rw [Generator.expr]
  split
  · next h0 => rw [h0, h.run_matching_power_one]
  split
  · next h1 =>
    have hparts : (tentatively (asPower (symbol name) degreePattern ctx (symbol name))).run s =
        (false, s) := run_tentatively_of_fails rfl
    have hfirst := @Ready.run_matching_first ctx name s h (symbol name)
    rw [BEq.rfl] at hfirst
    rw [run_matching_power h.degree_unbound rfl (fun h => by cases h), run_orElse_of_fails hparts,
      run_orElse_of_succeeds (run_tentatively_of_succeeds hfirst), h1]
  · have hparts : (asPower (symbol name) degreePattern ctx ((symbol name).pow d)).run s =
        (true, s.add degreePattern (int d)) := by
      refine (run_andThen_of_succeeds ?_).trans (h.run_degree d)
      rw [h.run_variable, BEq.rfl]
    exact (run_matching_power h.degree_unbound rfl (fun h => by cases h)).trans
      (run_orElse_of_succeeds (run_tentatively_of_succeeds hparts))

/-- The pattern of powers against a constant other than `1`. -/
theorem Ready.run_matching_power_const (h : Ready name s) (h1 : q ≠ 1) :
    ((Expr.power (symbol name) degreePattern).matching (.const q) ctx).run s = (false, s) := by
  have hone : (Expr.const q).isOne = false := beq_eq_false_iff_ne.mpr h1
  have hparts : (tentatively (asPower (symbol name) degreePattern ctx (.const q))).run s =
      (false, s) := run_tentatively_of_fails rfl
  have hadds := (Expr.clean_matching degreePattern .one ctx).adds.andThen
    (Expr.clean_matching (symbol name) (.const q) ctx).adds
  have hfirst := congrArg Prod.fst (@Ready.run_matching_first ctx name s h (.const q))
  have hroot : ((symbol name).matching
      ((Expr.power (.const q) (inverse degreePattern)).evaluate ctx) ctx).run s = (false, s) := by
    rw [h.run_variable, beq_symbol_evaluate_power_const]
  rw [run_matching_power h.degree_unbound hone fun _ => h.run_variable .zero,
    run_orElse_of_fails hparts, run_orElse_of_fails (run_tentatively_of_adds hadds h.consistent hfirst),
    run_tentatively_of_fails hroot]

/-- The bindings by which a term with a constant coefficient is read. -/
def BindsTerm (name : String) (d : Int) (q : Rat) (u : MatchState) : Prop :=
  u.bindings.get? degreePattern = some (int d) ∧
    u.bindings.get? (coefficientPattern (symbol name)) = some (.const q)

section Succeeds

variable (hc : name ≠ "_c") (hn : name ≠ "_n")
include hc hn

theorem exists_run_coefficientThenPower (ctx : Context) (d : Int) (q : Rat) :
    ∃ u, BindsTerm name d q u ∧
      (coefficientThenPower name ctx (.const q) ((Generator.power d).expr name)).run (fixed name) =
        (true, u) := by
  have hready := ready_add_coefficient hc hn (.const q)
  have hnone := get?_fixed_coefficient hc
  refine ⟨_, ⟨get?_add_self hready.degree_unbound, (get?_add_of_ne rfl).trans (get?_add_self hnone)⟩,
    run_tentatively_of_succeeds ((run_andThen_of_succeeds ?_).trans (hready.run_matching_generator d))⟩
  exact run_matching_pattern hnone _

theorem exists_run_powerThenCoefficient (ctx : Context) (d : Int) (q : Rat) :
    ∃ u, BindsTerm name d q u ∧
      (powerThenCoefficient name ctx ((Generator.power d).expr name) (.const q)).run (fixed name) =
        (true, u) := by
  have hready := ready_fixed hn
  have hnone : ((fixed name).add degreePattern (int d)).bindings.get?
      (coefficientPattern (symbol name)) = none :=
    (get?_add_of_ne rfl).trans (get?_fixed_coefficient hc)
  refine ⟨_, ⟨(get?_add_of_ne rfl).trans (get?_add_self hready.degree_unbound), get?_add_self hnone⟩,
    run_tentatively_of_succeeds
      ((run_andThen_of_succeeds (hready.run_matching_generator d)).trans ?_)⟩
  exact run_matching_pattern hnone _

omit hn in
/-- What contains the variable is no coefficient. -/
theorem run_coefficientThenPower_of_dependsOn (ctx : Context) {e : Expr}
    (h : e.dependsOn (symbol name) = true) (e' : Expr) :
    (coefficientThenPower name ctx e e').run (fixed name) = (false, fixed name) := by
  refine run_tentatively_of_fails (run_andThen_of_fails ?_)
  rw [coefficientPattern, run_matching_pattern (get?_fixed_coefficient hc), Condition.accepts, h]
  rfl

/-- The coefficient takes the constant factor, or nothing where there is none. -/
theorem exists_run_matchPart_coefficient (ctx : Context) (d : Int) (h0 : q ≠ 0) :
    ∃ u, BindsTerm name d q u ∧ (matchPart .product ctx (fun p e => p.matching e ctx)
      (coefficientPattern (symbol name)) (Expr.power (symbol name) degreePattern)
      (SymbolicAlgebra.term name (q, .power d))).run (fixed name) = (true, u) := by
  obtain ⟨u, hu, hrun⟩ := exists_run_coefficientThenPower hc hn ctx d q
  refine ⟨u, hu, (run_matchPart_coefficient hc ctx _).trans ?_⟩
  have hconst := (Constructed.const q).productOf_singleton
  by_cases hd : d = 0
  · subst hd
    rw [term_power_zero, factors_const]
    refine run_orElse_of_succeeds (run_anySubset_of_succeeds ?_)
    rwa [hconst]
  have hk : Generator.power d ≠ .power 0 := fun h => hd (Generator.power.inj h)
  have hsingle := (Generator.proper_expr (x := name) (k := .power d)).constructed.productOf_singleton
  by_cases h1 : q = 1
  · subst h1
    rw [term_one, factors_eq_self Generator.isProduct_expr]
    refine (run_orElse_of_fails (run_anySubset_of_fails ?_)).trans hrun
    rw [hsingle]
    exact run_coefficientThenPower_of_dependsOn hc ctx (Generator.isFactor_expr hk).dependsOn _
  · rw [term_eq_product h0 h1 hk, factors_product]
    refine run_orElse_of_succeeds (run_anySubset_of_succeeds ?_)
    rwa [hconst, hsingle]

omit hc in
/-- No constant but `1` is a power of the variable. -/
theorem run_powerThenCoefficient_const (ctx : Context) (h1 : q ≠ 1) (c : Expr) :
    (powerThenCoefficient name ctx (.const q) c).run (fixed name) = (false, fixed name) :=
  run_tentatively_of_fails (run_andThen_of_fails ((ready_fixed hn).run_matching_power_const h1))

/-- The power takes the factor that is a power of the variable, if there is one. -/
theorem run_matchPart_power (ctx : Context) (d : Int) (h0 : q ≠ 0) :
    let attempt := matchPart .product ctx (fun p e => p.matching e ctx)
      (Expr.power (symbol name) degreePattern) (coefficientPattern (symbol name))
      (SymbolicAlgebra.term name (q, .power d))
    attempt.run (fixed name) = (false, fixed name) ∨
      ∃ u, BindsTerm name d q u ∧ attempt.run (fixed name) = (true, u) := by
  intro attempt
  have hattempt : attempt = _ := matchPart_power name ctx _
  rw [hattempt]
  obtain ⟨u, hu, hrun⟩ := exists_run_powerThenCoefficient hc hn ctx d q
  have hnil : productOf [] = .const 1 := rfl
  by_cases hd : d = 0
  · subst hd
    rw [term_power_zero, factors_const, picks, anyM_cons]
    by_cases h1 : q = 1
    · subst h1
      exact .inr ⟨u, hu, run_orElse_of_succeeds hrun⟩
    · exact .inl (run_orElse_of_fails (run_powerThenCoefficient_const hn ctx h1 _))
  refine .inr ⟨u, hu, ?_⟩
  have hk : Generator.power d ≠ .power 0 := fun h => hd (Generator.power.inj h)
  by_cases h1 : q = 1
  · subst h1
    rw [term_one, factors_eq_self Generator.isProduct_expr, picks, anyM_cons]
    exact run_orElse_of_succeeds hrun
  · rw [term_eq_product h0 h1 hk, factors_product, picks, picks, List.map_cons, anyM_cons, anyM_cons,
      run_orElse_of_fails (run_powerThenCoefficient_const hn ctx h1 _)]
    refine run_orElse_of_succeeds ?_
    rwa [(Constructed.const q).productOf_singleton]

/-- **A term with a constant coefficient is matched**, whichever part of the pattern comes first. -/
theorem exists_run_matching_term (ctx : Context) (d : Int) (h0 : q ≠ 0) :
    ∃ u, BindsTerm name d q u ∧ ((termPattern (symbol name)).matching
      (SymbolicAlgebra.term name (q, .power d)) ctx).run (fixed name) = (true, u) := by
  have hzero : (SymbolicAlgebra.term name (q, .power d)).isZero = false := by
    refine Bool.eq_false_iff.mpr fun h => ?_
    have heq := eq_const_of_isZero h
    have hconst : (SymbolicAlgebra.term name (q, .power d)).isConst = true := by
      rw [heq]
      rfl
    rcases isConst_term_iff.mp hconst with h | h
    · exact h0 h
    · rw [show Generator.power d = .power 0 from h, term_power_zero] at heq
      exact h0 (Expr.const.inj heq)
  obtain ⟨ps, hperm, heq⟩ := exists_matching_term name ctx hzero
  obtain ⟨u, hu, hcoefficient⟩ := exists_run_matchPart_coefficient hc hn ctx d h0
  rw [heq]
  rcases List.perm_pair.mp hperm with rfl | rfl
  · refine ⟨u, hu, ?_⟩
    rw [picks, anyM_cons]
    exact run_orElse_of_succeeds hcoefficient
  · rw [picks, picks, List.map_cons, anyM_cons, anyM_cons]
    rcases run_matchPart_power hc hn ctx d h0 with hfails | ⟨v, hv, hpower⟩
    · exact ⟨u, hu, (run_orElse_of_fails hfails).trans (run_orElse_of_succeeds hcoefficient)⟩
    · exact ⟨v, hv, run_orElse_of_succeeds hpower⟩

/-- **A term with a constant coefficient is read back**, if its degree fits into 64 bits. -/
theorem readTerm_term {ctx : Context} (f : Expr) (h0 : q ≠ 0)
    (h64 : Rational.toInt64? (d : Rat) = some d) :
    readTerm f (symbol name) (term (symbol name) d (.const q)) ctx = .ok (d, .const q) := by
  obtain ⟨u, ⟨hdegree, hcoefficient⟩, hrun⟩ := exists_run_matching_term hc hn ctx d h0
  rw [term_const, readTerm_eq, bindings?, hrun]
  dsimp only
  rw [if_pos rfl]
  dsimp only
  rw [hdegree, hcoefficient,
    show ((some (int d)).bind asConst?).bind Rational.toInt64? = some d from h64]
  rfl

/-- **The term `0` has no degree** to be read. -/
theorem readTerm_zero (f : Expr) (ctx : Context) :
    readTerm f (symbol name) .zero ctx = refuse (.degreeTooLarge .zero) := by
  obtain ⟨ps, hperm, heq⟩ := exists_matching_zero name ctx
  have hsucceeds : ((termPattern (symbol name)).matching .zero ctx).Succeeds (fixed name) := by
    have hcoefficient : Succeeds ((coefficientPattern (symbol name)).matching .zero ctx)
        (fixed name) :=
      congrArg Prod.fst (run_matching_pattern (get?_fixed_coefficient hc) .zero)
    rw [heq]
    exact succeeds_anyM (fun p _ => (Expr.clean_matching p .zero ctx).adds.tentatively)
      (consistent_fixed name) (hperm.mem_iff.mpr List.mem_cons_self)
      (succeeds_tentatively.mpr hcoefficient)
  rcases hrun : ((termPattern (symbol name)).matching .zero ctx).run (fixed name) with ⟨found, u⟩
  obtain rfl : found = true := by rwa [Succeeds, hrun] at hsucceeds
  have hnone : u.bindings.get? degreePattern = none := ensures_matching_zero hc hn u hrun
  rw [readTerm_eq, bindings?, hrun]
  dsimp only
  rw [if_pos rfl]
  dsimp only
  rw [hnone]
  rfl

end Succeeds

end Polynomial

end SymbolicAlgebra
