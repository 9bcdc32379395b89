import SymbolicAlgebra.Proofs.RuleSet
import SymbolicAlgebra.Proofs.TermOutcome

/-!
# Rules for operators in a variable

The tables of derivatives and integrals hold rules for `D[p, x]` and `I[p, x]`. The arguments of a
call are matched from the last to the first, so the variable is bound when `p` is matched
(`match?_operator`), and what remains is to match `p`: a call of a function, a power of the variable
or a multiple of it.

Results:
* `match?_operator`: a rule for an operator matches where its operand does.
* `reduct?_ofRules`: a set of rules gives the result that all matching rules agree on.
-/

namespace SymbolicAlgebra

open Expr Evaluator Attempt Matching MatchState

/-! ## Computations without leftovers -/

/-- A computation gives a value and leaves no call over. -/
def Evaluator.Agreement.settled : Agreement WithLeftovers where
  Gives c a := c.run [] = .ok (a, [])
  pure _ := rfl
  bind {_ _ x a f b} hx hf := by
    rw [StateT.run_bind, hx]
    exact hf

/-! ## One rule of a set -/

/-- A set of rules gives the result of one of them if no other gives anything else. -/
theorem RuleSet.reduct?_ofRules {rules : List Rule} {ctx : Context} {e result : Expr} {r : Rule}
    (hr : r ∈ rules) (h : r.reduct? e ctx = some result) (hne : (result != e) = true)
    (hother : ∀ q ∈ rules, q = r ∨ q.reduct? e ctx = none) :
    (ofRules rules ctx).reduct? e ctx = some result := by
  have haccepted : r.reductAccepted? (fun _ => true) ctx e = some result :=
    Rule.reductAccepted?_eq_some.mpr ⟨h, hne, rfl⟩
  obtain ⟨found, hfound⟩ := Option.isSome_iff_exists.mp (isSome_reductAccepted? hr haccepted)
  obtain ⟨q, hq, hqfound⟩ := exists_of_reductAccepted? hfound
  obtain ⟨hqreduct, -⟩ := Rule.reductAccepted?_eq_some.mp hqfound
  rcases hother q hq with rfl | hnone
  · rw [h] at hqreduct
    rw [hqreduct]
    exact hfound
  · rw [hnone] at hqreduct
    cases hqreduct

/-! ## Matching single nodes -/

section Nodes

variable {ctx : Context} {s : MatchState} {f g : Function} {p e : Expr}

theorem matching_symbol (m : String) (e : Expr) (ctx : Context) :
    (symbol m).matching e ctx = Attempt.bind (symbol m) e := by
  rw [Expr.matching_eq]
  rfl

theorem matching_const (q : Rat) (e : Expr) (ctx : Context) :
    (Expr.const q).matching e ctx = (do return Expr.const q == e) := by
  rw [Expr.matching_eq]
  rfl

theorem run_bind_of_bound {k v bound : Expr} (h : s.bindings.get? k = some bound) :
    (Attempt.bind k v).run s = (bound == v, s) := by
  rw [run_bind, h]

theorem run_bind_of_unbound {k v : Expr} (h : s.bindings.get? k = none) :
    (Attempt.bind k v).run s = (true, s.add k v) := by
  rw [run_bind, h]

theorem rollBack_self (s : MatchState) : s.rollBack s.history.length = s := by
  simp [rollBack]

/-- An attempt that fails and changes nothing. -/
theorem run_tentatively_of_fails {a : Attempt} (h : a.run s = (false, s)) :
    (tentatively a).run s = (false, s) := by
  rw [run_tentatively, h, if_neg Bool.false_ne_true, rollBack_self]

theorem run_tentatively_of_succeeds {a : Attempt} {t : MatchState} (h : a.run s = (true, t)) :
    (tentatively a).run s = (true, t) := by
  rw [run_tentatively, h, if_pos rfl]

theorem bindings?_eq_none {a : Attempt} (h : (a.run s).1 = false) : a.bindings? s = none := by
  unfold bindings?
  rcases hrun : a.run s with ⟨found, t⟩
  obtain rfl : found = false := by rw [hrun] at h; exact h
  rfl

theorem run_andThen_of_succeeds {a b : Attempt} {t : MatchState} (h : a.run s = (true, t)) :
    (a.andThen b).run s = b.run t := by
  rw [run_andThen, h, if_pos rfl]

theorem run_andThen_of_fails {a b : Attempt} {t : MatchState} (h : a.run s = (false, t)) :
    (a.andThen b).run s = (false, t) := by
  rw [run_andThen, h, if_neg Bool.false_ne_true]

theorem run_orElse_of_succeeds {a b : Attempt} {t : MatchState} (h : a.run s = (true, t)) :
    (a.orElse b).run s = (true, t) := by
  rw [run_orElse, h, if_pos rfl]

theorem run_orElse_of_fails {a b : Attempt} {t : MatchState} (h : a.run s = (false, t)) :
    (a.orElse b).run s = b.run t := by
  rw [run_orElse, h, if_neg Bool.false_ne_true]

/-- A call matches no call of another function. -/
theorem run_matching_call_of_ne {ps es : List Expr} (h : (f == g) = false) :
    ((Expr.call f ps).matching (.call g es) ctx).run s = (false, s) := by
  rw [Expr.matching_eq]
  change StateT.run (if (f == g && ps.length == es.length) = true then _ else _) s = _
  rw [h, Bool.false_and, if_neg Bool.false_ne_true]
  rfl

/-- A call matches nothing but calls. -/
theorem run_matching_call_of_asCall? {ps : List Expr} (h : e.asCall? = none) :
    ((Expr.call f ps).matching e ctx).run s = (false, s) := by
  rw [Expr.matching_eq]
  cases e with
  | call g es => cases h
  | _ => rfl

/-- A call of a function of one argument. -/
theorem run_matching_call_one (f : Function) (p e : Expr) :
    ((Expr.call f [p]).matching (.call f [e]) ctx).run s =
      (tentatively ((p.matching e ctx).andThen (do return true))).run s := by
  rw [Expr.matching_eq]
  change StateT.run (if (f == f && true) = true then _ else _) s = _
  rw [show (f == f) = true by simp [BEq.beq, Function.same], Bool.true_and, if_pos rfl]
  rfl

end Nodes

/-! ## Operators -/

section Operators

variable {ctx : Context} {f : Function} {p e : Expr} {x : String}

/-- The state in which the variable of the rules is bound to that of the operator. -/
def variableBound (x : String) : MatchState :=
  ⟨⟨[(symbol "x", symbol x)]⟩, [symbol "x"]⟩

/-- **A rule for an operator matches where its operand does**, with the variable bound. -/
theorem match?_operator (f : Function) (p e : Expr) (x : String) (ctx : Context) :
    (Expr.call f [p, symbol "x"]).match? (.call f [e, symbol x]) ctx =
      (p.matching e ctx).bindings? (variableBound x) := by
  have hrun : ((Expr.call f [p, symbol "x"]).matching (.call f [e, symbol x]) ctx).run .empty =
      (tentatively (((symbol "x").matching (symbol x) ctx).andThen
        ((p.matching e ctx).andThen (do return true)))).run .empty := by
    rw [Expr.matching_eq]
    change StateT.run (if (f == f && true) = true then _ else _) _ = _
    rw [show (f == f) = true by simp [BEq.beq, Function.same], Bool.true_and, if_pos rfl]
    rfl
  have hvariable : ((symbol "x").matching (symbol x) ctx).run .empty = (true, variableBound x) := by
    rw [matching_symbol]
    exact run_bind_of_unbound rfl
  rw [Expr.match?, bindings?, bindings?, hrun, run_tentatively, run_andThen_of_succeeds hvariable,
    run_andThen]
  obtain ⟨matched, t⟩ := (p.matching e ctx).run (variableBound x)
  cases matched <;> rfl

theorem Rule.reduct?_eq_none_of_operator {r : Rule} (hr : r.pattern = .call f [p, symbol "x"])
    (h : (p.matching e ctx).bindings? (variableBound x) = none) :
    r.reduct? (.call f [e, symbol x]) ctx = none := by
  rw [Rule.reduct?, hr, match?_operator, h]

theorem Rule.reduct?_of_operator {r : Rule} {b : Bindings}
    (hr : r.pattern = .call f [p, symbol "x"])
    (h : (p.matching e ctx).bindings? (variableBound x) = some b) :
    r.reduct? (.call f [e, symbol x]) ctx =
      if r.accepts b ctx then some ((r.result.instantiate b).evaluate ctx) else none := by
  rw [Rule.reduct?, hr, match?_operator, h]

/-- The function that the operand of an operator calls. -/
def Rule.operand? (r : Rule) : Option Function :=
  match r.pattern with
  | .call _ [.call f _, _] => some f
  | _ => none

/-- An operator on a call of one function does not match an operator on a call of another one. -/
theorem match?_operator_of_ne {f' g h : Function} {ps es : List Expr} (hne : (g == h) = false)
    (y z : Expr) : (Expr.call f' [.call g ps, y]).match? (.call f [.call h es, z]) ctx = none := by
  have hfails : ∀ s, (((y.matching z ctx).andThen (((Expr.call g ps).matching (.call h es) ctx).andThen
      (do return true))).run s).1 = false := by
    intro s
    rw [run_andThen]
    split
    · rw [run_andThen_of_fails (run_matching_call_of_ne hne)]
    · rfl
  have hrun : ((Expr.call f' [.call g ps, y]).matching (.call f [.call h es, z]) ctx).run .empty =
      (if (f' == f && true) = true then tentatively ((y.matching z ctx).andThen
        (((Expr.call g ps).matching (.call h es) ctx).andThen (do return true)))
        else (do return false)).run .empty := by
    rw [Expr.matching_eq]
    rfl
  refine bindings?_eq_none ?_
  rw [hrun]
  split
  · rw [run_tentatively, hfails, if_neg Bool.false_ne_true]
  · rfl

/-- A rule for an operator on calls of one function gives nothing on calls of another one. -/
theorem Rule.reduct?_eq_none_of_operand {r : Rule} {g h : Function} {es : List Expr}
    (hr : r.operand? = some g) (hne : (g == h) = false) (y : Expr) :
    r.reduct? (.call f [.call h es, y]) ctx = none := by
  unfold operand? at hr
  split at hr
  · next f' g' ps y' hpattern =>
    obtain rfl := Option.some.inj hr
    rw [Rule.reduct?, hpattern, match?_operator_of_ne hne]
  · cases hr

/-- Rules for calls do not match anything else. -/
theorem bindings?_call_of_asCall? {g : Function} {ps : List Expr} (h : e.asCall? = none)
    (s : MatchState) : ((Expr.call g ps).matching e ctx).bindings? s = none :=
  bindings?_eq_none (by rw [run_matching_call_of_asCall? h])

/-- Rules for calls do not match calls of other functions. -/
theorem bindings?_call_of_ne {g g' : Function} {ps es : List Expr} (h : (g == g') = false)
    (s : MatchState) : ((Expr.call g ps).matching (.call g' es) ctx).bindings? s = none :=
  bindings?_eq_none (by rw [run_matching_call_of_ne h])

/-- A rule for a function of one argument matches where the argument does. -/
theorem bindings?_call_one (g : Function) (p e : Expr) (s : MatchState) :
    ((Expr.call g [p]).matching (.call g [e]) ctx).bindings? s =
      (p.matching e ctx).bindings? s := by
  rw [bindings?, bindings?, run_matching_call_one, run_tentatively, run_andThen]
  obtain ⟨matched, t⟩ := (p.matching e ctx).run s
  cases matched <;> rfl

end Operators

/-! ## Powers and multiples of the variable -/

section Variable

variable {ctx : Context} {s : MatchState} {p q e : Expr} {v : String}

theorem orElse_false (a : Attempt) : a.orElse (pure false) = a := by
  funext s
  refine (run_orElse s).trans ?_
  change _ = a.run s
  rcases a.run s with ⟨found, t⟩
  cases found <;> rfl

/-- What fails and only adds bindings leaves the state as it was. -/
theorem run_tentatively_of_adds {ok : Expr → Expr → Prop} {a : Attempt} (ha : Attempt.Adds ok a)
    (hs : s.Consistent) (h : (a.run s).1 = false) : (tentatively a).run s = (false, s) := by
  have hfails : ((tentatively a).run s).1 = false := by
    rw [run_tentatively, if_neg (by rw [h]; exact Bool.false_ne_true)]
  exact Prod.ext hfails (ha.tentatively.restores s hs hfails)

/-- The variable of a rule against anything, when it is bound. -/
theorem run_matching_bound {m : String} {bound : Expr}
    (h : s.bindings.get? (symbol m) = some bound) (e : Expr) :
    ((symbol m).matching e ctx).run s = (bound == e, s) := by
  rw [matching_symbol]
  exact run_bind_of_bound h

theorem run_matching_unbound {m : String} (h : s.bindings.get? (symbol m) = none) (e : Expr) :
    ((symbol m).matching e ctx).run s = (true, s.add (symbol m) e) := by
  rw [matching_symbol]
  exact run_bind_of_unbound h

/-- The variable of a rule, once the variable of the operator is bound to it. -/
theorem run_matching_variableBound (v : String) (e : Expr) :
    ((symbol "x").matching e ctx).run (variableBound v) = (symbol v == e, variableBound v) :=
  run_matching_bound rfl e

theorem consistent_variableBound (v : String) : (variableBound v).Consistent :=
  ⟨rfl, List.pairwise_singleton _ _⟩

/-- The variable of a rule against the variable of the operator. -/
theorem run_matching_variable (v : String) :
    ((symbol "x").matching (symbol v) ctx).run (variableBound v) = (true, variableBound v) := by
  rw [run_matching_variableBound, BEq.rfl]

/-- A power pattern against the parts of a power; nothing else has any. -/
def asPower (p q : Expr) (ctx : Context) (e : Expr) : Attempt :=
  e.asPower?.elim (return false) fun parts =>
    (p.matching parts.1 ctx).andThen (q.matching parts.2 ctx)

theorem adds_asPower (p q : Expr) (ctx : Context) (e : Expr) :
    Attempt.Adds Matching.Accepts (asPower p q ctx e) := by
  unfold asPower
  cases e.asPower? with
  | none => exact (clean_pure false).adds
  | some parts =>
    exact (Expr.clean_matching p parts.1 ctx).adds.andThen (Expr.clean_matching q parts.2 ctx).adds

/-- A power pattern whose exponent is not bound against what is not `1`, nor `0` if the base matches
`0`: as the power that it is, as a first power, or by its root. -/
theorem run_matching_power (hexponent : s.bindings.get? q = none) (hone : e.isOne = false)
    (hzero : e.isZero = true → (p.matching .zero ctx).run s = (false, s)) :
    ((power p q).matching e ctx).run s =
      ((tentatively (asPower p q ctx e)).orElse
        ((tentatively ((q.matching .one ctx).andThen (p.matching e ctx))).orElse
          (tentatively (p.matching ((power e (inverse q)).evaluate ctx) ctx)))).run s := by
  rw [Expr.matching_eq]
  change StateT.run (matchPower ctx (fun p e => p.matching e ctx) p q e) s = _
  unfold matchPower
  simp only [anyM_cons, List.anyM_nil, hone]
  refine (run_orElse_of_fails (run_tentatively_of_fails ?_)).trans ?_
  · have hget : ((get : StateM MatchState MatchState).run s).1.bindings.get? q = none := hexponent
    simp only [run_seq, hget]
    rfl
  refine (run_orElse_of_fails (run_tentatively_of_fails rfl)).trans ?_
  refine (run_orElse_of_fails (run_tentatively_of_fails ?_)).trans ?_
  · split
    · exact hzero ‹_›
    · rfl
  rw [orElse_false, asPower]
  cases e.asPower? <;> rfl

/-- A power pattern fails where each of the three ways does. -/
theorem bindings?_power_eq_none (hs : s.Consistent) (hexponent : s.bindings.get? q = none)
    (hone : e.isOne = false) (hzero : e.isZero = false)
    (hparts : ((asPower p q ctx e).run s).1 = false)
    (hfirst : (((q.matching .one ctx).andThen (p.matching e ctx)).run s).1 = false)
    (hroot : ((p.matching ((power e (inverse q)).evaluate ctx) ctx).run s).1 = false) :
    ((power p q).matching e ctx).bindings? s = none := by
  have hadds := (Expr.clean_matching q .one ctx).adds.andThen (Expr.clean_matching p e ctx).adds
  have hnonzero (h : e.isZero = true) : (p.matching .zero ctx).run s = (false, s) := by
    rw [hzero] at h
    cases h
  rw [bindings?, run_matching_power hexponent hone hnonzero,
    run_orElse_of_fails (run_tentatively_of_adds (adds_asPower p q ctx e) hs hparts),
    run_orElse_of_fails (run_tentatively_of_adds hadds hs hfirst),
    run_tentatively_of_adds (Expr.clean_matching p _ ctx).adds hs hroot]
  rfl

/-- The variable to a free exponent matches a power of the variable. -/
theorem bindings?_power (v : String) (y : Expr) (ctx : Context) :
    ((power (symbol "x") (symbol "N")).matching (power (symbol v) y) ctx).bindings?
      (variableBound v) = some ⟨[(symbol "x", symbol v), (symbol "N", y)]⟩ := by
  have hparts : (asPower (symbol "x") (symbol "N") ctx (power (symbol v) y)).run (variableBound v) =
      (true, (variableBound v).add (symbol "N") y) :=
    (run_andThen_of_succeeds (run_matching_variable v)).trans (run_matching_unbound rfl y)
  rw [bindings?, run_matching_power rfl rfl (fun h => by cases h),
    run_orElse_of_succeeds (run_tentatively_of_succeeds hparts)]
  rfl

/-- The variable to a free exponent matches the variable, as its first power. -/
theorem bindings?_power_symbol (v : String) (ctx : Context) :
    ((power (symbol "x") (symbol "N")).matching (symbol v) ctx).bindings? (variableBound v) =
      some ⟨[(symbol "x", symbol v), (symbol "N", .one)]⟩ := by
  have hparts : (tentatively (asPower (symbol "x") (symbol "N") ctx (symbol v))).run
      (variableBound v) = (false, variableBound v) := run_tentatively_of_fails rfl
  have hvariable : ((symbol "x").matching (symbol v) ctx).run
      ((variableBound v).add (symbol "N") .one) =
        (true, (variableBound v).add (symbol "N") .one) := by
    have hbound : ((variableBound v).add (symbol "N") .one).bindings.get? (symbol "x") =
        some (symbol v) := rfl
    rw [run_matching_bound hbound, BEq.rfl]
  have hexponent : ((symbol "N").matching .one ctx).run (variableBound v) =
      (true, (variableBound v).add (symbol "N") .one) := run_matching_unbound rfl .one
  have hfirst := (run_andThen_of_succeeds hexponent).trans hvariable
  rw [bindings?, run_matching_power rfl rfl (fun h => by cases h), run_orElse_of_fails hparts,
    run_orElse_of_succeeds (run_tentatively_of_succeeds hfirst)]
  rfl

/-! ### Multiples -/

theorem run_anySubset_of_succeeds {attempt : List Expr → List Expr → Attempt} {t : MatchState}
    {es : List Expr} (h : (attempt [e] es).run s = (true, t)) :
    (anySubset attempt (e :: es)).run s = (true, t) := by
  rw [anySubset, List.length_cons, List.range_succ_eq_map, anyM_cons]
  refine run_orElse_of_succeeds ?_
  cases es <;> exact run_orElse_of_succeeds h

theorem run_anySubset_of_fails {attempt : List Expr → List Expr → Attempt}
    (h : (attempt [e] []).run s = (false, s)) :
    (anySubset attempt [e]).run s = (false, s) := by
  rw [anySubset, List.length_singleton, List.range_one, anyM_cons, List.anyM_nil, orElse_false]
  exact (run_orElse_of_fails h).trans rfl

theorem coefficient_pattern : symbol "a" * symbol "x" = .product [symbol "a", symbol "x"] := by
  cbv

/-- The factor of a multiple of the variable is tried before the variable. -/
theorem run_matching_coefficient {t : MatchState} (hzero : e.isZero = false)
    (hfree : s.bindings.get? (symbol "a") = none)
    (h : ((anySubset (fun chosen others => tentatively (andThen
          ((symbol "a").matching (productOf chosen) ctx)
          ((symbol "x").matching (productOf others) ctx))) e.factors).orElse
        (tentatively (andThen ((symbol "a").matching .one ctx)
          ((symbol "x").matching e ctx)))).run s = (true, t)) :
    ((symbol "a" * symbol "x").matching e ctx).run s = (true, t) := by
  have hvariable : productOf [symbol "x"] = symbol "x" := by cbv
  rw [coefficient_pattern, Expr.matching_eq]
  change StateT.run (if e.isZero = true then _ else _) s = _
  rw [hzero, if_neg Bool.false_ne_true]
  unfold matchCommutative
  dsimp only
  have hrest : ([symbol "a", symbol "x"].partition Expr.isConst).2 = [symbol "a", symbol "x"] := rfl
  simp only [hrest, picks, List.isEmpty_cons, anyM_cons]
  refine run_orElse_of_succeeds ?_
  refine (run_matchPart_var .product "a" none _ e s).trans ?_
  simp only [show s.bindings.get? (.var "a" none) = none from hfree]
  rw [← hvariable] at h
  exact h

/-- **A multiple of the variable** is matched with its factor, which is `1` for the variable
itself. -/
theorem bindings?_multiple {c : Rat} (h0 : c ≠ 0) (v : String) (ctx : Context) :
    ((symbol "a" * symbol "x").matching (multiple c v) ctx).bindings? (variableBound v) =
      some ⟨[(symbol "x", symbol v), (symbol "a", .const c)]⟩ := by
  have hbound (q : Rat) (e : Expr) : ((symbol "x").matching e ctx).run
      ((variableBound v).add (symbol "a") (.const q)) =
        (symbol v == e, (variableBound v).add (symbol "a") (.const q)) :=
    run_matching_bound rfl e
  have hfactor (q : Rat) : ((symbol "a").matching (.const q) ctx).run (variableBound v) =
      (true, (variableBound v).add (symbol "a") (.const q)) := run_matching_unbound rfl _
  have hsucceeds {q : Rat} {e : Expr} (he : (symbol v == e) = true) :
      (tentatively (andThen ((symbol "a").matching (.const q) ctx)
        ((symbol "x").matching e ctx))).run (variableBound v) =
          (true, (variableBound v).add (symbol "a") (.const q)) := by
    refine run_tentatively_of_succeeds ((run_andThen_of_succeeds (hfactor q)).trans ?_)
    rw [hbound, he]
  have hrun : ((symbol "a" * symbol "x").matching (multiple c v) ctx).run (variableBound v) =
      (true, (variableBound v).add (symbol "a") (.const c)) := by
    by_cases h1 : c = 1
    · subst h1
      have hvariable : multiple 1 v = symbol v := term_one (k := .power 1) v
      rw [hvariable]
      refine run_matching_coefficient rfl rfl ((run_orElse_of_fails ?_).trans (hsucceeds BEq.rfl))
      have hadds : Attempt.Adds Matching.Accepts (andThen
          ((symbol "a").matching (productOf [symbol v]) ctx)
          ((symbol "x").matching (productOf []) ctx)) :=
        (Expr.clean_matching _ _ ctx).adds.andThen (Expr.clean_matching _ _ ctx).adds
      have hother : ((symbol "x").matching (productOf []) ctx).run
          ((variableBound v).add (symbol "a") (productOf [symbol v])) =
            (symbol v == productOf [], (variableBound v).add (symbol "a") (productOf [symbol v])) :=
        run_matching_bound rfl _
      refine run_anySubset_of_fails (run_tentatively_of_adds hadds (consistent_variableBound v) ?_)
      rw [run_andThen_of_succeeds (run_matching_unbound rfl _), hother]
      rfl
    · have hproduct : multiple c v = .product [.const c, symbol v] :=
        term_eq_product (k := .power 1) h0 h1 nofun
      rw [hproduct]
      refine run_matching_coefficient rfl rfl (run_orElse_of_succeeds ?_)
      refine run_anySubset_of_succeeds ?_
      rw [(Constructed.const c).productOf_singleton, (Proper.symbol v).constructed.productOf_singleton]
      exact hsucceeds BEq.rfl
  rw [bindings?, hrun]
  rfl

end Variable

end SymbolicAlgebra
