import SymbolicAlgebra.Builtin
import SymbolicAlgebra.Proofs.Combinations
import SymbolicAlgebra.Proofs.Transparency

/-!
# Evaluating products with one generator, and their sums

A product whose factors evaluate to constants and to a single power that is no sum evaluates to the
multiple of this power by the product of the constants (`Evaluates.productOf`). So the products of
constants and one generator evaluate to terms, and a sum of such products evaluates to the collected
sum of the terms (`evaluates_sumOf`).

Results:
* `Evaluates.productOf`: the outcome of a product.
* `evaluates_sumOf`: the outcome of a sum.
* `evaluates_expr`, `evaluates_term`: generators and their multiples evaluate to themselves.
-/

namespace SymbolicAlgebra.Evaluator

open Expr

/-- An expression evaluates to a proper one. -/
structure Evaluates (settings : Settings) (n : Nat) (e r : Expr) : Prop where
  outcome : outcome? settings n e = some r
  proper : Proper r

variable {settings : Settings} {n : Nat} {e r : Expr}

theorem Evaluates.mono {m : Nat} (h : Evaluates settings n e r) (hle : n ≤ m) :
    Evaluates settings m e r :=
  ⟨outcome?_mono hle h.outcome, h.proper⟩

theorem evaluates_const (settings : Settings) (n : Nat) (q : Rat) :
    Evaluates settings (n + 1) (.const q) (.const q) :=
  ⟨rfl, .const q⟩

theorem evaluates_symbol (settings : Settings) (n : Nat) (x : String) :
    Evaluates settings (n + 1) (symbol x) (symbol x) :=
  ⟨rfl, .symbol x⟩

/-- The depth set aside for any expression. -/
theorem le_depthFor (hn : n ≤ 1000) (e : Expr) : n ≤ depthFor e := by
  have hpow : e.size + 1000 ≤ (e.size + 1000) ^ 3 := Nat.le_self_pow (by omega) _
  exact le_trans (by omega) hpow

theorem Evaluates.evaluate_eq {ctx : Context} (h : Evaluates ⟨ctx, []⟩ n e r) (hn : n ≤ 1000) :
    e.evaluate ctx = r :=
  evaluate_of_outcome? h.outcome (le_depthFor hn e)

/-! ## Products -/

/-- At most one factor, a power that is no sum and that the bases of a product keep as it is. -/
structure Lone (fs : List Expr) : Prop where
  length_le : fs.length ≤ 1
  kept : ∀ f ∈ fs, raised (splitExponent f).1 (splitExponent f).2 = f
  exponent_ne_zero : ∀ f ∈ fs, (splitExponent f).2 ≠ 0
  flat : ∀ f ∈ fs, (splitExponent f).1.isSum = false

theorem lone_nil : Lone [] :=
  ⟨Nat.zero_le 1, nofun, nofun, nofun⟩

theorem Lone.nil_or_singleton {fs : List Expr} (h : Lone fs) : fs = [] ∨ ∃ f, fs = [f] :=
  (Nat.le_one_iff_eq_zero_or_eq_one.mp h.length_le).imp List.eq_nil_of_length_eq_zero
    List.length_eq_one_iff.mp

theorem Lone.eq_of_perm {fs gs : List Expr} (h : Lone fs) (hperm : fs.Perm gs) : fs = gs := by
  rcases h.nil_or_singleton with rfl | ⟨f, rfl⟩
  · exact hperm.nil_eq
  · exact (List.perm_singleton.mp hperm.symm).symm

/-- The product of the constants among the factors, times the others. -/
def gathered (fs : List Expr) : Expr :=
  productOf (.const (constants fs).prod :: others fs)

theorem gathered_congr {fs gs : List Expr} (h : Lone (others fs))
    (hprod : (constants fs).prod = (constants gs).prod) (hperm : (others fs).Perm (others gs)) :
    gathered fs = gathered gs := by
  rw [gathered, gathered, hprod, h.eq_of_perm hperm]

theorem gathered_nil : gathered [] = .const 1 :=
  (productOf_one_cons []).trans rfl

theorem gathered_of_prod_eq_zero {fs : List Expr} (h : (constants fs).prod = 0) :
    gathered fs = .zero := by
  have hzero : (constants ((Expr.const (constants fs).prod :: others fs).flatMap factors)).prod =
      0 := by
    rw [List.flatMap_cons, factors_const, List.singleton_append, constants_const, List.prod_cons, h,
      zero_mul]
  rw [gathered, productOf_eq, if_pos hzero]

/-- An expression is gathered from its factors. -/
theorem gathered_factors (h : Constructed e) : gathered e.factors = e := by
  have hflat : ∀ f ∈ Expr.const (constants e.factors).prod :: others e.factors,
      f.isProduct = false :=
    List.forall_mem_cons.mpr ⟨rfl, fun f hf => h.flat_factors f (mem_others.mp hf).1⟩
  have hothers : others (others e.factors) = others e.factors :=
    others_eq_self (constants_others e.factors)
  conv_rhs => rw [← h.productOf_factors]
  rw [gathered, productOf_eq, productOf_eq, flatMap_factors_eq_self hflat,
    flatMap_factors_eq_self h.flat_factors, constants_const, constants_others,
    List.prod_singleton, arranged, arranged, others_const, hothers]

theorem Lone.powers {fs : List Expr} (h : Lone (others fs)) :
    (Bases.ofFactors fs).powers = others fs := by
  rw [Bases.ofFactors_eq, Bases.powers, exponentsOf]
  rcases h.nil_or_singleton with hnil | ⟨f, hf⟩
  · rw [hnil]
    rfl
  · have hmem : f ∈ others fs := hf ▸ List.mem_cons_self
    have hentries : (Tally.ofList ([f].map splitExponent)).entries.filter (fun p => p.2 != 0) =
        [splitExponent f] := List.filter_eq_self.mpr (List.forall_mem_singleton.mpr
      (bne_iff_ne.mpr (h.exponent_ne_zero f hmem)))
    dsimp only
    rw [hf, hentries, List.map_singleton, h.kept f hmem]

theorem Lone.absorber? {fs : List Expr} (h : Lone (others fs)) :
    (Bases.ofFactors fs).absorber? = none := by
  rw [Bases.ofFactors_eq, Bases.absorber?, exponentsOf]
  rcases h.nil_or_singleton with hnil | ⟨f, hf⟩
  · rw [hnil]
    rfl
  · have hentries : (Tally.ofList ([f].map splitExponent)).entries = [splitExponent f] := rfl
    dsimp only
    rw [hf, hentries, List.find?_singleton, h.flat f (hf ▸ List.mem_cons_self), Bool.and_false]
    rfl

/-- The product of evaluated factors. -/
theorem visitProduct_of_lone {visit : Visit Option} {fs rs : List Expr}
    (hvisit : visitList visit fs = some rs) (h : Lone (others (rs.flatMap factors))) :
    visitProduct visit fs = some (gathered (rs.flatMap factors)) := by
  have hconstant : (Bases.ofFactors (rs.flatMap factors)).constant =
      (constants (rs.flatMap factors)).prod := by rw [Bases.ofFactors_eq]
  rw [visitProduct, hvisit]
  change (if (Bases.ofFactors (rs.flatMap factors)).constant = 0 then _ else _) = _
  split
  · next h0 => rw [gathered_of_prod_eq_zero (hconstant ▸ h0)]; rfl
  · have habsorb : (Bases.ofFactors (rs.flatMap factors)).absorbConstant visit =
        some (Bases.ofFactors (rs.flatMap factors)) := by
      rw [Bases.absorbConstant, h.absorber?]
      split <;> rfl
    rw [habsorb]
    change some (Bases.product _) = _
    rw [Bases.product_eq, hconstant, h.powers, gathered]

/-- What an expression evaluates to. -/
def visited (settings : Settings) (n : Nat) (e : Expr) : Expr :=
  (outcome? settings n e).getD e

theorem Evaluates.visited_eq (h : Evaluates settings n e r) : visited settings n e = r := by
  rw [visited, h.outcome, Option.getD_some]

theorem map_visited_eq {es rs : List Expr} (h : List.Forall₂ (Evaluates settings n) es rs) :
    es.map (visited settings n) = rs ∧
      ∀ e ∈ es, Evaluates settings n e (visited settings n e) := by
  induction h with
  | nil => exact ⟨rfl, nofun⟩
  | cons he _ ih =>
    exact ⟨by rw [List.map_cons, he.visited_eq, ih.1],
      List.forall_mem_cons.mpr ⟨he.visited_eq.symm ▸ he, ih.2⟩⟩

theorem visitList_of_forall₂ {es rs : List Expr} (h : List.Forall₂ (Evaluates settings n) es rs) :
    visitList (outcome? settings n) es = some rs := by
  obtain ⟨rfl, heach⟩ := map_visited_eq h
  exact Agreement.option.visitList fun e he => (heach e he).outcome

theorem builtIn_of_forall₂ {es rs : List Expr} (h : List.Forall₂ (Evaluates settings n) es rs) :
    ∀ e ∈ es, e.builtIn = true :=
  fun e he => builtIn_of_outcome? ((map_visited_eq h).2 e he).outcome

theorem proper_of_forall₂ {es rs : List Expr} (h : List.Forall₂ (Evaluates settings n) es rs) :
    ∀ r ∈ rs, Proper r := by
  obtain ⟨rfl, heach⟩ := map_visited_eq h
  exact List.forall_mem_map.mpr fun e he => (heach e he).proper

/-- Constants among the operands keep to themselves. -/
theorem operands_flatMap {g : Expr → List Expr} (hg : ∀ q, g (.const q) = [.const q]) :
    ∀ es : List Expr, others (es.flatMap g) = others ((others es).flatMap g) ∧
      (constants (es.flatMap g)).prod =
        (constants ((others es).flatMap g)).prod * (constants es).prod
  | [] => ⟨rfl, (mul_one _).symm⟩
  | e :: es => by
    obtain ⟨ho, hc⟩ := operands_flatMap hg es
    rw [List.flatMap_cons, others_append, constants_append, List.prod_append, ho, hc]
    cases hconst : e.isConst
    · rw [others_cons hconst, constants_cons hconst, List.flatMap_cons, others_append,
        constants_append, List.prod_append, mul_assoc]
      exact ⟨rfl, rfl⟩
    · obtain ⟨q, rfl⟩ := exists_of_isConst hconst
      rw [hg, others_const, others_const, constants_const, constants_const, List.prod_cons,
        List.prod_cons, constants_nil, List.prod_nil, mul_one, mul_left_comm]
      exact ⟨rfl, rfl⟩

theorem proper_gathered {rs : List Expr} (h : ∀ r ∈ rs, Proper r) :
    Proper (gathered (rs.flatMap factors)) := by
  refine proper_productOf (List.forall_mem_cons.mpr ⟨.const _, fun f hf => ?_⟩)
  obtain ⟨r, hr, hfr⟩ := List.mem_flatMap.mp (mem_others.mp hf).1
  exact (h r hr).of_factors f hfr

/-- A product node over evaluated factors. -/
theorem outcome?_product {fs rs : List Expr}
    (h : List.Forall₂ (Evaluates settings n) fs rs) (hlone : Lone (others (rs.flatMap factors))) :
    outcome? settings (n + 1) (.product fs) = some (gathered (rs.flatMap factors)) := by
  have hnode : (Expr.product fs).builtIn = true := (builtIn_product fs).mpr (builtIn_of_forall₂ h)
  have hresult := (proper_gathered (proper_of_forall₂ h)).builtIn
  rw [← keepIfEqual_of_builtIn hnode hresult, outcome?, if_pos hnode]
  exact Agreement.option.map _ (visitProduct_of_lone (visitList_of_forall₂ h) hlone)

theorem evaluates_ofFactors {fs rs : List Expr}
    (h : List.Forall₂ (Evaluates settings (n + 1)) fs rs)
    (hlone : Lone (others (rs.flatMap factors))) :
    Evaluates settings (n + 2) (ofFactors fs) (gathered (rs.flatMap factors)) := by
  match fs, rs, h with
  | [], _, .nil => exact gathered_nil ▸ evaluates_const settings (n + 1) 1
  | [f], _, .cons hf .nil =>
    rw [List.flatMap_singleton, gathered_factors hf.proper.constructed]
    exact hf.mono (Nat.le_succ _)
  | f :: g :: fs, rs, h => exact ⟨outcome?_product h hlone, proper_gathered (proper_of_forall₂ h)⟩

/-- **The outcome of a product** whose factors evaluate to constants and at most one generator: the
constructor may have multiplied the constants before. -/
theorem Evaluates.productOf {xs rs : List Expr}
    (h : List.Forall₂ (Evaluates settings (n + 1)) (xs.flatMap factors) rs)
    (hlone : Lone (others (rs.flatMap factors))) :
    Evaluates settings (n + 2) (productOf xs) (gathered (rs.flatMap factors)) := by
  let v := visited settings (n + 1)
  obtain ⟨rfl, heach⟩ := map_visited_eq h
  rw [productOf_eq]
  rw [List.flatMap_map] at hlone ⊢
  generalize xs.flatMap factors = ws at heach hlone ⊢
  have hself (q : Rat) : factors (v (.const q)) = [.const q] := rfl
  obtain ⟨ho, hc⟩ := operands_flatMap (g := fun f => factors (v f)) hself ws
  by_cases h0 : (constants ws).prod = 0
  · rw [if_pos h0, gathered_of_prod_eq_zero (hc.trans (by rw [h0, mul_zero]))]
    exact evaluates_const settings (n + 1) 0
  rw [if_neg h0]
  -- The arranged factors evaluate to the same constants and the same generator.
  set fs := arranged 1 (constants ws).prod ws with hfs
  have hothers : (others fs).Perm (others ws) := others_arranged _ _ _
  have hconstants : (constants fs).prod = (constants ws).prod := by
    rw [hfs, constants_arranged]
    split
    · next h1 => rw [h1, List.prod_nil]
    · exact List.prod_singleton
  obtain ⟨ho', hc'⟩ := operands_flatMap (g := fun f => factors (v f)) hself fs
  have hperm : (others (ws.flatMap fun f => factors (v f))).Perm
      (others (fs.flatMap fun f => factors (v f))) := by
    rw [ho, ho']
    exact others_perm (hothers.symm.flatMap_right _)
  have hprod : (constants (ws.flatMap fun f => factors (v f))).prod =
      (constants (fs.flatMap fun f => factors (v f))).prod := by
    rw [hc, hc', hconstants, (constants_perm (hothers.flatMap_right _)).prod_eq]
  have heach' : List.Forall₂ (Evaluates settings (n + 1)) fs (fs.map v) := by
    refine List.forall₂_map_right_iff.mpr (List.forall₂_same.mpr fun f hf => ?_)
    rcases mem_arranged hf with hf | ⟨rfl, -⟩
    · exact heach f (mem_others.mp hf).1
    · exact evaluates_const settings n _
  rw [gathered_congr hlone hprod hperm]
  rw [hlone.eq_of_perm hperm] at hlone
  have hfactors := evaluates_ofFactors heach' (by rwa [List.flatMap_map])
  rwa [List.flatMap_map] at hfactors

/-! ## Powers -/

theorem proper_simplePower {b y : Expr} (hb : Proper b) (hy : Proper y) :
    Proper (simplePower b y) := by
  unfold simplePower
  split
  · exact .const 0
  split
  · exact .const 1
  split
  · exact .const 1
  split
  · exact hb
  split
  · split
    · exact .const _
    · exact hb.power hy
  · exact hb.power hy

/-- A power whose base evaluates to neither a product nor a power. -/
theorem Evaluates.power {b y b' y' : Expr} (hb : Evaluates settings n b b')
    (hy : Evaluates settings n y y') (hproduct : b'.isProduct = false)
    (hpower : b'.asPower? = none) :
    Evaluates settings (n + 1) (b.power y) (simplePower b' y') := by
  have hresult := proper_simplePower hb.proper hy.proper
  have hnode : (b.power y).builtIn = true := (builtIn_binary _ b y).mpr
    ⟨builtIn_of_outcome? hb.outcome, builtIn_of_outcome? hy.outcome⟩
  have hraise : raise (outcome? settings n) b' y' = some (simplePower b' y') := by
    cases b' with
    | binary op l r =>
      cases op with
      | power => cases hpower
      | _ => rfl
    | _ => rfl
  have hvisit : visitPower (outcome? settings n) b y = some (simplePower b' y') := by
    rw [visitPower, hb.outcome]
    cases b' with
    | product fs => cases hproduct
    | _ =>
      change (outcome? settings n y).bind _ = _
      rw [hy.outcome]
      exact hraise
  refine ⟨?_, hresult⟩
  rw [← keepIfEqual_of_builtIn hnode hresult.builtIn, outcome?, if_pos hnode]
  exact Agreement.option.map _ hvisit

theorem evaluates_inverse_const (settings : Settings) (n : Nat) :
    Evaluates settings (n + 2) (inverse (.const (-1))) (.const (-1)) := by
  have hvalue : simplePower (.const (-1)) (.const (-1)) = .const (-1) := by cbv
  have h := (evaluates_const settings n (-1)).power (evaluates_const settings n (-1)) rfl rfl
  rwa [hvalue] at h

theorem evaluates_inverse_symbol (settings : Settings) (n : Nat) (x : String) :
    Evaluates settings (n + 2) (inverse (symbol x)) ((symbol x).pow (-1)) :=
  (evaluates_symbol settings n x).power (evaluates_const settings n (-1)) rfl rfl

/-! ## Sums -/

section Sums

variable {κ : Type} {f : Rat × κ → Expr} {one : κ} {T : κ → Rat × Generator} {x : String}

theorem flatMap_terms_term (l : List (Rat × Generator)) :
    (l.map (term x)).flatMap terms = l.map (term x) :=
  flatMap_terms_eq_self (List.forall_mem_map.mpr fun _ _ => isSum_term)

theorem proper_collected (x : String) (l : List (Rat × Generator)) : Proper (collected x l) := by
  obtain ⟨l₁, hl₁, -⟩ := exists_collected x l
  rw [hl₁]
  exact proper_sumOf (List.forall_mem_map.mpr fun p _ => proper_term x p)

/-- A sum node over terms. -/
theorem outcome?_sum {ts : List Expr} {l : List (Rat × Generator)}
    (h : List.Forall₂ (Evaluates settings n) ts (l.map (term x))) :
    outcome? settings (n + 1) (.sum ts) = some (collected x l) := by
  have hnode : (Expr.sum ts).builtIn = true := (builtIn_sum ts).mpr (builtIn_of_forall₂ h)
  have hvisit : visitSum (outcome? settings n) ts = some (collected x l) := by
    rw [visitSum, visitList_of_forall₂ h]
    change some (collect ((l.map (term x)).flatMap terms)) = _
    rw [flatMap_terms_term, collected]
  rw [← keepIfEqual_of_builtIn hnode (proper_collected x l).builtIn, outcome?, if_pos hnode]
  exact Agreement.option.map _ hvisit

/-- **The outcome of a sum** of multiples that evaluate to terms is the collected sum of these
terms. -/
theorem evaluates_sumOf (hone : ∀ q, f (q, one) = .const q) (hflat : ∀ p, (f p).isSum = false)
    (hconst : ∀ p q, f p = .const q → Finsupp.single p.2 p.1 = Finsupp.single one q)
    (h : ∀ p, Evaluates settings (n + 1) (f p) (term x (scaleBy T p))) (l : List (Rat × κ)) :
    Evaluates settings (n + 2) (sumOf (l.map f)) (collected x (l.map (scaleBy T))) := by
  obtain ⟨l', hsum, hl'⟩ := exists_operands hone hflat hconst l
  rw [hsum, collected_congr (coefficients_map_congr T hl'.symm)]
  match l' with
  | [] => exact evaluates_const settings (n + 1) 0
  | [p] =>
    rw [List.map_singleton, List.map_singleton, collected_singleton]
    exact (h p).mono (Nat.le_succ _)
  | p :: p' :: ps =>
    have hterms (l : List (Rat × κ)) : List.Forall₂ (Evaluates settings (n + 1)) (l.map f)
        ((l.map (scaleBy T)).map (term x)) := by
      rw [List.map_map]
      exact List.forall₂_map_left_iff.mpr
        (List.forall₂_map_right_iff.mpr (List.forall₂_same.mpr fun p _ => h p))
    exact ⟨outcome?_sum (hterms (p :: p' :: ps)), proper_collected x _⟩

end Sums

/-! ## Generators and terms -/

section Terms

variable {x : String} {k : Generator}

theorem prod_constants_expr : (constants [k.expr x]).prod = 1 := by
  by_cases hk : k = .power 0
  · rw [hk, Generator.expr_power_zero, constants_const, constants_nil, List.prod_singleton]
  · rw [constants_cons (Generator.isConst_expr hk), constants_nil, List.prod_nil]

/-- A generator is kept by the bases of a product. -/
theorem lone_expr : Lone (others [k.expr x]) := by
  by_cases hk : k = .power 0
  · rw [hk, Generator.expr_power_zero, others_const, others_nil]
    exact lone_nil
  rw [others_cons (Generator.isConst_expr hk), others_nil]
  have lone {b e : Expr} {q : Rat} (hsplit : splitExponent e = (b, q)) (hraised : raised b q = e)
      (h0 : q ≠ 0) (hb : b.isSum = false) : Lone [e] := by
    constructor
    · exact Nat.le_refl 1
    all_goals
      rw [List.forall_mem_singleton, hsplit]
      assumption
  cases k with
  | power n =>
    have h0 : n ≠ 0 := fun h => hk (congrArg Generator.power h)
    by_cases h1 : n = 1
    · rw [h1]
      exact lone rfl (if_pos rfl) one_ne_zero rfl
    · rw [Generator.expr_power h0 h1]
      exact lone rfl (if_neg (by exact_mod_cast h1)) (by exact_mod_cast h0) rfl
  | log => exact lone rfl (if_pos rfl) one_ne_zero rfl
  | wave w a => exact lone rfl (if_pos rfl) one_ne_zero rfl

theorem gathered_eq_term {rs : List Expr} {q : Rat} (hc : (constants rs).prod = q)
    (ho : (others rs).Perm (others [k.expr x])) : gathered rs = term x (q, k) := by
  rw [gathered, hc, ← lone_expr.eq_of_perm ho.symm]
  by_cases hk : k = .power 0
  · rw [hk, term_power_zero, Generator.expr_power_zero, others_const, others_nil]
    exact (Constructed.const q).productOf_singleton
  · rw [others_cons (Generator.isConst_expr hk), others_nil]
    rfl

/-- A product of constants and one generator evaluates to a term. -/
theorem evaluates_productOf_term {xs rs : List Expr} {q : Rat}
    (h : List.Forall₂ (Evaluates settings (n + 1)) (xs.flatMap factors) rs)
    (hflat : ∀ r ∈ rs, r.isProduct = false) (hc : (constants rs).prod = q)
    (ho : (others rs).Perm (others [k.expr x])) :
    Evaluates settings (n + 2) (productOf xs) (term x (q, k)) := by
  have hfactors := flatMap_factors_eq_self hflat
  have hlone : Lone (others rs) := lone_expr.eq_of_perm ho.symm ▸ lone_expr
  have hproduct := Evaluates.productOf h (by rwa [hfactors])
  rwa [hfactors, gathered_eq_term hc ho] at hproduct

/-- A product of what evaluates to constants and, between them, one generator. -/
theorem evaluates_between (cs ds : List Rat) {es fs : List Expr}
    (hes : List.Forall₂ (Evaluates settings (n + 1)) es (cs.map .const))
    (he : Evaluates settings (n + 1) e (k.expr x))
    (hfs : List.Forall₂ (Evaluates settings (n + 1)) fs (ds.map .const))
    (hflat : ∀ f ∈ es ++ e :: fs, f.isProduct = false) :
    Evaluates settings (n + 2) (productOf (es ++ e :: fs)) (term x (cs.prod * ds.prod, k)) := by
  have hfactors : List.Forall₂ (Evaluates settings (n + 1)) ((es ++ e :: fs).flatMap factors)
      (cs.map .const ++ k.expr x :: ds.map .const) := by
    rw [flatMap_factors_eq_self hflat]
    exact List.rel_append hes (.cons he hfs)
  refine evaluates_productOf_term hfactors ?_ ?_ ?_
  · exact List.forall_mem_append.mpr ⟨List.forall_mem_map.mpr fun _ _ => rfl,
      List.forall_mem_cons.mpr ⟨Generator.isProduct_expr, List.forall_mem_map.mpr fun _ _ => rfl⟩⟩
  · rw [← List.singleton_append, constants_append, constants_append, constants_map_const,
      constants_map_const, List.prod_append, List.prod_append, prod_constants_expr, one_mul]
  · rw [← List.singleton_append, others_append, others_append, others_map_const, others_map_const,
      List.nil_append, List.append_nil]

/-- A constant times a generator. -/
theorem evaluates_scaled {c : Expr} {q : Rat} (hc : Evaluates settings (n + 1) c (.const q))
    (he : Evaluates settings (n + 1) e (k.expr x)) (hflat : c.isProduct = false)
    (hflat' : e.isProduct = false) : Evaluates settings (n + 2) (productOf [c, e]) (term x (q, k)) := by
  have h := evaluates_between [q] [] (.cons hc .nil) he .nil
    (List.forall_mem_cons.mpr ⟨hflat, List.forall_mem_singleton.mpr hflat'⟩)
  rwa [List.prod_singleton, List.prod_nil, mul_one] at h

theorem evaluates_multiple (settings : Settings) (n : Nat) (a : Rat) (x : String) :
    Evaluates settings (n + 2) (multiple a x) (multiple a x) :=
  evaluates_productOf_term (k := .power 1)
    (.cons (evaluates_const settings n a) (.cons (evaluates_symbol settings n x) .nil))
    (List.forall_mem_cons.mpr ⟨rfl, List.forall_mem_singleton.mpr rfl⟩) (mul_one a) (.refl _)

theorem simplePower_symbol (x : String) (m : Int) :
    simplePower (symbol x) (.const m) = (Generator.power m).expr x := by
  by_cases h0 : m = 0
  · rw [h0]
    rfl
  by_cases h1 : m = 1
  · rw [h1]
    rfl
  · rw [Generator.expr_power h0 h1]
    simp [simplePower, symbol, isZero, isOne, h0, h1]

/-- A power of the variable. -/
theorem evaluates_power (settings : Settings) (n : Nat) (x : String) (m : Int) :
    Evaluates settings (n + 2) ((symbol x).pow m) ((Generator.power m).expr x) :=
  simplePower_symbol x m ▸
    (evaluates_symbol settings n x).power (evaluates_const settings n m) rfl rfl

/-- A power of a power of the variable with integer exponents. -/
theorem evaluates_power_power {y : Expr} {m : Int} (hy : Evaluates settings (n + 1) y (.const m))
    (k : Int) : Evaluates settings (n + 3) (((symbol x).pow k).power y)
      ((Generator.power (k * m)).expr x) := by
  have hbase := evaluates_power settings n x k
  have hexponent := hy.mono (Nat.le_succ (n + 1))
  by_cases h0 : k = 0
  · subst h0
    rw [zero_mul]
    exact hbase.power hexponent rfl rfl
  by_cases h1 : k = 1
  · subst h1
    rw [one_mul, ← simplePower_symbol]
    exact hbase.power hexponent rfl rfl
  rw [Generator.expr_power h0 h1] at hbase
  -- The base stays a power, so that the exponents are multiplied.
  have hnode : (((symbol x).pow k).power y).builtIn = true :=
    (builtIn_binary _ _ y).mpr ⟨rfl, builtIn_of_outcome? hy.outcome⟩
  have hvisit : visitPower (outcome? settings (n + 2)) ((symbol x).pow k) y =
      some ((Generator.power (k * m)).expr x) := by
    rw [visitPower, hbase.outcome]
    change (outcome? settings (n + 2) y).bind _ = _
    rw [hexponent.outcome]
    change (outcome? settings (n + 2) (productOf [.const m, .const k])).bind _ = _
    rw [productOf_const_const, mul_comm]
    change some (simplePower (symbol x) (.const (k * m))) = _
    rw [← Rat.intCast_mul, simplePower_symbol]
  refine ⟨?_, Generator.proper_expr⟩
  rw [← keepIfEqual_of_builtIn hnode (@Generator.proper_expr x (.power (k * m))).builtIn, outcome?,
    if_pos hnode]
  exact Agreement.option.map _ hvisit

/-- A power of a call. -/
theorem evaluates_power_call {g : Elementary} {a y v : Expr}
    (h : Evaluates settings n e (elementaryCall g a)) (hy : Evaluates settings n y v)
    (h0 : v.isZero = false) (h1 : v.isOne = false) :
    Evaluates settings (n + 1) (e.power y) ((elementaryCall g a).power v) := by
  have hvalue : simplePower (elementaryCall g a) v = (elementaryCall g a).power v := by
    unfold simplePower
    rw [h0, h1]
    rfl
  exact hvalue ▸ h.power hy rfl rfl

/-- Elementary functions are not applied to what is no constant. -/
def KeepsElementary (settings : Settings) : Prop :=
  ∀ e g a, a.isConst = false → called settings e (.native (.elementary g)) [a] = elementaryCall g a

theorem keepsElementary_contextTo (ns : Namespace) (depth : Nat) :
    KeepsElementary ⟨ns.contextTo depth, []⟩ := by
  intro e g a ha
  have happly : (ns.contextTo depth).apply (.native (.elementary g)) [a] = .ok none := by
    cases depth with
    | zero => rfl
    | succ depth =>
      change Native.applyTo (ns.contextTo depth) (.elementary g) [a] = _
      simp [Native.applyTo, Native.parameters, Parameter.constant, ha]
  simp [called, happly]

theorem keepsElementary_context (ns : Namespace) : KeepsElementary ⟨ns.context, []⟩ :=
  keepsElementary_contextTo ns Namespace.callDepth

theorem evaluates_elementaryCall (hs : KeepsElementary settings) {g : Elementary} {a r : Expr}
    (h : Evaluates settings n a r) (hr : r.isConst = false) :
    Evaluates settings (n + 1) (elementaryCall g a) (elementaryCall g r) := by
  refine ⟨?_, .call rfl (List.forall_mem_singleton.mpr h.proper)⟩
  have hargs : ∀ b ∈ [a], outcome? settings n b = some (visited settings n b) :=
    List.forall_mem_singleton.mpr (h.visited_eq ▸ h.outcome)
  rw [outcome?_call rfl hargs, List.map_singleton, h.visited_eq, hs _ g r hr]

theorem evaluates_expr (hs : KeepsElementary settings) (n : Nat) (x : String) (k : Generator) :
    Evaluates settings (n + 3) (k.expr x) (k.expr x) := by
  cases k with
  | power m =>
    by_cases h0 : m = 0
    · rw [h0]
      exact evaluates_const settings (n + 2) 1
    by_cases h1 : m = 1
    · rw [h1]
      exact evaluates_symbol settings (n + 2) x
    · have h := evaluates_power settings (n + 1) x m
      rw [Generator.expr_power h0 h1] at h ⊢
      exact h
  | log => exact evaluates_elementaryCall hs (evaluates_symbol settings (n + 1) x) rfl
  | wave w a =>
    exact evaluates_elementaryCall hs (evaluates_multiple settings n a x) (isConst_multiple a)

theorem evaluates_term (hs : KeepsElementary settings) (n : Nat) (x : String) (p : Rat × Generator) :
    Evaluates settings (n + 4) (term x p) (term x p) :=
  evaluates_scaled (evaluates_const settings _ p.1) (evaluates_expr hs n x p.2) rfl
    Generator.isProduct_expr

/-- A sum of terms evaluates to its collected sum. -/
theorem evaluates_sumOf_terms (hs : KeepsElementary settings) (n : Nat) (x : String)
    (l : List (Rat × Generator)) :
    Evaluates settings (n + 5) (sumOf (l.map (term x))) (collected x l) := by
  have hself (p : Rat × Generator) : scaleBy (fun k => (1, k)) p = p := by
    rw [scaleBy, mul_one]
  have h := evaluates_sumOf (T := fun k : Generator => (1, k)) (n := n + 3) (term_power_zero x)
    (fun _ => isSum_term) (fun _ _ => single_of_term_eq_const)
    (fun p => by rw [hself]; exact evaluates_term hs n x p) l
  rwa [List.map_congr_left (g := id) fun p _ => hself p, List.map_id] at h

end Terms

end SymbolicAlgebra.Evaluator
