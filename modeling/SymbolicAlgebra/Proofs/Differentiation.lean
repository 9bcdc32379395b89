import SymbolicAlgebra.Calculus.Derivative
import SymbolicAlgebra.Proofs.Slope
import SymbolicAlgebra.Proofs.ZerothPower

/-!
# Differentiation of rational expressions

On rational expressions no rule for calls is used and no call is left over, so that the visit is a
function: `derived`. It evaluates an intermediate result at every power and between any two factors
of a product; these are `settled`, and the differentiation is right where they are evaluated exactly.

Results:
* `run_visit`, `differentiate_eq`: the differentiation is `evaluated (derived x f)`.
* `denotes_derived`: the derivative has the slope as its value.
* `exact_of_degree_le`: bounds on the degrees within which all intermediate results are exact.
* `differentiate_dualValue`: in dual numbers `f (x + ε) = f x + f' x * ε`.
-/

namespace SymbolicAlgebra

namespace Expr

/-- A rational expression as the constructors build it. -/
structure RationalForm (e : Expr) : Prop where
  rational : IsRational e
  canonical : Canonical e

variable {σ : String → Rat}

theorem RationalForm.of_product {fs : List Expr} (h : RationalForm (product fs)) :
    ∀ f ∈ fs, RationalForm f := by
  obtain ⟨hr, hc⟩ := h
  cases hr with
  | product hfs => exact fun f hf => ⟨hfs f hf, hc.of_product f hf⟩

end Expr

namespace Derivative

open Evaluator Expr

/-! ## The differentiation as a function -/

/-- `d(l * rest) = dl * rest + l * dr`, where a factor without `x` gives no first summand. -/
def productRule (x l : Expr) (rest : List Expr) (dl dr : Expr) : Expr :=
  if l.dependsOn x then .sumOf [.productOf (dl :: rest), .productOf [l, dr]]
  else .productOf [l, dr]

mutual

/-- The derivative of a rational expression, not yet evaluated as a whole. -/
def derived (x : Expr) (e : Expr) : Expr :=
  if e == x then .one
  else if !e.dependsOn x then .zero
  else
    match e with
    | .sum ts => .sumOf (derivedTerms x ts)
    | .product fs => derivedProduct x fs
    | .binary .power f g => evaluated (constantPower f g (derived x f))
    | _ => .zero

/-- The derivatives of the terms of a sum that are not zero. -/
def derivedTerms (x : Expr) : List Expr → List Expr
  | [] => []
  | t :: ts =>
    if (derived x t).isZero then derivedTerms x ts else derived x t :: derivedTerms x ts

/-- The product rule, from the last factor to the first. -/
def derivedProduct (x : Expr) : List Expr → Expr
  | [] => .zero
  | [l] => derived x l
  | l :: r :: rs =>
    evaluated (productRule x l (r :: rs) (derived x l) (derivedProduct x (r :: rs)))

end

mutual

/-- The intermediate results that the differentiation evaluates. -/
def settled (x : Expr) (e : Expr) : List Expr :=
  if e == x || !e.dependsOn x then []
  else
    match e with
    | .sum ts => settledTerms x ts
    | .product fs => settledProduct x fs
    | .binary .power f g => constantPower f g (derived x f) :: settled x f
    | _ => []

/-- The intermediate results for the terms of a sum. -/
def settledTerms (x : Expr) : List Expr → List Expr
  | [] => []
  | t :: ts => settled x t ++ settledTerms x ts

/-- The intermediate results of the product rule. -/
def settledProduct (x : Expr) : List Expr → List Expr
  | [] => []
  | [l] => settled x l
  | l :: r :: rs =>
    productRule x l (r :: rs) (derived x l) (derivedProduct x (r :: rs)) ::
      (settled x l ++ settledProduct x (r :: rs))

end

theorem mem_settledTerms {x t E : Expr} (hE : E ∈ settled x t) : ∀ {ts : List Expr}, t ∈ ts →
    E ∈ settledTerms x ts
  | u :: ts, ht => by
    rw [settledTerms, List.mem_append]
    rcases List.mem_cons.mp ht with rfl | ht
    · exact .inl hE
    · exact .inr (mem_settledTerms hE ht)

theorem exists_of_mem_settledTerms {x E : Expr} : ∀ {ts : List Expr}, E ∈ settledTerms x ts →
    ∃ t ∈ ts, E ∈ settled x t
  | [], hE => by simp [settledTerms] at hE
  | t :: ts, hE => by
    rw [settledTerms, List.mem_append] at hE
    rcases hE with hE | hE
    · exact ⟨t, List.mem_cons_self, hE⟩
    · obtain ⟨u, hu, hE⟩ := exists_of_mem_settledTerms hE
      exact ⟨u, List.mem_cons_of_mem t hu, hE⟩

theorem mem_settledProduct {x f E : Expr} (hE : E ∈ settled x f) : ∀ {fs : List Expr}, f ∈ fs →
    E ∈ settledProduct x fs
  | [l], hf => by
    rw [settledProduct, ← List.mem_singleton.mp hf]
    exact hE
  | l :: r :: rs, hf => by
    rw [settledProduct]
    refine List.mem_cons_of_mem _ (List.mem_append.mpr ?_)
    rcases List.mem_cons.mp hf with rfl | hf
    · exact .inl hE
    · exact .inr (mem_settledProduct hE hf)

theorem canonical_constantPower {f df : Expr} {n : Rat} (hf : Expr.Canonical f)
    (hdf : Expr.Canonical df) : Expr.Canonical (constantPower f (.const n) df) := by
  rw [constantPower, const_sub_one]
  refine canonical_productOf ?_
  simp only [List.forall_mem_cons, List.not_mem_nil, false_imp_iff, implies_true, and_true]
  exact ⟨.const n, hf.power (.const _), hdf⟩

theorem canonical_productRule {x l dl dr : Expr} {rest : List Expr} (hl : Expr.Canonical l)
    (hrest : ∀ r ∈ rest, Expr.Canonical r) (hdl : Expr.Canonical dl) (hdr : Expr.Canonical dr) :
    Expr.Canonical (productRule x l rest dl dr) := by
  have hright : Expr.Canonical (.productOf [l, dr]) :=
    canonical_productOf (List.forall_mem_cons.mpr ⟨hl, List.forall_mem_singleton.mpr hdr⟩)
  unfold productRule
  split
  · have hleft := canonical_productOf (List.forall_mem_cons.mpr ⟨hdl, hrest⟩)
    exact canonical_sumOf (List.forall_mem_cons.mpr ⟨hleft, List.forall_mem_singleton.mpr hright⟩)
  · exact hright

theorem canonical_guarded {x e r : Expr} (h : Expr.Canonical r) :
    Expr.Canonical (if e == x then .one else if !e.dependsOn x then .zero else r) := by
  split
  · exact .const 1
  · split
    · exact .const 0
    · exact h

theorem canonical_derivedTerms {x : Expr} : ∀ {ts : List Expr},
    (∀ t ∈ ts, Expr.Canonical (derived x t)) → ∀ t ∈ derivedTerms x ts, Expr.Canonical t
  | [], _ => by simp [derivedTerms]
  | t :: ts, h => by
    obtain ⟨ht, hts⟩ := List.forall_mem_cons.mp h
    rw [derivedTerms]
    split
    · exact canonical_derivedTerms hts
    · exact List.forall_mem_cons.mpr ⟨ht, canonical_derivedTerms hts⟩

theorem canonical_derivedProduct_of {x : Expr} : ∀ {fs : List Expr}, (∀ f ∈ fs, Expr.Canonical f) →
    (∀ f ∈ fs, Expr.Canonical (derived x f)) → Expr.Canonical (derivedProduct x fs)
  | [], _, _ => .const 0
  | [l], _, h => h l List.mem_cons_self
  | l :: r :: rs, hc, h => by
    obtain ⟨hl, hrest⟩ := List.forall_mem_cons.mp h
    obtain ⟨hcl, hcr⟩ := List.forall_mem_cons.mp hc
    rw [derivedProduct]
    exact canonical_evaluated
      (canonical_productRule hcl hcr hl (canonical_derivedProduct_of hcr hrest))

theorem canonical_derived (x : Expr) {e : Expr} (h : RationalForm e) :
    Expr.Canonical (derived x e) := by
  obtain ⟨hr, hc⟩ := h
  induction hr with
  | const q =>
    unfold derived
    exact canonical_guarded (.const 0)
  | var n =>
    unfold derived
    exact canonical_guarded (.const 0)
  | sum _ ih =>
    unfold derived
    refine canonical_guarded (canonical_sumOf (canonical_derivedTerms fun t ht => ?_))
    exact ih t ht (hc.of_sum t ht)
  | product _ ih =>
    unfold derived
    refine canonical_guarded (canonical_derivedProduct_of hc.of_product fun f hf => ?_)
    exact ih f hf (hc.of_product f hf)
  | power _ _ _ ih =>
    unfold power derived
    obtain ⟨hb, -⟩ := hc.of_binary
    exact canonical_guarded (canonical_evaluated (canonical_constantPower hb (ih hb)))

theorem canonical_derivedProduct (x : Expr) {fs : List Expr} (h : ∀ f ∈ fs, RationalForm f) :
    Expr.Canonical (derivedProduct x fs) :=
  canonical_derivedProduct_of (fun f hf => (h f hf).canonical)
    fun f hf => canonical_derived x (h f hf)

/-- The product rule for a factor and the derivative of the others is in canonical form. -/
theorem canonical_productRule_derived (x : Expr) {l : Expr} {rest : List Expr}
    (h : ∀ f ∈ l :: rest, RationalForm f) :
    Expr.Canonical (productRule x l rest (derived x l) (derivedProduct x rest)) := by
  obtain ⟨hl, hrest⟩ := List.forall_mem_cons.mp h
  exact canonical_productRule hl.canonical (fun r hr => (hrest r hr).canonical)
    (canonical_derived x hl) (canonical_derivedProduct x hrest)

section Run

variable {s : Settings}

theorem run_settle {e : Expr} (he : Expr.Canonical e) (st : List Expr) :
    (settle s e).run st = .ok (evaluated e, st) := by
  rw [← evaluateHolding_eq he st s.context]
  rfl

/-- The two ways in which a visit ends at once, and the way in which it goes on. -/
theorem run_guarded {x e r : Expr} {go : WithLeftovers Expr} (st : List Expr)
    (h : go.run st = .ok (r, st)) :
    StateT.run (if e == x then return .one else if !e.dependsOn x then return .zero else go) st =
      .ok (if e == x then .one else if !e.dependsOn x then .zero else r, st) := by
  split
  · rfl
  · split
    · rfl
    · exact h

theorem run_visitTerms : ∀ {ts : List Expr},
    (∀ t ∈ ts, ∀ st, (visit s t).run st = .ok (derived s.x t, st)) →
      ∀ st, (visitTerms s ts).run st = .ok (derivedTerms s.x ts, st)
  | [], _, _ => by
    unfold visitTerms derivedTerms
    rfl
  | t :: ts, h, st => by
    obtain ⟨ht, hts⟩ := List.forall_mem_cons.mp h
    unfold visitTerms derivedTerms
    rw [StateT.run_bind, ht st]
    change StateT.run (do
      let rest ← visitTerms s ts
      return if (derived s.x t).isZero then rest else derived s.x t :: rest) st = _
    rw [StateT.run_bind, run_visitTerms hts st]
    rfl

theorem run_visitProduct : ∀ {fs : List Expr}, (∀ f ∈ fs, RationalForm f) →
    (∀ f ∈ fs, ∀ st, (visit s f).run st = .ok (derived s.x f, st)) →
      ∀ st, (visitProduct s fs).run st = .ok (derivedProduct s.x fs, st)
  | [], _, _, _ => by
    unfold visitProduct derivedProduct
    rfl
  | [l], _, h, st => by
    unfold visitProduct derivedProduct
    exact h l List.mem_cons_self st
  | l :: r :: rs, hf, h, st => by
    obtain ⟨hl, hrest⟩ := List.forall_mem_cons.mp h
    have hE := canonical_productRule_derived s.x hf
    have hrec := run_visitProduct (fun f hm => hf f (List.mem_cons_of_mem l hm)) hrest st
    unfold visitProduct derivedProduct
    rw [StateT.run_bind, hrec]
    unfold productRule at hE ⊢
    change StateT.run (if l.dependsOn s.x then _ else settle s _) st = _
    split at hE
    · next hdep =>
      rw [if_pos hdep, if_pos hdep, StateT.run_bind, hl st]
      exact run_settle hE st
    · next hdep =>
      rw [if_neg hdep, if_neg hdep]
      exact run_settle hE st

theorem dependsOn_const (q : Rat) (x : String) : (Expr.const q).dependsOn (symbol x) = false := rfl

theorem dependsOn_var (n x : String) :
    (Expr.var n none).dependsOn (symbol x) = decide (n = x) := by
  change List.contains [symbol x] (Expr.var n none) = _
  rw [List.contains_cons, List.contains_nil, Bool.or_false, beq_symbol]

/-- **On rational expressions the visit is `derived`**, and leaves no call over. -/
theorem run_visit {x : String} (hx : s.x = symbol x) {e : Expr} (h : RationalForm e) :
    ∀ st, (visit s e).run st = .ok (derived s.x e, st) := by
  obtain ⟨hr, hc⟩ := h
  induction hr with
  | const q =>
    intro st
    unfold visit derived
    rw [hx, dependsOn_const]
    rfl
  | var n =>
    intro st
    unfold visit derived
    rw [hx, beq_symbol, dependsOn_var]
    by_cases hn : n = x
    · rw [decide_eq_true hn]
      rfl
    · rw [decide_eq_false hn]
      rfl
  | sum _ ih =>
    intro st
    unfold visit derived
    refine run_guarded st ?_
    rw [StateT.run_bind, run_visitTerms (fun t ht => ih t ht (hc.of_sum t ht)) st]
    rfl
  | product hfs ih =>
    intro st
    unfold visit derived
    exact run_guarded st (run_visitProduct (RationalForm.of_product ⟨.product hfs, hc⟩)
      (fun f hf => ih f hf (hc.of_product f hf)) st)
  | @power b n hb _ _ ih =>
    intro st
    obtain ⟨hcb, -⟩ := hc.of_binary
    have hE := canonical_constantPower (n := n) hcb (canonical_derived s.x ⟨hb, hcb⟩)
    unfold power visit derived
    refine run_guarded st ?_
    rw [StateT.run_bind, ih hcb st]
    change StateT.run (if (Expr.const n).dependsOn s.x then _ else settle s _) st = _
    rw [hx, dependsOn_const, ← hx]
    exact run_settle hE st

end Run

/-! ## The derivative is the slope -/

section Slope

variable {σ : String → Rat} {x : String}

theorem denotes_derivedTerms : ∀ {ts : List Expr},
    (∀ t ∈ ts, Denotes σ (derived (symbol x) t) (slope σ x t)) →
      (∀ u ∈ derivedTerms (symbol x) ts, Defined σ u) ∧
        ((derivedTerms (symbol x) ts).map (value σ)).sum = (ts.map (slope σ x)).sum
  | [], _ => by simp [derivedTerms]
  | t :: ts, h => by
    obtain ⟨ht, hts⟩ := List.forall_mem_cons.mp h
    obtain ⟨hdefined, hsum⟩ := denotes_derivedTerms hts
    rw [derivedTerms, List.map_cons, List.sum_cons, ← ht.value_eq]
    split
    · next hzero => exact ⟨hdefined, by rw [hsum, value_of_isZero hzero, zero_add]⟩
    · refine ⟨List.forall_mem_cons.mpr ⟨ht.defined, hdefined⟩, ?_⟩
      rw [List.map_cons, List.sum_cons, hsum]

theorem denotes_productRule {l dl dr : Expr} {rest : List Expr} {p q : Rat}
    (hr : IsRational l) (hl : Defined σ l) (hrest : ∀ r ∈ rest, Defined σ r)
    (hdl : Denotes σ dl (slope σ x l)) (hdr : Denotes σ dr q)
    (hp : (rest.map (value σ)).prod = p) :
    Denotes σ (productRule (symbol x) l rest dl dr) (slope σ x l * p + value σ l * q) := by
  have hright : Denotes σ (productOf [l, dr]) (value σ l * q) := denotes_productOf_pair ⟨hl, rfl⟩ hdr
  unfold productRule
  split
  · have hleft := denotes_productOf (List.forall_mem_cons.mpr ⟨hdl.defined, hrest⟩)
    rw [List.map_cons, List.prod_cons, hdl.value_eq, hp] at hleft
    have hsum := denotes_sumOf (List.forall_mem_cons.mpr
      ⟨hleft.defined, List.forall_mem_singleton.mpr hright.defined⟩)
    rwa [List.map_cons, List.map_singleton, List.sum_cons, List.sum_singleton, hleft.value_eq,
      hright.value_eq] at hsum
  · next hfree =>
    rw [slope_of_free hr hl (eq_false_of_ne_true hfree), zero_mul, zero_add]
    exact hright

theorem denotes_derivedProduct : ∀ {fs : List Expr}, (∀ f ∈ fs, RationalForm f) →
    (∀ f ∈ fs, Defined σ f) → (∀ f ∈ fs, Denotes σ (derived (symbol x) f) (slope σ x f)) →
    (∀ e ∈ settledProduct (symbol x) fs, ExactPowers e) →
      Denotes σ (derivedProduct (symbol x) fs) (slope σ x (.product fs))
  | [], _, _, _, _ => by
    have h0 : slope σ x (.product []) = 0 := rfl
    rw [h0]
    exact ⟨.const 0, value_const 0⟩
  | [l], hf, _, h, _ => by
    have h0 : slope σ x (.product []) = 0 := rfl
    rw [slope_product_cons fun f hm => (hf f hm).rational, h0, mul_zero, add_zero, value_product,
      List.map_nil, List.prod_nil, mul_one]
    exact h l List.mem_cons_self
  | l :: r :: rs, hf, hd, h, hexact => by
    obtain ⟨hfl, hfr⟩ := List.forall_mem_cons.mp hf
    obtain ⟨hdl, hdr⟩ := List.forall_mem_cons.mp hd
    obtain ⟨hl, hrest⟩ := List.forall_mem_cons.mp h
    rw [settledProduct] at hexact
    obtain ⟨hE, hinner⟩ := List.forall_mem_cons.mp hexact
    have hrec := denotes_derivedProduct hfr hdr hrest fun e he =>
      hinner e (List.mem_append_right _ he)
    have hrule := denotes_productRule hfl.rational hdl hdr hl hrec (value_product _).symm
    rw [derivedProduct, slope_product_cons fun f hm => (hf f hm).rational, ← hrule.value_eq]
    exact denotes_evaluated (canonical_productRule_derived (symbol x) hf) hE hrule.defined

/-! ### Powers -/

/-- The zeroth power of the base does not change the slope of the base: where it is `0`, the base is
`0` in a neighbourhood. -/
theorem zerothPower_mul_slope {e : Expr} {c : Rat} (h : ZerothPower e c) (hr : IsRational e)
    (hd : Defined σ e) : c * slope σ x e = slope σ x e := by
  rcases h with rfl | ⟨rfl, hvalue⟩
  · rw [one_mul]
  · rw [slope_eq_zero hr hd fun t => hvalue _, mul_zero]

/-- The derivative of a first power. -/
theorem denotes_constantPower_one {b db : Expr} (hb : RationalForm b)
    (hd : Defined σ b) (hcd : Expr.Canonical db) (hdb : Denotes σ db (slope σ x b))
    (hexact : ExactPowers (constantPower b (.const 1) db)) :
    Denotes σ (evaluated (constantPower b (.const 1) db)) (slope σ x b) := by
  have hE := canonical_constantPower (n := 1) hb.canonical hcd
  rw [constantPower, const_sub_one, sub_self] at hE hexact ⊢
  obtain ⟨h0, hzero⟩ | ⟨hu, hone⟩ | ⟨gs, rest, hgs, hperm, hdefined, hprod⟩ :=
    productOf_factor (u := Expr.power b (.const 0)) rfl rfl hdb.defined
  · rw [h0, evaluated_const, ← hdb.value_eq, hzero]
    exact ⟨.const 0, value_const 0⟩
  · rw [hu] at hexact ⊢
    obtain ⟨c, heval, hzeroth⟩ := exists_evaluated_power_zero hb.canonical hexact
    rw [heval, ← zerothPower_mul_slope hzeroth hb.rational hd, ← hdb.value_eq, hone, mul_one]
    exact ⟨.const c, value_const c⟩
  · rw [hgs] at hE hexact ⊢
    have hmem := hperm.mem_iff.mpr List.mem_cons_self
    obtain ⟨c, heval, hzeroth⟩ :=
      exists_evaluated_power_zero hb.canonical (hexact.of_subVisit (.factor hmem))
    have hproduct := denotes_product_of_const_factor hE hexact hperm heval hdefined
    rwa [hprod, hdb.value_eq, zerothPower_mul_slope hzeroth hb.rational hd] at hproduct

/-- The derivative of any other power. -/
theorem denotes_constantPower {b db : Expr} {n : Rat} (hd : Defined σ (Expr.power b (.const n)))
    (h1 : n ≠ 1) (hdb : Denotes σ db (slope σ x b)) :
    Denotes σ (constantPower b (.const n) db)
      (n * value σ b ^ (n.num - 1) * slope σ x b) := by
  cases hd with
  | binary hop _ _ => cases hop
  | power hb hn h0 hneg =>
    obtain ⟨i, rfl⟩ := exists_int_of_isInteger hn
    have hi : ((i : Rat) - 1) = ((i - 1 : Int) : Rat) := by push_cast; rfl
    have hpow : Defined σ (Expr.power b (.const (i - 1))) := by
      refine .power hb (hi ▸ isInteger_intCast _) (sub_ne_zero.mpr h1) fun hlt => hneg ?_
      rw [hi, Int.cast_lt_zero] at hlt
      have hne : i ≠ 0 := by exact_mod_cast h0
      exact_mod_cast (by omega : i < 0)
    have hproduct := denotes_productOf (List.forall_mem_cons.mpr ⟨.const (i : Rat),
      List.forall_mem_cons.mpr ⟨hpow, List.forall_mem_singleton.mpr hdb.defined⟩⟩)
    rw [List.map_cons, List.map_cons, List.map_singleton, List.prod_cons, List.prod_cons,
      List.prod_singleton, value_const, value_power, hdb.value_eq, hi, Rat.num_intCast,
      ← mul_assoc] at hproduct
    rw [constantPower, const_sub_one, hi, Rat.num_intCast]
    exact hproduct

/-! ### The whole differentiation -/

/-- Where the visit ends at once, its result has the slope as its value. -/
theorem denotes_guarded {e r : Expr} (he : RationalForm e) (hd : Defined σ e)
    (hgo : ¬ (e == symbol x || !e.dependsOn (symbol x)) = true → Denotes σ r (slope σ x e)) :
    Denotes σ (if e == symbol x then .one else if !e.dependsOn (symbol x) then .zero else r)
      (slope σ x e) := by
  split
  · next hself =>
    rw [eq_of_beq he.canonical.plain rfl hself, symbol, slope_var, if_pos rfl]
    exact ⟨.const 1, value_const 1⟩
  · next hself =>
    split
    · next hfree =>
      rw [slope_of_free he.rational hd (by simpa using hfree)]
      exact ⟨.const 0, value_const 0⟩
    · next hdep => exact hgo (by simp [hself, hdep])

/-- **The derivative denotes the slope**, if the intermediate results are evaluated exactly. -/
theorem denotes_derived {e : Expr} (he : RationalForm e) (hd : Defined σ e)
    (hexact : ∀ E ∈ settled (symbol x) e, ExactPowers E) :
    Denotes σ (derived (symbol x) e) (slope σ x e) := by
  obtain ⟨hr, hc⟩ := he
  induction hr with
  | const q =>
    unfold derived
    exact denotes_guarded ⟨.const q, hc⟩ hd fun h => absurd rfl h
  | var n =>
    unfold derived
    refine denotes_guarded ⟨.var n, hc⟩ hd fun h => absurd ?_ h
    rw [beq_symbol, dependsOn_var, Bool.or_not_self]
  | @sum ts hts ih =>
    unfold settled at hexact
    unfold derived
    refine denotes_guarded ⟨.sum hts, hc⟩ hd fun hgo => ?_
    rw [if_neg hgo] at hexact
    obtain ⟨hdefined, hsum⟩ := denotes_derivedTerms fun t ht =>
      ih t ht (hd.of_terms t ht) (fun E hE => hexact E (mem_settledTerms hE ht)) (hc.of_sum t ht)
    rw [slope_sum, ← hsum]
    exact denotes_sumOf hdefined
  | @product fs hfs ih =>
    have hform : RationalForm (.product fs) := ⟨.product hfs, hc⟩
    unfold settled at hexact
    unfold derived
    refine denotes_guarded hform hd fun hgo => ?_
    rw [if_neg hgo] at hexact
    refine denotes_derivedProduct hform.of_product hd.of_factors (fun f hf => ?_) hexact
    exact ih f hf (hd.of_factors f hf) (fun E hE => hexact E (mem_settledProduct hE hf))
      (hc.of_product f hf)
  | @power b n hb hn h0 ih =>
    unfold power settled at hexact
    unfold power derived
    refine denotes_guarded ⟨.power hb hn h0, hc⟩ hd fun hgo => ?_
    rw [if_neg hgo] at hexact
    obtain ⟨hE, hinner⟩ := List.forall_mem_cons.mp hexact
    obtain ⟨hcb, -⟩ := hc.of_binary
    have hdb : Defined σ b := (Defined.of_power hd).choose_spec.2.1
    have hslope := ih hdb hinner hcb
    have hcd := canonical_derived (symbol x) ⟨hb, hcb⟩
    have hpower := slope_power (x := x) hb hd
    by_cases h1 : n = 1
    · subst h1
      have hone : slope σ x (Expr.power b (.const 1)) = slope σ x b := by
        rw [hpower, Rat.num_ofNat, sub_self, zpow_zero, one_mul, one_mul]
      exact hone ▸ denotes_constantPower_one ⟨hb, hcb⟩ hdb hcd hslope hE
    · have hproduct := denotes_constantPower hd h1 hslope
      have heval := denotes_evaluated (canonical_constantPower hcb hcd) hE hproduct.defined
      rw [hproduct.value_eq, ← hpower] at heval
      exact heval

end Slope

/-! ## Exact powers

Within a bound on the degrees all intermediate results are evaluated exactly. The zeroth power in the
derivative of a first power has no value where the base is `0`, so that it is not covered by
`exactPowers_of_degree_le`. -/

mutual

/-- A bound for the degrees of the derivative and of the intermediate results. -/
def slopeDegree : Expr → Nat
  | .sum ts => largestSlopeDegree ts + 1
  | .product fs => productSlopeDegree fs
  | .binary .power b (.const n) => magnitude (n - 1) * b.exponentBound + slopeDegree b
  | _ => 0

/-- The largest bound of a list. -/
def largestSlopeDegree : List Expr → Nat
  | [] => 0
  | t :: ts => max (slopeDegree t) (largestSlopeDegree ts)

/-- The bound for the product rule. -/
def productSlopeDegree : List Expr → Nat
  | [] => 0
  | l :: rest =>
    max (slopeDegree l + (rest.map degree).sum) (l.degree + productSlopeDegree rest) + 1

end

theorem slopeDegree_le_largest {t : Expr} : ∀ {ts : List Expr}, t ∈ ts →
    slopeDegree t ≤ largestSlopeDegree ts
  | u :: ts, ht => by
    rw [largestSlopeDegree]
    rcases List.mem_cons.mp ht with rfl | ht
    · exact le_max_left _ _
    · exact (slopeDegree_le_largest ht).trans (le_max_right _ _)

theorem slopeDegree_le_product {f : Expr} : ∀ {fs : List Expr}, f ∈ fs →
    slopeDegree f ≤ productSlopeDegree fs
  | l :: rest, hf => by
    rw [productSlopeDegree]
    rcases List.mem_cons.mp hf with rfl | hf
    · exact (Nat.le_add_right _ _).trans (Nat.le_succ_of_le (le_max_left _ _))
    · refine (slopeDegree_le_product hf).trans (Nat.le_succ_of_le ?_)
      exact (Nat.le_add_left _ _).trans (le_max_right _ _)

theorem degree_derivedTerms_le {x : Expr} {N : Nat} : ∀ {ts : List Expr},
    (∀ t ∈ ts, (derived x t).degree ≤ N) → ∀ u ∈ derivedTerms x ts, u.degree ≤ N
  | [], _ => by simp [derivedTerms]
  | t :: ts, h => by
    obtain ⟨ht, hts⟩ := List.forall_mem_cons.mp h
    rw [derivedTerms]
    split
    · exact degree_derivedTerms_le hts
    · exact List.forall_mem_cons.mpr ⟨ht, degree_derivedTerms_le hts⟩

theorem degree_productRule_le {x l dl dr : Expr} {rest : List Expr} :
    (productRule x l rest dl dr).degree ≤
      max (dl.degree + (rest.map degree).sum) (l.degree + dr.degree) + 1 := by
  have hright : (productOf [l, dr]).degree ≤ l.degree + dr.degree := by
    simpa using degree_productOf_le [l, dr]
  unfold productRule
  split
  · have hleft := degree_productOf_le (dl :: rest)
    rw [List.map_cons, List.sum_cons] at hleft
    refine (degree_le_exponentBound _).trans (exponentBound_sumOf_le ?_)
    exact List.forall_mem_cons.mpr ⟨hleft.trans (le_max_left _ _),
      List.forall_mem_singleton.mpr (hright.trans (le_max_right _ _))⟩
  · exact hright.trans (Nat.le_succ_of_le (le_max_right _ _))

theorem degree_constantPower_le (b db : Expr) (n : Rat) :
    (constantPower b (.const n) db).degree ≤ magnitude (n - 1) * b.exponentBound + db.degree := by
  rw [constantPower, const_sub_one]
  simpa using degree_productOf_le [.const n, Expr.power b (.const (n - 1)), db]

section Exact

variable {σ : String → Rat} {x : String}

/-- The evaluation of `e` is exact and does not exceed the bound. -/
structure Settled (N : Nat) (e : Expr) : Prop where
  exact : ExactPowers e
  degree_le : (evaluated e).degree ≤ N

theorem settled_of_degree_le {e : Expr} {N : Nat} (he : Expr.Canonical e) (hd : Defined σ e)
    (hle : e.degree ≤ N) (hN : N ≤ Rational.maxExactExponent) : Settled N e :=
  ⟨exactPowers_of_degree_le he hd (hle.trans hN),
    (sound_of_degree_le he hd (hle.trans hN)).bounded.degree_le.trans hle⟩

/-- The derivative of a first power. -/
theorem settled_constantPower_one {b db : Expr} {N : Nat} (hc : Expr.Canonical b)
    (hd : Defined σ b) (hdegree : b.degree ≤ Rational.maxExactExponent) (hcd : Expr.Canonical db)
    (hdd : Defined σ db) (hle : db.degree ≤ N) (hN : N ≤ Rational.maxExactExponent) :
    Settled N (constantPower b (.const 1) db) := by
  have hE := canonical_constantPower (n := 1) hc hcd
  have hzeroth := exactPowers_power_zero hc hd hdegree
  have hsum := (degree_constantPower_le b db 1).trans
    (show magnitude (1 - 1) * b.exponentBound + db.degree ≤ N by simpa [magnitude] using hle)
  rw [constantPower, const_sub_one, sub_self] at hE hsum ⊢
  obtain ⟨h0, -⟩ | ⟨hu, -⟩ | ⟨gs, rest, hgs, hperm, hdefined, -⟩ :=
    productOf_factor (u := Expr.power b (.const 0)) rfl rfl hdd
  · rw [h0]
    exact settled_of_degree_le (.const 0) (show Defined σ (.const 0) from .const 0) (Nat.zero_le _) hN
  · obtain ⟨c, heval, -⟩ := exists_evaluated_power_zero hc hzeroth
    rw [hu]
    exact ⟨hzeroth, by rw [heval]; exact Nat.zero_le _⟩
  · obtain ⟨c, heval, -⟩ := exists_evaluated_power_zero hc hzeroth
    rw [hgs] at hE hsum ⊢
    have hrest : (rest.map degree).sum ≤ N := by
      refine le_trans ?_ hsum
      rw [degree_product, (hperm.map degree).sum_eq, List.map_cons, List.sum_cons]
      exact Nat.le_add_left _ _
    exact ⟨exactPowers_product_of_const_factor hE hperm heval hzeroth hdefined (hrest.trans hN),
      (degree_product_of_const_factor_le hE hperm heval hdefined (hrest.trans hN)).trans hrest⟩

theorem settled_constantPower {b db : Expr} {n : Rat} {N : Nat} (hc : Expr.Canonical b)
    (hd : Defined σ (Expr.power b (.const n))) (hdegree : b.degree ≤ Rational.maxExactExponent)
    (hcd : Expr.Canonical db) (hdb : Denotes σ db (slope σ x b))
    (hle : magnitude (n - 1) * b.exponentBound + db.degree ≤ N)
    (hN : N ≤ Rational.maxExactExponent) : Settled N (constantPower b (.const n) db) := by
  by_cases h1 : n = 1
  · subst h1
    have hdb' : Defined σ b := (Defined.of_power hd).choose_spec.2.1
    exact settled_constantPower_one hc hdb' hdegree hcd hdb.defined
      ((Nat.le_add_left _ _).trans hle) hN
  · exact settled_of_degree_le (canonical_constantPower hc hcd)
      (denotes_constantPower hd h1 hdb).defined ((degree_constantPower_le b db n).trans hle) hN

/-- The differentiation of `e` is exact, and the derivative does not exceed the bound. -/
structure Exact (x e : Expr) : Prop where
  exact : ∀ E ∈ settled x e, ExactPowers E
  degree_le : (derived x e).degree ≤ slopeDegree e

/-- It is enough to look at the visits that do not end at once. -/
theorem Exact.of_guarded {e r : Expr} {Es : List Expr}
    (hsettled : settled (symbol x) e =
      if e == symbol x || !e.dependsOn (symbol x) then [] else Es)
    (hderived : derived (symbol x) e =
      if e == symbol x then .one else if !e.dependsOn (symbol x) then .zero else r)
    (h : (∀ E ∈ Es, ExactPowers E) ∧ r.degree ≤ slopeDegree e) : Exact (symbol x) e := by
  constructor
  · rw [hsettled]
    split
    · simp
    · exact h.1
  · rw [hderived]
    split
    · exact Nat.zero_le _
    · split
      · exact Nat.zero_le _
      · exact h.2

theorem exact_derivedProduct : ∀ {fs : List Expr}, (∀ f ∈ fs, RationalForm f) →
    (∀ f ∈ fs, Defined σ f) → (∀ f ∈ fs, Exact (symbol x) f) →
    productSlopeDegree fs ≤ Rational.maxExactExponent →
      (∀ E ∈ settledProduct (symbol x) fs, ExactPowers E) ∧
        (derivedProduct (symbol x) fs).degree ≤ productSlopeDegree fs
  | [], _, _, _, _ => ⟨by simp [settledProduct], Nat.zero_le _⟩
  | [l], _, _, h, _ => by
    obtain ⟨hexact, hdegree⟩ := h l List.mem_cons_self
    refine ⟨hexact, hdegree.trans (slopeDegree_le_product List.mem_cons_self)⟩
  | l :: r :: rs, hf, hd, h, hle => by
    obtain ⟨hfl, hfr⟩ := List.forall_mem_cons.mp hf
    obtain ⟨hdl, hdr⟩ := List.forall_mem_cons.mp hd
    obtain ⟨hl, hrest⟩ := List.forall_mem_cons.mp h
    rw [productSlopeDegree] at hle
    have hsub : productSlopeDegree (r :: rs) ≤ Rational.maxExactExponent := by omega
    obtain ⟨hinner, hdegree⟩ := exact_derivedProduct hfr hdr hrest hsub
    have hslope := denotes_derived hfl hdl hl.exact
    have hslopes := denotes_derivedProduct hfr hdr
      (fun f hm => denotes_derived (hfr f hm) (hdr f hm) (hrest f hm).exact) hinner
    have hrule := denotes_productRule hfl.rational hdl hdr hslope hslopes rfl
    have hbound : (productRule (symbol x) l (r :: rs) (derived (symbol x) l)
        (derivedProduct (symbol x) (r :: rs))).degree ≤ productSlopeDegree (l :: r :: rs) := by
      rw [productSlopeDegree]
      refine degree_productRule_le.trans (Nat.succ_le_succ (max_le_max ?_ ?_))
      · exact Nat.add_le_add_right hl.degree_le _
      · exact Nat.add_le_add_left hdegree _
    obtain ⟨hexact, hsettled⟩ := settled_of_degree_le (canonical_productRule_derived (symbol x) hf)
      hrule.defined hbound hle
    rw [settledProduct, derivedProduct]
    exact ⟨List.forall_mem_cons.mpr ⟨hexact, fun E hE =>
      (List.mem_append.mp hE).elim (hl.exact E) (hinner E)⟩, hsettled⟩

/-- **Within the bounds all intermediate results are exact.** -/
theorem exact_of_degree_le {e : Expr} (he : RationalForm e) (hd : Defined σ e)
    (hdegree : e.degree ≤ Rational.maxExactExponent)
    (hslope : slopeDegree e ≤ Rational.maxExactExponent) : Exact (symbol x) e := by
  obtain ⟨hr, hc⟩ := he
  induction hr with
  | const q =>
    exact .of_guarded (by unfold settled; rfl) (by unfold derived; rfl) ⟨by simp, Nat.zero_le _⟩
  | var n =>
    exact .of_guarded (by unfold settled; rfl) (by unfold derived; rfl) ⟨by simp, Nat.zero_le _⟩
  | @sum ts hts ih =>
    obtain ⟨N, hN⟩ : ∃ N, Rational.maxExactExponent = N + 1 := ⟨4095, rfl⟩
    have hterm (t : Expr) (ht : t ∈ ts) : Exact (symbol x) t := by
      refine ih t ht (hd.of_terms t ht) ?_ ?_ (hc.of_sum t ht)
      · exact (degree_sum_le.mp (hdegree.trans_eq hN) t ht).trans (by omega)
      · rw [slopeDegree] at hslope
        exact (slopeDegree_le_largest ht).trans (by omega)
    refine .of_guarded (by unfold settled; rfl) (by unfold derived; rfl) ⟨fun E hE => ?_, ?_⟩
    · obtain ⟨t, ht, hE⟩ := exists_of_mem_settledTerms hE
      exact (hterm t ht).exact E hE
    · rw [slopeDegree]
      refine (degree_le_exponentBound _).trans (exponentBound_sumOf_le ?_)
      exact degree_derivedTerms_le fun t ht =>
        (hterm t ht).degree_le.trans (slopeDegree_le_largest ht)
  | @product fs hfs ih =>
    have hform : RationalForm (.product fs) := ⟨.product hfs, hc⟩
    rw [slopeDegree] at hslope
    have hfactor (f : Expr) (hf : f ∈ fs) : Exact (symbol x) f := by
      exact ih f hf (hd.of_factors f hf) ((degree_of_mem_factors hf).trans hdegree)
        ((slopeDegree_le_product hf).trans hslope) (hc.of_product f hf)
    refine .of_guarded (by unfold settled; rfl) (by unfold derived; rfl) ?_
    rw [slopeDegree]
    exact exact_derivedProduct hform.of_product hd.of_factors hfactor hslope
  | @power b n hb hn h0 ih =>
    obtain ⟨hcb, -⟩ := hc.of_binary
    obtain ⟨_, heq, hdb, hle⟩ := Defined.of_power hd
    cases heq
    have hbase : slopeDegree (Expr.power b (.const n)) =
        magnitude (n - 1) * b.exponentBound + slopeDegree b := by rw [Expr.power, slopeDegree]
    rw [hbase] at hslope
    obtain ⟨hinner, hdb_le⟩ := ih hdb (hle.trans hdegree) (by omega) hcb
    obtain ⟨hexact, hsettled⟩ := settled_constantPower hcb hd (hle.trans hdegree)
      (canonical_derived (symbol x) ⟨hb, hcb⟩) (denotes_derived ⟨hb, hcb⟩ hdb hinner)
      (Nat.add_le_add_left hdb_le _) hslope
    refine .of_guarded (by unfold settled Expr.power; rfl) (by unfold derived Expr.power; rfl) ?_
    rw [hbase]
    exact ⟨List.forall_mem_cons.mpr ⟨hexact, hinner⟩, hsettled⟩

end Exact

/-- What the differentiation of `f` evaluates: the intermediate results and the derivative. -/
def settlements (x f : Expr) : List Expr :=
  settled x f ++ [derived x f]

end Derivative

open Derivative Expr Evaluator

theorem differentiate_eq {f : Expr} (hf : RationalForm f) (x : String) (ctx : Context) :
    differentiate f (symbol x) ctx = .ok (evaluated (derived (symbol x) f)) := by
  have hrun := run_visit (s := ⟨ctx, symbol x, .mk fun _ => Derivative.rules ctx⟩) rfl hf []
  unfold differentiate
  dsimp only
  rw [hrun]
  change Except.ok ((derived (symbol x) f).evaluateHolding [] ctx) = _
  rw [evaluateHolding_eq (canonical_derived (symbol x) hf)]

/-- **Differentiation computes the derivative of rational expressions.** The result has a value
wherever `f` has one, and it is the part at `ε` of `f` at `x + ε`, provided that the powers of
constants computed on the way are exact; and they are exact for an expression whose degree and
`slopeDegree` are at most `Rational.maxExactExponent`. -/
theorem differentiate_dualValue {σ : String → Rat} {f : Expr} (hf : RationalForm f)
    (hd : Defined σ f) (x : String) :
    ((∀ e ∈ settlements (symbol x) f, ExactPowers e) → ∀ ctx : Context, ∃ df d,
      differentiate f (symbol x) ctx = .ok df ∧ Denotes σ df d ∧
        dualValue σ x f = TrivSqZeroExt.inl (value σ f) + d • DualNumber.eps) ∧
    (f.degree ≤ Rational.maxExactExponent → slopeDegree f ≤ Rational.maxExactExponent →
      ∀ e ∈ settlements (symbol x) f, ExactPowers e) := by
  have hcanon := canonical_derived (symbol x) hf
  constructor
  · intro hexact ctx
    have hslope := denotes_derived hf hd fun e he => hexact e (List.mem_append_left _ he)
    have heval := denotes_evaluated hcanon
      (hexact _ (List.mem_append_right _ (List.mem_singleton_self _))) hslope.defined
    rw [hslope.value_eq] at heval
    exact ⟨_, _, differentiate_eq hf x ctx, heval, dualValue_eq hf.rational⟩
  · intro hdegree hslopes e he
    obtain ⟨hexact, hle⟩ := exact_of_degree_le (x := x) hf hd hdegree hslopes
    rcases List.mem_append.mp he with he | he
    · exact hexact e he
    · rw [List.mem_singleton.mp he]
      exact exactPowers_of_degree_le hcanon (denotes_derived hf hd hexact).defined
        (hle.trans hslopes)

/-- The derivative of `(1 + x) ^ -2` at `x = 1`. -/
theorem differentiate_inverseSquare : ∃ df,
    differentiate (power (.sum [.const 1, symbol "x"]) (.const (-2))) (symbol "x")
      (.inert .standard) = .ok df ∧ Denotes (fun _ => 1) df (-1 / 4) := by
  have hrational : IsRational (.sum [.const 1, symbol "x"]) :=
    .sum (List.forall_mem_cons.mpr ⟨.const 1, List.forall_mem_singleton.mpr (.var "x")⟩)
  have hcanon : Canonical (.sum [.const 1, symbol "x"]) :=
    .sum (List.forall_mem_cons.mpr ⟨.const 1, List.forall_mem_singleton.mpr (.var "x")⟩) (by cbv)
  have hbase : Denotes (fun _ => 1) (.sum [.const 1, symbol "x"]) 2 :=
    ⟨.sum (List.forall_mem_cons.mpr
      ⟨.const 1, List.forall_mem_singleton.mpr (.var "x" none)⟩), by norm_num [symbol]⟩
  have hd : Defined (fun _ => 1) (power (.sum [.const 1, symbol "x"]) (.const (-2))) :=
    .power hbase.defined rfl (by norm_num) fun _ => by rw [hbase.value_eq]; norm_num
  have hform : RationalForm (power (.sum [.const 1, symbol "x"]) (.const (-2))) :=
    ⟨.power hrational rfl (by norm_num), hcanon.power (.const (-2))⟩
  obtain ⟨hderivative, hexact⟩ := differentiate_dualValue hform hd "x"
  obtain ⟨df, d, hdf, hdenotes, hdual⟩ := hderivative (hexact (by decide) (by decide +kernel)) _
  have hslope : d = slope (fun _ => 1) "x" (power (.sum [.const 1, symbol "x"]) (.const (-2))) := by
    rw [Expr.slope, hdual]
    simp
  rw [slope_power hrational hd, hbase.value_eq, slope_sum] at hslope
  refine ⟨df, hdf, ?_⟩
  convert hdenotes using 1
  rw [hslope]
  norm_num [symbol, slope_var]

end SymbolicAlgebra
