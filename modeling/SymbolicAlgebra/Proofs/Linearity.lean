import SymbolicAlgebra.Calculus.LinearOperator
import SymbolicAlgebra.Proofs.Factoring
import SymbolicAlgebra.Proofs.Replacement
import SymbolicAlgebra.Proofs.Slope

/-!
# Linear operators

The reductions by linearity are sound for every linear operator on partial functions. An expression
denotes a function of `x` that has no value where a denominator vanishes; the calls `W[e]` that the
reductions leave over are interpreted as the operator applied to the function that `e` denotes
(`interpret`). The reduced form then has the value of the operator applied to the function that was
given, wherever that has one. It may have more: factoring can cancel a denominator, so the function
that is left under the operator may have values where the given one has none.

The step lemma covers one reduction whose visits are sound. What a reduction takes out is a constant
`c`, and what it leaves is a function `G` such that the function it was given is `c * G` wherever it
has a value; a linear operator respects that (`IsLinear.exists_of_le`).

Results:
* `denotes_of_value?`: a rational expression has a value exactly where it is defined.
* `isRational_factorTo`: the factors of a rational expression are rational.
* `Reduces.represents`: one reduction is sound if its visits are.
* `interpret_linearForm`: the reduced form is sound for every linear operator.
-/

namespace SymbolicAlgebra

open Expr Evaluator

/-! ## Operators on partial functions -/

/-- An operator on partial functions that is additive and that constants commute with. -/
structure IsLinear (W : (Rat → Option Rat) → Rat → Option Rat) : Prop where
  map_add : ∀ F G : Rat → Option Rat, W (fun u => Option.map₂ (· + ·) (F u) (G u)) =
    fun u => Option.map₂ (· + ·) (W F u) (W G u)
  map_mul : ∀ (c : Rat) (F : Rat → Option Rat),
    W (fun u => (F u).map (c * ·)) = fun u => (W F u).map (c * ·)

namespace IsLinear

variable {W : (Rat → Option Rat) → Rat → Option Rat} (hW : IsLinear W) {F G : Rat → Option Rat}
  {c u v : Rat}
include hW

/-- The operator of a function that is `c * G` wherever it has a value: the difference to `c * G` is
the function times `0`. -/
theorem exists_of_le (hle : ∀ u v, F u = some v → ∃ w, G u = some w ∧ c * w = v)
    (h : W F u = some v) : ∃ w, W G u = some w ∧ c * w = v := by
  have hsplit : F = fun u => Option.map₂ (· + ·) ((G u).map (c * ·)) ((F u).map (0 * ·)) := by
    funext u
    cases hF : F u with
    | none => rw [Option.map_none, Option.map₂_none_right]
    | some v =>
      obtain ⟨w, hG, rfl⟩ := hle u v hF
      rw [hG, Option.map_some, Option.map_some, Option.map₂_some_some, zero_mul, add_zero]
  have hv : Option.map₂ (· + ·) ((W G u).map (c * ·)) ((W F u).map (0 * ·)) = some v := by
    rw [hsplit, hW.map_add, hW.map_mul, hW.map_mul] at h
    exact h
  rw [h, Option.map_some, zero_mul] at hv
  obtain ⟨a, b, ha, hb, rfl⟩ := Option.map₂_eq_some_iff.mp hv
  obtain ⟨w, hw, rfl⟩ := Option.map_eq_some_iff.mp ha
  obtain rfl := Option.some.inj hb
  exact ⟨w, hw, (add_zero _).symm⟩

theorem map_zero (h : W (fun _ => some 0) u = some v) : v = 0 := by
  have hzero := congrFun (hW.map_mul 0 fun _ => some 0) u
  rw [h] at hzero
  simpa [h] using hzero

end IsLinear

namespace Expr

/-! ## Functions of one variable -/

/-- The function of `x` that an expression denotes with the other variables fixed. -/
def functionOf (ρ : String → Rat) (x : String) (e : Expr) : Rat → Option Rat :=
  fun u => value? (some ∘ Function.update ρ x u) e

mutual

/-- The value of an expression in which `W[e]` stands for the operator applied to the function of `x`
that `e` denotes. -/
def interpret (W : (Rat → Option Rat) → Rat → Option Rat) (ρ : String → Rat) (x : String) :
    Expr → Option Rat
  | const q => some q
  | var n _ => some (ρ n)
  | sum ts => (interprets W ρ x ts).map List.sum
  | product fs => (interprets W ρ x fs).map List.prod
  | binary op l r =>
    (interpret W ρ x l).bind fun a => (interpret W ρ x r).bind fun b => op.value? a b
  | not a => (interpret W ρ x a).map fun v => truth (v == 0)
  | call (.user name _ none) [e] => if name = "W" then W (functionOf ρ x e) (ρ x) else none
  | call .. => none
  | set _ => none

/-- The values of a list, if all items have one. -/
def interprets (W : (Rat → Option Rat) → Rat → Option Rat) (ρ : String → Rat) (x : String) :
    List Expr → Option (List Rat)
  | [] => some []
  | t :: ts => (interpret W ρ x t).bind fun v => (interprets W ρ x ts).map (v :: ·)

end

variable {W : (Rat → Option Rat) → Rat → Option Rat} {σ ρ : String → Rat} {x : String} {ctx : Context}
  {e r : Expr} {u v : Rat}

theorem interprets_eq_some_iff {ts : List Expr} {vs : List Rat} :
    interprets W ρ x ts = some vs ↔ ts.map (interpret W ρ x) = vs.map some :=
  eq_some_iff_of_cons (by rw [interprets]) fun t ts => by rw [interprets]

theorem compositional_interpret : Compositional (interpret W ρ x) where
  const q := by rw [interpret]
  sum {ts v} := by
    rw [interpret, Option.map_eq_some_iff]
    simp only [interprets_eq_some_iff]
  product {fs v} := by
    rw [interpret, Option.map_eq_some_iff]
    simp only [interprets_eq_some_iff]

theorem interpret_operator (e : Expr) :
    interpret W ρ x (undefinedCall "W" [e]) = W (functionOf ρ x e) (ρ x) := by
  rw [undefinedCall, Function.undefined, interpret, if_pos rfl]

/-- Values without the operator stay. -/
theorem interpret_of_value? (h : value? (some ∘ ρ) e = some v) : interpret W ρ x e = some v := by
  have list {xs : List Expr} {vs : List Rat} (ih : ∀ x' ∈ xs, ∀ {v}, value? (some ∘ ρ) x' = some v →
      interpret W ρ x x' = some v) (h : xs.map (value? (some ∘ ρ)) = vs.map some) :
      xs.map (interpret W ρ x) = vs.map some := by
    rw [← h]
    refine List.map_congr_left fun y hy => ?_
    obtain ⟨v, -, hv⟩ := List.mem_map.mp (h ▸ List.mem_map_of_mem hy)
    rw [← hv]
    exact ih y hy hv.symm
  induction e using inductionOn generalizing v with
  | const q =>
    rw [value?] at h
    rwa [interpret]
  | var n c =>
    rw [value?] at h
    rwa [interpret]
  | sum ts ih =>
    obtain ⟨vs, hvs, rfl⟩ := (compositional_value? _).sum.mp h
    exact compositional_interpret.sum.mpr ⟨vs, list ih hvs, rfl⟩
  | product fs ih =>
    obtain ⟨vs, hvs, rfl⟩ := (compositional_value? _).product.mp h
    exact compositional_interpret.product.mpr ⟨vs, list ih hvs, rfl⟩
  | binary op l r ihl ihr =>
    rw [value?] at h
    obtain ⟨p, hl, h⟩ := Option.bind_eq_some_iff.mp h
    obtain ⟨q, hr, h⟩ := Option.bind_eq_some_iff.mp h
    rw [interpret, ihl hl, ihr hr, Option.bind_some, Option.bind_some, h]
  | not a ih =>
    rw [value?] at h
    obtain ⟨p, ha, rfl⟩ := Option.map_eq_some_iff.mp h
    rw [interpret, ih ha]
    rfl
  | call f args _ => cases h
  | set ms _ => cases h

theorem interpret_of_denotes (h : Denotes ρ e v) : interpret W ρ x e = some v :=
  interpret_of_value? (value?_of_denotes h)

/-- **A rational expression has a value only where it is defined.** -/
theorem denotes_of_value? (he : IsRational e) (h : value? (some ∘ σ) e = some v) : Denotes σ e v := by
  have list {xs : List Expr} {vs : List Rat} (ih : ∀ x ∈ xs, ∀ {v}, value? (some ∘ σ) x = some v →
      Denotes σ x v) (h : xs.map (value? (some ∘ σ)) = vs.map some) :
      (∀ x ∈ xs, Defined σ x) ∧ xs.map (value σ) = vs := by
    obtain ⟨hsome, rfl⟩ := map_eq_map_some_iff.mp h
    have hdenotes : ∀ x ∈ xs, Denotes σ x ((value? (some ∘ σ) x).getD 0) := fun x hx =>
      ih x hx (Option.getD_of_ne_none (Option.isSome_iff_ne_none.mp (hsome x hx)) 0).symm
    exact ⟨fun x hx => (hdenotes x hx).defined,
      List.map_congr_left fun x hx => (hdenotes x hx).value_eq⟩
  induction he generalizing v with
  | const q =>
    rw [value?] at h
    exact ⟨.const q, (value_const q).trans (Option.some.inj h)⟩
  | var n =>
    rw [value?] at h
    exact ⟨.var n none, (value_var n none).trans (Option.some.inj h)⟩
  | sum _ ih =>
    obtain ⟨vs, hvs, rfl⟩ := (compositional_value? _).sum.mp h
    obtain ⟨hd, rfl⟩ := list ih hvs
    exact ⟨.sum hd, value_sum _⟩
  | product _ ih =>
    obtain ⟨vs, hvs, rfl⟩ := (compositional_value? _).product.mp h
    obtain ⟨hd, rfl⟩ := list ih hvs
    exact ⟨.product hd, value_product _⟩
  | @power b n _ hn h0 ih =>
    rw [power, value?] at h
    obtain ⟨p, hb, h⟩ := Option.bind_eq_some_iff.mp h
    obtain ⟨hd, rfl⟩ := ih hb
    rw [value?, Option.bind_some, BinaryOp.value?] at h
    split at h
    · next hmeant =>
      refine ⟨.power hd hn h0 fun hlt => ?_, (value_power b n).trans (Option.some.inj h)⟩
      simpa [not_le.mpr hlt] using (Bool.and_eq_true_iff.mp hmeant).2
    · cases h

theorem functionOf_eq_some_iff (he : IsRational e) :
    functionOf ρ x e u = some v ↔ Denotes (Function.update ρ x u) e v :=
  ⟨denotes_of_value? he, value?_of_denotes⟩

end Expr

/-! ## Factors -/

namespace Factorization

variable {ctx : Context} {ts : List Expr} {f : Expr}

theorem isRational_cofactor (x : Expr) {t : Expr} (ht : IsRational t) : IsRational (cofactor x t) :=
  isRational_productOf fun f hf => ht.of_factors f (List.mem_of_mem_eraseP hf)

theorem isRational_pulledOut {x : Expr} (hx : IsRational x) (hts : ∀ t ∈ ts, IsRational t) :
    IsRational (pulledOut x ts) := by
  have hcofactors : ∀ g ∈ (ts.filter fun t => t.factors.contains x).map (cofactor x), IsRational g :=
    List.forall_mem_map.mpr fun t ht => isRational_cofactor x (hts t (List.mem_of_mem_filter ht))
  have hproduct := isRational_productOf (forall_mem_pair hx (isRational_sumOf hcofactors))
  exact isRational_sumOf
    (List.forall_mem_cons.mpr ⟨hproduct, fun t ht => hts t (List.mem_of_mem_filter ht)⟩)

/-- **The factors of a rational expression are rational.** -/
theorem isRational_factorTo {depth : Nat} (hf : IsRational f) :
    IsRational (factorTo ctx depth none f) := by
  induction depth generalizing f with
  | zero => exact hf
  | succ depth ih =>
    cases hf with
    | const q => exact .const q
    | var n => exact .var n
    | product hfs =>
      rw [factorTo_product]
      exact isRational_productOf (List.forall_mem_map.mpr fun g hg => ih (hfs g hg))
    | power hb hn h0 =>
      rw [factorTo_power]
      exact isRational_productOf
        (List.forall_mem_map.mpr fun g hg => .power ((ih hb).of_factors g hg) hn h0)
    | @sum ts hts =>
      have hfactored : ∀ t ∈ ts.map (factorTo ctx depth none), IsRational t :=
        List.forall_mem_map.mpr fun t ht => ih (hts t ht)
      rw [factorTo_sum, factorTerms]
      dsimp only
      split
      · exact .sum hts
      · next e hpull =>
        obtain ⟨x, hx, rfl⟩ := exists_of_pullOut? hpull
        obtain ⟨t, ht, hxt⟩ := List.mem_flatMap.mp hx
        have hpulled := isRational_pulledOut ((hfactored t ht).of_factors x hxt) hfactored
        split
        · exact ih hpulled
        · exact hpulled

end Factorization

/-! ## Reductions -/

namespace LinearOperator

variable {ctx : Context} {isConstant : Expr → Bool} {visit leaf : Expr → Result Expr} {e r : Expr}

/-- The ways to reduce an expression by linearity. -/
inductive Reduces (ctx : Context) (isConstant : Expr → Bool) (visit leaf : Expr → Result Expr) :
    Expr → Expr → Prop
  | sum {ts rs : List Expr} : List.Forall₂ (fun t r => visit t = .ok r) ts rs →
    Reduces ctx isConstant visit leaf (.sum ts) (.sumOf rs)
  | product {fs : List Expr} {r : Expr} :
    visit (.productOf (fs.filter fun f => !isConstant f)) = .ok r →
    Reduces ctx isConstant visit leaf (.product fs) (.productOf (fs.filter isConstant ++ [r]))
  | power {b n r : Expr} :
    visit (.power (.productOf ((b.factor none ctx).factors.filter fun f => !isConstant f)) n) = .ok r →
    Reduces ctx isConstant visit leaf (.power b n)
      (.productOf [.power (.productOf ((b.factor none ctx).factors.filter isConstant)) n, r])
  | leaf {e r : Expr} : leaf e = .ok r → Reduces ctx isConstant visit leaf e r

theorem forall₂_of_visitTerms {ts rs : List Expr} (h : visitTerms visit ts = .ok rs) :
    List.Forall₂ (fun t r => visit t = .ok r) ts rs := by
  induction ts generalizing rs with
  | nil =>
    cases h
    exact .nil
  | cons t ts ih =>
    rw [visitTerms] at h
    cases ht : visit t with
    | error err => rw [ht] at h; cases h
    | ok r =>
      cases hts : visitTerms visit ts with
      | error err => rw [ht, hts] at h; cases h
      | ok rs' =>
        rw [ht, hts] at h
        cases h
        exact .cons ht (ih hts)

theorem reduces_of_reduce (h : reduce ctx isConstant visit leaf e = .ok r) :
    Reduces ctx isConstant visit leaf e r := by
  unfold reduce at h
  split at h
  · next ts =>
    cases hts : visitTerms visit ts with
    | error err => rw [hts] at h; cases h
    | ok rs =>
      rw [hts] at h
      cases h
      exact .sum (forall₂_of_visitTerms hts)
  · next fs =>
    rw [List.partition_eq_filter_filter] at h
    dsimp only at h
    split at h
    · exact .leaf h
    · cases hrest : visit (.productOf (fs.filter (not ∘ isConstant))) with
      | error err => rw [hrest] at h; cases h
      | ok s =>
        rw [hrest] at h
        cases h
        exact .product hrest
  · next b n =>
    rw [List.partition_eq_filter_filter] at h
    dsimp only at h
    split at h
    · split at h
      · exact .leaf h
      · cases hrest : visit (.power (.productOf
            ((b.factor none ctx).factors.filter (not ∘ isConstant))) n) with
        | error err => rw [hrest] at h; cases h
        | ok s =>
          rw [hrest] at h
          cases h
          exact .power hrest
    · exact .leaf h
  · exact .leaf h

/-! ## Soundness -/

variable {W : (Rat → Option Rat) → Rat → Option Rat} {ρ : String → Rat} {x : String}

/-- `r` has the value of the operator applied to the function that `e` denotes, where that has one. -/
def Represents (W : (Rat → Option Rat) → Rat → Option Rat) (ρ : String → Rat) (x : String)
    (e r : Expr) : Prop :=
  ∀ v, W (functionOf ρ x e) (ρ x) = some v → interpret W ρ x r = some v

theorem represents_undefinedCall (e : Expr) : Represents W ρ x e (undefinedCall "W" [e]) :=
  fun _ h => (interpret_operator e).trans h

/-- The operator is applied to the terms of a sum. -/
theorem represents_sum (hW : IsLinear W) {ts rs : List Expr}
    (h : List.Forall₂ (Represents W ρ x) ts rs) : Represents W ρ x (.sum ts) (.sumOf rs) := by
  have hterms : ∀ v, W (functionOf ρ x (.sum ts)) (ρ x) = some v →
      ∃ vs : List Rat, rs.map (interpret W ρ x) = vs.map some ∧ vs.sum = v := by
    induction h with
    | nil =>
      intro v hv
      have hzero : functionOf ρ x (.sum []) = fun _ => some 0 :=
        funext fun u => (compositional_value? _).sum.mpr ⟨[], rfl, rfl⟩
      rw [hzero] at hv
      exact ⟨[], rfl, (hW.map_zero hv).symm⟩
    | @cons t r ts rs ht _ ih =>
      intro v hv
      have hcons : functionOf ρ x (.sum (t :: ts)) = fun u =>
          Option.map₂ (· + ·) (functionOf ρ x t u) (functionOf ρ x (.sum ts) u) := by
        funext u
        rw [functionOf, functionOf, functionOf, value?, values?, value?]
        cases value? (some ∘ Function.update ρ x u) t with
        | none => rfl
        | some v => cases values? (some ∘ Function.update ρ x u) ts <;> rfl
      rw [hcons, hW.map_add] at hv
      obtain ⟨a, b, ha, hb, rfl⟩ := Option.map₂_eq_some_iff.mp hv
      obtain ⟨vs, hvs, rfl⟩ := ih b hb
      exact ⟨a :: vs, by rw [List.map_cons, List.map_cons, ht a ha, hvs], List.sum_cons⟩
  intro v hv
  obtain ⟨vs, hvs, rfl⟩ := hterms v hv
  exact compositional_interpret.sumOf hvs

/-- Constants are taken out: the function is the product of the constants and what the operator is
applied to, wherever it has a value. -/
theorem represents_product (hW : IsLinear W) {e g r : Expr} {cs : List Expr}
    (hcs : ∀ c ∈ cs, Defined ρ c)
    (hle : ∀ u v, functionOf ρ x e u = some v →
      ∃ w, functionOf ρ x g u = some w ∧ (cs.map (value ρ)).prod * w = v)
    (h : Represents W ρ x g r) : Represents W ρ x e (.productOf (cs ++ [r])) := by
  intro v hv
  obtain ⟨w, hw, rfl⟩ := hW.exists_of_le hle hv
  have hvalues : (cs ++ [r]).map (interpret W ρ x) = (cs.map (value ρ) ++ [w]).map some := by
    rw [List.map_append, List.map_append, List.map_map, List.map_singleton, h w hw]
    exact congrArg (· ++ [some w])
      (List.map_congr_left fun c hc => interpret_of_denotes ⟨hcs c hc, rfl⟩)
  rw [compositional_interpret.productOf hvalues, List.prod_append, List.prod_singleton]

/-- Whether an expression is a constant for an operator in `x`. -/
def constantIn (x : String) (e : Expr) : Bool :=
  !e.dependsOn (symbol x)

theorem value_update_of_constantIn (h : constantIn x e = true) (u : Rat) :
    value (Function.update ρ x u) e = value ρ e := by
  have hfree : e.dependsOnAny (symbol x).members = false := by simpa [constantIn, dependsOn] using h
  refine value_congr (fun y hy => Function.update_of_ne ?_ u ρ) hfree
  rintro rfl
  exact hy (List.mem_singleton_self _)

/-- The constants among some factors do not move with `x`. -/
theorem prod_constants_mul (fs : List Expr) (u : Rat) :
    ((fs.filter (constantIn x)).map (value ρ)).prod *
      ((fs.filter fun f => !constantIn x f).map (value (Function.update ρ x u))).prod =
    (fs.map (value (Function.update ρ x u))).prod := by
  have hconstants : (fs.filter (constantIn x)).map (value ρ) =
      (fs.filter (constantIn x)).map (value (Function.update ρ x u)) :=
    List.map_congr_left fun f hf =>
      (value_update_of_constantIn (List.mem_filter.mp hf).2 u).symm
  rw [hconstants, ← List.prod_append, ← List.map_append]
  exact ((List.filter_append_perm _ fs).map _).prod_eq

theorem denotes_productOf_filter {σ : String → Rat} {p : Expr → Bool} {fs : List Expr}
    (h : ∀ f ∈ fs, Defined σ f) :
    Denotes σ (.productOf (fs.filter p)) ((fs.filter p).map (value σ)).prod :=
  denotes_productOf fun f hf => h f (List.mem_of_mem_filter hf)

/-- A power of some of the factors of the base is defined where the power of the base is. -/
theorem denotes_power_filter {σ : String → Rat} {p : Expr → Bool} {fs : List Expr} {b : Expr} {n : Rat}
    (hd : Defined σ (.power b (.const n))) (hfs : ∀ f ∈ fs, Defined σ f)
    (hvalue : (fs.map (value σ)).prod = value σ b) :
    Denotes σ (.power (.productOf (fs.filter p)) (.const n))
      (((fs.filter p).map (value σ)).prod ^ n.num) := by
  have hrest := denotes_productOf_filter (p := p) hfs
  cases hd with
  | binary hop _ _ => cases hop
  | power _ hn h0 hneg =>
    refine ⟨.power hrest.defined hn h0 fun hlt hzero => hneg hlt ?_, ?_⟩
    · rw [hrest.value_eq] at hzero
      rw [← hvalue, ← ((List.filter_append_perm p fs).map _).prod_eq, List.map_append,
        List.prod_append, hzero, zero_mul]
    · rw [value_power, hrest.value_eq]

/-- **One reduction is sound if its visits are.** -/
theorem Reduces.represents (hW : IsLinear W)
    (hvisit : ∀ g s, IsRational g → Defined ρ g → visit g = .ok s → Represents W ρ x g s)
    (hleaf : ∀ g s, leaf g = .ok s → Represents W ρ x g s)
    (h : Reduces ctx (constantIn x) visit leaf e r) (he : IsRational e) (hd : Defined ρ e) :
    Represents W ρ x e r := by
  cases h with
  | leaf h => exact hleaf e r h
  | @sum ts rs h =>
    refine represents_sum hW (((List.forall₂_and_left _ _).mpr ⟨fun t ht => ht, h⟩).imp ?_)
    exact fun t r ht => hvisit t r (he.of_terms t ht.1) (hd.of_terms t ht.1) ht.2
  | @product fs s h =>
    have hrest : IsRational (.productOf (fs.filter fun f => !constantIn x f)) :=
      isRational_productOf fun f hf => he.of_factors f (List.mem_of_mem_filter hf)
    refine represents_product hW (fun c hc => hd.of_factors c (List.mem_of_mem_filter hc))
      (fun u v hv => ?_) (hvisit _ _ hrest (denotes_productOf_filter hd.of_factors).defined h)
    obtain ⟨hdu, rfl⟩ := (functionOf_eq_some_iff he).mp hv
    exact ⟨_, (functionOf_eq_some_iff hrest).mpr (denotes_productOf_filter hdu.of_factors),
      (prod_constants_mul fs u).trans (value_product fs).symm⟩
  | @power b n s h =>
    cases he with
    | @power _ n hb hn h0 =>
      -- the factors have the value of the base, at `ρ` and wherever the power is defined
      have hfactors : ∀ {σ : String → Rat}, Defined σ (.power b (.const n)) →
          (∀ f ∈ (b.factor none ctx).factors, Defined σ f) ∧
            ((b.factor none ctx).factors.map (value σ)).prod = value σ b := by
        intro σ hd
        cases hd with
        | binary hop _ _ => cases hop
        | power hdb _ _ _ =>
          have hdenotes : Denotes σ (b.factor none ctx) (value σ b) :=
            Factorization.denotes_factorTo_none hdb
          exact ⟨hdenotes.defined.of_factors, (value_factors _).trans hdenotes.value_eq⟩
      have hpart : ∀ {σ : String → Rat} {p : Expr → Bool}, Defined σ (.power b (.const n)) →
          Denotes σ (.power (.productOf ((b.factor none ctx).factors.filter p)) (.const n))
            ((((b.factor none ctx).factors.filter p).map (value σ)).prod ^ n.num) := fun hd =>
        denotes_power_filter hd (hfactors hd).1 (hfactors hd).2
      have hrest : IsRational (.power (.productOf ((b.factor none ctx).factors.filter fun f =>
          !constantIn x f)) (.const n)) :=
        .power (isRational_productOf fun f hf =>
          (Factorization.isRational_factorTo hb).of_factors f (List.mem_of_mem_filter hf)) hn h0
      refine represents_product hW (List.forall_mem_singleton.mpr (hpart hd).defined)
        (fun u v hv => ?_) (hvisit _ _ hrest (hpart hd).defined h)
      obtain ⟨hdu, rfl⟩ := (functionOf_eq_some_iff (.power hb hn h0)).mp hv
      refine ⟨_, (functionOf_eq_some_iff hrest).mpr (hpart hdu), ?_⟩
      rw [List.map_singleton, List.prod_singleton, (hpart hd).value_eq, ← mul_zpow,
        prod_constants_mul, (hfactors hdu).2, value_power]

/-- **A run of reductions is sound**, by induction on the depth. -/
theorem represents_of_reduceTo (hW : IsLinear W) {depth : Nat} (he : IsRational e) (hd : Defined ρ e)
    (h : reduceTo ctx (constantIn x) (fun e => .ok (undefinedCall "W" [e])) depth e = .ok r) :
    Represents W ρ x e r := by
  induction depth generalizing e r with
  | zero => cases h
  | succ depth ih =>
    refine (reduces_of_reduce h).represents hW (fun g s hg hdg hs => ih hg hdg hs) ?_ he hd
    rintro g s hs
    cases hs
    exact represents_undefinedCall g

end LinearOperator

namespace Expr

open LinearOperator

/-- **Reductions by linearity are sound for every linear operator.** With each call `W[e]` that the
reduced form of `f` has left over read as the operator applied to the function that `e` denotes, the
form has the value of the operator applied to the function that `f` denotes, wherever `f` is defined.
An operator may have no value even where its argument has one, and then there is nothing to compare;
one that keeps what is defined has the same value as the form. -/
theorem interpret_linearForm {W : (Rat → Option Rat) → Rat → Option Rat} (hW : IsLinear W)
    {x : String} {f r : Expr} (hf : IsRational f) {ctx : Context}
    (h : f.linearForm (symbol x) ctx = .ok r) {ρ : String → Rat} (hd : Defined ρ f) :
    (∀ v, W (functionOf ρ x f) (ρ x) = some v → interpret W ρ x r = some v) ∧
      ((∀ F u, (F u).isSome → (W F u).isSome) →
        interpret W ρ x r = W (functionOf ρ x f) (ρ x)) := by
  have hrepresents : Represents W ρ x f r := represents_of_reduceTo hW hf hd h
  refine ⟨hrepresents, fun hkeeps => ?_⟩
  have hvalue : functionOf ρ x f (ρ x) = some (value ρ f) := by
    rw [functionOf_eq_some_iff hf, Function.update_eq_self]
    exact ⟨hd, rfl⟩
  obtain ⟨v, hv⟩ := Option.isSome_iff_exists.mp
    (hkeeps (functionOf ρ x f) (ρ x) (hvalue ▸ rfl))
  rw [hv, hrepresents v hv]

theorem isLinear_mul_self : IsLinear fun F u => (F u).map (u * ·) where
  map_add F G := by
    funext u
    dsimp only
    cases F u <;> cases G u <;> simp [mul_add]
  map_mul c F := by
    funext u
    dsimp only
    cases F u <;> simp [mul_left_comm]

/-- Multiplication by the variable, on `(a*x)^2 + x` at `a = 3` and `x = 2`: the reduced form is
`a^2 * W[x^2] + W[x]`. -/
theorem interpret_linearForm_scaledSquare :
    let f := sum [power (product [symbol "a", symbol "x"]) (int 2), symbol "x"]
    let r := sum [product [power (symbol "a") (int 2),
      undefinedCall "W" [power (symbol "x") (int 2)]], undefinedCall "W" [symbol "x"]]
    f.linearForm (symbol "x") (.inert .standard) = .ok r ∧
      interpret (fun F u => (F u).map (u * ·)) (fun n => if n = "a" then 3 else 2) "x" r =
        some 76 := by
  intro f r
  have hr : f.linearForm (symbol "x") (.inert .standard) = .ok r := by
    unfold r
    cbv
  have hf : IsRational f := .sum (forall_mem_pair
    (.power (.product (forall_mem_pair (.var "a") (.var "x"))) rfl (by norm_num)) (.var "x"))
  have hd : Defined (fun n => if n = "a" then 3 else 2) f := .sum (forall_mem_pair
    (.power (.product (forall_mem_pair (.var "a" none) (.var "x" none))) rfl (by norm_num)
      (by norm_num)) (.var "x" none))
  obtain ⟨-, hsame⟩ := interpret_linearForm isLinear_mul_self hf hr hd
  exact ⟨hr, (hsame fun F u h => by rwa [Option.isSome_map]).trans (by decide +kernel)⟩

/-- The operator that adds up the values at `0` and `1` has no value on `(x^-1 - x^-1 + x*y)^2`, but
its reduced form `y^2 * W[x^2]` has one. -/
example :
    let W : (Rat → Option Rat) → Rat → Option Rat := fun F _ => Option.map₂ (· + ·) (F 0) (F 1)
    let f := power (sum [inverse (symbol "x"), product [const (-1), inverse (symbol "x")],
      product [symbol "x", symbol "y"]]) (int 2)
    let r := product [power (symbol "y") (int 2), undefinedCall "W" [power (symbol "x") (int 2)]]
    f.linearForm (symbol "x") (.inert .standard) = .ok r ∧
      W (functionOf (fun _ => 1) "x" f) 1 = none ∧ interpret W (fun _ => 1) "x" r = some 1 :=
  ⟨by cbv, by decide +kernel, by decide +kernel⟩

end Expr

end SymbolicAlgebra
