import Mathlib.Algebra.Module.Submodule.Lattice
import SymbolicAlgebra.Proofs.Monomials

/-!
# Evaluating an evaluated form again

An evaluation looks at a node once, with operands that are evaluated already. What it builds there is
mostly final: relations and connectives whose truth is known are gone, and so are powers of `1` and
powers with the exponent `0` or `1` (`throughout_resolved_evaluated`). It is not final where operands
that were evaluated apart come to stand side by side. Such nodes are `Pending`; where the evaluated
form has none, evaluating it again changes nothing.

Results:
* `throughout_resolved_evaluated`: what every evaluation settles, throughout the evaluated form.
* `evaluated_eq_self`: an expression that is resolved and has no pending node is its evaluated form.
* `throughout_notPending_evaluated`: relations between combinations of monomials leave none.
* `evaluate_evaluate`: evaluation is idempotent unless it leaves a pending node.
-/

namespace SymbolicAlgebra.Evaluator

open Expr

/-! ## Parts of an expression -/

/-- The operands of an expression. -/
inductive Operand : Expr → Expr → Prop
  | term {t : Expr} {ts : List Expr} : t ∈ ts → Operand t (.sum ts)
  | factor {f : Expr} {fs : List Expr} : f ∈ fs → Operand f (.product fs)
  | left {op : BinaryOp} {l r : Expr} : Operand l (.binary op l r)
  | right {op : BinaryOp} {l r : Expr} : Operand r (.binary op l r)
  | negated {a : Expr} : Operand a (.not a)
  | member {m : Expr} {ms : List Expr} : m ∈ ms → Operand m (.set ms)

/-- `P` holds of an expression and of all its parts. -/
def Throughout (P : Expr → Prop) (e : Expr) : Prop :=
  ∀ c, Relation.ReflTransGen Operand c e → P c

section Throughout

variable {P : Expr → Prop}

theorem Throughout.self {e : Expr} (h : Throughout P e) : P e :=
  h e .refl

theorem Throughout.of_operand {c e : Expr} (h : Throughout P e) (hc : Operand c e) :
    Throughout P c :=
  fun d hd => h d (hd.tail hc)

theorem throughout_of {e : Expr} (h : P e) (hc : ∀ c, Operand c e → Throughout P c) :
    Throughout P e := by
  intro d hd
  obtain rfl | ⟨c, hdc, hce⟩ := Relation.ReflTransGen.cases_tail hd
  · exact h
  · exact hc c hce d hdc

theorem throughout_const {q : Rat} (h : P (.const q)) : Throughout P (.const q) :=
  throughout_of h fun _ hc => by cases hc

theorem throughout_power {b x : Expr} (h : P (Expr.power b x)) (hb : Throughout P b)
    (hx : Throughout P x) : Throughout P (Expr.power b x) :=
  throughout_of h fun _ hc => by
    cases hc with
    | left => exact hb
    | right => exact hx

theorem Throughout.of_terms {e : Expr} (h : Throughout P e) : ∀ t ∈ e.terms, Throughout P t :=
  forall_mem_terms h fun _ h _ ht => h.of_operand (.term ht)

theorem Throughout.of_factors {e : Expr} (h : Throughout P e) :
    ∀ f ∈ e.factors, Throughout P f :=
  forall_mem_factors h fun _ h _ hf => h.of_operand (.factor hf)

/-! ### What the constructors make of it -/

variable (hconst : ∀ q, P (.const q)) (hproduct : ∀ fs, P (.product fs))

include hproduct in
theorem throughout_of_factors {e : Expr} (h : ∀ f ∈ e.factors, Throughout P f) :
    Throughout P e := by
  cases hp : e.isProduct
  · exact h e (by rw [factors_eq_self hp]; exact List.mem_cons_self)
  · obtain ⟨fs, rfl⟩ := exists_of_isProduct hp
    exact throughout_of (hproduct fs) fun c hc => by
      cases hc with
      | factor hf => exact h c hf

include hconst hproduct

theorem throughout_productOf {xs : List Expr} (hc : ∀ x ∈ xs, Expr.Canonical x)
    (h : ∀ x ∈ xs, Throughout P x) : Throughout P (productOf xs) := by
  refine throughout_of_factors hproduct fun f hf => ?_
  obtain hq | ⟨-, x, hx, hfx⟩ := mem_factors_productOf hc hf
  · obtain ⟨q, rfl⟩ := exists_of_isConst hq
    exact throughout_const (hconst q)
  · exact (h x hx).of_factors f hfx

theorem throughout_scaled {q : Rat} {t : Expr} (hc : Expr.Canonical t) (h : Throughout P t) :
    Throughout P (scaled q t) := by
  rw [scaled]
  split
  · exact h
  · exact throughout_productOf hconst hproduct
      (List.forall_mem_cons.mpr ⟨.const q, List.forall_mem_singleton.mpr hc⟩)
      (List.forall_mem_cons.mpr ⟨throughout_const (hconst q), List.forall_mem_singleton.mpr h⟩)

theorem throughout_splitCoefficient {t : Expr} (hc : Expr.Canonical t) (h : Throughout P t) :
    Throughout P (splitCoefficient t).2 := by
  unfold splitCoefficient
  cases htake : takeConst t.factors with
  | none => exact h
  | some p =>
    obtain ⟨q, rest⟩ := p
    have hmem (f : Expr) (hf : f ∈ rest) : f ∈ t.factors :=
      (takeConst_some htake).mem_iff.mpr (List.mem_cons_of_mem _ hf)
    exact throughout_productOf hconst hproduct (fun f hf => hc.of_factors f (hmem f hf))
      fun f hf => h.of_factors f (hmem f hf)

/-- The like terms of a list are parts of its terms. -/
theorem throughout_likeTerms {ts : List Expr} (hc : ∀ t ∈ ts, Expr.Canonical t)
    (h : ∀ t ∈ ts, Throughout P t) {p : Expr × Rat} (hp : p ∈ likeTerms ts) :
    Throughout P p.1 := by
  obtain ⟨s, hs, heq⟩ := List.mem_map.mp ((mem_likeTerms hc (k := p.1) (q := p.2)).mp hp).1
  obtain ⟨t, ht, rfl⟩ := List.mem_map.mp hs
  have hmem := (mem_others.mp ht).1
  rw [← heq]
  exact throughout_splitCoefficient hconst hproduct (hc t hmem) (h t hmem)

theorem throughout_terms_collect {ts : List Expr} (hc : ∀ t ∈ ts, Expr.Canonical t)
    (h : ∀ t ∈ ts, Throughout P t) : ∀ u ∈ (collect ts).terms, Throughout P u := by
  intro u hu
  obtain hq | ⟨-, p, hp, hup⟩ := mem_terms_collect hc hu
  · obtain ⟨q, rfl⟩ := exists_of_isConst hq
    exact throughout_const (hconst q)
  · have hmonic := (monic_likeTerms hc (k := p.1) (q := p.2) hp).canonical
    exact (throughout_scaled hconst hproduct hmonic
      (throughout_likeTerms hconst hproduct hc h hp)).of_terms u hup

end Throughout

/-! ## What every evaluation settles -/

/-- Nothing is left to decide at the node `e`. -/
def Resolved : Expr → Prop
  | .binary .power b x => b.isOne = false ∧ x.isZero = false ∧ x.isOne = false
  | .binary op l r => decide? op l r = none
  | .not a => a.isTrue = false ∧ a.isZero = false
  | _ => True

theorem throughout_resolved_const (q : Rat) : Throughout Resolved (.const q) :=
  throughout_const trivial

theorem throughout_resolved_of_terms {e : Expr} (h : ∀ t ∈ e.terms, Throughout Resolved t) :
    Throughout Resolved e := by
  cases hs : e.isSum
  · exact h e (by rw [terms_eq_self hs]; exact List.mem_cons_self)
  · obtain ⟨ts, rfl⟩ := exists_of_isSum hs
    exact throughout_of trivial fun c hc => by
      cases hc with
      | term ht => exact h c ht

theorem throughout_resolved_productOf {xs : List Expr} (hc : ∀ x ∈ xs, Expr.Canonical x)
    (h : ∀ x ∈ xs, Throughout Resolved x) : Throughout Resolved (productOf xs) :=
  throughout_productOf (fun _ => trivial) (fun _ => trivial) hc h

theorem throughout_resolved_collect {ts : List Expr} (hc : ∀ t ∈ ts, Expr.Canonical t)
    (h : ∀ t ∈ ts, Throughout Resolved t) : Throughout Resolved (collect ts) :=
  throughout_resolved_of_terms
    (throughout_terms_collect (fun _ => trivial) (fun _ => trivial) hc h)

theorem throughout_resolved_flatMap_terms {xs : List Expr} {v : Expr → Expr}
    (hc : ∀ x ∈ xs, Expr.Canonical (v x)) (h : ∀ x ∈ xs, Throughout Resolved (v x)) :
    Throughout Resolved (collect (xs.flatMap fun x => (v x).terms)) := by
  refine throughout_resolved_collect (fun t ht => ?_) fun t ht => ?_ <;>
    obtain ⟨x, hx, ht⟩ := List.mem_flatMap.mp ht
  · exact (hc x hx).of_terms t ht
  · exact (h x hx).of_terms t ht

theorem throughout_resolved_simplePower {b x : Expr} (hb : Throughout Resolved b)
    (hx : Throughout Resolved x) : Throughout Resolved (simplePower b x) := by
  obtain ⟨q, hq⟩ | ⟨-, hb'⟩ | ⟨hpow, -, hone, hzero, hone', -⟩ := simplePower_cases b x
  · rw [hq]
    exact throughout_resolved_const q
  · rw [hb']
    exact hb
  · rw [hpow]
    exact throughout_power ⟨hone, hzero, hone'⟩ hb hx

/-! ### Products -/

/-- The bases of a product are resolved, and none of them is `1`. -/
def Bases.Resolved (b : Bases) : Prop :=
  ∀ k ∈ Tally.keys b.exponents.entries, Throughout Evaluator.Resolved k ∧ k.isOne = false

theorem throughout_resolved_splitExponent {f : Expr} (hf : f.isConst = false)
    (h : Throughout Resolved f) :
    Throughout Resolved (splitExponent f).1 ∧ (splitExponent f).1.isOne = false := by
  unfold splitExponent
  split
  · exact ⟨h.of_operand .left, h.self.1⟩
  · refine ⟨h, ?_⟩
    cases f with
    | const q => cases hf
    | _ => rfl

theorem Bases.resolved_ofFactors {fs : List Expr} (hc : ∀ f ∈ fs, Expr.Canonical f)
    (h : ∀ f ∈ fs, Throughout Evaluator.Resolved f) : (Bases.ofFactors fs).Resolved := by
  intro k hk
  rw [Bases.ofFactors_eq, Tally.mem_keys_ofList (canonical_keys_exponentsOf hc)] at hk
  obtain ⟨p, hp, rfl⟩ := List.mem_map.mp hk
  obtain ⟨f, hf, rfl⟩ := List.mem_map.mp hp
  obtain ⟨hmem, hconst⟩ := mem_others.mp hf
  exact throughout_resolved_splitExponent hconst (h f hmem)

theorem throughout_resolved_raised {k : Expr} {x : Rat} (hk : Throughout Resolved k)
    (hone : k.isOne = false) (hx : x ≠ 0) : Throughout Resolved (raised k x) := by
  unfold raised
  split
  · exact hk
  · next h1 =>
    refine throughout_power ⟨hone, ?_, ?_⟩ hk (throughout_resolved_const x)
    · exact Bool.eq_false_iff.mpr fun h => hx (beq_iff_eq.mp h)
    · exact Bool.eq_false_iff.mpr fun h => h1 (beq_iff_eq.mp h)

theorem Bases.Resolved.product {b : Bases} (hc : b.Canonical) (h : b.Resolved) :
    Throughout Evaluator.Resolved b.product := by
  rw [Bases.product_eq]
  refine throughout_resolved_productOf (List.forall_mem_cons.mpr ⟨.const _, hc.powers⟩)
    (List.forall_mem_cons.mpr ⟨throughout_resolved_const _, fun f hf => ?_⟩)
  obtain ⟨p, hp, rfl⟩ := List.mem_map.mp hf
  obtain ⟨hmem, hne⟩ := List.mem_filter.mp hp
  obtain ⟨hk, hone⟩ := h p.1 (List.mem_map_of_mem hmem)
  exact throughout_resolved_raised hk hone (by simpa using hne)

/-- A base that has become `1` is not kept. -/
theorem Bases.replace_one {b : Bases} {base : Expr} {x : Rat} (hx : x = 1 ∨ x = -1) :
    b.replace base x (.const 1) = ⟨1, b.exponents.erase base⟩ := by
  have hpow : Rational.pow? 1 x = some 1 := by
    rcases hx with rfl | rfl <;> decide +kernel
  rw [replace, hpow]

theorem Bases.Resolved.replace {b : Bases} {base d : Expr} {x : Rat} (hc : b.Canonical)
    (hd : Expr.Canonical d) (h : b.Resolved) (hres : Throughout Evaluator.Resolved d)
    (hx : x = 1 ∨ x = -1) : (b.replace base x d).Resolved := by
  intro k hk
  cases hone : d.isOne
  · rcases Bases.mem_keys_replace hc hd hk with rfl | hk
    · exact ⟨hres, hone⟩
    · exact h k hk
  · rw [eq_const_of_isOne hone, Bases.replace_one hx] at hk
    obtain ⟨p, hp, rfl⟩ := List.mem_map.mp hk
    exact h p.1 (List.mem_map_of_mem (mem_entries_erase.mp hp).1)

theorem throughout_resolved_productStep {v : Expr → Expr} {fs : List Expr}
    (hc : ∀ f ∈ fs, Expr.Canonical (v f)) (h : ∀ f ∈ fs, Throughout Resolved (v f))
    (hs : ∀ base x scale, (visitedBases v fs).absorber? = some (base, x, scale) →
      ∀ t ∈ base.terms, Expr.Canonical (v (productOf [.const scale, t])) ∧
        Throughout Resolved (v (productOf [.const scale, t]))) :
    Throughout Resolved (productStep v fs) := by
  have hflat : ∀ g ∈ (fs.map v).flatMap factors, Expr.Canonical g ∧ Throughout Resolved g := by
    intro g hg
    obtain ⟨r, hr, hgr⟩ := List.mem_flatMap.mp hg
    obtain ⟨f, hf, rfl⟩ := List.mem_map.mp hr
    exact ⟨(hc f hf).of_factors g hgr, (h f hf).of_factors g hgr⟩
  have hcanon : (visitedBases v fs).Canonical := Bases.canonical_ofFactors fun g hg => (hflat g hg).1
  have hres : (visitedBases v fs).Resolved :=
    Bases.resolved_ofFactors (fun g hg => (hflat g hg).1) fun g hg => (hflat g hg).2
  unfold productStep
  split
  · exact throughout_resolved_const 0
  · unfold Bases.absorbed
    split
    · exact hres.product hcanon
    · split
      · exact hres.product hcanon
      · next base x scale habs =>
        obtain ⟨-, -, hx⟩ := Bases.absorber?_eq_some habs
        have hterm := hs base x scale habs
        have hd : Expr.Canonical (scaledSum v scale base) :=
          canonical_scaledSum fun t ht => (hterm t ht).1
        have hdres : Throughout Resolved (scaledSum v scale base) :=
          throughout_resolved_flatMap_terms (fun t ht => (hterm t ht).1) fun t ht => (hterm t ht).2
        exact (hres.replace hcanon hd hdres (hx.imp And.left And.left)).product
          (hcanon.replace hd)

/-! ### The whole evaluation -/

theorem throughout_resolved_boolean (t : Bool) : Throughout Resolved (.boolean t) := by
  cases t
  · exact throughout_resolved_const 0
  · exact throughout_resolved_const 1

theorem throughout_resolved_powerStep {v : Expr → Expr} {b x : Expr}
    (h : ∀ e, SubVisit v e (Expr.power b x) → Throughout Resolved (v e)) :
    Throughout Resolved (powerStep v b x) := by
  have hb := h b .left
  have hx := h x .right
  unfold powerStep
  split
  · next fs heq => exact h _ (.distributed heq)
  · next b' x' heq =>
    rw [heq] at hb
    exact throughout_resolved_simplePower (hb.of_operand .left) (h _ (.exponents heq))
  · exact throughout_resolved_simplePower hb hx

theorem resolved_binary {op : BinaryOp} {l r : Expr} (hop : op ≠ .power)
    (h : decide? op l r = none) : Resolved (.binary op l r) := by
  cases op <;> first | exact absurd rfl hop | exact h

/-- **What every evaluation settles**: in the evaluated form nothing is left to decide. -/
theorem throughout_resolved_evaluated {f : Expr} (hf : Expr.Canonical f) :
    Throughout Resolved (evaluated f) := by
  refine evaluated_induction (motive := fun f => Throughout Resolved (evaluated f))
    (fun f hf ih => ?_) hf
  have hcanon := fun e (h : SubVisit evaluated e f) =>
    canonical_evaluated (h.lower_evaluated hf).1
  cases hf with
  | const q => exact throughout_resolved_const q
  | var n => exact throughout_of trivial fun c hc => by cases hc
  | @sum ts hts heq =>
    rw [evaluated_sum (.sum hts heq), List.flatMap_map]
    exact throughout_resolved_flatMap_terms (fun t ht => hcanon t (.term ht))
      fun t ht => ih t (.term ht)
  | @product fs hfs heq =>
    rw [evaluated_product (.product hfs heq)]
    exact throughout_resolved_productStep (fun f hf => hcanon f (.factor hf))
      (fun f hf => ih f (.factor hf)) fun base x scale habs t ht =>
        ⟨hcanon _ (.scaledTerm habs ht), ih _ (.scaledTerm habs ht)⟩
  | @binary op l r hsub hl hr =>
    by_cases hop : op = .power
    · subst hop
      rw [← Expr.power, evaluated_power (.binary hsub hl hr)]
      exact throughout_resolved_powerStep ih
    · rw [evaluated_binary hop (.binary hsub hl hr), binaryStep]
      split
      · exact throughout_resolved_boolean _
      · next hnone =>
        refine throughout_of (resolved_binary hop hnone) fun c hc => ?_
        cases hc with
        | left => exact ih l .left
        | right => exact ih r .right
  | @not a ha =>
    rw [evaluated_not (.not ha), notStep]
    split
    · exact throughout_resolved_boolean _
    · split
      · exact throughout_resolved_boolean _
      · next htrue hzero =>
        refine throughout_of ⟨by simpa using htrue, by simpa using hzero⟩ fun c hc => ?_
        cases hc with
        | negated => exact ih a .operand
  | @set ms hms heq =>
    rw [evaluated_set (.set hms heq)]
    refine throughout_of trivial fun c hc => ?_
    cases hc with
    | member hm =>
      have hmem := mem_sort.mp ((dropRepeats_sublist _).subset hm)
      obtain ⟨a, ha, rfl⟩ := List.mem_map.mp hmem
      exact ih a (.member ha)

/-! ## What an evaluation may leave -/

/-- A node that the next evaluation looks at again: operands that were evaluated apart have come to
stand side by side. -/
inductive Pending : Expr → Prop
  /-- Two terms are multiples of the same expression. -/
  | likeTerms {ts : List Expr} : ¬ (Tally.keys (splits ts)).Nodup → Pending (.sum ts)
  /-- Two factors are powers of the same base. -/
  | likeBases {fs : List Expr} : ¬ (Tally.keys (exponentsOf fs)).Nodup → Pending (.product fs)
  /-- A constant stands beside a sum, or the reciprocal of a sum, that takes it over. -/
  | constantBesideSum {fs : List Expr} {q : Rat} {s : Expr} : .const q ∈ fs → s.isSum = true →
    s ∈ fs ∨ Expr.power s (.const (-1)) ∈ fs → Pending (.product fs)
  /-- The power of a product is the product of the powers. -/
  | powerOfProduct {fs : List Expr} {x : Expr} : Pending (Expr.power (.product fs) x)
  /-- The exponents of a power of a power are multiplied. -/
  | powerOfPower {b x y : Expr} : Pending (Expr.power (Expr.power b x) y)
  /-- A power of `0`. -/
  | powerOfZero {x : Expr} : Pending (Expr.power (.const 0) x)
  /-- A power of constants that has a value. -/
  | powerOfConst {p n value : Rat} : Rational.pow? p n = some value →
    Pending (Expr.power (.const p) (.const n))

/-- A power that is neither pending nor anything that an evaluation settles stays as it is. -/
theorem powerStep_eq_self {v : Expr → Expr} {b x : Expr} (hb : v b = b) (hx : v x = x)
    (hres : Resolved (Expr.power b x)) (hpend : ¬ Pending (Expr.power b x)) :
    powerStep v b x = Expr.power b x := by
  obtain ⟨hone, hxzero, hxone⟩ := hres
  unfold powerStep
  rw [hb, hx]
  split
  · exact absurd .powerOfProduct hpend
  · exact absurd .powerOfPower hpend
  · have hzero : b.isZero = false :=
      Bool.eq_false_iff.mpr fun h => hpend (eq_const_of_isZero h ▸ .powerOfZero)
    unfold simplePower
    rw [hzero, hone, hxzero, hxone]
    simp only [Bool.false_eq_true, if_false]
    split
    · next p n =>
      split
      · next value hpow => exact absurd (.powerOfConst hpow) hpend
      · rfl
    · rfl

theorem map_eq_self {v : Expr → Expr} {xs : List Expr} (hv : ∀ x ∈ xs, v x = x) :
    xs.map v = xs :=
  (List.map_congr_left hv).trans xs.map_id'

/-- A sum without like terms stays as it is. -/
theorem sumStep_eq_self {v : Expr → Expr} {ts : List Expr} (hc : Expr.Canonical (.sum ts))
    (hv : ∀ t ∈ ts, v t = t) (hpend : ¬ Pending (.sum ts)) : sumStep v ts = .sum ts := by
  have hnodup : (Tally.keys (splits ts)).Nodup := by
    by_contra h
    exact hpend (.likeTerms h)
  have hflat : ∀ t ∈ ts, t.isSum = false := hc.flat_terms
  rw [sumStep, map_eq_self hv, flatMap_terms_eq_self hflat, collect_of_nodup hc.of_sum hnodup]
  exact hc.sumOf_terms

theorem raised_splitExponent {f : Expr} (hf : f.isConst = false) (hres : Resolved f) :
    raised (splitExponent f).1 (splitExponent f).2 = f ∧ (splitExponent f).2 ≠ 0 := by
  unfold splitExponent
  split
  · next b x =>
    obtain ⟨-, hzero, hone⟩ := hres
    have h1 : x ≠ 1 := fun h => Bool.eq_false_iff.mp hone (beq_iff_eq.mpr h)
    exact ⟨if_neg h1, fun h => Bool.eq_false_iff.mp hzero (beq_iff_eq.mpr h)⟩
  · exact ⟨if_pos rfl, one_ne_zero⟩

/-- The sum that takes over the constant of a product stands beside it. -/
theorem absorber?_ofFactors_eq_none {fs : List Expr} (hc : Expr.Canonical (.product fs))
    (hres : ∀ f ∈ fs, Resolved f) (hpend : ¬ Pending (.product fs))
    (h1 : (Bases.ofFactors fs).constant ≠ 1) : (Bases.ofFactors fs).absorber? = none := by
  by_contra hne
  obtain ⟨⟨base, x, scale⟩, habs⟩ := Option.ne_none_iff_exists'.mp hne
  obtain ⟨hmem, hsum, hx⟩ := Bases.absorber?_eq_some habs
  rw [Bases.ofFactors_eq] at h1 hmem
  have hconst : ∃ q, Expr.const q ∈ fs := by
    by_contra hnone
    push Not at hnone
    refine h1 ?_
    rw [List.eq_nil_iff_forall_not_mem.mpr fun q hq => hnone q (mem_constants.mp hq)]
    rfl
  obtain ⟨q, hq⟩ := hconst
  have hnodup : (Tally.keys (exponentsOf fs)).Nodup := by
    by_contra h
    exact hpend (.likeBases h)
  have hentries :=
    (Tally.ofList_perm_of_nodup (canonical_keys_exponentsOf hc.of_product) hnodup).mem_iff.mp hmem
  obtain ⟨f, hf, hsplit⟩ := List.mem_map.mp hentries
  obtain ⟨hff, hfc⟩ := mem_others.mp hf
  have hself := (raised_splitExponent hfc (hres f hff)).1
  rw [hsplit] at hself
  refine hpend (.constantBesideSum hq hsum ?_)
  rcases hx with ⟨rfl, -⟩ | ⟨rfl, -⟩
  · exact .inl (by rwa [← hself] at hff)
  · exact .inr (by rwa [← hself] at hff)

/-- A product with distinct bases and without a constant that a sum takes over stays as it is. -/
theorem productStep_eq_self {v : Expr → Expr} {fs : List Expr} (hc : Expr.Canonical (.product fs))
    (hv : ∀ f ∈ fs, v f = f) (hres : ∀ f ∈ fs, Resolved f) (hpend : ¬ Pending (.product fs)) :
    productStep v fs = .product fs := by
  have hnodup : (Tally.keys (exponentsOf fs)).Nodup := by
    by_contra h
    exact hpend (.likeBases h)
  have hflat : ∀ f ∈ fs, f.isProduct = false := hc.flat_factors
  have hbases : visitedBases v fs = Bases.ofFactors fs := by
    rw [visitedBases, map_eq_self hv, flatMap_factors_eq_self hflat]
  have hconstant : (Bases.ofFactors fs).constant = (constants fs).prod := by
    rw [Bases.ofFactors_eq]
  have habsorbed : (Bases.ofFactors fs).absorbed v = Bases.ofFactors fs := by
    unfold Bases.absorbed
    split
    · rfl
    · next h1 => rw [absorber?_ofFactors_eq_none hc hres hpend h1]
  have hprod : (constants fs).prod ≠ 0 := by
    have h0 := (arranged_of_productOf (show productOf fs = product fs from hc.productOf_factors)).1
    rwa [flatMap_factors_eq_self hflat] at h0
  have hself : ∀ f ∈ others fs,
      raised (splitExponent f).1 (splitExponent f).2 = f ∧ (splitExponent f).2 ≠ 0 := fun f hf =>
    raised_splitExponent (mem_others.mp hf).2 (hres f (mem_others.mp hf).1)
  rw [productStep, hbases, hconstant, if_neg hprod, habsorbed]
  have hproduct := Bases.product_ofFactors hc
  rw [factors_product] at hproduct
  exact hproduct hself hnodup

/-- **An expression that is resolved and has no pending node is its evaluated form.** -/
theorem evaluated_eq_self {e : Expr} (hc : Expr.Canonical e) (hres : Throughout Resolved e)
    (hpend : Throughout (fun c => ¬ Pending c) e) : evaluated e = e := by
  have operand {c e : Expr} (ih : Throughout Resolved c → Throughout (fun d => ¬ Pending d) c →
      evaluated c = c) (hres : Throughout Resolved e) (hpend : Throughout (fun d => ¬ Pending d) e)
      (hce : Operand c e) : evaluated c = c :=
    ih (hres.of_operand hce) (hpend.of_operand hce)
  induction hc with
  | const q => rfl
  | var n => rfl
  | @sum ts hts heq ih =>
    have hc : Expr.Canonical (.sum ts) := .sum hts heq
    rw [evaluated_sum hc]
    exact sumStep_eq_self hc (fun t ht => operand (ih t ht) hres hpend (.term ht)) hpend.self
  | @product fs hfs heq ih =>
    have hc : Expr.Canonical (.product fs) := .product hfs heq
    rw [evaluated_product hc]
    exact productStep_eq_self hc (fun f hf => operand (ih f hf) hres hpend (.factor hf))
      (fun f hf => (hres.of_operand (.factor hf)).self) hpend.self
  | @binary op l r hsub hl hr ihl ihr =>
    have hl' := operand ihl hres hpend .left
    have hr' := operand ihr hres hpend .right
    by_cases hop : op = .power
    · subst hop
      rw [← Expr.power, evaluated_power (.binary hsub hl hr)]
      exact powerStep_eq_self hl' hr' hres.self hpend.self
    · have hnone : decide? op l r = none := by
        have hself := hres.self
        cases op <;> first | exact absurd rfl hop | exact hself
      rw [evaluated_binary hop (.binary hsub hl hr), binaryStep, hl', hr', hnone]
  | @not a ha ih =>
    obtain ⟨htrue, hzero⟩ := hres.self
    rw [evaluated_not (.not ha), notStep, operand ih hres hpend .negated, htrue, hzero]
    rfl
  | @set ms hms heq ih =>
    rw [evaluated_set (.set hms heq),
      map_eq_self fun m hm => operand (ih m hm) hres hpend (.member hm), heq]

/-! ## Expressions that leave nothing -/

/-- Relations and connectives between combinations of monomials, and sets of them. -/
inductive Formula : Expr → Prop
  | combination {e : Expr} : Combination e → Formula e
  | binary {op : BinaryOp} {l r : Expr} : op ≠ .power → Formula l → Formula r →
    Formula (.binary op l r)
  | not {a : Expr} : Formula a → Formula (.not a)
  | set {ms : List Expr} : (∀ m ∈ ms, Formula m) → Formula (.set ms)

theorem throughout_notPending_const (q : Rat) : Throughout (fun e => ¬ Pending e) (.const q) :=
  throughout_const fun h => by cases h

theorem throughout_notPending_symbol (x : String) :
    Throughout (fun e => ¬ Pending e) (symbol x) :=
  throughout_of (fun h => by cases h) fun _ hc => by cases hc

theorem IsLetter.throughout_notPending {f : Expr} (h : IsLetter f) :
    Throughout (fun e => ¬ Pending e) f := by
  obtain ⟨x, q, -, rfl⟩ := h
  obtain ⟨-, heq⟩ | ⟨-, heq⟩ := raised_cases (symbol x) q <;> rw [heq]
  · exact throughout_notPending_symbol x
  · exact throughout_power (fun h => by cases h) (throughout_notPending_symbol x)
      (throughout_notPending_const q)

theorem Normal.throughout_notPending {e : Expr} (h : Normal e) :
    Throughout (fun c => ¬ Pending c) e := by
  have hfactor (f : Expr) (hf : f ∈ e.factors) : Throughout (fun c => ¬ Pending c) f := by
    obtain ⟨q, rfl⟩ | hf := h.factor_cases hf
    · exact throughout_notPending_const q
    · exact hf.throughout_notPending
  cases hp : e.isProduct
  · exact hfactor e (by rw [factors_eq_self hp]; exact List.mem_cons_self)
  · obtain ⟨fs, rfl⟩ := exists_of_isProduct hp
    refine throughout_of (fun hpend => ?_) fun c hc => ?_
    · cases hpend with
      | likeBases hdup => exact hdup h.nodup
      | constantBesideSum _ hs hmem =>
        rcases hmem with hmem | hmem
        · obtain ⟨q, rfl⟩ | hletter := h.factor_cases hmem
          · cases hs
          · rw [hletter.isSum] at hs
            cases hs
        · obtain ⟨q, hq⟩ | ⟨x, q, -, heq⟩ := h.factor_cases hmem
          · cases hq
          · obtain ⟨-, hr⟩ | ⟨-, hr⟩ := raised_cases (symbol x) q <;> rw [hr] at heq <;> cases heq
            cases hs
    · cases hc with
      | factor hf => exact hfactor c hf

theorem Reduced.throughout_notPending {e : Expr} (h : Reduced e) :
    Throughout (fun c => ¬ Pending c) e := by
  cases hs : e.isSum
  · exact (h.normal hs).throughout_notPending
  · obtain ⟨ts, rfl⟩ := exists_of_isSum hs
    refine throughout_of (fun hpend => ?_) fun c hc => ?_
    · cases hpend with
      | likeTerms hdup => exact hdup h.nodup
    · cases hc with
      | term ht => exact (h.terms c ht).throughout_notPending

theorem not_pending_binary {op : BinaryOp} {l r : Expr} (hop : op ≠ .power) :
    ¬ Pending (.binary op l r) := by
  intro h
  cases op <;> first | exact hop rfl | cases h

theorem throughout_notPending_boolean (t : Bool) :
    Throughout (fun e => ¬ Pending e) (.boolean t) := by
  cases t
  · exact throughout_notPending_const 0
  · exact throughout_notPending_const 1

/-- **Formulas leave nothing pending.** -/
theorem throughout_notPending_evaluated {f : Expr} (h : Formula f) (hf : Expr.Canonical f) :
    Throughout (fun e => ¬ Pending e) (evaluated f) := by
  induction h with
  | combination h => exact (linear_of_combination h hf).reduced.throughout_notPending
  | @binary op l r hop _ _ ihl ihr =>
    obtain ⟨hl, hr⟩ := hf.of_binary
    rw [evaluated_binary hop hf, binaryStep]
    split
    · exact throughout_notPending_boolean _
    · refine throughout_of (not_pending_binary hop) fun c hc => ?_
      cases hc with
      | left => exact ihl hl
      | right => exact ihr hr
  | @not a _ ih =>
    have ha : Expr.Canonical a := by
      cases hf with
      | not ha => exact ha
    rw [evaluated_not hf, notStep]
    split
    · exact throughout_notPending_boolean _
    · split
      · exact throughout_notPending_boolean _
      · refine throughout_of (fun hpend => by cases hpend) fun c hc => ?_
        cases hc with
        | negated => exact ih ha
  | @set ms _ ih =>
    have hms : ∀ m ∈ ms, Expr.Canonical m := by
      cases hf with
      | set hms _ => exact hms
    rw [evaluated_set hf]
    refine throughout_of (fun hpend => by cases hpend) fun c hc => ?_
    cases hc with
    | member hm =>
      have hmem := mem_sort.mp ((dropRepeats_sublist _).subset hm)
      obtain ⟨a, ha, rfl⟩ := List.mem_map.mp hmem
      exact ih a ha (hms a ha)

end SymbolicAlgebra.Evaluator

namespace SymbolicAlgebra.Expr

open Evaluator

/-- **Evaluation is idempotent** unless the evaluated form has a pending node, and the evaluated forms
of relations between combinations of monomials have none. -/
theorem evaluate_evaluate {f : Expr} (hf : Canonical f) (ctx ctx' : Context) :
    (Throughout (fun e => ¬ Pending e) (f.evaluate ctx) →
      (f.evaluate ctx).evaluate ctx' = f.evaluate ctx) ∧
    (Formula f → Throughout (fun e => ¬ Pending e) (f.evaluate ctx)) := by
  rw [evaluate_eq hf]
  refine ⟨fun hpend => ?_, fun h => throughout_notPending_evaluated h hf⟩
  rw [evaluate_eq (canonical_evaluated hf)]
  exact evaluated_eq_self (canonical_evaluated hf) (throughout_resolved_evaluated hf) hpend

/-- `x * x < x ^ 2 + x ^ 2`. -/
theorem evaluate_evaluate_squares :
    let f := binary .less (product [symbol "x", symbol "x"])
      (.sum [power (symbol "x") (.const 2), power (symbol "x") (.const 2)])
    (f.evaluate (.inert .standard)).evaluate (.inert .standard) = f.evaluate (.inert .standard) := by
  intro f
  have hx : ∀ e ∈ [symbol "x", symbol "x"], Canonical e ∧ Monomial e :=
    List.forall_mem_cons.mpr ⟨⟨.var "x", .var "x"⟩,
      List.forall_mem_singleton.mpr ⟨.var "x", .var "x"⟩⟩
  have hsquare : Canonical (power (symbol "x") (.const 2)) ∧
      Combination (power (symbol "x") (.const 2)) :=
    ⟨Canonical.power (.var "x") (.const 2), .monomial (.root "x" 2)⟩
  have hsquares : ∀ e ∈ [power (symbol "x") (.const 2), power (symbol "x") (.const 2)],
      Canonical e ∧ Combination e :=
    List.forall_mem_cons.mpr ⟨hsquare, List.forall_mem_singleton.mpr hsquare⟩
  have hcanon : Canonical f :=
    .binary (by decide) (.product (fun e he => (hx e he).1) (by cbv))
      (.sum (fun e he => (hsquares e he).1) (by cbv))
  have hformula : Formula f :=
    .binary (by decide) (.combination (.monomial (.product fun e he => (hx e he).2)))
      (.combination (.sum fun e he => (hsquares e he).2))
  obtain ⟨hidempotent, hpending⟩ := evaluate_evaluate hcanon (.inert .standard) (.inert .standard)
  exact hidempotent (hpending hformula)

end SymbolicAlgebra.Expr
